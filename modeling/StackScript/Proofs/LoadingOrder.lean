import StackScript.Proofs.Caching
import StackScript.Proofs.DepthFirst
import StackScript.Session.EntryPoint

/-!
# The order of loading

A unit gets into the cache before its references are linked, and these are linked in order. So the
cache names what a depth-first search of the references comes to, in its order, also when references
go in circles (`depthFirst_course`). When every name that can come up has a unit, whatever was asked
for before, all names resolve and the depth of nested calls is bounded by the number of names
(`ok_course`); a greater depth changes nothing (`course_of_le`). A launch therefore loads the batch
in depth-first order and starts the first class of the batch, in this order, that a program can
start with (`launch_depth_first`).
-/

namespace StackScript.Loading

open StackScript.Code StackScript.Machine StackScript.Session

namespace Loader

variable {σ : Type} {source : Ambient σ} {loader before after : Loader σ}

/-! ## References of cached units -/

/-- The references of the unit that is cached under a name. -/
def referencesOf (loader : Loader σ) (name : String) : List String :=
  ((loader.cached? name).map LoadedUnit.references).getD []

/-- `next` has the references of every cached unit. -/
def Tells (loader : Loader σ) (next : String → List String) : Prop :=
  ∀ id name unit, loader.names[id]? = some name → loader.pool.unit? id = some unit →
    next name = unit.references

theorem Formed.cached?_eq (h : Formed loader) {id : UnitId} {name : String}
    (hname : loader.names[id]? = some name) : loader.cached? name = loader.pool.unit? id := by
  rw [cached?, (idOf?_eq_some_iff h.nodup).mpr hname, Option.bind_some]

theorem Formed.tells_referencesOf (h : Formed loader) : Tells loader loader.referencesOf := by
  intro id name unit hname hunit
  rw [referencesOf, h.cached?_eq hname, hunit]
  rfl

/-- Units keep their class, so what has the references later on has them before. -/
theorem Grows.tells (h : Grows before after) {next : String → List String}
    (hnext : Tells after next) : Tells before next := by
  intro id name unit hname hunit
  obtain ⟨later, hlater, hbody⟩ := h.body hunit
  rw [hnext id name later (h.getElem? hname) hlater, LoadedUnit.references, LoadedUnit.references,
    hbody]

/-! ## Names come in depth-first order -/

/-- The names that a course brings in, if it succeeds, are those that a depth-first search comes to
from the names that it is for. -/
def InDepthFirstOrder (loader : Loader σ) (names : List String) (course : Course σ) : Prop :=
  ∀ next id, course.answer = some (.ok id) → Tells (loader.changeAll course.changes) next →
    ∃ order, (loader.changeAll course.changes).names = loader.names ++ order ∧
      DepthFirst next loader.names names order

theorem depthFirst_linkCourse {courseOne : Loader σ → String → Course σ} {inside : UnitId}
    (hfinds : ∀ {loader : Loader σ}, Formed loader → ∀ name,
      Finds source loader name (courseOne loader name))
    (hone : ∀ {loader : Loader σ}, Formed loader → ∀ name,
      InDepthFirstOrder loader [name] (courseOne loader name))
    (references : List String) {loader : Loader σ} (h : Formed loader)
    (hinside : inside < loader.names.length) :
    InDepthFirstOrder loader references (linkCourse courseOne inside references loader) := by
  fun_induction linkCourse courseOne inside references loader with
  | case1 loader => exact fun next id _ _ => ⟨[], (List.append_nil _).symm, .done _⟩
  | case2 =>
    intro next id hid
    cases hid
  | case3 =>
    intro next id hid
    cases hid
  | case4 reference references loader changes target hcourse first rest ih =>
    intro next id hid htells
    have hlinked := (hcourse ▸ hfinds h reference).runs_linked h hinside
    have hnext := h.changeAll hlinked
    have hlt := Nat.lt_of_lt_of_le hinside (h.grows_changeAll hlinked).length_le
    have hrest := (runs_linkCourse hfinds references hnext hlt).1
    rw [changeAll_append] at htells ⊢
    -- the link itself brings no name in
    have hnames : (loader.changeAll first).names = (loader.changeAll changes).names := by
      rw [changeAll_append]
      rfl
    have hchanges := (hcourse ▸ hfinds h reference).runs
    have hgrows : Grows (loader.changeAll changes) (loader.changeAll first) := by
      rw [changeAll_append]
      exact (h.changeAll hchanges).grows_changeAll (hlinked.of_append).2
    have htold := (hgrows.trans (hnext.grows_changeAll hrest)).tells htells
    obtain ⟨order, horder, hvisit⟩ := (hcourse ▸ hone h reference) next target rfl htold
    obtain ⟨others, hothers, hmore⟩ := ih hnext hlt next id hid htells
    rw [hnames, horder] at hothers hmore
    exact ⟨order ++ others, by rw [hothers, List.append_assoc], hvisit.append hmore⟩

/-- Resolving a name caches what a depth-first search from it comes to, in its order. -/
theorem depthFirst_course (source : Ambient σ) (depth : Nat) {loader : Loader σ}
    (h : Formed loader) (name : String) :
    InDepthFirstOrder loader [name] (course source depth loader name) := by
  induction depth generalizing loader name with
  | zero =>
    intro next id hid
    cases hid
  | succ depth ih =>
    rcases course_cases source depth loader name with ⟨id, hid, hcourse⟩ |
      ⟨state, fault, hrefused, hcourse⟩ | ⟨unit, state, rest, hloaded, rfl, hcourse⟩ <;>
      rw [hcourse]
    · intro next other _ _
      have hcached := List.mem_of_getElem? ((idOf?_eq_some_iff h.nodup).mp hid)
      exact ⟨[], (List.append_nil _).symm, .again hcached (.done _)⟩
    · intro next id hid
      cases hid
    · intro next id hid htells
      have hnext := h.change hloaded
      have hlt := h.nextId_lt name unit state
      have hrest := (runs_linkCourse (finds_course source depth) unit.references hnext hlt).1
      rw [changeAll_cons] at htells ⊢
      obtain ⟨inner, hinner, hvisit⟩ :=
        depthFirst_linkCourse (finds_course source depth) (fun h => ih h) unit.references hnext hlt
          next id hid htells
      -- the unit that came in is the one whose references were linked
      have hreferences : next name = unit.references := by
        apply (hnext.grows_changeAll hrest).tells htells loader.pool.nextId name unit
        · exact h.getElem?_nextId name unit state
        · simp only [Loader.change, Loader.insert, unit?_add, if_true]
      have hnames : (loader.change (.loaded name unit state)).names = loader.names ++ [name] := rfl
      rw [hnames] at hinner hvisit
      refine ⟨name :: inner, ?_, ?_⟩
      · rw [hinner, List.append_assoc, List.singleton_append]
      · have hnew : name ∉ loader.names := by
          cases hloaded with
          | loaded hnew _ => exact hnew
        rw [← List.append_nil (name :: inner)]
        exact .enter hnew (hreferences ▸ hvisit) (.done _)

/-! ## A greater depth changes nothing -/

theorem linkCourse_congr {courseOne courseTwo : Loader σ → String → Course σ}
    (hsame : ∀ loader name, (courseOne loader name).answer.isSome →
      courseTwo loader name = courseOne loader name)
    (inside : UnitId) (references : List String) (loader : Loader σ)
    (hended : (linkCourse courseOne inside references loader).answer.isSome) :
    linkCourse courseTwo inside references loader
      = linkCourse courseOne inside references loader := by
  fun_induction linkCourse courseOne inside references loader with
  | case1 => rfl
  | case2 => cases hended
  | case3 reference references loader changes fault hcourse =>
    have htwo := hsame loader reference (by rw [hcourse]; rfl)
    rw [linkCourse, htwo, hcourse]
  | case4 reference references loader changes target hcourse first rest ih =>
    have htwo := hsame loader reference (by rw [hcourse]; rfl)
    have hrest : linkCourse courseTwo inside references (loader.changeAll first) = rest :=
      ih hended
    rw [linkCourse, htwo, hcourse]
    exact congrArg (fun course => Course.mk (first ++ course.changes) course.answer) hrest

/-- A call that ended takes the same course when it may go one deeper. -/
theorem course_succ (source : Ambient σ) (depth : Nat) (loader : Loader σ) (name : String)
    (hended : (course source depth loader name).answer.isSome) :
    course source (depth + 1) loader name = course source depth loader name := by
  induction depth generalizing loader name with
  | zero => cases hended
  | succ depth ih =>
    rw [course] at hended ⊢
    rw [course]
    cases hid : loader.idOf? name with
    | some id => rfl
    | none =>
      rw [hid] at hended
      rcases hmade : loader.materialise source name with ⟨next, fault | unit⟩
      · rfl
      · simp only [hmade] at hended
        simp only [linkCourse_congr (fun loader name h => ih loader name h) _ _ _ hended]

theorem course_of_le {depth more : Nat} (hle : depth ≤ more) {name : String}
    (hended : (course source depth loader name).answer.isSome) :
    course source more loader name = course source depth loader name := by
  induction hle with
  | refl => rfl
  | step _ ih => rw [course_succ source _ loader name (by rwa [ih]), ih]

end Loader

/-! ## When every name has a unit -/

variable {σ : Type} {source : Ambient σ} {batch : Batch} {ambient : σ} {known : List String}

/-- A state that the source can get into by being asked for names. -/
def Later (source : Ambient σ) : σ → σ → Prop :=
  Relation.ReflTransGen fun before after => ∃ name, (source before name).1 = after

/-- What a batch and its surroundings give for a name: the class of the batch, or else what the
source answers. -/
inductive Supplies (source : Ambient σ) (batch : Batch) (state : σ) (name : String) :
    LoadedUnit → Prop where
  | batch {product : Product} {file : ClassFile} (hproduct : batch.get? name = some product)
    (hfile : ClassFile.ofPayload product.bytes = .ok file) :
    Supplies source batch state name (.compiled file)
  | ambient {unit : LoadedUnit} (hnone : batch.get? name = none)
    (hunit : (source state name).2 = .ok unit) : Supplies source batch state name unit

/-- Every name of a finite set, which the batch and all references stay in, has a unit, whatever the
source was asked for before. References may go in circles. -/
structure Resolvable (source : Ambient σ) (batch : Batch) (ambient : σ) (known : List String) :
    Prop where
  names : ∀ product ∈ batch, product.name ∈ known
  units : ∀ state, Later source ambient state → ∀ name ∈ known, ∃ unit,
    Supplies source batch state name unit ∧ ∀ reference ∈ unit.references, reference ∈ known

/-- The loader has loaded names of the batch and its surroundings, each with a unit that these
give. -/
structure Drawn (source : Ambient σ) (batch : Batch) (ambient : σ) (loader : Loader σ) : Prop where
  formed : loader.Formed
  own : loader.batch = batch
  later : Later source ambient loader.ambient
  units : ∀ id name, loader.names[id]? = some name → ∃ unit state made,
    loader.pool.unit? id = some unit ∧ Later source ambient state ∧
      Supplies source batch state name made ∧ unit.body = made.body

namespace Loader

variable {loader next : Loader σ} {name : String}

/-- What comes of looking for a name is what the batch and its surroundings give. -/
theorem supplies_of_materialise {made : Except LoadFault LoadedUnit}
    (h : loader.materialise source name = (next, made)) :
    (next.ambient = loader.ambient ∨ next.ambient = (source loader.ambient name).1) ∧
      ∀ unit, Supplies source loader.batch loader.ambient name unit ↔ made = .ok unit := by
  rw [materialise] at h
  split at h
  · rename_i product hproduct
    split at h
    · rename_i file hfile
      cases h
      refine ⟨.inl rfl, fun unit => ⟨fun hsupplies => ?_, fun hmade => ?_⟩⟩
      · cases hsupplies with
        | batch hother hdecoded =>
          cases hproduct.symm.trans hother
          cases hfile.symm.trans hdecoded
          rfl
        | ambient hnone _ => cases hproduct.symm.trans hnone
      · cases hmade
        exact .batch hproduct hfile
    · rename_i cause hfile
      cases h
      refine ⟨.inl rfl, fun unit => ⟨fun hsupplies => ?_, fun hmade => nomatch hmade⟩⟩
      cases hsupplies with
      | batch hother hdecoded =>
        cases hproduct.symm.trans hother
        cases hfile.symm.trans hdecoded
      | ambient hnone _ => cases hproduct.symm.trans hnone
  · rename_i hnone
    cases h
    refine ⟨.inr rfl, fun unit => ⟨fun hsupplies => ?_, fun hmade => .ambient hnone hmade⟩⟩
    cases hsupplies with
    | batch hproduct _ => cases hnone.symm.trans hproduct
    | ambient _ hunit => exact hunit

end Loader

namespace Drawn

variable {loader : Loader σ}

theorem start (source : Ambient σ) (batch : Batch) (ambient : σ) :
    Drawn source batch ambient { batch, ambient } where
  formed := Loader.formed_start batch ambient
  own := rfl
  later := .refl
  units id name hname := by simp at hname

theorem later_of_asked {name : String} {next : Loader σ} {made : Except LoadFault LoadedUnit}
    (h : Drawn source batch ambient loader)
    (hmade : loader.materialise source name = (next, made)) :
    Later source ambient next.ambient := by
  rcases (Loader.supplies_of_materialise hmade).1 with hsame | hasked
  · exact hsame ▸ h.later
  · exact h.later.tail ⟨name, hasked.symm⟩

/-- Every change that a loader makes keeps what it has loaded drawn from the batch and its
surroundings. -/
theorem change {change : Change σ} (h : Drawn source batch ambient loader)
    (hallowed : Loader.Allowed source loader change) :
    Drawn source batch ambient (loader.change change) := by
  have hformed := h.formed.change hallowed
  have hgrows := h.formed.grows_change hallowed
  -- a name that was there already keeps its unit
  have hold : ∀ id name, loader.names[id]? = some name → ∃ unit state made,
      (loader.change change).pool.unit? id = some unit ∧ Later source ambient state ∧
        Supplies source batch state name made ∧ unit.body = made.body := by
    intro id name hname
    obtain ⟨unit, state, made, hunit, hstate, hsupplies, hbody⟩ := h.units id name hname
    obtain ⟨later, hlater, hsame⟩ := hgrows.body hunit
    exact ⟨later, state, made, hlater, hstate, hsupplies, hsame.trans hbody⟩
  cases hallowed with
  | refused _ hmade =>
    have hlater := h.later_of_asked hmade
    exact ⟨hformed, h.own, hlater, hold⟩
  | @loaded name unit next hnew hmade =>
    have hlater := h.later_of_asked hmade
    refine ⟨hformed, h.own, hlater, fun id other hother => ?_⟩
    have hnames : (loader.change (.loaded name unit next.ambient)).names
        = loader.names ++ [name] := rfl
    rw [hnames, List.getElem?_append] at hother
    split at hother
    · exact hold id other hother
    · -- the new name, which has the unit that was found for it
      rename_i hid
      have hid : id = loader.pool.nextId ∧ name = other := by
        rw [show loader.pool.nextId = loader.names.length from h.formed.size]
        obtain ⟨hlt, hget⟩ := List.getElem?_eq_some_iff.mp hother
        refine ⟨Nat.le_antisymm ?_ (Nat.le_of_not_lt hid), ?_⟩
        · exact Nat.le_of_sub_eq_zero (Nat.lt_one_iff.mp hlt)
        · rwa [List.getElem_singleton] at hget
      obtain ⟨rfl, rfl⟩ := hid
      refine ⟨unit, loader.ambient, unit, ?_, h.later, ?_, rfl⟩
      · simp only [Loader.change, Loader.insert, unit?_add, if_true]
      · rw [← h.own]
        exact ((Loader.supplies_of_materialise hmade).2 unit).mpr rfl
  | linked _ _ => exact ⟨hformed, h.own, h.later, hold⟩
  | brokenOff _ => exact h

theorem changeAll {changes : List (Change σ)} (h : Drawn source batch ambient loader)
    (hruns : Loader.Runs source loader changes) :
    Drawn source batch ambient (loader.changeAll changes) :=
  hruns.preserves (fun _ _ hallowed h => h.change hallowed) h

end Drawn

namespace Loader

variable {loader : Loader σ}

/-- References all resolve, when each does whatever was loaded with the others. -/
theorem ok_linkCourse {courseOne : Loader σ → String → Course σ} {inside : UnitId}
    (hfinds : ∀ {loader : Loader σ}, Formed loader → ∀ name,
      Finds source loader name (courseOne loader name))
    (references : List String) {loader : Loader σ} (h : Drawn source batch ambient loader)
    (hinside : inside < loader.names.length)
    (hone : ∀ later, Drawn source batch ambient later → loader.names <+: later.names →
      ∀ name ∈ references, ∃ id, (courseOne later name).answer = some (.ok id)) :
    ∃ id, (linkCourse courseOne inside references loader).answer = some (.ok id) := by
  fun_induction linkCourse courseOne inside references loader with
  | case1 => exact ⟨inside, rfl⟩
  | case2 reference references loader changes hcourse =>
    obtain ⟨id, hid⟩ := hone loader h (List.prefix_refl _) reference List.mem_cons_self
    rw [hcourse] at hid
    cases hid
  | case3 reference references loader changes fault hcourse =>
    obtain ⟨id, hid⟩ := hone loader h (List.prefix_refl _) reference List.mem_cons_self
    rw [hcourse] at hid
    cases hid
  | case4 reference references loader changes target hcourse first rest ih =>
    have hlinked := (hcourse ▸ hfinds h.formed reference).runs_linked h.formed hinside
    have hgrows := h.formed.grows_changeAll hlinked
    apply ih (h.changeAll hlinked) (Nat.lt_of_lt_of_le hinside hgrows.length_le)
    intro later hlater hnames name hname
    exact hone later hlater (hgrows.names.trans hnames) name (List.mem_cons_of_mem _ hname)

/-- Every name of the set resolves, at a depth that counts the names that are left to load. -/
theorem ok_course (h : Resolvable source batch ambient known) (depth : Nat) {loader : Loader σ}
    (hdrawn : Drawn source batch ambient loader) {name : String} (hname : name ∈ known)
    (hdepth : missing known loader.names < depth) :
    ∃ id, (course source depth loader name).answer = some (.ok id) := by
  induction depth generalizing loader name with
  | zero => exact absurd hdepth (Nat.not_lt_zero _)
  | succ depth ih =>
    obtain ⟨made, hsupplies, hreferences⟩ := h.units _ hdrawn.later name hname
    rw [← hdrawn.own] at hsupplies
    rcases course_cases source depth loader name with ⟨id, hid, hcourse⟩ |
      ⟨state, fault, hrefused, hcourse⟩ | ⟨unit, state, rest, hloaded, rfl, hcourse⟩
    · exact ⟨id, by rw [hcourse]⟩
    · -- a name with a unit is not refused
      cases hrefused with
      | refused _ hmade => cases ((supplies_of_materialise hmade).2 made).mp hsupplies
    · rw [hcourse]
      have hnew : name ∉ loader.names ∧ unit = made := by
        cases hloaded with
        | loaded hnew hmade =>
          exact ⟨hnew, Except.ok.inj (((supplies_of_materialise hmade).2 made).mp hsupplies)⟩
      obtain ⟨hnew, rfl⟩ := hnew
      refine ok_linkCourse (finds_course source depth) unit.references (hdrawn.change hloaded)
        (hdrawn.formed.nextId_lt name unit state) fun later hlater hnames other hother => ?_
      apply ih hlater (hreferences other hother)
      -- one name less is left to load, which pays for the step
      obtain ⟨more, hmore⟩ := hnames
      have hle := missing_append_le known (loader.names ++ [name]) more
      have hlt := missing_insert_lt hname hnew
      have hnames : later.names = loader.names ++ [name] ++ more := hmore.symm
      rw [hnames]
      omega

/-! ## Resolving names in order -/

/-- Resolving names of the set in order succeeds and loads them in depth-first order. At every depth
greater than the number of names in the set, the outcome is the same. -/
theorem resolveAll_depthFirst (h : Resolvable source batch ambient known) {names : List String}
    (hnames : ∀ name ∈ names, name ∈ known) {loader : Loader σ}
    (hdrawn : Drawn source batch ambient loader) :
    ∃ after, Drawn source batch ambient after ∧ Grows loader after ∧
      (∀ depth : Loader σ → Nat, (∀ loader, loader.batch = batch → known.length < depth loader) →
        resolveAll (fun loader => loader.resolveWithin source (depth loader)) loader names
          = (after, .ok ())) ∧
      ∀ next, Tells after next → ∃ order, after.names = loader.names ++ order ∧
        DepthFirst next loader.names names order := by
  induction names generalizing loader with
  | nil =>
    exact ⟨loader, hdrawn, .refl loader, fun _ _ => rfl,
      fun next _ => ⟨[], (List.append_nil _).symm, .done _⟩⟩
  | cons name rest ih =>
    have hmissing : missing known loader.names < known.length + 1 :=
      Nat.lt_succ_of_le List.countP_le_length
    obtain ⟨id, hid⟩ :=
      ok_course h (known.length + 1) hdrawn (hnames name List.mem_cons_self) hmissing
    have hruns := (finds_course source (known.length + 1) hdrawn.formed name).runs
    have hgrows := hdrawn.formed.grows_changeAll hruns
    obtain ⟨after, hafter, hlater, hresolves, horder⟩ :=
      ih (fun other hother => hnames other (List.mem_cons_of_mem _ hother))
        (hdrawn.changeAll hruns)
    refine ⟨after, hafter, hgrows.trans hlater, fun depth hdepth => ?_, fun next htells => ?_⟩
    · have hsame := course_of_le (hdepth loader hdrawn.own) (hid ▸ rfl :
        (course source (known.length + 1) loader name).answer.isSome = true)
      have hone : loader.resolveWithin source (depth loader) name
          = (loader.changeAll (course source (known.length + 1) loader name).changes, .ok id) := by
        rw [resolveWithin, resolveFrom_eq, hsame, hid]
        rfl
      rw [resolveAll, hone]
      exact hresolves depth hdepth
    · obtain ⟨first, hfirst, hvisit⟩ := depthFirst_course source (known.length + 1) hdrawn.formed
        name next id hid (hlater.tells htells)
      obtain ⟨others, hothers, hmore⟩ := horder next htells
      rw [hfirst] at hothers hmore
      exact ⟨first ++ others, by rw [hothers, List.append_assoc], hvisit.append hmore⟩

end Loader

/-- The names of the batch are loaded in depth-first order, along the references of the units that
they and all other names get. -/
theorem exists_loadsDepthFirst (h : Resolvable source batch ambient known) :
    ∃ loader : Loader σ, Drawn source batch ambient loader ∧
      DepthFirst loader.referencesOf [] (batch.map Product.name) loader.names ∧
      ∀ depth : Loader σ → Nat, (∀ loader, loader.batch = batch → known.length < depth loader) →
        Loader.resolveAll (fun loader => loader.resolveWithin source (depth loader))
          { batch, ambient } (batch.map Product.name) = (loader, .ok ()) := by
  have hnames : ∀ name ∈ batch.map Product.name, name ∈ known := by
    intro name hname
    obtain ⟨product, hproduct, rfl⟩ := List.mem_map.mp hname
    exact h.names product hproduct
  obtain ⟨loader, hdrawn, -, hresolves, horder⟩ :=
    Loader.resolveAll_depthFirst h hnames (.start source batch ambient)
  obtain ⟨order, heq, hvisit⟩ := horder loader.referencesOf hdrawn.formed.tells_referencesOf
  rw [List.nil_append] at heq
  exact ⟨loader, hdrawn, heq ▸ hvisit, hresolves⟩

end StackScript.Loading

namespace StackScript.Session

open StackScript.Code StackScript.Loading StackScript.Machine

/-! ## Starting the first class that has a main method -/

/-- The class of the batch with the name has a method `main(String[]): void`. -/
def HasMain (batch : Batch) (name : String) : Prop :=
  ∃ product file, batch.get? name = some product ∧ ClassFile.ofPayload product.bytes = .ok file ∧
    ∃ method ∈ file.methods, method.signature = ⟨"main", [.array .string], .void⟩

/-- The method is the first one of the class that is called main, whatever its signature. -/
def IsFirstMain (file : ClassFile) (method : MethodCode) : Prop :=
  method.name = "main" ∧ ∃ before after, file.methods = before ++ method :: after ∧
    ∀ other ∈ before, other.name ≠ "main"

/-- A method at its start whose one argument is an array of the given strings: that is its first
local, and all others have no value yet. -/
def mainFrame (unit : LoadedUnit) (method : MethodCode) (args : List String) : Frame where
  unit := unit
  method := method
  stack := []
  place := 0
  locals := (.array (args.map .string)
    :: List.replicate (method.locals.toNat - 1) Value.void).toArray

/-- What a launch leaves that runs the method of the class with the strings as its one argument: it
prints what the run prints, and says what became of the run. A method with another number of
parameters is refused. -/
inductive RunsMethod {σ : Type} (loader : Loader σ) (fuel : Nat) (unit : LoadedUnit) (cls : String)
    (method : MethodCode) (args : List String) : Launched σ → Prop where
  | unfinished (hone : method.params.length = 1)
    (hrun : run loader.pool fuel { frame := mainFrame unit method args } = none) :
    RunsMethod loader fuel unit cls method args { loader, result := .ok .unfinished }
  | ended {value : Value} {out : String} (hone : method.params.length = 1)
    (hrun : run loader.pool fuel { frame := mainFrame unit method args } = some ⟨.ok value, out⟩) :
    RunsMethod loader fuel unit cls method args { loader, out, result := .ok (.ran cls) }
  | failed {fault : RuntimeFault} {out : String} (hone : method.params.length = 1)
    (hrun : run loader.pool fuel { frame := mainFrame unit method args } =
      some ⟨.error fault, out⟩) :
    RunsMethod loader fuel unit cls method args { loader, out, result := .error (.execution fault) }
  | refused (hmany : method.params.length ≠ 1) :
    RunsMethod loader fuel unit cls method args
      { loader, result := .error (.execution (.wrongArity cls "main" method.params.length 1)) }

/-- What comes of a launch once the batch is loaded: of the first class of the batch with a main
method, in the order of loading, the first method that is called main is run, or there is no such
class. The method that is run is the main method if no other one is called so. -/
inductive StartsFirst (batch : Batch) (settings : Settings) (fuel : Nat) (args : List String)
    {σ : Type} (loader : Loader σ) : Launched σ → Prop where
  | starts {before after : List String} {name : String} {unit : LoadedUnit} {file : ClassFile}
    {method : MethodCode} {launched : Launched σ}
    (hnames : loader.names = before ++ name :: after) (hmain : HasMain batch name)
    (hbefore : ∀ other ∈ before, ¬ HasMain batch other) (hunit : loader.cached? name = some unit)
    (hfile : unit.body = .compiled file) (hfirst : IsFirstMain file method)
    (hsole : (file.methods.filter (·.name = "main")).length = 1 →
      method.signature = ⟨"main", [.array .string], .void⟩)
    (hruns : RunsMethod loader fuel unit file.name method args launched) :
    StartsFirst batch settings fuel args loader launched
  | nothing (hnone : ∀ name, ¬ HasMain batch name) :
    StartsFirst batch settings fuel args loader
      { loader
        info := if settings.bannerPrinted then "" else noEntryPointNotice
        result := .ok .noEntryPoint }

theorem isEntryPoint_iff (sig : MethodSig) :
    sig.isEntryPoint = true ↔ sig = ⟨"main", [.array .string], .void⟩ := by
  obtain ⟨name, params, ret⟩ := sig
  simp [MethodSig.isEntryPoint, and_assoc]

theorem entryPoint?_isSome_iff (file : ClassFile) : file.entryPoint?.isSome = true ↔
    ∃ method ∈ file.methods, method.signature = ⟨"main", [.array .string], .void⟩ := by
  rw [ClassFile.entryPoint?, List.find?_isSome]
  simp only [isEntryPoint_iff]

section

variable {σ : Type} {source : Ambient σ} {batch : Batch} {ambient : σ} {known : List String}
  {loader : Loader σ}

/-- A loaded name has a unit. If the name is one of the batch, a program can start with the unit
when the class has a main method. -/
theorem exists_cached (h : Drawn source batch ambient loader) {name : String}
    (hname : name ∈ loader.names) : ∃ unit, loader.cached? name = some unit ∧
      (batch.has name = true → (unit.hasEntryPoint = true ↔ HasMain batch name)) := by
  obtain ⟨id, hid⟩ := List.mem_iff_getElem?.mp hname
  obtain ⟨unit, state, made, hunit, -, hsupplies, hbody⟩ := h.units id name hid
  refine ⟨unit, by rw [h.formed.cached?_eq hid, hunit], fun hhas => ?_⟩
  cases hsupplies with
  | @batch product file hproduct hfile =>
    rw [LoadedUnit.hasEntryPoint, hbody]
    simp only [LoadedUnit.compiled, entryPoint?_isSome_iff]
    constructor
    · exact fun hmain => ⟨product, file, hproduct, hfile, hmain⟩
    · rintro ⟨other, decoded, hother, hdecoded, hmain⟩
      cases hproduct.symm.trans hother
      cases hfile.symm.trans hdecoded
      exact hmain
  | ambient hnone _ =>
    rw [Batch.has, hnone] at hhas
    cases hhas

theorem has_of_hasMain {name : String} (h : HasMain batch name) : batch.has name = true := by
  obtain ⟨product, -, hproduct, -⟩ := h
  rw [Batch.has, hproduct]
  rfl

/-- The unit that is started is that of the first name whose class has a main method. -/
theorem find_entryUnit (h : Drawn source batch ambient loader) (names : List String)
    (hnames : ∀ name ∈ names, name ∈ loader.names) :
    let found := ((names.filter loader.batch.has).filterMap loader.cached?).find? (·.hasEntryPoint)
    (∃ before name after unit, names = before ++ name :: after ∧ HasMain batch name ∧
      (∀ other ∈ before, ¬ HasMain batch other) ∧ loader.cached? name = some unit ∧
      found = some unit) ∨
    (∀ name ∈ names, ¬ HasMain batch name) ∧ found = none := by
  intro found
  induction names with
  | nil => exact .inr ⟨List.forall_mem_nil _, rfl⟩
  | cons name rest ih =>
    obtain ⟨unit, hunit, hentry⟩ := exists_cached h (hnames name List.mem_cons_self)
    have hrest := ih fun other hother => hnames other (List.mem_cons_of_mem _ hother)
    by_cases hmain : HasMain batch name
    · -- this is the first one
      have hhas := has_of_hasMain hmain
      refine .inl ⟨[], name, rest, unit, rfl, hmain, List.forall_mem_nil _, hunit, ?_⟩
      rw [← h.own] at hhas
      simp only [found, List.filter_cons_of_pos hhas, List.filterMap_cons_some hunit]
      rw [List.find?_cons_of_pos]
      exact (hentry (h.own ▸ hhas)).mpr hmain
    · -- no program starts with this name, and the search goes on behind it
      have hskip : found = ((rest.filter loader.batch.has).filterMap loader.cached?).find?
          (·.hasEntryPoint) := by
        by_cases hhas : loader.batch.has name = true
        · simp only [found, List.filter_cons_of_pos hhas, List.filterMap_cons_some hunit]
          rw [List.find?_cons_of_neg]
          exact fun hstarts => hmain ((hentry (h.own ▸ hhas)).mp hstarts)
        · simp only [found, List.filter_cons_of_neg hhas]
      rw [hskip]
      rcases hrest with ⟨before, first, after, starter, rfl, hfirst, hbefore, hstarter, hfound⟩ |
        ⟨hnone, hfound⟩
      · exact .inl ⟨name :: before, first, after, starter, rfl, hfirst,
          List.forall_mem_cons.mpr ⟨hmain, hbefore⟩, hstarter, hfound⟩
      · exact .inr ⟨List.forall_mem_cons.mpr ⟨hmain, hnone⟩, hfound⟩

/-- A class with a main method has a first one that is called main, which is the main method if no
other is called so. -/
theorem exists_firstMain {file : ClassFile}
    (h : ∃ method ∈ file.methods, method.signature = ⟨"main", [.array .string], .void⟩) :
    ∃ method, file.method? "main" = some method ∧ IsFirstMain file method ∧
      ((file.methods.filter (·.name = "main")).length = 1 →
        method.signature = ⟨"main", [.array .string], .void⟩) := by
  obtain ⟨main, hmem, hsig⟩ := h
  have hname : main.name = "main" := congrArg MethodSig.name hsig
  obtain ⟨method, hfound⟩ : ∃ method, file.method? "main" = some method := by
    apply Option.isSome_iff_exists.mp
    rw [ClassFile.method?, List.find?_isSome]
    exact ⟨main, hmem, by simpa using hname⟩
  obtain ⟨hmethod, before, after, hsplit, hbefore⟩ := List.find?_eq_some_iff_append.mp hfound
  have hmethod : method.name = "main" := by simpa using hmethod
  refine ⟨method, hfound, ⟨hmethod, before, after, hsplit, ?_⟩, ?_⟩
  · intro other hother
    simpa using hbefore other hother
  · intro hlength
    -- both are the only method of the name
    obtain ⟨only, honly⟩ := List.length_eq_one_iff.mp hlength
    have hall : ∀ other ∈ file.methods, other.name = "main" → other = only := by
      intro other hother hcalled
      have hfilter : other ∈ file.methods.filter (·.name = "main") :=
        List.mem_filter.mpr ⟨hother, by simpa using hcalled⟩
      rw [honly] at hfilter
      exact List.mem_singleton.mp hfilter
    rw [hall method (List.mem_of_find?_eq_some hfound) hmethod, ← hall main hmem hname, hsig]

/-- To start a unit is to run the method of its class that is found under the name main. -/
theorem runsMethod_start {unit : LoadedUnit} {file : ClassFile} {method : MethodCode}
    (hfile : unit.body = .compiled file) (hmethod : file.method? "main" = some method)
    (loader : Loader σ) (fuel : Nat) (args : List String) :
    RunsMethod loader fuel unit file.name method args (start loader fuel unit args) := by
  have hname : unit.name = file.name := by rw [LoadedUnit.name, hfile]
  by_cases hone : method.params.length = 1
  · have hinvoke : invoke loader.pool fuel unit "main" [.strings args] =
        run loader.pool fuel { frame := mainFrame unit method args } := by
      simp only [invoke, enter, hfile, hmethod, List.length_singleton, hone, if_true]
      rfl
    rw [start, hinvoke]
    rcases hrun : run loader.pool fuel { frame := mainFrame unit method args } with _ | ⟨_ | _, out⟩
    · exact .unfinished hone hrun
    · exact .failed hone hrun
    · rw [hname]
      exact .ended hone hrun
  · have hinvoke : invoke loader.pool fuel unit "main" [.strings args] =
        some ⟨.error (.wrongArity file.name "main" method.params.length 1), ""⟩ := by
      simp only [invoke, enter, hfile, hmethod, List.length_singleton, if_neg (Ne.symm hone)]
    rw [start, hinvoke]
    exact .refused hone

/-- After loading, a launch starts the first class of the batch that has a main method. -/
theorem startsFirst_of_resolveAll (h : Drawn source batch ambient loader)
    (hall : ∀ name ∈ batch.map Product.name, name ∈ loader.names)
    {resolve : Loader σ → String → Loader σ × Except LoadFault UnitId}
    (hresolve : Loader.resolveAll resolve { batch, ambient } (batch.map Product.name)
      = (loader, .ok ())) (settings : Settings) (fuel : Nat) (args : List String) :
    StartsFirst batch settings fuel args loader
      (launchBy resolve settings { batch, ambient } fuel args) := by
  rw [launchBy, hresolve]
  simp only
  rcases find_entryUnit h loader.names fun name hname => hname with
    ⟨before, name, after, unit, hnames, hmain, hbefore, hunit, hfound⟩ | ⟨hnone, hfound⟩
  · rw [entryUnit?, hfound]
    obtain ⟨file, hfile, hentry⟩ : ∃ file, unit.body = .compiled file ∧
        file.entryPoint?.isSome = true := by
      have hstarts : unit.hasEntryPoint = true := List.find?_some hfound
      rw [LoadedUnit.hasEntryPoint] at hstarts
      split at hstarts
      · exact ⟨_, ‹_›, hstarts⟩
      · cases hstarts
    obtain ⟨method, hmethod, hfirst, hsole⟩ :=
      exists_firstMain ((entryPoint?_isSome_iff file).mp hentry)
    exact .starts hnames hmain hbefore hunit hfile hfirst hsole
      (runsMethod_start hfile hmethod loader fuel args)
  · rw [entryUnit?, hfound]
    refine .nothing fun name hmain => ?_
    -- every class of the batch is loaded
    obtain ⟨product, -, hproduct, -⟩ := id hmain
    have hname : product.name = name := by simpa using List.find?_some hproduct
    have hmem := List.mem_map_of_mem (f := Product.name) (List.mem_of_find?_eq_some hproduct)
    exact hnone name (hall name (hname ▸ hmem)) hmain

/-- A launch ends for want of an entry point exactly if no class of the batch has a main method. -/
theorem StartsFirst.noEntryPoint_iff {settings : Settings} {fuel : Nat} {args : List String}
    {launched : Launched σ} (h : StartsFirst batch settings fuel args loader launched) :
    launched.result = .ok .noEntryPoint ↔ ∀ name, ¬ HasMain batch name := by
  cases h with
  | nothing hnone => exact ⟨fun _ => hnone, fun _ => rfl⟩
  | starts _ hmain _ _ _ _ _ hruns =>
    refine ⟨fun hresult => ?_, fun hnone => absurd hmain (hnone _)⟩
    -- running a method has other outcomes
    cases hruns <;> cases hresult

/-- When every name that can come up has a unit, a launch loads the classes of the batch, and all
that they refer to, each once and in depth-first order from the names of the batch. It then takes
the first class of the batch, in this order, that has a method `main(String[]): void`, and it finds
no entry point exactly if there is no such class. Of that class it runs the first method that is
called main, with the arguments in an array; this is the one with the signature if no other method
is called main. -/
theorem launch_depth_first (h : Resolvable source batch ambient known) (settings : Settings)
    (fuel : Nat) (args : List String) :
    ∃ loader : Loader σ, Drawn source batch ambient loader ∧
      DepthFirst loader.referencesOf [] (batch.map Product.name) loader.names ∧
      loader.names.Nodup ∧
      (∀ name, name ∈ loader.names ↔ ∃ root ∈ batch.map Product.name,
        Relation.ReflTransGen (LeadsTo loader.referencesOf) root name) ∧
      ∀ depth : Loader σ → Nat, (∀ loader, loader.batch = batch → known.length < depth loader) →
        let resolve := fun loader : Loader σ => loader.resolveWithin source (depth loader)
        let launched := launchBy resolve settings { batch, ambient } fuel args
        Loader.resolveAll resolve { batch, ambient } (batch.map Product.name) = (loader, .ok ()) ∧
          StartsFirst batch settings fuel args loader launched ∧
          (launched.result = .ok .noEntryPoint ↔ ∀ name, ¬ HasMain batch name) := by
  obtain ⟨loader, hdrawn, hvisit, hresolves⟩ := exists_loadsDepthFirst h
  refine ⟨loader, hdrawn, hvisit, hvisit.nodup, hvisit.mem_iff, ?_⟩
  intro depth hdepth resolve launched
  have hall : ∀ name ∈ batch.map Product.name, name ∈ loader.names := by
    intro name hname
    simpa using hvisit.closed.1 name hname
  have hstarts := startsFirst_of_resolveAll hdrawn hall (hresolves depth hdepth) settings fuel args
  exact ⟨hresolves depth hdepth, hstarts, hstarts.noEntryPoint_iff⟩

end

/-- A class that calls a native class and the class `Pong`. -/
def pingFile : ClassFile where
  magic := ClassFile.rightMagic
  target := .latest
  name := "Ping"
  sourceFile := "ping"
  references := [NativeClass.integer.name, "Pong"]
  methods := []
  extensions := []

/-- A class that calls `Ping` and has a main method, which prints the number of arguments. -/
def pongFile : ClassFile where
  magic := ClassFile.rightMagic
  target := .latest
  name := "Pong"
  sourceFile := "pong"
  references := ["Ping"]
  methods := [
    { name := "main", params := [.array .string], ret := .void, locals := 1,
      code := #[.load 0, .length, .puts, .retVoid], lines := [] }]
  extensions := []

/-- The classes `Ping` and `Pong`, which call each other. -/
def pingPong : Batch := [pingFile, pongFile].map (Product.ofClassFile .bytecode)

theorem supplies_pingPong (state : Environment) (product : Product) {file : ClassFile}
    (hproduct : pingPong.get? product.name = some product)
    (hfile : (ClassFile.ofPayload product.bytes).toOption = some file) :
    Supplies (Environment.resolve {}) pingPong state product.name (.compiled file) := by
  cases hdecoded : ClassFile.ofPayload product.bytes with
  | error cause =>
    rw [hdecoded] at hfile
    cases hfile
  | ok decoded =>
    rw [hdecoded] at hfile
    cases hfile
    exact .batch hproduct hdecoded

/-- The two classes and the native class resolve whatever was asked for before. -/
theorem resolvable_pingPong : Resolvable (Environment.resolve {}) pingPong {}
    ["Ping", "Pong", NativeClass.integer.name] := by
  refine ⟨by decide +kernel, fun state _ name hname => ?_⟩
  simp only [List.mem_cons, List.not_mem_nil, or_false] at hname
  rcases hname with rfl | rfl | rfl
  · refine ⟨.compiled pingFile, ?_, by decide +kernel⟩
    exact supplies_pingPong state (.ofClassFile .bytecode pingFile) (by decide +kernel)
      (by decide +kernel)
  · refine ⟨.compiled pongFile, ?_, by decide +kernel⟩
    exact supplies_pingPong state (.ofClassFile .bytecode pongFile) (by decide +kernel)
      (by decide +kernel)
  · refine ⟨.native .integer, .ambient (by decide +kernel) ?_, List.forall_mem_nil _⟩
    rw [Environment.resolve, Environment.native?, nativeClass?, if_pos rfl]

/-- `Ping` comes first, then the native class that it calls, and then `Pong`, which is started and
prints that there is one argument. -/
theorem launch_pingPong :
    ∃ loader, DepthFirst loader.referencesOf [] ["Ping", "Pong"] loader.names ∧
      loader.names = ["Ping", NativeClass.integer.name, "Pong"] ∧
      StartsFirst pingPong {} 10 ["x"] loader (launch {} {} (.start pingPong {}) 10 ["x"]) ∧
      (launch {} {} (.start pingPong {}) 10 ["x"]).result.toOption = some (.ran "Pong") ∧
      (launch {} {} (.start pingPong {}) 10 ["x"]).out = "1\n" := by
  obtain ⟨loader, -, hvisit, -, -, hlaunch⟩ := launch_depth_first resolvable_pingPong {} 10 ["x"]
  obtain ⟨hresolves, hstarts, -⟩ := hlaunch (BatchLoader.depthBound {}) fun other hother => by
    rw [BatchLoader.depthBound, hother]
    decide
  have hnames : (Loader.resolveAll (BatchLoader.resolve {}) (BatchLoader.start pingPong {})
      (pingPong.map Product.name)).1.names = ["Ping", NativeClass.integer.name, "Pong"] := by
    decide +kernel
  refine ⟨loader, hvisit, ?_, hstarts, by decide +kernel, by decide +kernel⟩
  rw [← hnames]
  exact (congrArg (fun loaded => loaded.1.names) hresolves).symm

/-- A class with a method `main(int)` before its main method; each prints a number of its own. -/
def twinFile : ClassFile where
  magic := ClassFile.rightMagic
  target := .latest
  name := "Twin"
  sourceFile := "twin"
  references := []
  methods := [
    { name := "main", params := [.int], ret := .void, locals := 1,
      code := #[.pushInt 1, .puts, .retVoid], lines := [] },
    { name := "main", params := [.array .string], ret := .void, locals := 1,
      code := #[.pushInt 2, .puts, .retVoid], lines := [] }]
  extensions := []

/-- The class counts as one to start with for its main method, and the other method is run. -/
theorem launch_twin_runs_earlier_main :
    twinFile.entryPoint?.map (·.code) = some #[.pushInt 2, .puts, .retVoid] ∧
      (launch {} {} (.start [.ofClassFile .bytecode twinFile] {}) 10 []).result.toOption =
        some (.ran "Twin") ∧
      (launch {} {} (.start [.ofClassFile .bytecode twinFile] {}) 10 []).out = "1\n" :=
  ⟨by decide +kernel, by decide +kernel, by decide +kernel⟩

end StackScript.Session

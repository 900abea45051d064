import StackScript.Proofs.Linking

/-!
# What resolving does to a loader, change by change

Resolving changes a loader in small steps: a name gets a unit or does not, a reference is linked,
the linking of a unit is given up. The course of a call lists its changes in order, also when the
call fails deep inside a circle of references or does not end; `resolveFrom_eq` says that resolving
is exactly its course. So a statement about every beginning of a course is one about the middle of
nested calls too.

Every change is one that the loader allows in the state it is in (`finds_course`). What an allowed
change keeps is shown once, for one change, and follows for every course: one unit is cached for
each name (`Formed.changeAll`), names are only appended, and the unit under a number stays the same
class (`Formed.grows_changeAll`).
-/

namespace StackScript.Loading

open StackScript.Code StackScript.Machine

/-! ## Changes and courses -/

/-- One change of a loader. -/
inductive Change (σ : Type) where
  /-- A name that was not cached got no unit. -/
  | refused (name : String) (ambient : σ)
  /-- A name that was not cached got its unit. -/
  | loaded (name : String) (unit : LoadedUnit) (ambient : σ)
  /-- A reference was linked inside a unit. -/
  | linked (inside : UnitId) (reference : String) (target : UnitId)
  /-- The other references of a unit were not linked, as one of them did not resolve. -/
  | brokenOff (inside : UnitId)

/-- The name that a change puts into the cache. -/
def Change.newName? {σ : Type} : Change σ → Option String
  | loaded name _ _ => some name
  | _ => none

/-- The unit that a change links, or stops linking. -/
def Change.inside? {σ : Type} : Change σ → Option UnitId
  | linked inside _ _ => some inside
  | brokenOff inside => some inside
  | _ => none

/-- What a call does: its changes in order, and its answer if it ends. -/
structure Course (σ : Type) where
  changes : List (Change σ)
  answer : Option (Except LoadFault UnitId)

namespace Loader

variable {σ : Type}

/-- The loader after a change. -/
def change (loader : Loader σ) : Change σ → Loader σ
  | .refused _ ambient => { loader with ambient }
  | .loaded name unit ambient => { loader with ambient }.insert name unit
  | .linked inside reference target => loader.link inside reference target
  | .brokenOff _ => loader

/-- The loader after changes in order. -/
def changeAll (loader : Loader σ) (changes : List (Change σ)) : Loader σ :=
  changes.foldl change loader

/-- The course of linking the references of a unit in order. -/
def linkCourse (courseOne : Loader σ → String → Course σ) (inside : UnitId) :
    List String → Loader σ → Course σ
  | [], _ => ⟨[], some (.ok inside)⟩
  | reference :: references, loader =>
    match courseOne loader reference with
    | ⟨changes, none⟩ => ⟨changes, none⟩
    | ⟨changes, some (.error fault)⟩ => ⟨changes ++ [.brokenOff inside], some (.error fault)⟩
    | ⟨changes, some (.ok target)⟩ =>
      let first := changes ++ [.linked inside reference target]
      let rest := linkCourse courseOne inside references (loader.changeAll first)
      ⟨first ++ rest.changes, rest.answer⟩

/-- The course of resolving a name, with at most `depth` units being linked inside each other. -/
def course (source : Ambient σ) : Nat → Loader σ → String → Course σ
  | 0, _, _ => ⟨[], none⟩
  | depth + 1, loader, name =>
    match loader.idOf? name with
    | some id => ⟨[], some (.ok id)⟩
    | none =>
      match loader.materialise source name with
      | (next, .error fault) => ⟨[.refused name next.ambient], some (.error fault)⟩
      | (next, .ok unit) =>
        let first := Change.loaded name unit next.ambient
        let rest := linkCourse (course source depth) loader.pool.nextId unit.references
          (loader.change first)
        ⟨first :: rest.changes, rest.answer⟩

/-- The changes of calls one after the other, each with the depth it can go to; after a call that
does not end there is none. -/
def changesOf (source : Ambient σ) : List (Nat × String) → Loader σ → List (Change σ)
  | [], _ => []
  | (depth, name) :: calls, loader =>
    match course source depth loader name with
    | ⟨changes, none⟩ => changes
    | ⟨changes, some _⟩ => changes ++ changesOf source calls (loader.changeAll changes)

/-! ## Courses are what resolving does -/

variable {source : Ambient σ} {loader : Loader σ}

theorem changeAll_cons (loader : Loader σ) (first : Change σ) (changes : List (Change σ)) :
    loader.changeAll (first :: changes) = (loader.change first).changeAll changes := rfl

theorem changeAll_append (loader : Loader σ) (changes more : List (Change σ)) :
    loader.changeAll (changes ++ more) = (loader.changeAll changes).changeAll more :=
  List.foldl_append

/-- Making a unit changes nothing but the state of the source. -/
theorem eq_of_materialise {next : Loader σ} {name : String} {made : Except LoadFault LoadedUnit}
    (h : loader.materialise source name = (next, made)) :
    next = { loader with ambient := next.ambient } := by
  unfold materialise at h
  split at h
  · split at h <;> cases h <;> rfl
  · cases h
    rfl

/-- Linking references is its course, when resolving each of them is. -/
theorem linkAll_eq {resolveOne : Loader σ → String → Resolution σ}
    {courseOne : Loader σ → String → Course σ} (inside : UnitId)
    (hone : ∀ loader name, resolveOne loader name =
      (courseOne loader name).answer.map (loader.changeAll (courseOne loader name).changes, ·))
    (references : List String) (loader : Loader σ) :
    linkAll resolveOne inside references loader =
      (linkCourse courseOne inside references loader).answer.map
        (loader.changeAll (linkCourse courseOne inside references loader).changes, ·) := by
  induction references generalizing loader with
  | nil => rfl
  | cons reference references ih =>
    rw [linkAll, linkCourse, hone]
    rcases courseOne loader reference with ⟨changes, _ | fault | target⟩
    · rfl
    · simp only [Option.map_some, changeAll_append]
      rfl
    · simp only [Option.map_some, ih, changeAll_append]
      rfl

/-- Resolving a name is its course. -/
theorem resolveFrom_eq (source : Ambient σ) (depth : Nat) (loader : Loader σ) (name : String) :
    resolveFrom source depth loader name =
      (course source depth loader name).answer.map
        (loader.changeAll (course source depth loader name).changes, ·) := by
  induction depth generalizing loader name with
  | zero => rfl
  | succ depth ih =>
    rw [resolveFrom, course]
    cases loader.idOf? name with
    | some id => rfl
    | none =>
      rcases hmade : loader.materialise source name with ⟨next, fault | unit⟩ <;>
        have hsame := eq_of_materialise hmade
      · exact congrArg (fun after => some (after, Except.error fault)) hsame
      · have hpool : next.pool = loader.pool := by rw [hsame]
        have hinsert : next.insert name unit =
            loader.change (.loaded name unit next.ambient) := congrArg (insert · name unit) hsame
        simp only [linkAll_eq _ ih, hpool, hinsert]
        rfl

/-! ## Changes that are allowed -/

/-- What holds of a loader at every moment: one unit is cached for each name. -/
structure Formed (loader : Loader σ) : Prop where
  nodup : loader.names.Nodup
  size : loader.pool.units.size = loader.names.length
  present : ∀ id < loader.names.length, ∃ unit, loader.pool.unit? id = some unit

/-- The changes that a loader makes: a name is looked for when it is not cached, and a reference is
linked to the unit that is cached under it. -/
inductive Allowed (source : Ambient σ) (loader : Loader σ) : Change σ → Prop where
  | refused {name : String} {fault : LoadFault} {next : Loader σ} (hnew : name ∉ loader.names)
    (hmade : loader.materialise source name = (next, .error fault)) :
    Allowed source loader (.refused name next.ambient)
  | loaded {name : String} {unit : LoadedUnit} {next : Loader σ} (hnew : name ∉ loader.names)
    (hmade : loader.materialise source name = (next, .ok unit)) :
    Allowed source loader (.loaded name unit next.ambient)
  | linked {inside target : UnitId} {reference : String} (hinside : inside < loader.names.length)
    (htarget : loader.names[target]? = some reference) :
    Allowed source loader (.linked inside reference target)
  | brokenOff (inside : UnitId) : Allowed source loader (.brokenOff inside)

/-- Changes that can be made one after the other. -/
inductive Runs (source : Ambient σ) : Loader σ → List (Change σ) → Prop where
  | nil (loader : Loader σ) : Runs source loader []
  | cons {loader : Loader σ} {first : Change σ} {changes : List (Change σ)}
    (hfirst : Allowed source loader first) (hrest : Runs source (loader.change first) changes) :
    Runs source loader (first :: changes)

theorem Runs.append {changes more : List (Change σ)} (h : Runs source loader changes)
    (hmore : Runs source (loader.changeAll changes) more) :
    Runs source loader (changes ++ more) := by
  induction h with
  | nil => exact hmore
  | cons hfirst _ ih => exact .cons hfirst (ih hmore)

/-- A beginning of a run is a run, and so is what comes after it. -/
theorem Runs.of_append {changes more : List (Change σ)} :
    ∀ {loader : Loader σ}, Runs source loader (changes ++ more) →
      Runs source loader changes ∧ Runs source (loader.changeAll changes) more := by
  induction changes with
  | nil => exact fun h => ⟨.nil _, h⟩
  | cons first changes ih =>
    intro loader h
    cases h with
    | cons hfirst hrest =>
      obtain ⟨hchanges, hmore⟩ := ih hrest
      exact ⟨.cons hfirst hchanges, hmore⟩

/-- What each allowed change keeps, a run keeps. -/
theorem Runs.preserves {Holds : Loader σ → Prop}
    (hstep : ∀ loader change, Allowed source loader change → Holds loader →
      Holds (loader.change change))
    {changes : List (Change σ)} (h : Runs source loader changes) (hstart : Holds loader) :
    Holds (loader.changeAll changes) := by
  induction h with
  | nil => exact hstart
  | cons hfirst _ ih => exact ih (hstep _ _ hfirst hstart)

/-! ### What every change keeps -/

theorem formed_start (batch : Batch) (ambient : σ) :
    Formed ({ batch, ambient } : Loader σ) where
  nodup := .nil
  size := rfl
  present _ hid := absurd hid (Nat.not_lt_zero _)

theorem Formed.insert (h : Formed loader) {name : String} (hnew : name ∉ loader.names)
    (unit : LoadedUnit) (ambient : σ) :
    Formed ({ loader with ambient }.insert name unit) where
  nodup := by
    refine List.nodup_append.mpr ⟨h.nodup, List.nodup_cons.mpr ⟨List.not_mem_nil, .nil⟩, ?_⟩
    intro other hother last hlast e
    exact hnew (List.mem_singleton.mp hlast ▸ e ▸ hother)
  size := by
    simp only [Loader.insert, Pool.add, Array.size_push, List.length_append, h.size,
      List.length_singleton]
  present id hid := by
    have hlast : (loader.names ++ [name]).length = loader.names.length + 1 := List.length_append
    simp only [Loader.insert, unit?_add, Pool.nextId, h.size]
    split
    · exact ⟨unit, rfl⟩
    · rename_i hne
      apply h.present id
      simp only [Loader.insert, hlast] at hid
      exact Nat.lt_of_le_of_ne (Nat.le_of_lt_succ hid) hne

/-- A unit that gets in has its name at its number. -/
theorem Formed.getElem?_nextId (h : Formed loader) (name : String) (unit : LoadedUnit)
    (ambient : σ) :
    (loader.change (.loaded name unit ambient)).names[loader.pool.nextId]? = some name := by
  rw [show loader.pool.nextId = loader.names.length from h.size]
  exact List.getElem?_concat_length

theorem Formed.nextId_lt (h : Formed loader) (name : String) (unit : LoadedUnit) (ambient : σ) :
    loader.pool.nextId < (loader.change (.loaded name unit ambient)).names.length :=
  (List.getElem?_eq_some_iff.mp (h.getElem?_nextId name unit ambient)).1

theorem Formed.link (h : Formed loader) (inside : UnitId) (reference : String)
    (target : UnitId) : Formed (loader.link inside reference target) where
  nodup := h.nodup
  size := (size_link ..).trans h.size
  present id hid := by
    obtain ⟨unit, hunit⟩ := h.present id hid
    simp only [Loader.link, unit?_link, hunit]
    split
    · exact ⟨unit.link reference target, rfl⟩
    · exact ⟨unit, rfl⟩

theorem Formed.change {change : Change σ} (h : Formed loader)
    (hallowed : Allowed source loader change) : Formed (loader.change change) := by
  cases hallowed with
  | refused _ _ => exact ⟨h.nodup, h.size, h.present⟩
  | loaded hnew _ => exact h.insert hnew _ _
  | linked _ _ => exact h.link _ _ _
  | brokenOff _ => exact h

theorem Formed.changeAll {changes : List (Change σ)} (h : Formed loader)
    (hruns : Runs source loader changes) : Formed (loader.changeAll changes) :=
  hruns.preserves (fun _ _ hallowed h => h.change hallowed) h

/-- A unit that is in the pool has a name in the cache. -/
theorem Formed.lt_of_unit? (h : Formed loader) {id : UnitId} {unit : LoadedUnit}
    (hunit : loader.pool.unit? id = some unit) : id < loader.names.length := by
  apply Nat.lt_of_not_le
  intro hle
  rw [Pool.unit?, Array.getElem?_eq_none (h.size ▸ hle)] at hunit
  cases hunit

/-- The cache has grown: names were appended, and each number still stands for the same class. -/
structure Grows (before after : Loader σ) : Prop where
  names : before.names <+: after.names
  body : ∀ {id unit}, before.pool.unit? id = some unit →
    ∃ later, after.pool.unit? id = some later ∧ later.body = unit.body

theorem Grows.refl (loader : Loader σ) : Grows loader loader where
  names := List.prefix_refl _
  body hunit := ⟨_, hunit, rfl⟩

theorem Grows.trans {before between after : Loader σ} (h : Grows before between)
    (hmore : Grows between after) : Grows before after where
  names := h.names.trans hmore.names
  body hunit := by
    obtain ⟨next, hnext, hbody⟩ := h.body hunit
    obtain ⟨later, hlater, hsame⟩ := hmore.body hnext
    exact ⟨later, hlater, hsame.trans hbody⟩

theorem Grows.getElem? {before after : Loader σ} (h : Grows before after) {id : UnitId}
    {name : String} (hid : before.names[id]? = some name) : after.names[id]? = some name := by
  obtain ⟨more, hmore⟩ := h.names
  rw [← hmore]
  exact getElem?_append_of_some hid

theorem Grows.length_le {before after : Loader σ} (h : Grows before after) :
    before.names.length ≤ after.names.length := h.names.length_le

theorem Formed.grows_change {change : Change σ} (h : Formed loader)
    (hallowed : Allowed source loader change) : Grows loader (loader.change change) := by
  cases hallowed with
  | refused _ _ => exact ⟨List.prefix_refl _, fun hunit => ⟨_, hunit, rfl⟩⟩
  | loaded hnew _ =>
    refine ⟨List.prefix_append _ _, fun {id unit} hunit => ⟨unit, ?_, rfl⟩⟩
    -- the new unit gets the first free number, so it takes no unit's place
    have hlt := h.lt_of_unit? hunit
    simp only [Loader.change, Loader.insert, unit?_add, Pool.nextId, h.size]
    rw [if_neg (Nat.ne_of_lt hlt), hunit]
  | linked _ _ =>
    refine ⟨List.prefix_refl _, fun {id unit} hunit => ?_⟩
    simp only [Loader.change, Loader.link, unit?_link, hunit]
    split
    · exact ⟨_, rfl, rfl⟩
    · exact ⟨_, rfl, rfl⟩
  | brokenOff _ => exact .refl loader

theorem Formed.grows_changeAll {changes : List (Change σ)} (h : Formed loader)
    (hruns : Runs source loader changes) : Grows loader (loader.changeAll changes) := by
  induction hruns with
  | nil loader => exact .refl loader
  | cons hfirst _ ih => exact (h.grows_change hfirst).trans (ih (h.change hfirst))

/-! ### Courses run -/

/-- A course that can be made for a name: its changes run, and the unit that it answers with is
cached under the name after them. -/
structure Finds (source : Ambient σ) (loader : Loader σ) (name : String) (course : Course σ) :
    Prop where
  runs : Runs source loader course.changes
  cached : ∀ id, course.answer = some (.ok id) →
    (loader.changeAll course.changes).names[id]? = some name

/-- A reference that resolved can be linked. -/
theorem Finds.runs_linked {reference : String} {changes : List (Change σ)} {target inside : UnitId}
    (h : Finds source loader reference ⟨changes, some (.ok target)⟩) (hformed : Formed loader)
    (hinside : inside < loader.names.length) :
    Runs source loader (changes ++ [.linked inside reference target]) := by
  apply h.runs.append
  apply Runs.cons _ (.nil _)
  exact .linked (Nat.lt_of_lt_of_le hinside (hformed.grows_changeAll h.runs).length_le)
    (h.cached target rfl)

/-- Linking references runs, when resolving each of them finds it. -/
theorem runs_linkCourse {courseOne : Loader σ → String → Course σ} {inside : UnitId}
    (hone : ∀ {loader : Loader σ}, Formed loader → ∀ name,
      Finds source loader name (courseOne loader name))
    (references : List String) {loader : Loader σ} (h : Formed loader)
    (hinside : inside < loader.names.length) :
    Runs source loader (linkCourse courseOne inside references loader).changes ∧
      ∀ id, (linkCourse courseOne inside references loader).answer = some (.ok id) →
        id = inside := by
  fun_induction linkCourse courseOne inside references loader with
  | case1 loader => exact ⟨.nil loader, fun id hid => by cases hid; rfl⟩
  | case2 reference references loader changes hcourse =>
    have hfinds := hcourse ▸ hone h reference
    exact ⟨hfinds.runs, fun id hid => nomatch hid⟩
  | case3 reference references loader changes fault hcourse =>
    have hfinds := hcourse ▸ hone h reference
    exact ⟨hfinds.runs.append (.cons (.brokenOff inside) (.nil _)), fun id hid => nomatch hid⟩
  | case4 reference references loader changes target hcourse first rest ih =>
    have hlinked := (hcourse ▸ hone h reference).runs_linked h hinside
    have hlength := (h.grows_changeAll hlinked).length_le
    obtain ⟨hrest, hanswer⟩ := ih (h.changeAll hlinked) (Nat.lt_of_lt_of_le hinside hlength)
    exact ⟨hlinked.append hrest, hanswer⟩

/-- What the course of a call can be: the name is cached, or it gets no unit, or it gets one whose
references are then linked. -/
theorem course_cases (source : Ambient σ) (depth : Nat) (loader : Loader σ) (name : String) :
    (∃ id, loader.idOf? name = some id ∧
      course source (depth + 1) loader name = ⟨[], some (.ok id)⟩) ∨
    (∃ next fault, Allowed source loader (.refused name next) ∧
      course source (depth + 1) loader name = ⟨[.refused name next], some (.error fault)⟩) ∨
    ∃ unit next rest, Allowed source loader (.loaded name unit next) ∧
      rest = linkCourse (course source depth) loader.pool.nextId unit.references
        (loader.change (.loaded name unit next)) ∧
      course source (depth + 1) loader name = ⟨.loaded name unit next :: rest.changes, rest.answer⟩
    := by
  rw [course]
  cases hid : loader.idOf? name with
  | some id => exact .inl ⟨id, rfl, rfl⟩
  | none =>
    have hnew : name ∉ loader.names := List.idxOf?_eq_none_iff.mp hid
    rcases hmade : loader.materialise source name with ⟨next, fault | unit⟩
    · exact .inr (.inl ⟨next.ambient, fault, .refused hnew hmade, rfl⟩)
    · exact .inr (.inr ⟨unit, next.ambient, _, .loaded hnew hmade, rfl, rfl⟩)

/-- The course of a call finds the name. -/
theorem finds_course (source : Ambient σ) (depth : Nat) {loader : Loader σ} (h : Formed loader)
    (name : String) : Finds source loader name (course source depth loader name) := by
  induction depth generalizing loader name with
  | zero => exact ⟨.nil loader, fun id hid => nomatch hid⟩
  | succ depth ih =>
    rcases course_cases source depth loader name with ⟨id, hid, hcourse⟩ |
      ⟨next, fault, hrefused, hcourse⟩ | ⟨unit, next, rest, hloaded, rfl, hcourse⟩ <;>
      rw [hcourse]
    · refine ⟨.nil loader, fun other hother => ?_⟩
      cases hother
      exact (idOf?_eq_some_iff h.nodup).mp hid
    · exact ⟨.cons hrefused (.nil _), fun id hid => nomatch hid⟩
    · have hnext := h.change hloaded
      obtain ⟨hrest, hanswer⟩ := runs_linkCourse (fun h => ih h) unit.references hnext
        (h.nextId_lt name unit next)
      refine ⟨.cons hloaded hrest, fun id hid => ?_⟩
      rw [hanswer id hid]
      -- the name of the new unit stands at its number, and stays there
      exact (hnext.grows_changeAll hrest).getElem? (h.getElem?_nextId name unit next)

/-- The changes of calls one after the other are a run. -/
theorem runs_changesOf (source : Ambient σ) (calls : List (Nat × String)) {loader : Loader σ}
    (h : Formed loader) : Runs source loader (changesOf source calls loader) := by
  induction calls generalizing loader with
  | nil => exact .nil loader
  | cons call calls ih =>
    have hruns := (finds_course source call.1 h call.2).runs
    rw [changesOf]
    rcases hcourse : course source call.1 loader call.2 with ⟨changes, _ | answer⟩ <;>
      rw [hcourse] at hruns
    · exact hruns
    · exact hruns.append (ih (h.changeAll hruns))

/-! ### Calls that end -/

/-- The loader after calls one after the other, with their answers; nothing if one of them does not
end. -/
def resolveEach (source : Ambient σ) :
    List (Nat × String) → Loader σ → Option (Loader σ × List (Except LoadFault UnitId))
  | [], loader => some (loader, [])
  | (depth, name) :: calls, loader =>
    match resolveFrom source depth loader name with
    | none => none
    | some (loader, answer) =>
      (resolveEach source calls loader).map fun (loader, answers) => (loader, answer :: answers)

/-- What one call of several does, when it ends: it is followed by the others. -/
theorem changesOf_cons {depth : Nat} {name : String} {calls : List (Nat × String)}
    {after : Loader σ} {answers : List (Except LoadFault UnitId)}
    (h : resolveEach source ((depth, name) :: calls) loader = some (after, answers)) :
    ∃ changes answer others, course source depth loader name = ⟨changes, some answer⟩ ∧
      resolveEach source calls (loader.changeAll changes) = some (after, others) ∧
      answers = answer :: others ∧
      changesOf source ((depth, name) :: calls) loader =
        changes ++ changesOf source calls (loader.changeAll changes) := by
  rw [resolveEach, resolveFrom_eq] at h
  rw [changesOf]
  rcases hcourse : course source depth loader name with ⟨changes, _ | answer⟩ <;>
    rw [hcourse] at h
  · cases h
  · obtain ⟨⟨between, others⟩, hrest, heq⟩ := Option.map_eq_some_iff.mp h
    cases heq
    exact ⟨changes, answer, others, rfl, hrest, rfl, rfl⟩

/-- Calls that end leave what their changes make of the loader. -/
theorem eq_changeAll_of_resolveEach {calls : List (Nat × String)} {after : Loader σ}
    {answers : List (Except LoadFault UnitId)}
    (h : resolveEach source calls loader = some (after, answers)) :
    after = loader.changeAll (changesOf source calls loader) := by
  induction calls generalizing loader answers with
  | nil =>
    cases h
    rfl
  | cons call calls ih =>
    obtain ⟨changes, answer, others, -, hrest, -, hchanges⟩ := changesOf_cons h
    rw [hchanges, changeAll_append]
    exact ih hrest

/-- The changes of calls that all end are followed by those of the calls behind them. -/
theorem changesOf_append {calls more : List (Nat × String)} {after : Loader σ}
    {answers : List (Except LoadFault UnitId)}
    (h : resolveEach source calls loader = some (after, answers)) :
    changesOf source (calls ++ more) loader =
      changesOf source calls loader ++ changesOf source more after := by
  induction calls generalizing loader answers with
  | nil =>
    cases h
    rfl
  | cons call calls ih =>
    obtain ⟨changes, answer, others, hcourse, hrest, -, hchanges⟩ := changesOf_cons h
    rw [hchanges, List.append_assoc, ← ih hrest, List.cons_append, changesOf, hcourse]

end Loader

end StackScript.Loading

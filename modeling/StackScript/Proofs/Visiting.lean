import StackScript.Proofs.Relabelling
import StackScript.Typing.Keeping

/-!
# Visiting the methods of a batch

A visit goes through the methods of a batch and changes each where it stands, along with a state. It
meets the methods in the order of the batch (`visitBatch_snd`), and leaves alone what is around the
classes (`frame_visitBatch`). If no step writes more than types and targets, the visit does not
either (`bare_visitBatch`); if no step reads what is written so, a visit of the bare batch comes to
the same state (`visitBatch_bare_snd`), and to the same classes if that state shows that nothing was
left of it (`classes_visitBatch_bare`).
-/

namespace StackScript.Syntax

open StackScript.Source

/-! ## What is around classes -/

/-- The item, unless it is a class. -/
def Item.loose? : Item → Option Item
  | .cls _ => none
  | item => some item

/-- What a unit has around its classes. -/
def Program.frame (program : Program) : String × Option Package × Span × List (Option Item) :=
  (program.source, program.package, program.span, program.items.map Item.loose?)

/-- Units with the same classes and the same around them are the same. -/
theorem Program.eq_of_frame {program other : Program} (hframe : program.frame = other.frame)
    (hclasses : program.classes = other.classes) : program = other := by
  have hitems : ∀ items others : List Item, items.map Item.loose? = others.map Item.loose? →
      items.filterMap Item.class? = others.filterMap Item.class? → items = others := by
    intro items
    induction items with
    | nil => exact fun others hloose _ => (List.map_eq_nil_iff.mp hloose.symm).symm
    | cons item rest ih =>
      rintro (_ | ⟨other, others⟩) hloose hclasses
      · cases hloose
      · obtain ⟨hhead, htail⟩ := List.cons.inj hloose
        cases item <;> cases other <;> cases hhead
        · obtain ⟨rfl, hmore⟩ := List.cons.inj hclasses
          rw [ih _ htail hmore]
        · rw [ih _ htail hclasses]
        · rw [ih _ htail hclasses]
  obtain ⟨source, package, items, span⟩ := program
  obtain ⟨source', package', items', span'⟩ := other
  simp only [Program.frame, Prod.mk.injEq] at hframe
  obtain ⟨rfl, rfl, rfl, hloose⟩ := hframe
  rw [hitems items items' hloose hclasses]

/-- Batches with the same classes and the same around them are the same. -/
theorem eq_of_frames {batch other : List Program}
    (hframe : batch.map Program.frame = other.map Program.frame)
    (hclasses : batch.map Program.classes = other.map Program.classes) : batch = other := by
  induction batch generalizing other with
  | nil => exact (List.map_eq_nil_iff.mp hframe.symm).symm
  | cons program rest ih =>
    cases other with
    | nil => cases hframe
    | cons first others =>
      obtain ⟨hfirst, hmore⟩ := List.cons.inj hframe
      obtain ⟨hsame, hothers⟩ := List.cons.inj hclasses
      rw [Program.eq_of_frame hfirst hsame, ih hmore hothers]

@[simp] theorem Program.classes_bareLoose (program : Program) :
    program.bareLoose.classes = program.classes := by
  rw [Program.classes, Program.bareLoose, List.filterMap_map, Program.classes]
  congr 1
  funext item
  cases item <;> rfl

/-- The bare unit has around its classes what the unit has there without types and targets. -/
theorem Program.frame_bare (program : Program) :
    (program.relabel bare).frame = program.bareLoose.frame := by
  have hloose : ∀ item : Item, (item.relabel bare).loose? = item.bareLoose.loose? := by
    intro item
    cases item <;> rfl
  simp only [Program.frame, Program.package_bare, Program.bareLoose]
  simp only [Program.relabel, List.map_map, Function.comp_def, hloose]
  rfl

/-- What is around classes, without types and targets. -/
def bareFrame (frame : String × Option Package × Span × List (Option Item)) :
    String × Option Package × Span × List (Option Item) :=
  (frame.1, frame.2.1, frame.2.2.1, frame.2.2.2.map (Option.map (Item.relabel bare)))

theorem Program.frame_bareLoose (program : Program) :
    program.bareLoose.frame = bareFrame program.frame := by
  have hloose : ∀ item : Item, item.bareLoose.loose? = item.loose?.map (Item.relabel bare) := by
    intro item
    cases item <;> rfl
  simp only [Program.frame, bareFrame, Program.bareLoose, List.map_map, Function.comp_def, hloose]

/-- Whether a unit has anything but classes can be seen around its classes. -/
theorem Program.isGathered_of_frame {program other : Program} (hframe : program.frame = other.frame)
    (h : Code.IsGathered other) : Code.IsGathered program := by
  simp only [Program.frame, Prod.mk.injEq] at hframe
  intro item hitem
  have hmem := List.mem_map_of_mem (f := Item.loose?) hitem
  rw [hframe.2.2.2] at hmem
  obtain ⟨item', hitem', hsame⟩ := List.mem_map.mp hmem
  obtain ⟨c, rfl⟩ := h item' hitem'
  cases item with
  | cls c => exact ⟨c, rfl⟩
  | _ => cases hsame

end StackScript.Syntax

namespace StackScript.Typing

open StackScript.Source StackScript.Syntax

section

variable {σ α β : Type} (visit : String → String → Method → σ → Method × σ)

/-! ## The state after a visit -/

/-- The state after a list is the state after all of its elements. -/
theorem visitList_snd (step : α → σ → α × σ) (xs : List α) (state : σ) :
    (visitList step xs state).2 = xs.foldl (fun state x => (step x state).2) state := by
  induction xs generalizing state with
  | nil => rfl
  | cons x rest ih =>
    rw [visitList, List.foldl_cons]
    exact ih _

/-- What one method does to the state. -/
def visitPlace (state : σ) (place : MethodPlace) : σ := (visit place.1 place.2.1 place.2.2 state).2

mutual

theorem visitClass_snd (file : String) (package : Option String) :
    ∀ (enclosing : Option String) (c : ClassDef) (state : σ),
      (visitClass visit file package enclosing c state).2 =
        (((declarations package enclosing c).map (file, ·)).filterMap Declaration.place?).foldl
          (visitPlace visit) state
  | _, .mk _ members _ _, state => visitMembers_snd file package _ members state

theorem visitMembers_snd (file : String) (package : Option String) :
    ∀ (cls : String) (members : List Member) (state : σ),
      (visitMembers visit file package cls members state).2 =
        (((memberDeclarations package cls members).map (file, ·)).filterMap
          Declaration.place?).foldl (visitPlace visit) state
  | _, [], _ => rfl
  | cls, .method m :: rest, state => by
    rw [visitMembers]
    exact visitMembers_snd file package cls rest _
  | cls, .nested c :: rest, state => by
    rw [visitMembers, memberDeclarations, List.map_append, List.filterMap_append,
      List.foldl_append, ← visitClass_snd file package (some cls) c]
    exact visitMembers_snd file package cls rest _

end

/-- A visit meets the methods of a batch in order. -/
theorem visitBatch_snd (batch : List Program) (state : σ) :
    (visitBatch visit batch state).2 = (batchMethods batch).foldl (visitPlace visit) state := by
  have hitem : ∀ (file : String) (package : Option String) (item : Item) (state : σ),
      (visitItem visit file package item state).2 =
        ((((item.class?.toList).flatMap (declarations package none)).map (file, ·)).filterMap
          Declaration.place?).foldl (visitPlace visit) state := by
    intro file package item state
    cases item with
    | cls c =>
      simp only [Item.class?, Option.toList_some, List.flatMap_cons, List.flatMap_nil,
        List.append_nil]
      exact visitClass_snd visit file package none c state
    | _ => rfl
  have hitems : ∀ (file : String) (package : Option String) (items : List Item) (state : σ),
      (visitList (visitItem visit file package) items state).2 =
        ((((items.filterMap Item.class?).flatMap (declarations package none)).map
          (file, ·)).filterMap Declaration.place?).foldl (visitPlace visit) state := by
    intro file package items state
    induction items generalizing state with
    | nil => rfl
    | cons item rest ih =>
      rw [visitList]
      simp only [ih, hitem, List.filterMap_cons]
      cases item.class? with
      | none => rfl
      | some c =>
        simp only [Option.toList_some, List.flatMap_cons, List.flatMap_nil, List.append_nil,
          List.map_append, List.filterMap_append, List.foldl_append]
  rw [visitBatch, visitList_snd, batchMethods, batchDeclarations]
  induction batch generalizing state with
  | nil => rfl
  | cons program rest ih =>
    rw [List.foldl_cons, ih, List.flatMap_cons, List.filterMap_append, List.foldl_append]
    congr 1
    exact hitems program.source program.packageName program.items state

/-- A visit of a bare batch leaves the same state, if no step reads types or targets. -/
theorem visitBatch_bare_snd
    (h : ∀ file cls m state, (visit file cls (m.relabel bare) state).2 = (visit file cls m state).2)
    (batch : List Program) (state : σ) :
    (visitBatch visit (batch.map (Program.relabel bare)) state).2 =
      (visitBatch visit batch state).2 := by
  rw [visitBatch_snd, visitBatch_snd, batchMethods_relabel, List.foldl_map]
  congr 1
  funext state place
  exact h place.1 place.2.1 place.2.2 state

/-! ## What a visit leaves alone -/

/-- What no single step shows of the elements does not show after a visit. -/
theorem visitList_map {Keeps : σ → Prop} {step : α → σ → α × σ} {shown : α → β}
    (h : ∀ x state, Keeps state → shown (step x state).1 = shown x ∧ Keeps (step x state).2)
    (xs : List α) {state : σ} (hstate : Keeps state) :
    (visitList step xs state).1.map shown = xs.map shown ∧
      Keeps (visitList step xs state).2 := by
  induction xs generalizing state with
  | nil => exact ⟨rfl, hstate⟩
  | cons x rest ih =>
    obtain ⟨hx, hnext⟩ := h x state hstate
    obtain ⟨hrest, hlast⟩ := ih hnext
    rw [visitList]
    refine ⟨?_, hlast⟩
    rw [List.map_cons, List.map_cons, hx, hrest]

/-- What no step shows of the elements, whatever the state, does not show after a visit. -/
theorem map_visitList {step : α → σ → α × σ} {shown : α → β}
    (h : ∀ x state, shown (step x state).1 = shown x) (xs : List α) (state : σ) :
    (visitList step xs state).1.map shown = xs.map shown := by
  have hstep : ∀ x state, True → shown (step x state).1 = shown x ∧ True :=
    fun x state _ => ⟨h x state, trivial⟩
  exact (visitList_map hstep xs trivial).1

/-- A visit leaves alone what is around the classes. -/
theorem frame_visitBatch (batch : List Program) (state : σ) :
    (visitBatch visit batch state).1.map Program.frame = batch.map Program.frame := by
  refine map_visitList (fun program state => ?_) batch state
  have hitem : ∀ (item : Item) (state : σ),
      (visitItem visit program.source program.packageName item state).1.loose? = item.loose? :=
    fun item state => by cases item <;> rfl
  simp only [visitUnit, Program.frame, map_visitList hitem program.items state]

mutual

/-- A visit of a class writes nothing but types and targets, if no step does. -/
theorem bare_visitClass
    (h : ∀ file cls m state, (visit file cls m state).1.relabel bare = m.relabel bare)
    (file : String) (package : Option String) :
    ∀ (enclosing : Option String) (c : ClassDef) (state : σ),
      (visitClass visit file package enclosing c state).1.relabel bare = c.relabel bare
  | _, .mk name members synthetic span, state => by
    rw [visitClass, ClassDef.relabel, ClassDef.relabel,
      bare_visitMembers h file package _ members]

theorem bare_visitMembers
    (h : ∀ file cls m state, (visit file cls m state).1.relabel bare = m.relabel bare)
    (file : String) (package : Option String) :
    ∀ (cls : String) (members : List Member) (state : σ),
      relabelMembers bare (visitMembers visit file package cls members state).1 =
        relabelMembers bare members
  | _, [], _ => rfl
  | cls, .method m :: rest, state => by
    rw [visitMembers, relabelMembers, relabelMembers, h,
      bare_visitMembers h file package cls rest]
  | cls, .nested c :: rest, state => by
    rw [visitMembers, relabelMembers, relabelMembers, bare_visitClass h file package _ c,
      bare_visitMembers h file package cls rest]

end

/-- A visit writes nothing but types and targets, if no step does. -/
theorem bare_visitBatch
    (h : ∀ file cls m state, (visit file cls m state).1.relabel bare = m.relabel bare)
    (batch : List Program) (state : σ) :
    (visitBatch visit batch state).1.map (Program.relabel bare) =
      batch.map (Program.relabel bare) := by
  refine map_visitList (fun program state => ?_) batch state
  have hitem : ∀ (file : String) (package : Option String) (item : Item) (state : σ),
      (visitItem visit file package item state).1.relabel bare = item.relabel bare := by
    intro file package item state
    cases item with
    | cls c => rw [visitItem, Item.relabel, Item.relabel, bare_visitClass visit h]
    | _ => rfl
  have hitems := map_visitList (hitem program.source program.packageName) program.items state
  simp only [visitUnit, Program.relabel, hitems]

/-! ## Two visits together -/

/-- What is declared in a class of a unit is declared in the batch. -/
theorem mem_batchDeclarations {batch : List Program} {program : Program}
    (hprogram : program ∈ batch) {c : ClassDef} (hc : c ∈ program.classes) {d : Declaration}
    (hd : d ∈ declarations program.packageName none c) :
    (program.source, d) ∈ batchDeclarations batch := by
  have hunit : (program.source, d) ∈ unitDeclarations program :=
    List.mem_map.mpr ⟨d, List.mem_flatMap.mpr ⟨c, hc, hd⟩, rfl⟩
  exact List.mem_flatMap.mpr ⟨program, hprogram, hunit⟩

section

variable {τ : Type} (other : String → String → Method → τ → Method × τ)

/-- Two visits of a declaration leave the same method, and states that are related as before. -/
def Together (Related : σ → τ → Prop) (file : String) : Declaration → Prop
  | .cls _ _ _ => True
  | .method cls m => ∀ state state', Related state state' →
      (visit file cls m state).1 = (other file cls m state').1 ∧
        Related (visit file cls m state).2 (other file cls m state').2

variable {Related : σ → τ → Prop}

/-- Two visits of a list go together if they do at every element. -/
theorem visitList_together {step : α → σ → α × σ} {step' : α → τ → α × τ} {xs : List α}
    (h : ∀ x ∈ xs, ∀ state state', Related state state' →
      (step x state).1 = (step' x state').1 ∧ Related (step x state).2 (step' x state').2)
    {state : σ} {state' : τ} (hstate : Related state state') :
    (visitList step xs state).1 = (visitList step' xs state').1 ∧
      Related (visitList step xs state).2 (visitList step' xs state').2 := by
  induction xs generalizing state state' with
  | nil => exact ⟨rfl, hstate⟩
  | cons x rest ih =>
    obtain ⟨hx, hmore⟩ := List.forall_mem_cons.mp h
    obtain ⟨hsame, hnext⟩ := hx state state' hstate
    obtain ⟨hrest, hlast⟩ := ih hmore hnext
    simp only [visitList, hsame, hrest]
    exact ⟨trivial, hlast⟩

mutual

theorem visitClass_together (file : String) (package : Option String) :
    ∀ (enclosing : Option String) (c : ClassDef) (state : σ) (state' : τ),
      (∀ d ∈ declarations package enclosing c, Together visit other Related file d) →
      Related state state' →
      (visitClass visit file package enclosing c state).1 =
          (visitClass other file package enclosing c state').1 ∧
        Related (visitClass visit file package enclosing c state).2
          (visitClass other file package enclosing c state').2
  | _, .mk name members synthetic span, state, state', h, hstate => by
    obtain ⟨hsame, hlast⟩ := visitMembers_together file package _ members state state'
      (List.forall_mem_cons.mp h).2 hstate
    simp only [visitClass, hsame]
    exact ⟨trivial, hlast⟩

theorem visitMembers_together (file : String) (package : Option String) :
    ∀ (cls : String) (members : List Member) (state : σ) (state' : τ),
      (∀ d ∈ memberDeclarations package cls members, Together visit other Related file d) →
      Related state state' →
      (visitMembers visit file package cls members state).1 =
          (visitMembers other file package cls members state').1 ∧
        Related (visitMembers visit file package cls members state).2
          (visitMembers other file package cls members state').2
  | _, [], _, _, _, hstate => ⟨rfl, hstate⟩
  | cls, .method m :: rest, state, state', h, hstate => by
    obtain ⟨hm, hmore⟩ := List.forall_mem_cons.mp h
    obtain ⟨hsame, hnext⟩ := hm state state' hstate
    obtain ⟨hrest, hlast⟩ := visitMembers_together file package cls rest _ _ hmore hnext
    simp only [visitMembers, hsame, hrest]
    exact ⟨trivial, hlast⟩
  | cls, .nested c :: rest, state, state', h, hstate => by
    obtain ⟨hc, hmore⟩ := List.forall_mem_append.mp h
    obtain ⟨hsame, hnext⟩ := visitClass_together file package (some cls) c state state' hc hstate
    obtain ⟨hrest, hlast⟩ := visitMembers_together file package cls rest _ _ hmore hnext
    simp only [visitMembers, hsame, hrest]
    exact ⟨trivial, hlast⟩

end

/-- Two visits that go together at every method leave the same batch, and related states. -/
theorem visitBatch_together {batch : List Program}
    (h : ∀ d ∈ batchDeclarations batch, Together visit other Related d.1 d.2) {state : σ}
    {state' : τ} (hstate : Related state state') :
    (visitBatch visit batch state).1 = (visitBatch other batch state').1 ∧
      Related (visitBatch visit batch state).2 (visitBatch other batch state').2 := by
  refine visitList_together (fun program hprogram state state' hstate => ?_) hstate
  have hitem : ∀ item ∈ program.items, ∀ state state', Related state state' →
      (visitItem visit program.source program.packageName item state).1 =
          (visitItem other program.source program.packageName item state').1 ∧
        Related (visitItem visit program.source program.packageName item state).2
          (visitItem other program.source program.packageName item state').2 := by
    intro item hitem state state' hstate
    cases item with
    | cls c =>
      have hclass : c ∈ program.classes := List.mem_filterMap.mpr ⟨.cls c, hitem, rfl⟩
      have hc : ∀ d ∈ declarations program.packageName none c,
          Together visit other Related program.source d := fun d hd =>
        h _ (mem_batchDeclarations hprogram hclass hd)
      obtain ⟨hsame, hnext⟩ := visitClass_together visit other program.source program.packageName
        none c state state' hc hstate
      simp only [visitItem, hsame]
      exact ⟨trivial, hnext⟩
    | _ => exact ⟨rfl, hstate⟩
  obtain ⟨hitems, hnext⟩ := visitList_together hitem hstate
  simp only [visitUnit, hitems]
  exact ⟨trivial, hnext⟩

end

/-! ## What a visit leaves in classes -/

section

variable {Fine : σ → Prop}

/-- If no step makes a state fine, a state is fine that leads to a fine one. -/
theorem fine_of_foldl {step : σ → α → σ} (hback : ∀ x state, Fine (step state x) → Fine state)
    (xs : List α) {state : σ} (h : Fine (xs.foldl step state)) : Fine state := by
  induction xs generalizing state with
  | nil => exact h
  | cons x rest ih => exact hback x state (ih h)

variable {Keeps : σ → Prop}

/-- Of two runs over a list that go through fine states only, one over other elements, the same is
shown, and they leave the same state. -/
theorem visitList_inStep {step : α → σ → α × σ} {other : α → α} {shown : α → β}
    (hback : ∀ x state, Fine (step x state).2 → Fine state) {xs : List α}
    (h : ∀ x ∈ xs, ∀ state, Keeps state → Fine (step x state).2 →
      shown (step (other x) state).1 = shown (step x state).1 ∧
        (step (other x) state).2 = (step x state).2 ∧ Keeps (step x state).2)
    {state : σ} (hkeeps : Keeps state) (hfine : Fine (visitList step xs state).2) :
    (visitList step (xs.map other) state).1.map shown = (visitList step xs state).1.map shown ∧
      (visitList step (xs.map other) state).2 = (visitList step xs state).2 ∧
      Keeps (visitList step xs state).2 := by
  induction xs generalizing state with
  | nil => exact ⟨rfl, rfl, hkeeps⟩
  | cons x rest ih =>
    obtain ⟨hx, hmore⟩ := List.forall_mem_cons.mp h
    have hnext : Fine (step x state).2 := by
      rw [visitList_snd] at hfine
      exact fine_of_foldl hback rest hfine
    obtain ⟨hshown, hsame, hkept⟩ := hx state hkeeps hnext
    obtain ⟨hrest, hlast, hend⟩ := ih hmore hkept hfine
    simp only [List.map_cons, visitList, hsame]
    exact ⟨by rw [hshown, hrest], hlast, hend⟩

/-- A visit that ends in a fine state went through fine states only. -/
theorem fine_of_places (hback : ∀ file cls m state, Fine (visit file cls m state).2 → Fine state)
    (places : List MethodPlace) {state : σ} (h : Fine (places.foldl (visitPlace visit) state)) :
    Fine state := by
  have hplace : ∀ place state, Fine (visitPlace visit state place) → Fine state :=
    fun place state => hback place.1 place.2.1 place.2.2 state
  exact fine_of_foldl hplace places h

/-- Visiting a declaration overwrites what it carries, if the state is fine after that. -/
def Overwritten (Keeps Fine : σ → Prop) (file : String) : Declaration → Prop
  | .cls _ _ _ => True
  | .method cls m => ∀ state, Keeps state → Keeps (visit file cls m state).2 ∧
      (Fine (visit file cls m state).2 →
        visit file cls (m.relabel bare) state = visit file cls m state)

mutual

/-- A visit of a class leaves the same as a visit of its bare form, if every method in it is
overwritten. -/
theorem visitClass_bare
    (hback : ∀ file cls m state, Fine (visit file cls m state).2 → Fine state)
    (file : String) (package : Option String) :
    ∀ (enclosing : Option String) (c : ClassDef) (state : σ),
      (∀ d ∈ declarations package enclosing c, Overwritten visit Keeps Fine file d) →
      Keeps state → Fine (visitClass visit file package enclosing c state).2 →
      visitClass visit file package enclosing (c.relabel bare) state =
          visitClass visit file package enclosing c state ∧
        Keeps (visitClass visit file package enclosing c state).2
  | enclosing, .mk name members synthetic span, state, h, hkeeps, hfine => by
    obtain ⟨hsame, hkept⟩ := visitMembers_bare hback file package
      (qualify package enclosing name.name) members state (List.forall_mem_cons.mp h).2 hkeeps hfine
    have hname : name.relabel bare = name := rfl
    refine ⟨?_, hkept⟩
    simp only [ClassDef.relabel, visitClass, hname, hsame]
    rfl

theorem visitMembers_bare
    (hback : ∀ file cls m state, Fine (visit file cls m state).2 → Fine state)
    (file : String) (package : Option String) :
    ∀ (cls : String) (members : List Member) (state : σ),
      (∀ d ∈ memberDeclarations package cls members, Overwritten visit Keeps Fine file d) →
      Keeps state → Fine (visitMembers visit file package cls members state).2 →
      visitMembers visit file package cls (relabelMembers bare members) state =
          visitMembers visit file package cls members state ∧
        Keeps (visitMembers visit file package cls members state).2
  | _, [], _, _, hkeeps, _ => ⟨rfl, hkeeps⟩
  | cls, .method m :: rest, state, h, hkeeps, hfine => by
    obtain ⟨hm, hmore⟩ := List.forall_mem_cons.mp h
    rw [visitMembers] at hfine
    obtain ⟨hkept, hsame⟩ := hm state hkeeps
    have hnext : Fine (visit file cls m state).2 := by
      rw [visitMembers_snd] at hfine
      exact fine_of_places visit hback _ hfine
    obtain ⟨hrest, hend⟩ := visitMembers_bare hback file package cls rest _ hmore hkept hfine
    simp only [relabelMembers, visitMembers, hsame hnext, hrest]
    exact ⟨trivial, hend⟩
  | cls, .nested c :: rest, state, h, hkeeps, hfine => by
    obtain ⟨hc, hmore⟩ := List.forall_mem_append.mp h
    rw [visitMembers] at hfine
    have hnext : Fine (visitClass visit file package (some cls) c state).2 := by
      rw [visitMembers_snd] at hfine
      exact fine_of_places visit hback _ hfine
    obtain ⟨hsame, hkept⟩ := visitClass_bare hback file package (some cls) c state hc hkeeps hnext
    obtain ⟨hrest, hend⟩ := visitMembers_bare hback file package cls rest _ hmore hkept hfine
    simp only [relabelMembers, visitMembers, hsame, hrest]
    exact ⟨trivial, hend⟩

end

/-- Visiting an item and visiting its bare form leaves the same class. -/
theorem class_visitItem_bare
    (hback : ∀ file cls m state, Fine (visit file cls m state).2 → Fine state) {file : String}
    {package : Option String} {item : Item}
    (h : ∀ c, item.class? = some c →
      ∀ d ∈ declarations package none c, Overwritten visit Keeps Fine file d)
    {state : σ} (hkeeps : Keeps state) (hfine : Fine (visitItem visit file package item state).2) :
    (visitItem visit file package (item.relabel bare) state).1.class? =
        (visitItem visit file package item state).1.class? ∧
      (visitItem visit file package (item.relabel bare) state).2 =
        (visitItem visit file package item state).2 ∧
      Keeps (visitItem visit file package item state).2 := by
  cases item with
  | cls c =>
    obtain ⟨hsame, hkept⟩ := visitClass_bare visit hback file package none c state (h c rfl) hkeeps
      hfine
    simp only [Item.relabel, visitItem, hsame]
    exact ⟨trivial, trivial, hkept⟩
  | _ => exact ⟨rfl, rfl, hkeeps⟩

/-- Visiting a batch and visiting its bare form leaves the same in the classes, if the state is fine
in the end. -/
theorem classes_visitBatch_bare
    (hback : ∀ file cls m state, Fine (visit file cls m state).2 → Fine state)
    {batch : List Program}
    (h : ∀ d ∈ batchDeclarations batch, Overwritten visit Keeps Fine d.1 d.2) {state : σ}
    (hkeeps : Keeps state) (hfine : Fine (visitBatch visit batch state).2) :
    (visitBatch visit (batch.map (Program.relabel bare)) state).1.map Program.classes =
      (visitBatch visit batch state).1.map Program.classes := by
  have hbackItem : ∀ (file : String) (package : Option String) (item : Item) (state : σ),
      Fine (visitItem visit file package item state).2 → Fine state := by
    intro file package item state hfine
    cases item with
    | cls c =>
      rw [visitItem, visitClass_snd] at hfine
      exact fine_of_places visit hback _ hfine
    | _ => exact hfine
  have hbackUnit : ∀ program state, Fine (visitUnit visit program state).2 → Fine state := by
    intro program state hfine
    rw [visitUnit, visitList_snd] at hfine
    exact fine_of_foldl (hbackItem program.source program.packageName) _ hfine
  have hclasses : ∀ items others : List Item, items.map Item.class? = others.map Item.class? →
      items.filterMap Item.class? = others.filterMap Item.class? := by
    intro items others hsame
    simpa only [List.filterMap_map, Function.id_comp] using congrArg (List.filterMap id) hsame
  refine (visitList_inStep hbackUnit (fun program hprogram state hkeeps hfine => ?_) hkeeps hfine).1
  have hitem : ∀ item ∈ program.items, ∀ c, item.class? = some c →
      ∀ d ∈ declarations program.packageName none c,
        Overwritten visit Keeps Fine program.source d := by
    intro item hitem c hc d hd
    have hclass : c ∈ program.classes := List.mem_filterMap.mpr ⟨item, hitem, hc⟩
    exact h _ (mem_batchDeclarations hprogram hclass hd)
  obtain ⟨hshown, hsame, hkept⟩ := visitList_inStep
    (hbackItem program.source program.packageName)
    (fun item hmem state hkeeps hfine =>
      class_visitItem_bare visit hback (hitem item hmem) hkeeps hfine)
    hkeeps hfine
  have hpackage : (program.relabel bare).packageName = program.packageName :=
    Program.packageName_relabel bare program
  simp only [visitUnit, hpackage]
  exact ⟨hclasses _ _ hshown, hsame, hkept⟩

end

end

end StackScript.Typing

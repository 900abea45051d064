import StackScript.Syntax.Script

/-!
# What gathering keeps

A unit is sifted into its classes, its loose methods and its loose statements (`Sifted`). Gathering
makes members out of the loose code (`Collected`): the methods, now static, and behind them one
`main` with all statements when there are any. The first class with the name of the script class
takes the members in at its end, or a new class stands in front of the others (`TakenIn`); all other
classes stay as they are. Nothing is lost, doubled or moved, and gathering again changes nothing
(`gather_conserves_code`).
-/

namespace StackScript.Syntax

open StackScript.Source

/-! ## Kinds of items -/

/-- The items of a unit are the given classes, methods and statements, each kind in its order. -/
inductive Sifted : List Item → List ClassDef → List Method → List Stmt → Prop where
  | nil : Sifted [] [] [] []
  | cls {items : List Item} {classes : List ClassDef} {methods : List Method} {stmts : List Stmt}
    (c : ClassDef) (rest : Sifted items classes methods stmts) :
    Sifted (.cls c :: items) (c :: classes) methods stmts
  | method {items : List Item} {classes : List ClassDef} {methods : List Method}
    {stmts : List Stmt} (m : Method) (rest : Sifted items classes methods stmts) :
    Sifted (.method m :: items) classes (m :: methods) stmts
  | stmt {items : List Item} {classes : List ClassDef} {methods : List Method} {stmts : List Stmt}
    (s : Stmt) (rest : Sifted items classes methods stmts) :
    Sifted (.stmt s :: items) classes methods (s :: stmts)

/-- The method of a class instead of its objects. -/
def Method.static (m : Method) : Method := { m with isStatic := true }

/-- The method is `self.main(args: String[]): void` with the given statements as its body. -/
structure IsMain (stmts : List Stmt) (m : Method) : Prop where
  name : m.name.name = "main"
  isStatic : m.isStatic = true
  params : m.params.map (fun p => (p.name.name, p.type.name, p.type.dims)) = [("args", "String", 1)]
  ret : m.ret.map (fun ref => (ref.name, ref.dims)) = some ("void", 0)
  stmts : m.body.stmts = stmts
  retType : m.retType = none

/-- The members that loose methods and statements make: without statements there is no `main`. -/
inductive Collected (methods : List Method) : List Stmt → List Member → Prop where
  | noMain : Collected methods [] (methods.map fun m => .method m.static)
  | withMain {stmts : List Stmt} {main : Method} (hstmts : stmts ≠ []) (hmain : IsMain stmts main) :
    Collected methods stmts (methods.map (fun m => .method m.static) ++ [.method main])

/-- The members were taken in by the first class of the name, at its end, or by a new class in front
of all others when there is none of that name. -/
inductive TakenIn (name : String) (members : List Member) :
    List ClassDef → List ClassDef → Prop where
  | own {front back : List ClassDef} {c : ClassDef} (hfront : ∀ d ∈ front, d.name.name ≠ name)
    (hname : c.name.name = name) :
    TakenIn name members (front ++ c :: back)
      (front ++ .mk c.name (c.members ++ members) c.synthetic c.span :: back)
  | fresh {classes : List ClassDef} {made : ClassDef} (hnone : ∀ d ∈ classes, d.name.name ≠ name)
    (hname : made.name.name = name) (hmembers : made.members = members)
    (hsynthetic : made.synthetic = true) : TakenIn name members classes (made :: classes)

/-! ## Sifting -/

/-- The loose methods among items. -/
def looseMethods (items : List Item) : List Method :=
  items.filterMap fun item =>
    match item with
    | .method m => some m
    | .cls _ | .stmt _ => none

/-- Filtering the items of each kind sifts them. -/
theorem sifted (items : List Item) :
    Sifted items (items.filterMap Item.class?) (looseMethods items)
      (items.filterMap Item.stmt?) := by
  induction items with
  | nil => exact .nil
  | cons item items ih =>
    cases item with
    | cls c => exact .cls c ih
    | method m => exact .method m ih
    | stmt s => exact .stmt s ih

theorem looseMethod?_eq (items : List Item) :
    items.filterMap Item.looseMethod? = (looseMethods items).map fun m => .method m.static := by
  induction items with
  | nil => rfl
  | cons item items ih =>
    cases item with
    | cls c => exact ih
    | method m => exact congrArg _ ih
    | stmt s => exact ih

theorem mergeAll_eq_none {spans : List Span} : mergeAll spans = none ↔ spans = [] := by
  cases spans with
  | nil => exact ⟨fun _ => rfl, fun _ => rfl⟩
  | cons span spans => exact ⟨nofun, nofun⟩

/-- There are spans of loose code exactly when there is loose code. -/
theorem looseSpans_eq_nil {items : List Item} :
    items.filterMap Item.looseSpan? = [] ↔
      looseMethods items = [] ∧ items.filterMap Item.stmt? = [] := by
  induction items with
  | nil => exact ⟨fun _ => ⟨rfl, rfl⟩, fun _ => rfl⟩
  | cons item items ih =>
    cases item with
    | cls c => exact ih
    | method m => exact ⟨nofun, nofun⟩
    | stmt s => exact ⟨nofun, nofun⟩

/-! ## Taking in -/

theorem isMain_mainMethod (stmts : List Stmt) (span : Span) :
    IsMain stmts (mainMethod stmts span) := ⟨rfl, rfl, rfl, rfl, rfl, rfl⟩

/-- The members that gathering makes are the loose methods and a main method of the statements. -/
theorem collected_scriptMembers (items : List Item) (span : Span) :
    Collected (looseMethods items) (items.filterMap Item.stmt?) (scriptMembers items span) := by
  unfold scriptMembers
  dsimp only
  rw [looseMethod?_eq]
  cases hstmts : items.filterMap Item.stmt? with
  | nil =>
    rw [List.isEmpty_nil, if_pos rfl, List.append_nil]
    exact .noMain
  | cons s rest => exact .withMain (List.cons_ne_nil s rest) (isMain_mainMethod (s :: rest) span)

theorem extendClass?_eq_none {name : String} {members : List Member} {classes : List ClassDef} :
    extendClass? name members classes = none ↔ ∀ d ∈ classes, d.name.name ≠ name := by
  induction classes with
  | nil => exact ⟨fun _ => nofun, fun _ => rfl⟩
  | cons c rest ih =>
    rw [extendClass?, List.forall_mem_cons]
    split
    · rename_i hname
      exact ⟨nofun, fun h => absurd hname h.1⟩
    · rename_i hname
      rw [Option.map_eq_none_iff, ih]
      exact ⟨fun h => ⟨hname, h⟩, And.right⟩

theorem takenIn_of_extendClass? {name : String} {members : List Member}
    {classes extended : List ClassDef} (h : extendClass? name members classes = some extended) :
    TakenIn name members classes extended := by
  -- the classes before the one that takes the members in are met first
  suffices hsplit : ∃ front c back, classes = front ++ c :: back ∧
      (∀ d ∈ front, d.name.name ≠ name) ∧ c.name.name = name ∧
      extended = front ++ c.extend members :: back by
    obtain ⟨front, c, back, rfl, hfront, hname, rfl⟩ := hsplit
    exact .own hfront hname
  induction classes generalizing extended with
  | nil => cases h
  | cons c rest ih =>
    rw [extendClass?] at h
    split at h
    · rename_i hname
      cases h
      exact ⟨[], c, rest, rfl, nofun, hname, rfl⟩
    · rename_i hname
      obtain ⟨more, hmore, rfl⟩ := Option.map_eq_some_iff.mp h
      obtain ⟨front, d, back, rfl, hfront, hown, rfl⟩ := ih hmore
      exact ⟨c :: front, d, back, rfl, List.forall_mem_cons.mpr ⟨hname, hfront⟩, hown, rfl⟩

/-- Without loose code the classes stay, and else one of them or a new one takes it in. -/
theorem takenIn_gatherItems (name : String) (items : List Item) :
    ∃ members,
      Collected (looseMethods items) (items.filterMap Item.stmt?) members ∧
      if looseMethods items = [] ∧ items.filterMap Item.stmt? = [] then
        gatherItems name items = items.filterMap Item.class?
      else TakenIn name members (items.filterMap Item.class?) (gatherItems name items) := by
  unfold gatherItems
  dsimp only
  cases hspan : mergeAll (items.filterMap Item.looseSpan?) with
  | none =>
    have hnone := looseSpans_eq_nil.mp (mergeAll_eq_none.mp hspan)
    refine ⟨_, collected_scriptMembers items default, ?_⟩
    rw [if_pos hnone]
  | some span =>
    have hsome : ¬ (looseMethods items = [] ∧ items.filterMap Item.stmt? = []) := by
      intro hnone
      rw [mergeAll_eq_none.mpr (looseSpans_eq_nil.mpr hnone)] at hspan
      cases hspan
    refine ⟨_, collected_scriptMembers items span, ?_⟩
    rw [if_neg hsome]
    cases hextended : extendClass? name (scriptMembers items span)
      (items.filterMap Item.class?) with
    | none =>
      dsimp only
      rw [hextended]
      exact .fresh (extendClass?_eq_none.mp hextended) rfl rfl rfl
    | some extended =>
      dsimp only
      rw [hextended]
      exact takenIn_of_extendClass? hextended

/-! ## Gathering -/

/-- A unit that holds only classes is gathered already. -/
theorem gather_of_classes {program : Program} {classes : List ClassDef}
    (h : program.items = classes.map .cls) : program.gather = program := by
  have hloose : program.items.filterMap Item.looseSpan? = [] := by
    rw [h, List.filterMap_map]
    exact List.filterMap_eq_nil_iff.mpr fun c _ => rfl
  have hclasses : program.items.filterMap Item.class? = classes := by
    rw [h, List.filterMap_map]
    exact List.filterMap_some
  unfold Program.gather gatherItems
  rw [hloose, hclasses]
  dsimp only [mergeAll]
  rw [← h]

/-- A gathered unit holds nothing but classes: its own ones in their order, one of them or a new one
with the loose methods and statements as members, and none changed when there is no loose code. All
else about the unit stays, and to gather it again changes nothing. -/
theorem gather_conserves_code (program : Program) :
    ∃ classes methods stmts members gathered,
      Sifted program.items classes methods stmts ∧
      Collected methods stmts members ∧
      (if methods = [] ∧ stmts = [] then gathered = classes
        else TakenIn (scriptClassName program.source) members classes gathered) ∧
      program.gather = { program with items := gathered.map .cls } ∧
      program.gather.gather = program.gather := by
  obtain ⟨members, hmembers, hgathered⟩ :=
    takenIn_gatherItems (scriptClassName program.source) program.items
  exact ⟨_, _, _, members, _, sifted program.items, hmembers, hgathered, rfl,
    gather_of_classes rfl⟩

end StackScript.Syntax

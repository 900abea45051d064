import StackScript.Code.Generate
import StackScript.Proofs.Batches

/-!
# Class definitions

The class definitions of a batch in the order in which class files are made for them, an outer
class before those nested in it. Making class files is making one for each definition, up to the
first fault (`unitClassFiles_eq`), and the methods of a definition are those that are declared
under its name (`mem_unitDeclarations_iff`).
-/

namespace StackScript.Code

open StackScript.Source StackScript.Syntax StackScript.Typing

/-- A class definition of the unit `file` with the qualified name of the class. -/
structure Definition where
  file : String
  name : String
  cls : ClassDef

/-- The class file of a definition. -/
def Definition.classFile (options : Options) (d : Definition) : Except CodeFault ClassFile :=
  Code.classFile options d.file d.name d.cls

mutual

/-- The definitions of a class and of the classes nested in it. -/
def definitions (file : String) (package enclosing : Option String) :
    ClassDef → List Definition
  | .mk name members synthetic span =>
    let qualified := qualify package enclosing name.name
    ⟨file, qualified, .mk name members synthetic span⟩
      :: memberDefinitions file package qualified members

/-- The definitions among the members of the class `outer`. -/
def memberDefinitions (file : String) (package : Option String) (outer : String) :
    List Member → List Definition
  | [] => []
  | .method _ :: rest => memberDefinitions file package outer rest
  | .nested c :: rest =>
    definitions file package (some outer) c ++ memberDefinitions file package outer rest

end

/-- The definitions of a unit. -/
def unitDefinitions (program : Program) : List Definition :=
  program.classes.flatMap (definitions program.source program.packageName none)

/-- The definitions of a batch. -/
def batchDefinitions (batch : List Program) : List Definition := batch.flatMap unitDefinitions

/-! ## Making one after another -/

namespace Made

variable {α β : Type}

/-- What is made of each item in order, up to the first fault. -/
def each (make : α → Except CodeFault β) : List α → Made β
  | [] => nothing
  | a :: rest => (ofExcept (make a)).andThen (each make rest)

theorem each_append (make : α → Except CodeFault β) (xs ys : List α) :
    each make (xs ++ ys) = (each make xs).andThen (each make ys) := by
  induction xs with
  | nil => rfl
  | cons x rest ih =>
    rw [List.cons_append, each, each, ih]
    cases make x with
    | error fault => rfl
    | ok b =>
      simp only [ofExcept, andThen]
      split <;> simp_all

/-- Nothing is at fault exactly when every item can be made. -/
theorem fault_each {make : α → Except CodeFault β} {xs : List α} :
    (each make xs).fault = none ↔ ∀ x ∈ xs, ∃ b, make x = .ok b := by
  induction xs with
  | nil => simp [each, nothing]
  | cons x rest ih =>
    rw [each, List.forall_mem_cons, ← ih]
    cases make x with
    | error fault => simp [ofExcept, failed, andThen]
    | ok b => simp [ofExcept, andThen]

/-- When nothing is at fault, what is made is what comes of each item, in order. -/
theorem made_each {make : α → Except CodeFault β} {xs : List α}
    (h : (each make xs).fault = none) : xs.map make = (each make xs).made.map .ok := by
  induction xs with
  | nil => rfl
  | cons x rest ih =>
    obtain ⟨b, hb⟩ := fault_each.mp h x List.mem_cons_self
    have hrest : (each make rest).fault = none :=
      fault_each.mpr fun y hy => fault_each.mp h y (List.mem_cons_of_mem _ hy)
    rw [List.map_cons, ih hrest, each, hb]
    simp [ofExcept, andThen]

/-- When nothing is at fault, what is made is what comes of the items. -/
theorem mem_made_each {make : α → Except CodeFault β} {xs : List α}
    (h : (each make xs).fault = none) {b : β} :
    b ∈ (each make xs).made ↔ ∃ x ∈ xs, make x = .ok b := by
  have hmade := made_each h
  constructor
  · intro hb
    have hmem : Except.ok b ∈ xs.map make := by
      rw [hmade]
      exact List.mem_map_of_mem hb
    exact List.mem_map.mp hmem
  · rintro ⟨x, hx, hxb⟩
    have hmem : Except.ok b ∈ (each make xs).made.map (Except.ok (ε := CodeFault)) := by
      rw [← hmade, ← hxb]
      exact List.mem_map_of_mem hx
    obtain ⟨found, hfound, heq⟩ := List.mem_map.mp hmem
    exact Except.ok.inj heq ▸ hfound

end Made

/-! ## The class files of definitions -/

mutual

theorem classFiles_eq (options : Options) (file : String) (package : Option String) :
    ∀ (enclosing : Option String) (c : ClassDef),
      classFiles options file package enclosing c
        = Made.each (Definition.classFile options) (definitions file package enclosing c)
  | enclosing, .mk name members synthetic span => by
    rw [classFiles, definitions, Made.each, nestedClassFiles_eq options file package]
    rfl

theorem nestedClassFiles_eq (options : Options) (file : String) (package : Option String) :
    ∀ (outer : String) (members : List Member),
      nestedClassFiles options file package outer members
        = Made.each (Definition.classFile options) (memberDefinitions file package outer members)
  | _, [] => rfl
  | outer, .method _ :: rest => by
    rw [nestedClassFiles, memberDefinitions, nestedClassFiles_eq options file package outer rest]
  | outer, .nested c :: rest => by
    rw [nestedClassFiles, memberDefinitions, Made.each_append,
      classFiles_eq options file package (some outer) c,
      nestedClassFiles_eq options file package outer rest]

end

/-- The unit holds nothing but classes. -/
def IsGathered (program : Program) : Prop :=
  ∀ item ∈ program.items, ∃ c, item = .cls c

/-- The class files of a unit without loose code are those of its definitions. -/
theorem unitClassFiles_eq (options : Options) {program : Program}
    (h : IsGathered program) :
    unitClassFiles options program
      = Made.each (Definition.classFile options) (unitDefinitions program) := by
  obtain ⟨source, package, items, span⟩ := program
  simp only [unitClassFiles, unitDefinitions, Program.classes, Program.packageName]
  simp only [IsGathered] at h
  -- each item is a class; its files come before those of the items that follow
  induction items with
  | nil => rfl
  | cons item rest ih =>
    obtain ⟨c, rfl⟩ := h item List.mem_cons_self
    rw [itemsClassFiles, ih fun item hitem => h item (List.mem_cons_of_mem _ hitem)]
    simp only [List.filterMap_cons, Item.class?, List.flatMap_cons, Made.each_append,
      itemClassFiles, classFiles_eq]

/-- Class files come without a fault only of units without loose code. -/
theorem isGathered_of_fault {options : Options} {program : Program}
    (h : (unitClassFiles options program).fault = none) : IsGathered program := by
  obtain ⟨source, package, items, span⟩ := program
  simp only [unitClassFiles, Program.packageName] at h
  simp only [IsGathered]
  induction items with
  | nil => simp
  | cons item rest ih =>
    rw [itemsClassFiles] at h
    -- the first fault is the fault of the whole, so neither this item nor the rest has one
    have hitem : (itemClassFiles options source (package.map Package.name) item).fault = none := by
      unfold Made.andThen at h
      split at h
      · exact h
      · assumption
    have hrest : (itemsClassFiles options source (package.map Package.name) rest).fault = none := by
      unfold Made.andThen at h
      rw [hitem] at h
      exact h
    refine List.forall_mem_cons.mpr ⟨?_, ih hrest⟩
    -- loose code has no class to go to, which is a fault
    cases item with
    | cls c => exact ⟨c, rfl⟩
    | method m => cases hitem
    | stmt s => cases hitem

/-- Without a fault, the class files of a unit are those of its definitions. -/
theorem mem_unitClassFiles {options : Options} {program : Program}
    (h : (unitClassFiles options program).fault = none) {file : ClassFile} :
    file ∈ (unitClassFiles options program).made ↔
      ∃ d ∈ unitDefinitions program, d.classFile options = .ok file := by
  have heq := unitClassFiles_eq options (isGathered_of_fault h)
  rw [heq] at h ⊢
  exact Made.mem_made_each h

/-! ## Definitions and declarations -/

mutual

theorem mem_declarations_iff (file : String) (package : Option String) (cls : String)
    (m : Method) : ∀ (enclosing : Option String) (c : ClassDef),
      Declaration.method cls m ∈ declarations package enclosing c ↔
        ∃ d ∈ definitions file package enclosing c, d.name = cls ∧ m ∈ d.cls.methods
  | enclosing, .mk name members synthetic span => by
    have h := mem_memberDeclarations_iff file package cls m
      (qualify package enclosing name.name) members
    simp only [declarations, definitions, List.mem_cons, reduceCtorEq, false_or, h,
      exists_eq_or_imp]
    rfl

theorem mem_memberDeclarations_iff (file : String) (package : Option String) (cls : String)
    (m : Method) : ∀ (outer : String) (members : List Member),
      Declaration.method cls m ∈ memberDeclarations package outer members ↔
        (outer = cls ∧ m ∈ members.filterMap Member.method?) ∨
        ∃ d ∈ memberDefinitions file package outer members, d.name = cls ∧ m ∈ d.cls.methods
  | _, [] => by simp [memberDeclarations, memberDefinitions]
  | outer, .method other :: rest => by
    have h := mem_memberDeclarations_iff file package cls m outer rest
    simp only [memberDeclarations, memberDefinitions, List.mem_cons, List.filterMap_cons,
      Member.method?, Declaration.method.injEq, h]
    constructor
    · rintro (⟨rfl, rfl⟩ | ⟨rfl, hm⟩ | hd)
      · exact .inl ⟨rfl, .inl rfl⟩
      · exact .inl ⟨rfl, .inr hm⟩
      · exact .inr hd
    · rintro (⟨rfl, rfl | hm⟩ | hd)
      · exact .inl ⟨rfl, rfl⟩
      · exact .inr (.inl ⟨rfl, hm⟩)
      · exact .inr (.inr hd)
  | outer, .nested c :: rest => by
    have hc := mem_declarations_iff file package cls m (some outer) c
    have h := mem_memberDeclarations_iff file package cls m outer rest
    simp only [memberDeclarations, memberDefinitions, List.mem_append, List.filterMap_cons,
      Member.method?, h, hc, or_and_right, exists_or]
    constructor
    · rintro (hd | hm | hd)
      · exact .inr (.inl hd)
      · exact .inl hm
      · exact .inr (.inr hd)
    · rintro (hm | hd | hd)
      · exact .inr (.inl hm)
      · exact .inl hd
      · exact .inr (.inr hd)

end

/-- The methods declared under a name are those of the definitions of that name. -/
theorem mem_unitDeclarations_iff {program : Program} {file cls : String} {m : Method} :
    (file, Declaration.method cls m) ∈ unitDeclarations program ↔
      file = program.source ∧
        ∃ d ∈ unitDefinitions program, d.name = cls ∧ m ∈ d.cls.methods := by
  simp only [unitDeclarations, unitDefinitions, List.mem_map, List.mem_flatMap, Prod.mk.injEq]
  constructor
  · rintro ⟨d, ⟨c, hc, hd⟩, hfile, rfl⟩
    obtain ⟨e, he, hname, hm⟩ := (mem_declarations_iff program.source _ _ _ _ c).mp hd
    exact ⟨hfile.symm, e, ⟨c, hc, he⟩, hname, hm⟩
  · rintro ⟨rfl, e, ⟨c, hc, he⟩, hname, hm⟩
    have hdeclared := (mem_declarations_iff program.source _ _ _ _ c).mpr ⟨e, he, hname, hm⟩
    exact ⟨_, ⟨c, hc, hdeclared⟩, rfl, rfl⟩

theorem mem_batchDeclarations_of_definition {batch : List Program} {d : Definition}
    (hd : d ∈ batchDefinitions batch) {m : Method} (hm : m ∈ d.cls.methods) :
    ∃ file, (file, Declaration.method d.name m) ∈ batchDeclarations batch := by
  obtain ⟨program, hprogram, hd⟩ := List.mem_flatMap.mp hd
  exact ⟨program.source, List.mem_flatMap.mpr ⟨program, hprogram,
    mem_unitDeclarations_iff.mpr ⟨rfl, d, hd, rfl, hm⟩⟩⟩

theorem definition_of_mem_batchDeclarations {batch : List Program} {file cls : String}
    {m : Method} (h : (file, Declaration.method cls m) ∈ batchDeclarations batch) :
    ∃ d ∈ batchDefinitions batch, d.name = cls ∧ m ∈ d.cls.methods := by
  obtain ⟨program, hprogram, hm⟩ := List.mem_flatMap.mp h
  obtain ⟨-, d, hd, hname, hm⟩ := mem_unitDeclarations_iff.mp hm
  exact ⟨d, List.mem_flatMap.mpr ⟨program, hprogram, hd⟩, hname, hm⟩

/-- The name of the class, if the declaration is one. -/
def className? : Declaration → Option String
  | .cls name _ _ => some name
  | .method _ _ => none

mutual

theorem names_definitions (file : String) (package : Option String) :
    ∀ (enclosing : Option String) (c : ClassDef),
      (definitions file package enclosing c).map Definition.name
        = (declarations package enclosing c).filterMap className?
  | enclosing, .mk name members synthetic span => by
    rw [definitions, declarations, List.map_cons, names_memberDefinitions file package]
    rfl

theorem names_memberDefinitions (file : String) (package : Option String) :
    ∀ (outer : String) (members : List Member),
      (memberDefinitions file package outer members).map Definition.name
        = (memberDeclarations package outer members).filterMap className?
  | _, [] => rfl
  | outer, .method _ :: rest => by
    rw [memberDefinitions, memberDeclarations, names_memberDefinitions file package outer rest]
    rfl
  | outer, .nested c :: rest => by
    rw [memberDefinitions, memberDeclarations, List.map_append, List.filterMap_append,
      names_definitions file package (some outer) c,
      names_memberDefinitions file package outer rest]

end

/-- The classes that a batch defines are those that it declares. -/
theorem names_batchDefinitions (batch : List Program) :
    (batchDefinitions batch).map Definition.name
      = (batchDeclarations batch).filterMap fun d => className? d.2 := by
  simp only [batchDefinitions, batchDeclarations, unitDefinitions, unitDeclarations,
    List.map_flatMap, List.filterMap_flatMap, List.filterMap_map, names_definitions]
  rfl

/-- Inference changes no class name. -/
theorem names_infer (externals : Externals) (batch : List Program) :
    (batchDefinitions (infer externals batch).batch).map Definition.name
      = (batchDefinitions batch).map Definition.name := by
  rw [names_batchDefinitions, names_batchDefinitions, batchDeclarations_infer,
    List.filterMap_map]
  -- typing a method keeps its declaration a method, and a class keeps its name
  congr 1
  funext ⟨file, d⟩
  cases d <;> rfl

end StackScript.Code

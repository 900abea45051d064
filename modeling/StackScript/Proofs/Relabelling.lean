import StackScript.Proofs.Definitions

/-!
# Trees up to their labels

A syntax tree carries labels that are no part of what is written: the spans of its nodes, the types
of expressions and methods, and the classes that calls go to. `Relabel` changes labels all over a
tree and nothing else. `bare` takes away what inference finds out. Trees with the same bare form
differ only in what was written into them.
-/

namespace StackScript.Syntax

open StackScript.Source

/-- A change of the labels of a tree. -/
structure Relabel where
  /-- What becomes of a span. -/
  span : Span → Span := id
  /-- What becomes of the type of an expression or a method. -/
  type : Option Ty → Option Ty := id
  /-- What becomes of the class that a call goes to. -/
  target : Option String → Option String := id

/-- Takes away the types and the targets of calls. -/
def bare : Relabel where
  type _ := none
  target _ := none

/-! ## Relabelling trees -/

section

variable (r : Relabel)

/-- The name with other labels. -/
def Ident.relabel (ident : Ident) : Ident := { ident with span := r.span ident.span }

/-- The written type with other labels. -/
def TypeRef.relabel (ref : TypeRef) : TypeRef := { ref with span := r.span ref.span }

/-- The note with other labels. -/
def Note.relabel (note : Note) : Note := ⟨r.span note.span, r.type note.type⟩

/-- The parameter with other labels. -/
def Param.relabel (param : Param) : Param :=
  ⟨param.name.relabel r, param.type.relabel r, r.span param.span⟩

mutual

/-- The expression with other labels. -/
def Expr.relabel : Expr → Expr
  | .int value note => .int value (note.relabel r)
  | .bool value note => .bool value (note.relabel r)
  | .string value note => .string value (note.relabel r)
  | .var name note => .var (name.relabel r) (note.relabel r)
  | .call receiver method args target note =>
    .call (receiver.map (Ident.relabel r)) (method.relabel r) (relabelExprs args)
      (r.target target) (note.relabel r)
  | .index array position note => .index array.relabel position.relabel (note.relabel r)
  | .length value note => .length value.relabel (note.relabel r)
  | .unary op operand note => .unary op operand.relabel (note.relabel r)
  | .binary op left right note => .binary op left.relabel right.relabel (note.relabel r)

/-- The expressions with other labels. -/
def relabelExprs : List Expr → List Expr
  | [] => []
  | e :: es => e.relabel :: relabelExprs es

end

mutual

/-- The statement with other labels. -/
def Stmt.relabel : Stmt → Stmt
  | .expr value span => .expr (value.relabel r) (r.span span)
  | .assign target value span => .assign (target.relabel r) (value.relabel r) (r.span span)
  | .cond chain span => .cond chain.relabel (r.span span)
  | .loop condition body span => .loop (condition.relabel r) body.relabel (r.span span)
  | .ret (some value) span => .ret (some (value.relabel r)) (r.span span)
  | .ret none span => .ret none (r.span span)
  | .puts value span => .puts (value.relabel r) (r.span span)
  | .raise value span => .raise (value.relabel r) (r.span span)

/-- The block with other labels. -/
def Block.relabel : Block → Block
  | .mk stmts span => .mk (relabelStmts stmts) (r.span span)

/-- The statements with other labels. -/
def relabelStmts : List Stmt → List Stmt
  | [] => []
  | stmt :: stmts => stmt.relabel :: relabelStmts stmts

/-- The branches with other labels. -/
def Chain.relabel : Chain → Chain
  | .done => .done
  | .otherwise body => .otherwise body.relabel
  | .branch condition body rest => .branch (condition.relabel r) body.relabel rest.relabel

end

/-- The method with other labels. -/
def Method.relabel (m : Method) : Method where
  name := m.name.relabel r
  isStatic := m.isStatic
  params := m.params.map (Param.relabel r)
  ret := m.ret.map (TypeRef.relabel r)
  body := m.body.relabel r
  span := r.span m.span
  retType := r.type m.retType

mutual

/-- The class with other labels. -/
def ClassDef.relabel : ClassDef → ClassDef
  | .mk name members synthetic span =>
    .mk (name.relabel r) (relabelMembers members) synthetic (r.span span)

/-- The members with other labels. -/
def relabelMembers : List Member → List Member
  | [] => []
  | .method m :: members => .method (m.relabel r) :: relabelMembers members
  | .nested c :: members => .nested c.relabel :: relabelMembers members

end

/-- The item with other labels. -/
def Item.relabel : Item → Item
  | .cls c => .cls (c.relabel r)
  | .method m => .method (m.relabel r)
  | .stmt s => .stmt (s.relabel r)

/-- The package declaration with other labels. -/
def Package.relabel (package : Package) : Package := { package with span := r.span package.span }

/-- The unit with other labels. -/
def Program.relabel (program : Program) : Program where
  source := program.source
  package := program.package.map (Package.relabel r)
  items := program.items.map (Item.relabel r)
  span := r.span program.span

end

/-! ## One change after another -/

/-- One change of labels and then another. -/
def Relabel.andThen (r other : Relabel) : Relabel where
  span := other.span ∘ r.span
  type := other.type ∘ r.type
  target := other.target ∘ r.target

section

variable (r other : Relabel)

mutual

/-- Relabelling an expression twice is relabelling it with both in one. -/
theorem Expr.relabel_relabel : ∀ e : Expr,
    (e.relabel r).relabel other = e.relabel (r.andThen other)
  | .int _ _ => rfl
  | .bool _ _ => rfl
  | .string _ _ => rfl
  | .var _ _ => rfl
  | .call receiver _ args _ _ => by
    rw [Expr.relabel, Expr.relabel, Expr.relabel, relabelExprs_relabelExprs args, Option.map_map]
    rfl
  | .index array position _ => by
    rw [Expr.relabel, Expr.relabel, Expr.relabel, Expr.relabel_relabel array,
      Expr.relabel_relabel position]
    rfl
  | .length value _ => by
    rw [Expr.relabel, Expr.relabel, Expr.relabel, Expr.relabel_relabel value]
    rfl
  | .unary _ operand _ => by
    rw [Expr.relabel, Expr.relabel, Expr.relabel, Expr.relabel_relabel operand]
    rfl
  | .binary _ left right _ => by
    rw [Expr.relabel, Expr.relabel, Expr.relabel, Expr.relabel_relabel left,
      Expr.relabel_relabel right]
    rfl

theorem relabelExprs_relabelExprs : ∀ es : List Expr,
    relabelExprs other (relabelExprs r es) = relabelExprs (r.andThen other) es
  | [] => rfl
  | e :: es => by
    rw [relabelExprs, relabelExprs, relabelExprs, Expr.relabel_relabel e,
      relabelExprs_relabelExprs es]

end

mutual

/-- Relabelling a statement twice is relabelling it with both in one. -/
theorem Stmt.relabel_relabel : ∀ stmt : Stmt,
    (stmt.relabel r).relabel other = stmt.relabel (r.andThen other)
  | .expr value _ => by
    rw [Stmt.relabel, Stmt.relabel, Stmt.relabel, Expr.relabel_relabel]
    rfl
  | .assign _ value _ => by
    rw [Stmt.relabel, Stmt.relabel, Stmt.relabel, Expr.relabel_relabel]
    rfl
  | .cond chain _ => by
    rw [Stmt.relabel, Stmt.relabel, Stmt.relabel, Chain.relabel_relabel chain]
    rfl
  | .loop condition body _ => by
    rw [Stmt.relabel, Stmt.relabel, Stmt.relabel, Expr.relabel_relabel,
      Block.relabel_relabel body]
    rfl
  | .ret (some value) _ => by
    rw [Stmt.relabel, Stmt.relabel, Stmt.relabel, Expr.relabel_relabel]
    rfl
  | .ret none _ => rfl
  | .puts value _ => by
    rw [Stmt.relabel, Stmt.relabel, Stmt.relabel, Expr.relabel_relabel]
    rfl
  | .raise value _ => by
    rw [Stmt.relabel, Stmt.relabel, Stmt.relabel, Expr.relabel_relabel]
    rfl

theorem Block.relabel_relabel : ∀ block : Block,
    (block.relabel r).relabel other = block.relabel (r.andThen other)
  | .mk stmts _ => by
    rw [Block.relabel, Block.relabel, Block.relabel, relabelStmts_relabelStmts stmts]
    rfl

theorem relabelStmts_relabelStmts : ∀ stmts : List Stmt,
    relabelStmts other (relabelStmts r stmts) = relabelStmts (r.andThen other) stmts
  | [] => rfl
  | stmt :: rest => by
    rw [relabelStmts, relabelStmts, relabelStmts, Stmt.relabel_relabel stmt,
      relabelStmts_relabelStmts rest]

theorem Chain.relabel_relabel : ∀ chain : Chain,
    (chain.relabel r).relabel other = chain.relabel (r.andThen other)
  | .done => rfl
  | .otherwise body => by
    rw [Chain.relabel, Chain.relabel, Chain.relabel, Block.relabel_relabel body]
  | .branch condition body rest => by
    rw [Chain.relabel, Chain.relabel, Chain.relabel, Expr.relabel_relabel,
      Block.relabel_relabel body, Chain.relabel_relabel rest]

end

/-- Relabelling a method twice is relabelling it with both in one. -/
theorem Method.relabel_relabel (m : Method) :
    (m.relabel r).relabel other = m.relabel (r.andThen other) := by
  simp only [Method.relabel, Block.relabel_relabel, List.map_map, Option.map_map]
  rfl

mutual

/-- Relabelling a class twice is relabelling it with both in one. -/
theorem ClassDef.relabel_relabel : ∀ c : ClassDef,
    (c.relabel r).relabel other = c.relabel (r.andThen other)
  | .mk _ members _ _ => by
    rw [ClassDef.relabel, ClassDef.relabel, ClassDef.relabel,
      relabelMembers_relabelMembers members]
    rfl

theorem relabelMembers_relabelMembers : ∀ members : List Member,
    relabelMembers other (relabelMembers r members) = relabelMembers (r.andThen other) members
  | [] => rfl
  | .method m :: rest => by
    rw [relabelMembers, relabelMembers, relabelMembers, Method.relabel_relabel,
      relabelMembers_relabelMembers rest]
  | .nested c :: rest => by
    rw [relabelMembers, relabelMembers, relabelMembers, ClassDef.relabel_relabel c,
      relabelMembers_relabelMembers rest]

end

/-- Changing the labels of a unit twice is changing them once. -/
theorem Program.relabel_relabel (program : Program) :
    (program.relabel r).relabel other = program.relabel (r.andThen other) := by
  have hitem : ∀ item : Item, (item.relabel r).relabel other = item.relabel (r.andThen other) := by
    intro item
    cases item with
    | cls c => exact congrArg Item.cls (ClassDef.relabel_relabel r other c)
    | method m => exact congrArg Item.method (Method.relabel_relabel r other m)
    | stmt stmt => exact congrArg Item.stmt (Stmt.relabel_relabel r other stmt)
  simp only [Program.relabel, List.map_map, Option.map_map, Function.comp_def, hitem]
  rfl

end

/-! ## What labels have no part in -/

section

variable (r : Relabel)

theorem Block.stmts_relabel (block : Block) :
    (block.relabel r).stmts = relabelStmts r block.stmts := by
  cases block
  rfl

theorem relabelStmts_eq_map (stmts : List Stmt) :
    relabelStmts r stmts = stmts.map (Stmt.relabel r) := by
  induction stmts with
  | nil => rfl
  | cons stmt stmts ih => rw [relabelStmts, ih, List.map_cons]

mutual

/-- Whether a statement leaves its method shows in its shape, not in its labels. -/
theorem Stmt.exits_relabel : ∀ stmt : Stmt, (stmt.relabel r).exits = stmt.exits
  | .expr _ _ => rfl
  | .assign _ _ _ => rfl
  | .cond chain _ => Chain.exits_relabel chain
  | .loop _ _ _ => rfl
  | .ret (some _) _ => rfl
  | .ret none _ => rfl
  | .puts _ _ => rfl
  | .raise _ _ => rfl

theorem Block.exits_relabel : ∀ block : Block, (block.relabel r).exits = block.exits
  | .mk stmts _ => exits_relabelStmts stmts

theorem exits_relabelStmts : ∀ stmts : List Stmt, anyExits (relabelStmts r stmts) = anyExits stmts
  | [] => rfl
  | stmt :: rest => by
    rw [relabelStmts, anyExits, anyExits, Stmt.exits_relabel stmt, exits_relabelStmts rest]

theorem Chain.exits_relabel : ∀ chain : Chain, (chain.relabel r).exits = chain.exits
  | .done => rfl
  | .otherwise body => Block.exits_relabel body
  | .branch _ body rest => by
    rw [Chain.relabel, Chain.exits, Chain.exits, Block.exits_relabel body, Chain.exits_relabel rest]

end

/-- Whether a block ends in an expression shows in its shape, too. -/
theorem Block.endsWithExpr_relabel (block : Block) :
    (block.relabel r).endsWithExpr = block.endsWithExpr := by
  unfold Block.endsWithExpr
  rw [Block.stmts_relabel, relabelStmts_eq_map, List.getLast?_map]
  cases block.stmts.getLast? with
  | none => rfl
  | some last =>
    cases last with
    | ret value span => cases value <;> rfl
    | _ => rfl

/-- The classes of a relabelled unit are its classes relabelled. -/
theorem Program.classes_relabel (program : Program) :
    (program.relabel r).classes = program.classes.map (ClassDef.relabel r) := by
  rw [Program.classes, Program.classes, Program.relabel, List.filterMap_map, List.map_filterMap]
  congr 1
  funext item
  cases item <;> rfl

/-- No name is a label, so the package keeps its name. -/
theorem Program.packageName_relabel (program : Program) :
    (program.relabel r).packageName = program.packageName := by
  rw [Program.packageName, Program.packageName, Program.relabel, Option.map_map]
  rfl

end

/-! ## Bare trees -/

/-- A type that is written into an expression is none of its bare form. -/
@[simp] theorem Expr.bare_setType (e : Expr) (type : Option Ty) :
    (e.setType type).relabel bare = e.relabel bare := by
  cases e <;> rfl

@[simp] theorem Expr.span_setType (e : Expr) (type : Option Ty) :
    (e.setType type).span = e.span := by
  cases e <;> rfl

@[simp] theorem map_relabel_bare (receiver : Option Ident) :
    receiver.map (Ident.relabel bare) = receiver := by
  cases receiver <;> rfl

@[simp] theorem Method.params_bare (m : Method) : (m.relabel bare).params = m.params :=
  List.map_id'' (fun _ => rfl) m.params

@[simp] theorem Method.ret_bare (m : Method) : (m.relabel bare).ret = m.ret := by
  rw [Method.relabel]
  cases m.ret <;> rfl

@[simp] theorem Program.package_bare (program : Program) :
    (program.relabel bare).package = program.package := by
  rw [Program.relabel]
  cases program.package <;> rfl

@[simp] theorem Program.bare_bare (program : Program) :
    (program.relabel bare).relabel bare = program.relabel bare :=
  Program.relabel_relabel bare bare program

/-- The item without types and targets, unless it is a class. -/
def Item.bareLoose : Item → Item
  | .cls c => .cls c
  | .method m => .method (m.relabel bare)
  | .stmt s => .stmt (s.relabel bare)

/-- The unit without types and targets in its loose code. -/
def Program.bareLoose (program : Program) : Program :=
  { program with items := program.items.map Item.bareLoose }

/-- A unit that holds nothing but classes has no loose code. -/
theorem Program.bareLoose_of_isGathered {program : Program} (h : Code.IsGathered program) :
    program.bareLoose = program := by
  have hitems : program.items.map Item.bareLoose = program.items := by
    refine (List.map_congr_left fun item hitem => ?_).trans (List.map_id _)
    obtain ⟨c, rfl⟩ := h item hitem
    rfl
  rw [Program.bareLoose, hitems]

end StackScript.Syntax

namespace StackScript.Typing

open StackScript.Source StackScript.Syntax

/-! ## Declarations -/

section

variable (r : Relabel)

/-- The declaration with other labels. -/
def Declaration.relabel : Declaration → Declaration
  | .cls name package enclosing => .cls name package enclosing
  | .method owner m => .method owner (m.relabel r)

mutual

/-- A relabelled class declares the same, relabelled. -/
theorem declarations_relabel (package : Option String) : ∀ (enclosing : Option String)
    (c : ClassDef), declarations package enclosing (c.relabel r) =
      (declarations package enclosing c).map (Declaration.relabel r)
  | enclosing, .mk name members synthetic span => by
    rw [ClassDef.relabel, declarations, declarations, List.map_cons]
    exact congrArg _ (memberDeclarations_relabel package _ members)

theorem memberDeclarations_relabel (package : Option String) : ∀ (cls : String)
    (members : List Member), memberDeclarations package cls (relabelMembers r members) =
      (memberDeclarations package cls members).map (Declaration.relabel r)
  | _, [] => rfl
  | cls, .method m :: members => by
    rw [relabelMembers, memberDeclarations, memberDeclarations, List.map_cons,
      memberDeclarations_relabel package cls members]
    rfl
  | cls, .nested c :: members => by
    rw [relabelMembers, memberDeclarations, memberDeclarations, List.map_append,
      declarations_relabel package (some cls) c, memberDeclarations_relabel package cls members]

end

/-- A relabelled unit declares the same, relabelled. -/
theorem unitDeclarations_relabel (program : Program) :
    unitDeclarations (program.relabel r) =
      (unitDeclarations program).map fun d => (d.1, d.2.relabel r) := by
  rw [unitDeclarations, unitDeclarations, Program.classes_relabel, Program.packageName_relabel,
    List.flatMap_map, List.map_map]
  simp only [declarations_relabel, ← List.map_flatMap, List.map_map]
  rfl

/-- Other labels change nothing about what a batch declares but the labels of methods. -/
theorem batchDeclarations_relabel (batch : List Program) :
    batchDeclarations (batch.map (Program.relabel r)) =
      (batchDeclarations batch).map fun d => (d.1, d.2.relabel r) := by
  rw [batchDeclarations, batchDeclarations, List.flatMap_map, List.map_flatMap]
  simp only [unitDeclarations_relabel]

/-- A relabelled batch has the same methods at the same places, relabelled. -/
theorem batchMethods_relabel (batch : List Program) :
    batchMethods (batch.map (Program.relabel r)) =
      (batchMethods batch).map fun place => (place.1, place.2.1, place.2.2.relabel r) := by
  rw [batchMethods, batchMethods, batchDeclarations_relabel, List.filterMap_map,
    List.map_filterMap]
  congr 1
  funext d
  obtain ⟨file, d⟩ := d
  cases d <;> rfl

end

end StackScript.Typing

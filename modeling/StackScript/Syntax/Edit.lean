import StackScript.Syntax.Tree

/-!
# Numbered edits of trees

Methods and expressions of a batch are numbered from zero in source order, a node before the nodes
inside it. An edit overrides what inference wrote at one number, which shows how later phases take
a tree that breaks its promises.
-/

namespace StackScript.Syntax

/-- What an edit does to the node with its number. -/
inductive Edit where
  /-- Sets the return type of a method. -/
  | retType (type : Option Ty)
  /-- Sets the type of an expression. -/
  | type (type : Option Ty)
  /-- Sets the class that a call goes to. -/
  | target (qualified : Option String)
  /-- Renames a local variable where it is read. -/
  | rename (name : String)
  deriving DecidableEq, Repr

/-- Edits with the numbers of the nodes they are for. -/
abbrev Edits := List (Nat × Edit)

/-- The edit on an expression, apart from the expressions inside it. -/
def Edit.applyExpr : Edit → Expr → Expr
  | .retType _, e => e
  | .type t, e => e.setType t
  | .target q, .call r m args _ note => .call r m args q note
  | .rename x, .var name note => .var { name with name := x } note
  | .target _, e => e
  | .rename _, e => e

/-- Applies every edit for the number to an expression. -/
def applyAt (edits : Edits) (number : Nat) (e : Expr) : Expr :=
  edits.foldl (fun e edit => if edit.1 = number then edit.2.applyExpr e else e) e

mutual

/-- Edits an expression whose number is `n`; answers with the first number after it. -/
def Expr.edit (edits : Edits) (n : Nat) : Expr → Expr × Nat
  | .int v note => (applyAt edits n (.int v note), n + 1)
  | .bool v note => (applyAt edits n (.bool v note), n + 1)
  | .string v note => (applyAt edits n (.string v note), n + 1)
  | .var x note => (applyAt edits n (.var x note), n + 1)
  | .call r m args t note =>
    let (args, after) := editExprs edits (n + 1) args
    (applyAt edits n (.call r m args t note), after)
  | .index a i note =>
    let (a, after) := a.edit edits (n + 1)
    let (i, after) := i.edit edits after
    (applyAt edits n (.index a i note), after)
  | .length v note =>
    let (v, after) := v.edit edits (n + 1)
    (applyAt edits n (.length v note), after)
  | .unary op v note =>
    let (v, after) := v.edit edits (n + 1)
    (applyAt edits n (.unary op v note), after)
  | .binary op l r note =>
    let (l, after) := l.edit edits (n + 1)
    let (r, after) := r.edit edits after
    (applyAt edits n (.binary op l r note), after)

/-- Edits expressions in order. -/
def editExprs (edits : Edits) (n : Nat) : List Expr → List Expr × Nat
  | [] => ([], n)
  | e :: es =>
    let (e, after) := e.edit edits n
    let (es, after) := editExprs edits after es
    (e :: es, after)

end

mutual

/-- Edits a statement whose first expression has number `n`. -/
def Stmt.edit (edits : Edits) (n : Nat) : Stmt → Stmt × Nat
  | .expr v s => let (v, after) := v.edit edits n; (.expr v s, after)
  | .assign x v s => let (v, after) := v.edit edits n; (.assign x v s, after)
  | .puts v s => let (v, after) := v.edit edits n; (.puts v s, after)
  | .raise v s => let (v, after) := v.edit edits n; (.raise v s, after)
  | .ret (some v) s => let (v, after) := v.edit edits n; (.ret (some v) s, after)
  | .ret none s => (.ret none s, n)
  | .loop c b s =>
    let (c, after) := c.edit edits n
    let (b, after) := b.edit edits after
    (.loop c b s, after)
  | .cond chain s => let (chain, after) := chain.edit edits n; (.cond chain s, after)

/-- Edits a block whose first expression has number `n`. -/
def Block.edit (edits : Edits) (n : Nat) : Block → Block × Nat
  | .mk stmts s => let (stmts, after) := editStmts edits n stmts; (.mk stmts s, after)

/-- Edits statements in order. -/
def editStmts (edits : Edits) (n : Nat) : List Stmt → List Stmt × Nat
  | [] => ([], n)
  | stmt :: stmts =>
    let (stmt, after) := stmt.edit edits n
    let (stmts, after) := editStmts edits after stmts
    (stmt :: stmts, after)

/-- Edits the branches of a conditional in order. -/
def Chain.edit (edits : Edits) (n : Nat) : Chain → Chain × Nat
  | .done => (.done, n)
  | .otherwise b => let (b, after) := b.edit edits n; (.otherwise b, after)
  | .branch c b rest =>
    let (c, after) := c.edit edits n
    let (b, after) := b.edit edits after
    let (rest, after) := rest.edit edits after
    (.branch c b rest, after)

end

/-- The next numbers of methods and expressions. -/
abbrev Numbers := Nat × Nat

/-- Edits a method; the edits of methods and of expressions have numbers of their own. -/
def Method.edit (onMethods onExprs : Edits) (numbers : Numbers) (m : Method) : Method × Numbers :=
  let (body, after) := m.body.edit onExprs numbers.2
  let setRet (ret : Option Ty) (edit : Nat × Edit) : Option Ty :=
    match edit with
    | (n, .retType t) => if n = numbers.1 then t else ret
    | _ => ret
  ({ m with body, retType := onMethods.foldl setRet m.retType }, numbers.1 + 1, after)

mutual

/-- Edits a class. -/
def ClassDef.edit (onMethods onExprs : Edits) (numbers : Numbers) : ClassDef → ClassDef × Numbers
  | .mk name members synthetic span =>
    let (members, after) := editMembers onMethods onExprs numbers members
    (.mk name members synthetic span, after)

/-- Edits members in order. -/
def editMembers (onMethods onExprs : Edits) (numbers : Numbers) :
    List Member → List Member × Numbers
  | [] => ([], numbers)
  | .method m :: members =>
    let (m, after) := m.edit onMethods onExprs numbers
    let (members, after) := editMembers onMethods onExprs after members
    (.method m :: members, after)
  | .nested c :: members =>
    let (c, after) := c.edit onMethods onExprs numbers
    let (members, after) := editMembers onMethods onExprs after members
    (.nested c :: members, after)

end

/-- Edits an item. -/
def Item.edit (onMethods onExprs : Edits) (numbers : Numbers) : Item → Item × Numbers
  | .cls c => let (c, after) := c.edit onMethods onExprs numbers; (.cls c, after)
  | .method m => let (m, after) := m.edit onMethods onExprs numbers; (.method m, after)
  | .stmt s =>
    let (s, after) := s.edit onExprs numbers.2
    (.stmt s, numbers.1, after)

/-- Edits items in order. -/
def editItems (onMethods onExprs : Edits) (numbers : Numbers) : List Item → List Item × Numbers
  | [] => ([], numbers)
  | item :: items =>
    let (item, after) := item.edit onMethods onExprs numbers
    let (items, after) := editItems onMethods onExprs after items
    (item :: items, after)

/-- Edits the units of a batch in order. -/
def editBatchFrom (onMethods onExprs : Edits) (numbers : Numbers) : List Program → List Program
  | [] => []
  | program :: batch =>
    let (items, after) := editItems onMethods onExprs numbers program.items
    { program with items } :: editBatchFrom onMethods onExprs after batch

/-- The batch with edits made to it: edits of return types are for methods, all others for
expressions. -/
def editBatch (edits : Edits) (batch : List Program) : List Program :=
  let forMethods (edit : Nat × Edit) : Bool :=
    match edit.2 with
    | .retType _ => true
    | _ => false
  editBatchFrom (edits.filter forMethods) (edits.filter (!forMethods ·)) (0, 0) batch

end StackScript.Syntax

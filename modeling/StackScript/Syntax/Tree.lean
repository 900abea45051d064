import StackScript.Source.Span
import StackScript.Ty

/-!
# Syntax trees

The trees of units. Every node keeps the span it was read from. Expressions and methods also have
room for what joint inference finds out: the type of an expression, the class a call goes to, and
the return type of a method. A tree fresh from the reader has none of these.
-/

namespace StackScript.Syntax

open StackScript.Source

/-- A name as written. -/
structure Ident where
  name : String
  span : Span
  deriving DecidableEq, Repr, Inhabited

/-- A type as written. -/
structure TypeRef where
  name : String
  /-- Number of bracket pairs after the name. -/
  dims : Nat
  span : Span
  deriving DecidableEq, Repr, Inhabited

/-- The written form of a type annotation. -/
def TypeRef.text (ref : TypeRef) : String :=
  ref.name ++ String.join (List.replicate ref.dims "[]")

/-- The type that an annotation means. -/
def TypeRef.ty? (ref : TypeRef) : Option Ty := Ty.ofParts? ref.name ref.dims

/-- Operators with one operand. -/
inductive UnaryOp where
  | negate
  | not
  deriving DecidableEq, Repr

/-- The written form of a unary operator. -/
def UnaryOp.symbol : UnaryOp → String
  | negate => "-"
  | not => "!"

/-- Operators with two operands. -/
inductive BinaryOp where
  | or | and | eq | ne | lt | le | gt | ge | add | sub | mul | div | mod
  deriving DecidableEq, Repr

/-- The written form of a binary operator. -/
def BinaryOp.symbol : BinaryOp → String
  | or => "||"
  | and => "&&"
  | eq => "=="
  | ne => "!="
  | lt => "<"
  | le => "<="
  | gt => ">"
  | ge => ">="
  | add => "+"
  | sub => "-"
  | mul => "*"
  | div => "/"
  | mod => "%"

/-- What every expression carries: its span and, once inferred, its type. -/
structure Note where
  span : Span
  type : Option Ty := none
  deriving DecidableEq, Repr, Inhabited

/-- Expressions. -/
inductive Expr where
  | int (value : Int64) (note : Note)
  | bool (value : Bool) (note : Note)
  | string (value : String) (note : Note)
  /-- A parameter or local variable. -/
  | var (name : Ident) (note : Note)
  /-- A call of a method on the class `receiver` names, or on the enclosing class; `target` is the
  qualified name of the class it goes to, once resolved. -/
  | call (receiver : Option Ident) (method : Ident) (args : List Expr) (target : Option String)
      (note : Note)
  | index (array position : Expr) (note : Note)
  | length (value : Expr) (note : Note)
  | unary (op : UnaryOp) (operand : Expr) (note : Note)
  | binary (op : BinaryOp) (left right : Expr) (note : Note)
  deriving Inhabited

namespace Expr

/-- What the expression carries. -/
def note : Expr → Note
  | int _ n | bool _ n | string _ n | var _ n | call _ _ _ _ n | index _ _ n | length _ n
  | unary _ _ n | binary _ _ _ n => n

/-- The expression with its note replaced. -/
def setNote (n : Note) : Expr → Expr
  | int v _ => int v n
  | bool v _ => bool v n
  | string v _ => string v n
  | var x _ => var x n
  | call r m args t _ => call r m args t n
  | index a i _ => index a i n
  | length v _ => length v n
  | unary op e _ => unary op e n
  | binary op l r _ => binary op l r n

/-- The span of the expression. -/
def span (e : Expr) : Span := e.note.span

/-- The inferred type of the expression. -/
def type (e : Expr) : Option Ty := e.note.type

/-- The expression with its inferred type set. -/
def setType (e : Expr) (type : Option Ty) : Expr := e.setNote { e.note with type := type }

end Expr

mutual

/-- Statements. -/
inductive Stmt where
  | expr (value : Expr) (span : Span)
  | assign (target : Ident) (value : Expr) (span : Span)
  /-- A conditional with all its branches. -/
  | cond (chain : Chain) (span : Span)
  /-- A loop that tests its condition before each round. -/
  | loop (condition : Expr) (body : Block) (span : Span)
  | ret (value : Option Expr) (span : Span)
  | puts (value : Expr) (span : Span)
  | raise (value : Expr) (span : Span)

/-- Statements in order. -/
inductive Block where
  | mk (stmts : List Stmt) (span : Span)

/-- The branches of a conditional from some condition on. -/
inductive Chain where
  /-- No branch is left. -/
  | done
  /-- What is done when no condition held. -/
  | otherwise (body : Block)
  /-- What is done when the condition holds, and the branches after it. -/
  | branch (condition : Expr) (body : Block) (rest : Chain)

end

instance : Inhabited Block := ⟨.mk [] default⟩
instance : Inhabited Stmt := ⟨.ret none default⟩

/-- The statements of a block. -/
def Block.stmts : Block → List Stmt
  | .mk stmts _ => stmts

/-- The span of a block. -/
def Block.span : Block → Span
  | .mk _ span => span

/-- The span of a statement. -/
def Stmt.span : Stmt → Span
  | .expr _ s | .assign _ _ s | .cond _ s | .loop _ _ s | .ret _ s | .puts _ s | .raise _ s => s

/-! ## How blocks end -/

mutual

/-- Every path through the statement ends in a return or a raise. -/
def Stmt.exits : Stmt → Bool
  | .ret _ _ | .raise _ _ => true
  | .cond chain _ => chain.exits
  | .expr _ _ | .assign _ _ _ | .loop _ _ _ | .puts _ _ => false

/-- Every path through the block ends in a return or a raise. -/
def Block.exits : Block → Bool
  | .mk stmts _ => anyExits stmts

/-- Some statement of the list always exits. -/
def anyExits : List Stmt → Bool
  | [] => false
  | stmt :: stmts => stmt.exits || anyExits stmts

/-- Every path through the branches, the last one included, ends in a return or a raise. -/
def Chain.exits : Chain → Bool
  | .done => false
  | .otherwise body => body.exits
  | .branch _ body rest => body.exits && rest.exits

end

/-- The block ends with a bare expression, which is then the value of a method body. -/
def Block.endsWithExpr (block : Block) : Bool :=
  match block.stmts.getLast? with
  | some (.expr _ _) => true
  | _ => false

/-! ## Definitions and units -/

/-- A parameter of a method. -/
structure Param where
  name : Ident
  type : TypeRef
  span : Span
  deriving DecidableEq, Repr, Inhabited

/-- A method. -/
structure Method where
  name : Ident
  /-- Defined on the class itself. -/
  isStatic : Bool
  params : List Param
  /-- The return type, when it is declared. -/
  ret : Option TypeRef
  body : Block
  span : Span
  /-- The declared or inferred return type. -/
  retType : Option Ty := none
  deriving Inhabited

mutual

/-- A class with its methods and nested classes. -/
inductive ClassDef where
  /-- `synthetic` marks the class made from a unit's loose code. -/
  | mk (name : Ident) (members : List Member) (synthetic : Bool) (span : Span)

/-- A member of a class. -/
inductive Member where
  | method (m : Method)
  | nested (c : ClassDef)

end

namespace ClassDef

/-- The name of a class. -/
def name : ClassDef → Ident
  | mk name _ _ _ => name

/-- The members of a class in order. -/
def members : ClassDef → List Member
  | mk _ members _ _ => members

/-- The class was made from a unit's loose code. -/
def synthetic : ClassDef → Bool
  | mk _ _ synthetic _ => synthetic

/-- The span of a class. -/
def span : ClassDef → Span
  | mk _ _ _ span => span

end ClassDef

/-- The method, if the member is one. -/
def Member.method? : Member → Option Method
  | .method m => some m
  | .nested _ => none

/-- The methods of a class in order. -/
def ClassDef.methods (c : ClassDef) : List Method := c.members.filterMap Member.method?

/-- What a unit holds at its top level. -/
inductive Item where
  | cls (c : ClassDef)
  | method (m : Method)
  | stmt (s : Stmt)

/-- The span of an item. -/
def Item.span : Item → Span
  | .cls c => c.span
  | .method m => m.span
  | .stmt s => s.span

/-- The package a unit belongs to. -/
structure Package where
  name : String
  span : Span
  deriving DecidableEq, Repr

/-- A unit: one source text, read. -/
structure Program where
  /-- Name of the unit: a path, or the name of inline scripts. -/
  source : String
  package : Option Package
  items : List Item
  span : Span

/-- The class, if the item is one. -/
def Item.class? : Item → Option ClassDef
  | .cls c => some c
  | .method _ | .stmt _ => none

/-- The classes at the top level of a unit. -/
def Program.classes (program : Program) : List ClassDef := program.items.filterMap Item.class?

/-- The name of the package of a unit. -/
def Program.packageName (program : Program) : Option String := program.package.map Package.name

end StackScript.Syntax

import StackScript.Syntax.Fault
import StackScript.Syntax.Operators
import StackScript.Text.Decimal

/-!
# From parse trees to syntax trees

Every node of the parse tree becomes a node of the syntax tree. Only literals can fail: an integer
outside the 64-bit range, or a backslash in a string before a character that has no escape. Of
several such literals the first one is reported. Trees that the grammar does not make are refused
as misshapen.
-/

namespace StackScript.Syntax

open StackScript.Grammar StackScript.Source StackScript.Text

/-- A node of the parse tree of a unit. -/
abbrev Node := ParseTree Rule

/-- The result of building from a parse tree. -/
abbrev Built (α : Type) := Except ReadFault α

/-- Refuses a node. -/
def misshapen {α : Type} (node : Node) : Built α := .error (.misshapen node.span)

/-! ## Names and types -/

/-- The name that a node writes. -/
def buildIdent (node : Node) : Ident := ⟨String.ofList node.text, node.span⟩

/-- The type that a node writes. -/
def buildTypeRef (node : Node) : TypeRef :=
  let (base, dims) := Ty.splitText node.text
  ⟨base, dims, node.span⟩

/-- A parameter: a name and a type. -/
def buildParam (node : Node) : Built Param :=
  match node.parts with
  | [name, type] => .ok ⟨buildIdent name, buildTypeRef type, node.span⟩
  | _ => misshapen node

/-! ## Literals -/

/-- The unary operator of a rule. -/
def unaryOp? : Rule → Option UnaryOp
  | .opNegate => some .negate
  | .opNot => some .not
  | _ => none

/-- The binary operator of a rule. -/
def binaryOp? : Rule → Option BinaryOp
  | .opOr => some .or
  | .opAnd => some .and
  | .opEq => some .eq
  | .opNe => some .ne
  | .opLt => some .lt
  | .opLe => some .le
  | .opGt => some .gt
  | .opGe => some .ge
  | .opAdd => some .add
  | .opSub => some .sub
  | .opMul => some .mul
  | .opDiv => some .div
  | .opMod => some .mod
  | _ => none

/-- The character that an escape stands for. -/
def escaped? : Char → Option Char
  | 'n' => some '\n'
  | 't' => some '\t'
  | '"' => some '"'
  | '\\' => some '\\'
  | _ => none

/-- The text that string contents stand for; a failure gives the byte offset of the backslash and
the spelling of the escape. -/
def unescape (offset : Nat) : List Char → Except (Nat × List Char) (List Char)
  | [] => .ok []
  | '\\' :: [] => .error (offset, ['\\'])
  | '\\' :: c :: rest =>
    match escaped? c with
    | some d => (unescape (offset + '\\'.utf8Size + c.utf8Size) rest).map (d :: ·)
    | none => .error (offset, ['\\', c])
  | c :: rest => (unescape (offset + c.utf8Size) rest).map (c :: ·)

/-- Where an escape stands that was met `offset` bytes into string contents that start at `mark`:
its column is that of the contents plus the number of bytes before it. -/
def escapeSpan (mark : Mark) (offset : Nat) (spelling : List Char) : Span where
  start := ⟨mark.offset + offset, mark.line, mark.column + offset⟩
  stop := ⟨mark.offset + offset + byteLength spelling, mark.line,
    mark.column + offset + spelling.length⟩

/-- The text that a string-contents node stands for. -/
def buildString (content : Node) : Built String :=
  match unescape 0 content.text with
  | .ok cs => .ok (String.ofList cs)
  | .error (offset, spelling) =>
    .error (.unknownEscape (String.ofList spelling)
      (escapeSpan content.span.start offset spelling))

/-- The value that an integer node writes. -/
def buildInteger (node : Node) : Built Int64 :=
  match readInteger node.text with
  | some value => .ok value
  | none => .error (.integerRange (String.ofList node.text) node.span)

/-! ## Expressions -/

/-- The note of a node that has no type yet. -/
def untyped (node : Node) : Note := ⟨node.span, none⟩

mutual

/-- The expression that a node writes: an operator row, a term, or a primary. -/
def buildExpr : Node → Built Expr
  | .node .expression start stop parts => do
    buildOperand [] (.misshapen ⟨start.mark, stop⟩) parts
  | .node .term start stop (primary :: suffixes) => do
    let value ← buildExpr primary
    buildSuffixes (.misshapen ⟨start.mark, stop⟩) value suffixes
  | .node .boolean start stop parts =>
    let node : Node := .node .boolean start stop parts
    .ok (.bool (node.text = ['t', 'r', 'u', 'e']) (untyped node))
  | .node .integer start stop parts => do
    let node : Node := .node .integer start stop parts
    return .int (← buildInteger node) (untyped node)
  | .node .string start stop (content :: _) => do
    return .string (← buildString content) ⟨⟨start.mark, stop⟩, none⟩
  | .node .staticCall start stop (receiver :: method :: lists) => do
    return .call (some (buildIdent receiver)) (buildIdent method) (← buildArgLists lists) none
      ⟨⟨start.mark, stop⟩, none⟩
  | .node .localCall start stop (method :: lists) => do
    return .call none (buildIdent method) (← buildArgLists lists) none ⟨⟨start.mark, stop⟩, none⟩
  | .node .localName start stop (name :: _) =>
    .ok (.var (buildIdent name) ⟨⟨start.mark, stop⟩, none⟩)
  | node => misshapen node

/-- The tree of an operator row whose first operand comes after the unary operators `ops`. -/
def buildOperand (ops : List (UnaryOp × Span)) (fault : ReadFault) : List Node → Built Expr
  | [] => .error fault
  | .node rule start stop parts :: rest =>
    match unaryOp? rule with
    | some op => buildOperand (ops ++ [(op, ⟨start.mark, stop⟩)]) fault rest
    | none => do
      let first ← buildExpr (.node rule start stop parts)
      let row ← buildRow fault rest
      return assemble (applyPrefixes ops first) row

/-- The binary operators of a row, each with its right operand. -/
def buildRow (fault : ReadFault) : List Node → Built (List (BinaryOp × Expr))
  | [] => .ok []
  | .node rule _ _ _ :: rest =>
    match binaryOp? rule with
    | some op => buildRight op [] fault rest
    | none => .error fault

/-- The right operand of an operator, after the unary operators `ops`, and the rest of the row. -/
def buildRight (op : BinaryOp) (ops : List (UnaryOp × Span)) (fault : ReadFault) :
    List Node → Built (List (BinaryOp × Expr))
  | [] => .error fault
  | .node rule start stop parts :: rest =>
    match unaryOp? rule with
    | some unary => buildRight op (ops ++ [(unary, ⟨start.mark, stop⟩)]) fault rest
    | none => do
      let operand ← buildExpr (.node rule start stop parts)
      let row ← buildRow fault rest
      return (op, applyPrefixes ops operand) :: row

/-- A value with the index and length suffixes after it. -/
def buildSuffixes (fault : ReadFault) (value : Expr) : List Node → Built Expr
  | [] => .ok value
  | .node .indexOp start stop (position :: _) :: rest => do
    let position ← buildExpr position
    buildSuffixes fault (.index value position ⟨value.span.merge ⟨start.mark, stop⟩, none⟩) rest
  | .node .lengthOp start stop _ :: rest =>
    buildSuffixes fault (.length value ⟨value.span.merge ⟨start.mark, stop⟩, none⟩) rest
  | _ :: _ => .error fault

/-- The arguments of a call, which has at most one argument list. -/
def buildArgLists : List Node → Built (List Expr)
  | [] => .ok []
  | .node _ _ _ parts :: _ => buildExprs parts

/-- The expressions that nodes write. -/
def buildExprs : List Node → Built (List Expr)
  | [] => .ok []
  | node :: rest => do
    let value ← buildExpr node
    let values ← buildExprs rest
    return value :: values

end

/-! ## Statements -/

mutual

/-- The statement that a node writes. -/
def buildStmt : Node → Built Stmt
  | .node .exprStmt start stop (value :: _) => do
    return .expr (← buildExpr value) ⟨start.mark, stop⟩
  | .node .assignment start stop (target :: value :: _) => do
    return .assign (buildIdent target) (← buildExpr value) ⟨start.mark, stop⟩
  | .node .putsStmt start stop (value :: _) => do
    return .puts (← buildExpr value) ⟨start.mark, stop⟩
  | .node .raiseStmt start stop (value :: _) => do
    return .raise (← buildExpr value) ⟨start.mark, stop⟩
  | .node .returnStmt start stop (value :: _) => do
    return .ret (some (← buildExpr value)) ⟨start.mark, stop⟩
  | .node .returnStmt start stop [] => .ok (.ret none ⟨start.mark, stop⟩)
  | .node .ifStmt start stop (condition :: body :: clauses) => do
    let condition ← buildExpr condition
    let body ← buildBlock body
    let rest ← buildClauses clauses
    return .cond (.branch condition body rest) ⟨start.mark, stop⟩
  | .node .whileStmt start stop (condition :: body :: _) => do
    let condition ← buildExpr condition
    let body ← buildBlock body
    return .loop condition body ⟨start.mark, stop⟩
  | node => misshapen node

/-- The block that a node writes. -/
def buildBlock : Node → Built Block
  | .node _ start stop parts => do return .mk (← buildStmts parts) ⟨start.mark, stop⟩

/-- The statements that nodes write. -/
def buildStmts : List Node → Built (List Stmt)
  | [] => .ok []
  | node :: rest => do
    let stmt ← buildStmt node
    let stmts ← buildStmts rest
    return stmt :: stmts

/-- The branches of a conditional after the first. -/
def buildClauses : List Node → Built Chain
  | [] => .ok .done
  | .node .elsifClause _ _ (condition :: body :: _) :: rest => do
    let condition ← buildExpr condition
    let body ← buildBlock body
    let rest ← buildClauses rest
    return .branch condition body rest
  | [.node .elseClause _ _ (body :: _)] => do return .otherwise (← buildBlock body)
  | node :: _ => misshapen node

end

/-! ## Definitions -/

/-- The parts of a method definition met so far. -/
structure MethodParts where
  isStatic : Bool := false
  name : Option Ident := none
  params : List Param := []
  ret : Option TypeRef := none
  body : Option Block := none

/-- Takes one more part of a method definition. -/
def MethodParts.add (made : MethodParts) (node : Node) : Built MethodParts :=
  match node.rule with
  | .selfPrefix => .ok { made with isStatic := true }
  | .identifier => .ok { made with name := some (buildIdent node) }
  | .paramList => do
    let params ← node.parts.mapM buildParam
    return { made with params }
  | .returnType =>
    match node.parts with
    | type :: _ => .ok { made with ret := some (buildTypeRef type) }
    | [] => misshapen node
  | .block => do
    let body ← buildBlock node
    return { made with body := some body }
  | _ => misshapen node

/-- The method that a node writes. -/
def buildMethod (node : Node) : Built Method := do
  let made ← node.parts.foldlM MethodParts.add {}
  match made.name, made.body with
  | some name, some body =>
    return ⟨name, made.isStatic, made.params, made.ret, body, node.span, none⟩
  | _, _ => misshapen node

mutual

/-- The class that a node writes. -/
def buildClass : Node → Built ClassDef
  | .node .classDef start stop (name :: members) => do
    return .mk (buildIdent name) (← buildMembers members) false ⟨start.mark, stop⟩
  | node => misshapen node

/-- The members that nodes write. -/
def buildMembers : List Node → Built (List Member)
  | [] => .ok []
  | .node .classDef start stop parts :: rest => do
    let nested ← buildClass (.node .classDef start stop parts)
    let members ← buildMembers rest
    return .nested nested :: members
  | node :: rest => do
    let method ← buildMethod node
    let members ← buildMembers rest
    return .method method :: members

end

/-! ## Units -/

/-- The item that a node writes. -/
def buildItem (node : Node) : Built Item :=
  match node.rule with
  | .classDef => do return .cls (← buildClass node)
  | .methodDef => do return .method (← buildMethod node)
  | _ => do return .stmt (← buildStmt node)

/-- The package that a node declares. -/
def buildPackage (node : Node) : Built Package :=
  match node.parts with
  | name :: _ => .ok ⟨String.ofList name.text, node.span⟩
  | [] => misshapen node

/-- The package declaration and the items among the parts of a unit. -/
def buildParts : List Node → Built (Option Package × List Item)
  | [] => .ok (none, [])
  | node :: rest =>
    match node.rule with
    | .packageDecl => do
      let package ← buildPackage node
      let (_, items) ← buildParts rest
      return (some package, items)
    | .finish => buildParts rest
    | _ => do
      let item ← buildItem node
      let (package, items) ← buildParts rest
      return (package, item :: items)

/-- The unit that a node writes, under the given name. -/
def buildProgram (source : String) (node : Node) : Built Program := do
  let (package, items) ← buildParts node.parts
  return ⟨source, package, items, node.span⟩

end StackScript.Syntax

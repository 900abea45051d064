import StackScript.Code.ClassFile
import StackScript.Code.Fault
import StackScript.Syntax.Tree

/-!
# From statements to instructions

The code of expressions, statements and methods. Code is made for the place where it will stand, so
that jumps are right from the start: what follows a piece of code stands behind it, and the length
of a piece does not depend on its place.

An expression leaves its value on the stack, or nothing if its type is `void`. A statement leaves
the stack as it was. Parameters and assigned names have slots, numbered in the order in which code
is made for them.
-/

namespace StackScript.Code

open StackScript.Source StackScript.Syntax

/-- The names that have slots, in the order of their slots. -/
abbrev Slots := List String

/-- The slot of a name. -/
def slotOf? (slots : Slots) (name : String) : Option UInt16 :=
  (slots.idxOf? name).map UInt16.ofNat

/-- The names with slots after one more name got its slot. -/
def addSlot (slots : Slots) (name : String) : Slots :=
  if slots.contains name then slots else slots ++ [name]

/-! ## Expressions -/

/-- What stands at an expression, in short. -/
def nodeLabel : Expr → String
  | .int value _ => "integer " ++ Text.showInteger value
  | .bool value _ => "boolean " ++ toString value
  | .string value _ => "string " ++ Text.quoted value
  | .var name _ => "local " ++ name.name
  | .call (some receiver) method _ _ _ => "call " ++ receiver.name ++ "." ++ method.name
  | .call none method _ _ _ => "call " ++ method.name
  | .index _ _ _ => "index"
  | .length _ _ => "length"
  | .unary _ _ _ => "unary operation"
  | .binary op _ _ _ => "operator " ++ op.symbol

/-- The instruction of a unary operation. -/
def unaryInstr : UnaryOp → Instr
  | .negate => .neg
  | .not => .not

/-- The instruction of a binary operation whose operands both are computed first; `+` joins texts
when its result is one. -/
def binaryInstr? (op : BinaryOp) (type : Ty) : Option Instr :=
  match op with
  | .and | .or => none
  | .add => some (if type = .string then .concat else .add)
  | .sub => some .sub
  | .mul => some .mul
  | .div => some .div
  | .mod => some .mod
  | .eq => some .eq
  | .ne => some .ne
  | .lt => some .lt
  | .le => some .le
  | .gt => some .gt
  | .ge => some .ge

/-- A place in the code, as jumps give it. -/
def placeNumber (place : Nat) : UInt32 := UInt32.ofNat place

/-- The code of `left && right` at `place`: the right side is computed only if the left one is
true. -/
def andCode (place : Nat) (left right : List Instr) : List Instr :=
  left ++ [.jumpIfFalse (placeNumber (place + left.length + right.length + 2))] ++ right
    ++ [.jump (placeNumber (place + left.length + right.length + 3)), .pushBool false]

/-- The code of `left || right` at `place`: the right side is computed only if the left one is
false. -/
def orCode (place : Nat) (left right : List Instr) : List Instr :=
  left
    ++ [.jumpIfFalse (placeNumber (place + left.length + 3)), .pushBool true,
      .jump (placeNumber (place + left.length + right.length + 3))]
    ++ right

/-- The place where the right side of a binary operation stands, its left side being `left` at
`place`. -/
def rightPlace (op : BinaryOp) (place : Nat) (left : List Instr) : Nat :=
  match op with
  | .and => place + left.length + 1
  | .or => place + left.length + 3
  | _ => place + left.length

/-- The code of a binary operation at `place` from the code of its sides. -/
def binaryCode (op : BinaryOp) (type : Ty) (place : Nat) (left right : List Instr) : List Instr :=
  match op with
  | .and => andCode place left right
  | .or => orCode place left right
  | op => left ++ right ++ (binaryInstr? op type).toList

/-- The type written into an expression, which must be one that has a written form. -/
def typeOf (file : String) (e : Expr) : Except CodeFault Ty :=
  match e.type.filter Ty.isWritable with
  | some type => .ok type
  | none => .error (.internal .exprType file e.span (some (nodeLabel e)))

/-- The instruction that reads a local variable. -/
def loadCode (file : String) (slots : Slots) (name : Ident) : Except CodeFault (List Instr) :=
  match slotOf? slots name.name with
  | some slot => .ok [.load slot]
  | none => .error (.internal .unassigned file name.span (some ("local " ++ name.name)))

/-- The qualified name of the class that a call goes to. -/
def callTarget (file : String) (e : Expr) (target : Option String) : Except CodeFault String :=
  match target with
  | some cls => .ok cls
  | none => .error (.internal .callTarget file e.span (some (nodeLabel e)))

mutual

/-- The code of an expression at `place`. -/
def exprCode (file : String) (slots : Slots) (place : Nat) : Expr → Except CodeFault (List Instr)
  | .int value note => do
    let _ ← typeOf file (.int value note)
    pure [.pushInt value]
  | .bool value note => do
    let _ ← typeOf file (.bool value note)
    pure [.pushBool value]
  | .string value note => do
    let _ ← typeOf file (.string value note)
    pure [.pushStr value]
  | .var name note => do
    let _ ← typeOf file (.var name note)
    loadCode file slots name
  | .call receiver method args target note => do
    let _ ← typeOf file (.call receiver method args target note)
    let cls ← callTarget file (.call receiver method args target note) target
    let code ← argsCode file slots place args
    pure (code ++ [.call cls method.name (UInt16.ofNat args.length)])
  | .index array position note => do
    let _ ← typeOf file (.index array position note)
    let first ← exprCode file slots place array
    let second ← exprCode file slots (place + first.length) position
    pure (first ++ second ++ [.index])
  | .length value note => do
    let _ ← typeOf file (.length value note)
    let code ← exprCode file slots place value
    pure (code ++ [.length])
  | .unary op operand note => do
    let _ ← typeOf file (.unary op operand note)
    let code ← exprCode file slots place operand
    pure (code ++ [unaryInstr op])
  | .binary op left right note => do
    let type ← typeOf file (.binary op left right note)
    let first ← exprCode file slots place left
    let second ← exprCode file slots (rightPlace op place first) right
    pure (binaryCode op type place first second)

/-- The code of arguments at `place`, one after the other. -/
def argsCode (file : String) (slots : Slots) (place : Nat) :
    List Expr → Except CodeFault (List Instr)
  | [] => pure []
  | arg :: args => do
    let first ← exprCode file slots place arg
    let rest ← argsCode file slots (place + first.length) args
    pure (first ++ rest)

end

/-! ## Statements -/

/-- The code of statements, the marks of their lines, and the names with slots after them. -/
structure Emitted where
  code : List Instr
  lines : List LineMark
  slots : Slots
  deriving DecidableEq, Repr

/-- Instructions without a line of their own. -/
def Emitted.plain (code : List Instr) (slots : Slots) : Emitted := ⟨code, [], slots⟩

/-- A piece of code followed by another one, which was made with the slots of the first. -/
def Emitted.append (a b : Emitted) : Emitted := ⟨a.code ++ b.code, a.lines ++ b.lines, b.slots⟩

instance : Append Emitted := ⟨Emitted.append⟩

/-- The mark of a statement's line at `place`. -/
def lineMark (place : Nat) (span : Span) : LineMark :=
  ⟨placeNumber place, UInt32.ofNat span.start.line⟩

/-- The code with the mark of a statement's line before it. -/
def Emitted.markLine (emitted : Emitted) (place : Nat) (span : Span) : Emitted :=
  { emitted with lines := lineMark place span :: emitted.lines }

mutual

/-- The code of a statement at `place`. -/
def stmtCode (file : String) (slots : Slots) (place : Nat) : Stmt → Except CodeFault Emitted
  | .expr value span => do
    let type ← typeOf file value
    let code ← exprCode file slots place value
    let dropped := if type.isVoid then [] else [.pop]
    pure ((Emitted.plain (code ++ dropped) slots).markLine place span)
  | .assign target value span => do
    let code ← exprCode file slots place value
    let slots := addSlot slots target.name
    let store := (slotOf? slots target.name).map Instr.store
    pure ((Emitted.plain (code ++ store.toList) slots).markLine place span)
  | .cond chain span => do
    let emitted ← chainCode file slots place chain
    pure (emitted.markLine place span)
  | .loop condition body span => do
    let test ← exprCode file slots place condition
    let body ← blockCode file slots (place + test.length + 1) body
    let after := placeNumber (place + test.length + 1 + body.code.length + 1)
    let emitted := .plain (test ++ [.jumpIfFalse after]) slots ++ body
      ++ .plain [.jump (placeNumber place)] body.slots
    pure (emitted.markLine place span)
  | .ret (some value) span => do
    let code ← exprCode file slots place value
    pure ((Emitted.plain (code ++ [.ret]) slots).markLine place span)
  | .ret none span => pure ((Emitted.plain [.retVoid] slots).markLine place span)
  | .puts value span => do
    let code ← exprCode file slots place value
    pure ((Emitted.plain (code ++ [.puts]) slots).markLine place span)
  | .raise value span => do
    let code ← exprCode file slots place value
    pure ((Emitted.plain (code ++ [.raise]) slots).markLine place span)

/-- The code of a block at `place`. -/
def blockCode (file : String) (slots : Slots) (place : Nat) : Block → Except CodeFault Emitted
  | .mk stmts _ => stmtsCode file slots place stmts

/-- The code of statements at `place`, one after the other. -/
def stmtsCode (file : String) (slots : Slots) (place : Nat) :
    List Stmt → Except CodeFault Emitted
  | [] => pure (.plain [] slots)
  | stmt :: stmts => do
    let first ← stmtCode file slots place stmt
    let rest ← stmtsCode file first.slots (place + first.code.length) stmts
    pure (first ++ rest)

/-- The code of the branches of a conditional at `place`. A branch that is not taken goes on with
the next one, and one that is taken goes on behind the last one. -/
def chainCode (file : String) (slots : Slots) (place : Nat) : Chain → Except CodeFault Emitted
  | .done => pure (.plain [] slots)
  | .otherwise body => blockCode file slots place body
  | .branch condition body rest => do
    let test ← exprCode file slots place condition
    let body ← blockCode file slots (place + test.length + 1) body
    let next := place + test.length + 1 + body.code.length + 1
    let rest ← chainCode file body.slots next rest
    let after := placeNumber (next + rest.code.length)
    pure (.plain (test ++ [.jumpIfFalse (placeNumber next)]) slots ++ body
      ++ .plain [.jump after] body.slots ++ rest)

end

/-! ## Methods -/

/-- The code of the statements of a body whose method returns `ret`; a bare expression at the end
of a body that owes a value is that value. -/
def bodyCode (file : String) (ret : Ty) (slots : Slots) (place : Nat) :
    List Stmt → Except CodeFault Emitted
  | [] => pure (.plain [] slots)
  | [.expr value span] =>
    if ret.isVoid then stmtCode file slots place (.expr value span)
    else do
      let code ← exprCode file slots place value
      pure ((Emitted.plain (code ++ [.ret]) slots).markLine place span)
  | stmt :: stmts => do
    let first ← stmtCode file slots place stmt
    let rest ← bodyCode file ret first.slots (place + first.code.length) stmts
    pure (first ++ rest)

/-- The types of parameters. -/
def paramTypes (file : String) : List Param → Except CodeFault (List Ty)
  | [] => pure []
  | param :: params => do
    let type ← match param.type.ty? with
      | some type => .ok type
      | none =>
        .error (.internal .paramType file param.span (some ("parameter " ++ param.name.name)))
    let types ← paramTypes file params
    pure (type :: types)

/-- The return type of a method, which must be one that has a written form. -/
def returnType (file : String) (m : Method) : Except CodeFault Ty :=
  match m.retType.filter Ty.isWritable with
  | some type => .ok type
  | none => .error (.internal .returnType file m.span (some ("def " ++ m.name.name)))

/-- The code at the end of a method behind its body: the return of a method that gives no value. -/
def endCode (file : String) (m : Method) (ret : Ty) : Except CodeFault (List Instr) :=
  if ret.isVoid then .ok [.retVoid]
  else if m.body.endsWithExpr || m.body.exits then .ok []
  else .error (.internal .fallsThrough file m.span (some ("def " ++ m.name.name)))

/-- The code of a method of the unit `file`. -/
def methodCode (file : String) (m : Method) : Except CodeFault MethodCode := do
  let params ← paramTypes file m.params
  let ret ← returnType file m
  let slots := (m.params.map (·.name.name)).foldl addSlot []
  let body ← bodyCode file ret slots 0 m.body.stmts
  let last ← endCode file m ret
  pure
    { name := m.name.name
      params, ret
      locals := UInt16.ofNat body.slots.length
      code := (body.code ++ last).toArray
      lines := body.lines }

end StackScript.Code

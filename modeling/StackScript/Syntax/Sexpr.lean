import StackScript.Syntax.Tree
import StackScript.Text.Quoted

/-!
# Trees as text

The layout of a unit as nested parenthesised lists: one line per item, member and statement, inner
lines indented by two more blanks. What inference found out is shown where it is known.
-/

namespace StackScript.Syntax

open StackScript.Text

/-- A line end and the indentation of the line after it. -/
def newLine (indent : Nat) : String := "\n" ++ "".pushn ' ' indent

/-- The texts joined by blanks. -/
def spaced (texts : List String) : String := " ".intercalate texts

/-- A type after a colon, when it is known. -/
def typeMark (separator : String) : Option Ty → String
  | none => ""
  | some type => separator ++ type.text

mutual

/-- An expression as a list, with its type when that is known. -/
def Expr.sexpr : Expr → String
  | .int value note => "(integer " ++ toString value.toInt ++ ")" ++ typeMark ":" note.type
  | .bool value note => "(boolean " ++ toString value ++ ")" ++ typeMark ":" note.type
  | .string value note => "(string " ++ quoted value ++ ")" ++ typeMark ":" note.type
  | .var name note => name.name ++ typeMark ":" note.type
  | .call receiver method args target note =>
    let owner :=
      match target, receiver with
      | some qualified, _ => qualified ++ "."
      | none, some written => written.name ++ "."
      | none, none => ""
    "(call " ++ owner ++ method.name ++ argsSexpr args ++ ")" ++ typeMark ":" note.type
  | .index array position note =>
    "(index " ++ array.sexpr ++ " " ++ position.sexpr ++ ")" ++ typeMark ":" note.type
  | .length value note => "(length " ++ value.sexpr ++ ")" ++ typeMark ":" note.type
  | .unary op operand note =>
    "(" ++ op.symbol ++ " " ++ operand.sexpr ++ ")" ++ typeMark ":" note.type
  | .binary op left right note =>
    "(" ++ op.symbol ++ " " ++ left.sexpr ++ " " ++ right.sexpr ++ ")" ++ typeMark ":" note.type

/-- Arguments, each after a blank. -/
def argsSexpr : List Expr → String
  | [] => ""
  | arg :: args => " " ++ arg.sexpr ++ argsSexpr args

end

mutual

/-- A statement as a list, its own line being indented by `indent`. -/
def Stmt.sexpr (indent : Nat) : Stmt → String
  | .expr value _ => value.sexpr
  | .assign target value _ => "(= " ++ target.name ++ " " ++ value.sexpr ++ ")"
  | .puts value _ => "(puts " ++ value.sexpr ++ ")"
  | .raise value _ => "(raise " ++ value.sexpr ++ ")"
  | .ret (some value) _ => "(return " ++ value.sexpr ++ ")"
  | .ret none _ => "(return)"
  | .loop condition body _ =>
    "(while " ++ condition.sexpr ++ body.sexpr (indent + 2) ++ ")"
  | .cond chain _ => "(if" ++ chain.sexpr (indent + 2) ++ ")"

/-- The statements of a block, each on its own line. -/
def Block.sexpr (indent : Nat) : Block → String
  | .mk stmts _ => stmtsSexpr indent stmts

/-- Statements, each on its own line. -/
def stmtsSexpr (indent : Nat) : List Stmt → String
  | [] => ""
  | stmt :: stmts => newLine indent ++ stmt.sexpr indent ++ stmtsSexpr indent stmts

/-- The branches of a conditional, each on its own line. -/
def Chain.sexpr (indent : Nat) : Chain → String
  | .done => ""
  | .otherwise body => newLine indent ++ "(else" ++ body.sexpr (indent + 2) ++ ")"
  | .branch condition body rest =>
    newLine indent ++ "(when " ++ condition.sexpr ++ body.sexpr (indent + 2) ++ ")"
      ++ rest.sexpr indent

end

/-- A parameter with its type. -/
def Param.sexpr (param : Param) : String := "(" ++ param.name.name ++ " " ++ param.type.text ++ ")"

/-- A method as a list; an inferred return type is preferred to a written one. -/
def Method.sexpr (indent : Nat) (m : Method) : String :=
  let returns :=
    match m.retType, m.ret with
    | some type, _ => " : " ++ type.text
    | none, some written => " : " ++ written.text
    | none, none => ""
  "(def " ++ (if m.isStatic then "self." else "") ++ m.name.name ++ " ("
    ++ spaced (m.params.map Param.sexpr) ++ ")" ++ returns ++ m.body.sexpr (indent + 2) ++ ")"

mutual

/-- A class as a list, its own line being indented by `indent`. -/
def ClassDef.sexpr (indent : Nat) : ClassDef → String
  | .mk name members synthetic _ =>
    "(" ++ (if synthetic then "script-class" else "class") ++ " " ++ name.name
      ++ membersSexpr (indent + 2) members ++ ")"

/-- Members, each on its own line. -/
def membersSexpr (indent : Nat) : List Member → String
  | [] => ""
  | .method m :: members => newLine indent ++ m.sexpr indent ++ membersSexpr indent members
  | .nested c :: members => newLine indent ++ c.sexpr indent ++ membersSexpr indent members

end

/-- An item as a list, its own line being indented by `indent`. -/
def Item.sexpr (indent : Nat) : Item → String
  | .cls c => c.sexpr indent
  | .method m => m.sexpr indent
  | .stmt s => s.sexpr indent

/-- A unit as a list. -/
def Program.sexpr (program : Program) : String :=
  let package :=
    match program.package with
    | some package => " (package " ++ package.name ++ ")"
    | none => ""
  "(unit " ++ quoted program.source ++ package
    ++ String.join (program.items.map fun item => newLine 2 ++ item.sexpr 2) ++ ")"

end StackScript.Syntax

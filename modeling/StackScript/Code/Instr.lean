import StackScript.Text.Decimal
import StackScript.Text.Quoted

/-!
# Instructions

The instructions of the stack machine. Operands are taken from the stack and results are put back
on it. Places in the code are numbered from zero, and so are local slots.
-/

namespace StackScript.Code

/-- One instruction. -/
inductive Instr where
  | pushInt (value : Int64)
  | pushBool (value : Bool)
  | pushStr (value : String)
  /-- Pushes the local in a slot. -/
  | load (slot : UInt16)
  /-- Pops a value into the local in a slot. -/
  | store (slot : UInt16)
  | pop
  | neg
  | not
  | add
  | sub
  | mul
  | div
  | mod
  /-- Joins the text forms of two values. -/
  | concat
  | eq
  | ne
  | lt
  | le
  | gt
  | ge
  /-- Takes an element of an array. -/
  | index
  /-- Takes the length of a string or an array. -/
  | length
  /-- Goes on at a place. -/
  | jump (place : UInt32)
  /-- Pops a boolean and goes on at a place if it is false. -/
  | jumpIfFalse (place : UInt32)
  /-- Calls a method of a class with the given number of arguments. -/
  | call (cls method : String) (argc : UInt16)
  /-- Pops a value and prints its text form on a line. -/
  | puts
  /-- Pops a value and fails with its text form. -/
  | raise
  /-- Pops a value and returns it. -/
  | ret
  /-- Returns no value. -/
  | retVoid
  deriving DecidableEq, Repr, Inhabited

/-- The instruction as it stands in a listing. -/
def Instr.text : Instr → String
  | pushInt value => "push.int " ++ Text.showInteger value
  | pushBool value => "push.bool " ++ toString value
  | pushStr value => "push.str " ++ Text.quoted value
  | load slot => "load " ++ toString slot
  | store slot => "store " ++ toString slot
  | pop => "pop"
  | neg => "neg"
  | not => "not"
  | add => "add"
  | sub => "sub"
  | mul => "mul"
  | div => "div"
  | mod => "mod"
  | concat => "concat"
  | eq => "eq"
  | ne => "ne"
  | lt => "lt"
  | le => "le"
  | gt => "gt"
  | ge => "ge"
  | index => "index"
  | length => "length"
  | jump place => "jump " ++ toString place
  | jumpIfFalse place => "jump.false " ++ toString place
  | call cls method argc => "call " ++ cls ++ "." ++ method ++ "/" ++ toString argc
  | puts => "puts"
  | raise => "raise"
  | ret => "return"
  | retVoid => "return.void"

/-- The class that the instruction calls, if it is a call. -/
def Instr.callee? : Instr → Option String
  | call cls _ _ => some cls
  | _ => none

end StackScript.Code

import StackScript.Notice
import StackScript.Source.Span

/-!
# Faults of code generation

Code is generated from trees that inference has completed. A tree that lacks something inference
should have written, or code that gathering should have moved, is a fault of the library itself.
-/

namespace StackScript.Code

open StackScript.Source

/-- What a tree lacks when code is generated from it. -/
inductive Breach where
  /-- A method stands outside any class. -/
  | looseMethod
  /-- A statement stands outside any class. -/
  | looseStatement
  /-- The type of a parameter does not exist. -/
  | paramType
  /-- A method has no return type. -/
  | returnType
  /-- A method that owes a value can end without one. -/
  | fallsThrough
  /-- An expression has no type. -/
  | exprType
  /-- A local variable is read that no parameter or assignment made. -/
  | unassigned
  /-- A call goes to no class. -/
  | callTarget
  deriving DecidableEq, Repr

/-- The breach in words. -/
def Breach.text : Breach → String
  | looseMethod => "top-level method was not moved into a class"
  | looseStatement => "top-level statement was not moved into a class"
  | paramType => "parameter type was not resolved"
  | returnType => "method has no inferred return type"
  | fallsThrough => "method can finish without returning a value"
  | exprType => "expression reached codegen without a type"
  | unassigned => "local has no slot"
  | callTarget => "call target was not resolved"

/-- Why no code comes out of a unit. -/
inductive CodeFault where
  /-- The tree of the unit `file` is not complete at `span`; `node` says what stands there. -/
  | internal (breach : Breach) (file : String) (span : Span) (node : Option String)
  /-- The code of a class could not be taken over. -/
  | unwritten (cls cause : String)
  deriving DecidableEq, Repr

namespace CodeFault

/-- The fault is the library's own. -/
def isInternal : CodeFault → Bool
  | internal _ _ _ _ => true
  | unwritten _ _ => false

/-- What went wrong. -/
def message : CodeFault → String
  | internal breach _ _ _ => "Internal compiler error: " ++ breach.text
  | unwritten cls cause => "Failed to encode class " ++ cls ++ ": " ++ cause

/-- The fault as it is told. -/
def notice (fault : CodeFault) : Notice :=
  match fault with
  | internal _ _ _ _ =>
    { code := "mirah::compile::internal"
      message := fault.message
      help := some
        "This is a bug in the compiler; please report it with the input that triggered it" }
  | unwritten _ _ => { code := "mirah::compile::encode", message := fault.message }

end CodeFault

end StackScript.Code

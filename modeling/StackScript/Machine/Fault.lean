import StackScript.Notice
import StackScript.Text.Decimal

/-!
# Failures of running code

Why an invocation ends without a value, and how that is told.
-/

namespace StackScript.Machine

open StackScript.Text

/-- What is wrong with code that no compilation makes. -/
inductive BadCode where
  /-- An instruction finds too few values on the stack. -/
  | underflow
  | badSlot (slot : Nat)
  | badJump (place : Nat)
  /-- The code of a method that owes a value ends. -/
  | noReturn
  deriving DecidableEq, Repr

/-- The defect in words. -/
def BadCode.text : BadCode → String
  | underflow => "stack underflow"
  | badSlot slot => "bad local slot " ++ toString slot
  | badJump place => "jump to " ++ toString place ++ " out of range"
  | noReturn => "finished without returning a value"

/-- Why an invocation fails. -/
inductive RuntimeFault where
  /-- The program itself gave up, with this text. -/
  | raised (message : String)
  | typeMismatch (expected found : String)
  | divisionByZero
  | indexOutOfBounds (index : Int64) (length : Nat)
  /-- The text is no integer. -/
  | invalidInteger (text : String)
  | undefinedMethod (cls method : String)
  | wrongArity (cls method : String) (expected found : Nat)
  /-- The class that is called was not linked to the one that calls it. -/
  | unlinked (cls : String)
  | stackOverflow (cls method : String)
  | invalidCode (cls method : String) (defect : BadCode)
  deriving DecidableEq, Repr

namespace RuntimeFault

/-- What went wrong. -/
def message : RuntimeFault → String
  | raised message => message
  | typeMismatch expected found => "Type error: expected " ++ expected ++ ", found " ++ found
  | divisionByZero => "Division by zero"
  | indexOutOfBounds index length =>
    "Index out of bounds: index " ++ showInteger index ++ " is not valid for array of length "
      ++ toString length
  | invalidInteger text => "Invalid integer: " ++ quoted text
  | undefinedMethod cls method => "Undefined method " ++ cls ++ "." ++ method
  | wrongArity cls method expected found =>
    "Wrong arity: " ++ cls ++ "." ++ method ++ " expects " ++ toString expected
      ++ " arguments, got " ++ toString found
  | unlinked cls => "Class " ++ cls ++ " is not linked"
  | stackOverflow cls method => "Stack overflow in " ++ cls ++ "." ++ method
  | invalidCode cls method defect =>
    "Invalid code in " ++ cls ++ "." ++ method ++ ": " ++ defect.text

/-- The code of the failure. -/
def code : RuntimeFault → String
  | raised _ => "mirah::runtime::raised"
  | typeMismatch _ _ => "mirah::runtime::type_error"
  | divisionByZero => "mirah::runtime::division_by_zero"
  | indexOutOfBounds _ _ => "mirah::runtime::index_out_of_bounds"
  | invalidInteger _ => "mirah::runtime::invalid_integer"
  | undefinedMethod _ _ => "mirah::runtime::undefined_method"
  | wrongArity _ _ _ _ => "mirah::runtime::wrong_arity"
  | unlinked _ => "mirah::runtime::unlinked"
  | stackOverflow _ _ => "mirah::runtime::stack_overflow"
  | invalidCode _ _ _ => "mirah::runtime::invalid_code"

/-- The advice that goes with the failure. -/
def advice? : RuntimeFault → Option String
  | typeMismatch _ _ => some "The payload may have been compiled against different signatures"
  | divisionByZero => some "Ensure the divisor is not zero before division"
  | unlinked _ => some "Units must be resolved through a loader before they run"
  | raised _ | indexOutOfBounds _ _ | invalidInteger _ | undefinedMethod _ _
  | wrongArity _ _ _ _ | stackOverflow _ _ | invalidCode _ _ _ => none

/-- The failure as it is told. -/
def notice (fault : RuntimeFault) : Notice where
  code := fault.code
  message := fault.message
  help := fault.advice?

end RuntimeFault

/-- What is said of an invocation that failed. -/
def invocationFailed (cls method : String) : String :=
  "Invocation of " ++ cls ++ "." ++ method ++ " failed"

end StackScript.Machine

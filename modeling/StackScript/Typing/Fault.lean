import StackScript.Notice
import StackScript.Source.Span
import StackScript.Ty

/-!
# Type faults

What joint inference can find wrong with a batch, and how that is told.
-/

namespace StackScript.Typing

open StackScript.Source

/-- What is wrong at one place of a batch. -/
inductive TypeFault where
  | unknownType (name : String)
  | unknownClass (name : String)
  /-- Several classes of the batch have the simple name. -/
  | ambiguousClass (name : String) (candidates : List String)
  | unknownMethod (cls method : String)
  | unknownLocal (name : String)
  | arityMismatch (cls method : String) (expected found : Nat)
  | typeMismatch (context : String) (expected found : Ty)
  | invalidOperands (operator operands : String)
  | notIndexable (found : Ty)
  | noLength (found : Ty)
  | duplicateMethod (cls method : String)
  /-- A value is needed where a call gives none. -/
  | voidValue
  /-- Some path through the method ends without a value. -/
  | missingReturn (cls method : String) (expected : Ty)
  /-- The return type hangs on itself. -/
  | incompleteInference (cls method : String)
  deriving DecidableEq, Repr

namespace TypeFault

/-- What went wrong. -/
def message : TypeFault → String
  | unknownType name => "Cannot find type " ++ name
  | unknownClass name => "Cannot find class " ++ name
  | ambiguousClass name candidates =>
    "Class name " ++ name ++ " is ambiguous: " ++ ", ".intercalate candidates
  | unknownMethod cls method => "Cannot find method " ++ method ++ " on " ++ cls
  | unknownLocal name => "Undefined local variable " ++ name
  | arityMismatch cls method expected found =>
    cls ++ "." ++ method ++ " expects " ++ toString expected ++ " argument(s), found "
      ++ toString found
  | typeMismatch context expected found =>
    "Type mismatch in " ++ context ++ ": expected " ++ expected.text ++ ", found " ++ found.text
  | invalidOperands operator operands =>
    "Operator " ++ operator ++ " cannot be applied to " ++ operands
  | notIndexable found => "Cannot index into " ++ found.text
  | noLength found => found.text ++ " has no length"
  | duplicateMethod cls method => "Method " ++ method ++ " is already defined in " ++ cls
  | voidValue => "void value used as an expression"
  | missingReturn cls method expected =>
    cls ++ "." ++ method ++ " can finish without returning a value of type " ++ expected.text
  | incompleteInference cls method =>
    "Could not infer the return type of " ++ cls ++ "." ++ method

/-- The code of the fault. -/
def code : TypeFault → String
  | unknownType _ => "mirah::typecheck::unknown_type"
  | unknownClass _ => "mirah::typecheck::unknown_class"
  | ambiguousClass _ _ => "mirah::typecheck::ambiguous_class"
  | unknownMethod _ _ => "mirah::typecheck::unknown_method"
  | unknownLocal _ => "mirah::typecheck::unknown_local"
  | arityMismatch _ _ _ _ => "mirah::typecheck::arity_mismatch"
  | typeMismatch _ _ _ => "mirah::typecheck::type_mismatch"
  | invalidOperands _ _ => "mirah::typecheck::invalid_operands"
  | notIndexable _ => "mirah::typecheck::not_indexable"
  | noLength _ => "mirah::typecheck::no_length"
  | duplicateMethod _ _ => "mirah::typecheck::duplicate_method"
  | voidValue => "mirah::typecheck::void_value"
  | missingReturn _ _ _ => "mirah::typecheck::missing_return"
  | incompleteInference _ _ => "mirah::typecheck::incomplete_inference"

/-- The advice that goes with the fault. -/
def advice? : TypeFault → Option String
  | unknownType _ => some "Known types are int, boolean, String, void and arrays of them"
  | unknownClass _ =>
    some "Check the spelling, the package, or that the defining file is part of this compilation"
  | ambiguousClass _ _ => some "Move the caller into the same package as the class it means"
  | unknownLocal name => some ("Assign a value to " ++ name ++ " before reading it")
  | notIndexable _ => some "Only arrays can be indexed"
  | voidValue =>
    some "Methods without a return value cannot be used where a value is expected"
  | missingReturn _ _ _ => some "End every path with a return, or finish the method with a value"
  | incompleteInference _ _ => some "Add a return type annotation to break the cycle"
  | unknownMethod _ _ | arityMismatch _ _ _ _ | typeMismatch _ _ _ | invalidOperands _ _
  | noLength _ | duplicateMethod _ _ => none

/-- The fault as it is told. -/
def notice (fault : TypeFault) : Notice where
  code := fault.code
  message := fault.message
  help := fault.advice?

end TypeFault

/-- A fault with the unit and the place it was found at. -/
structure TypeDiagnostic where
  fault : TypeFault
  /-- Name of the unit. -/
  file : String
  span : Span
  /-- What was being typed, innermost first, one line each. -/
  trace : Option String := none
  deriving DecidableEq, Repr

end StackScript.Typing

import StackScript.Machine.Fault

/-!
# Values

What running code computes with. Every value has a text form, which is what is printed and what
joining puts together.
-/

namespace StackScript.Machine

open StackScript.Text

/-- The values of running code. -/
inductive Value where
  | int (n : Int64)
  | bool (b : Bool)
  | string (s : String)
  | array (items : List Value)
  /-- The lack of a value: what a method without one gives, and what an unassigned local holds. -/
  | void
  deriving Repr, Inhabited

namespace Value

/-- The array of the given strings. -/
def strings (items : List String) : Value := array (items.map string)

/-- The name of the kind of a value. -/
def kind : Value → String
  | int _ => "int"
  | bool _ => "boolean"
  | string _ => "String"
  | array _ => "array"
  | void => "void"

mutual

/-- The text form of a value. -/
def text : Value → String
  | int n => showInteger n
  | bool b => toString b
  | string s => s
  | array items => "[" ++ ", ".intercalate (texts items) ++ "]"
  | void => ""

/-- The text forms of values. -/
def texts : List Value → List String
  | [] => []
  | item :: items => text item :: texts items

end

mutual

/-- The values are equal: of one kind and alike all through. -/
def same : Value → Value → Bool
  | int a, int b => a = b
  | bool a, bool b => a = b
  | string a, string b => a = b
  | array a, array b => sameAll a b
  | void, void => true
  | _, _ => false

/-- The values are equal one by one. -/
def sameAll : List Value → List Value → Bool
  | [], [] => true
  | a :: as, b :: bs => same a b && sameAll as bs
  | _, _ => false

end

/-- The value is the lack of one. -/
def isVoid : Value → Bool
  | void => true
  | _ => false

/-- The integer that a value is. -/
def asInt : Value → Except RuntimeFault Int64
  | int n => .ok n
  | other => .error (.typeMismatch "int" other.kind)

/-- The boolean that a value is. -/
def asBool : Value → Except RuntimeFault Bool
  | bool b => .ok b
  | other => .error (.typeMismatch "boolean" other.kind)

/-- The string that a value is. -/
def asString : Value → Except RuntimeFault String
  | string s => .ok s
  | other => .error (.typeMismatch "String" other.kind)

end Value

end StackScript.Machine

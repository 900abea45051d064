/-!
# Types

The types of values: integers, booleans, strings, arrays, and `void` for methods that give none.
A type is written as its base name followed by one pair of brackets per dimension. An array of
`void` has no written form that reads back: only a class file can bring one in.
-/

namespace StackScript

/-- The types of values. -/
inductive Ty where
  | int
  | boolean
  | string
  | void
  | array (element : Ty)
  deriving DecidableEq, Repr, Inhabited

namespace Ty

/-- The written form of a type. -/
def text : Ty → String
  | int => "int"
  | boolean => "boolean"
  | string => "String"
  | void => "void"
  | array element => element.text ++ "[]"

/-- The array type with the given number of dimensions. -/
def arrays (base : Ty) : Nat → Ty
  | 0 => base
  | n + 1 => array (base.arrays n)

/-- The type with a base name and a number of dimensions; `void` has no dimensions. -/
def ofParts? (base : String) (dims : Nat) : Option Ty :=
  if base = "int" then some (int.arrays dims)
  else if base = "boolean" then some (boolean.arrays dims)
  else if base = "String" then some (string.arrays dims)
  else if base = "void" ∧ dims = 0 then some void
  else none

/-- Counts the bracket pairs at the start of a reversed text and gives what follows them. -/
def stripBrackets : List Char → Nat × List Char
  | ']' :: '[' :: rest => ((stripBrackets rest).1 + 1, (stripBrackets rest).2)
  | rest => (0, rest)

/-- The base name and the number of dimensions of a written type. -/
def splitText (cs : List Char) : String × Nat :=
  let (dims, base) := stripBrackets cs.reverse
  (String.ofList base.reverse, dims)

/-- The type that a text writes. -/
def parse? (text : String) : Option Ty :=
  let (base, dims) := splitText text.toList
  ofParts? base dims

/-- The type gives no value. -/
def isVoid : Ty → Bool
  | void => true
  | _ => false

/-- The type of an array's elements. -/
def element? : Ty → Option Ty
  | array element => some element
  | _ => none

/-- The type has a written form: it has no array of `void` in it. -/
def isWritable : Ty → Bool
  | array void => false
  | array element => element.isWritable
  | _ => true

end Ty

end StackScript

/-!
# Decimal numerals

Reading decimal numerals as 64-bit integers. `readDigits` accepts one or more digits, `readInteger`
an optional sign before them, and refuses a value outside the 64-bit range.
-/

namespace StackScript.Text

/-- The character is one of the ten ASCII digits. -/
def isDigit (c : Char) : Bool := '0' ≤ c && c ≤ '9'

/-- The number that a digit denotes. -/
def digitValue (c : Char) : Nat := c.toNat - '0'.toNat

/-- The number that digits denote, read from the left onto `acc`. -/
def digitsValue (acc : Nat) : List Char → Nat
  | [] => acc
  | c :: cs => digitsValue (10 * acc + digitValue c) cs

/-- The number written by one or more digits, or nothing for any other text. -/
def readDigits (cs : List Char) : Option Nat :=
  if !cs.isEmpty && cs.all isDigit then some (digitsValue 0 cs) else none

/-- The 64-bit integer equal to `n`, if there is one. -/
def int64? (n : Int) : Option Int64 :=
  if Int64.minValue.toInt ≤ n ∧ n ≤ Int64.maxValue.toInt then some (Int64.ofInt n) else none

/-- An optional sign, one or more digits, and a value in the 64-bit range. -/
def readInteger (cs : List Char) : Option Int64 :=
  match cs with
  | '-' :: digits => (readDigits digits).bind fun n => int64? (-(n : Int))
  | '+' :: digits => (readDigits digits).bind fun n => int64? n
  | digits => (readDigits digits).bind fun n => int64? n

/-- A 64-bit integer as a decimal numeral. -/
def showInteger (n : Int64) : String := toString n.toInt

end StackScript.Text

import StackScript.Machine.Value
import StackScript.Signature
import StackScript.Text.Blank
import StackScript.Text.Case

/-!
# Native classes

The classes that are there without being compiled. `Integer` is always there; each of the others
belongs to an extension and is there once the extension is enabled.
-/

namespace StackScript.Machine

open StackScript.Text

/-! ## Operations -/

/-- The integer that a text writes, blanks around it aside; the fault has the text as it was. -/
def parseInteger (text : String) : Except RuntimeFault Int64 :=
  match readInteger (trim text.toList) with
  | some n => .ok n
  | none => .error (.invalidInteger text)

/-- The power with a natural exponent, wrapped to 64 bits, by repeated squaring. -/
def wrappedPow (base : Int64) (exponent : Nat) : Int64 :=
  if exponent = 0 then 1
  else
    let squared := wrappedPow (base * base) (exponent / 2)
    if exponent % 2 = 1 then base * squared else squared
  termination_by exponent
  decreasing_by omega

/-- The wrapped power. An exponent has to be a natural number of at most 32 bits; all others are
turned away as negative. -/
def powInteger (base exponent : Int64) : Except RuntimeFault Int64 :=
  if 0 ≤ exponent.toInt ∧ exponent.toInt < 0x100000000 then
    .ok (wrappedPow base exponent.toInt.toNat)
  else .error (.raised ("negative exponent " ++ showInteger exponent))

/-- The absolute value, wrapped to 64 bits. -/
def absInteger (n : Int64) : Int64 := if n < 0 then -n else n

/-- The larger of two integers. -/
def maxInteger (a b : Int64) : Int64 := if a ≤ b then b else a

/-- The smaller of two integers. -/
def minInteger (a b : Int64) : Int64 := if a ≤ b then a else b

/-! ## Classes -/

/-- A method of a native class. -/
structure NativeMethod where
  sig : MethodSig
  /-- What it gives for as many arguments as it has parameters. -/
  run : List Value → Except RuntimeFault Value

/-- The argument with a number; the number of arguments has been checked before. -/
def argument (args : List Value) (n : Nat) : Value := args.getD n .void

/-- A method from one string. -/
def onString (name : String) (ret : Ty) (f : String → Except RuntimeFault Value) :
    NativeMethod where
  sig := ⟨name, [.string], ret⟩
  run args := do f (← (argument args 0).asString)

/-- A method from one integer. -/
def onInt (name : String) (ret : Ty) (f : Int64 → Except RuntimeFault Value) : NativeMethod where
  sig := ⟨name, [.int], ret⟩
  run args := do f (← (argument args 0).asInt)

/-- A method from two integers. -/
def onInts (name : String) (ret : Ty) (f : Int64 → Int64 → Except RuntimeFault Value) :
    NativeMethod where
  sig := ⟨name, [.int, .int], ret⟩
  run args := do
    let a ← (argument args 0).asInt
    let b ← (argument args 1).asInt
    f a b

/-- The native classes. -/
inductive NativeClass where
  | integer
  | math
  | text
  deriving DecidableEq, Repr, Inhabited

namespace NativeClass

/-- The qualified name of a native class. -/
def name : NativeClass → String
  | integer => "Integer"
  | math => "Math"
  | text => "Text"

/-- The methods of a native class. -/
def methods : NativeClass → List NativeMethod
  | integer =>
    [onString "parse" .int fun s => .int <$> parseInteger s,
      onInt "to_s" .string fun n => .ok (.string (showInteger n))]
  | math =>
    [onInts "max" .int fun a b => .ok (.int (maxInteger a b)),
      onInts "min" .int fun a b => .ok (.int (minInteger a b)),
      onInt "abs" .int fun n => .ok (.int (absInteger n)),
      onInts "pow" .int fun a b => .int <$> powInteger a b]
  | text =>
    [onString "upcase" .string fun s => .ok (.string (String.ofList (upper s.toList))),
      onString "downcase" .string fun s => .ok (.string (String.ofList (lower s.toList))),
      onString "reverse" .string fun s => .ok (.string (String.ofList s.toList.reverse)),
      onString "length" .int fun s => .ok (.int (Int64.ofNat s.length))]

/-- The signature of a native class. -/
def signature (cls : NativeClass) : ClassSig := ⟨cls.name, cls.methods.map NativeMethod.sig⟩

/-- Calls a method of a native class. -/
def call (cls : NativeClass) (method : String) (args : List Value) : Except RuntimeFault Value :=
  match cls.methods.find? (·.sig.name = method) with
  | none => .error (.undefinedMethod cls.name method)
  | some m =>
    if args.length = m.sig.params.length then m.run args
    else .error (.wrongArity cls.name method m.sig.params.length args.length)

end NativeClass

/-! ## Extensions -/

/-- The extensions that there are. -/
inductive Extension where
  | math
  | text
  deriving DecidableEq, Repr

namespace Extension

/-- The name of an extension. -/
def name : Extension → String
  | math => "math"
  | text => "text"

/-- The class that an extension brings. -/
def nativeClass : Extension → NativeClass
  | math => .math
  | text => .text

/-- All extensions, in the order in which they are told. -/
def all : List Extension := [math, text]

end Extension

/-- The native class of the given name, when certain extensions are enabled. -/
def nativeClass? (enabled : List Extension) (name : String) : Option NativeClass :=
  if name = NativeClass.integer.name then some .integer
  else (enabled.map Extension.nativeClass).find? (·.name = name)

end StackScript.Machine

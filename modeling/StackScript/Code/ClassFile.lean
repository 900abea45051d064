import StackScript.Code.Instr
import StackScript.Signature

/-!
# Class files

The code of a class: its methods with their instructions and lines, the other classes it calls, and
the extensions it was made with.
-/

namespace StackScript.Code

/-- The version of the target that a class file is made for. -/
inductive Target where
  | v1
  | v2
  | v3
  | v4
  deriving DecidableEq, Repr, Inhabited

namespace Target

/-- The version as text. -/
def text : Target → String
  | v1 => "v1"
  | v2 => "v2"
  | v3 => "v3"
  | v4 => "v4"

/-- The version that a text names, with or without its letter, in either case. -/
def parse? (text : String) : Option Target :=
  match text.map Char.toLower with
  | "v1" | "1" => some v1
  | "v2" | "2" => some v2
  | "v3" | "3" => some v3
  | "v4" | "4" => some v4
  | _ => none

/-- The version that is made unless another one is asked for. -/
def latest : Target := v4

end Target

/-- Where the code of a statement starts, and the source line of the statement. -/
structure LineMark where
  place : UInt32
  line : UInt32
  deriving DecidableEq, Repr

/-- The code of a method. -/
structure MethodCode where
  name : String
  params : List Ty
  ret : Ty
  /-- Number of local slots, those of the parameters included. -/
  locals : UInt16
  code : Array Instr
  lines : List LineMark
  deriving DecidableEq, Repr

/-- The signature of a method. -/
def MethodCode.signature (method : MethodCode) : MethodSig :=
  ⟨method.name, method.params, method.ret⟩

/-- The source line of the last statement whose code starts at or before `place`. -/
def MethodCode.lineFor (method : MethodCode) (place : Nat) : Option UInt32 :=
  ((method.lines.takeWhile (·.place.toNat ≤ place)).getLast?).map LineMark.line

/-- The code of a class. -/
structure ClassFile where
  /-- The number that tells class files from other data. -/
  magic : UInt32
  target : Target
  /-- Qualified name of the class. -/
  name : String
  /-- Name of the unit it was made from. -/
  sourceFile : String
  /-- The other classes that it calls, in the order of their first use. -/
  references : List String
  methods : List MethodCode
  /-- The extensions to enable when it is loaded. -/
  extensions : List String
  deriving DecidableEq, Repr

namespace ClassFile

/-- The number that every class file starts with. -/
def rightMagic : UInt32 := 0x4D495241

/-- The first method of the given name. -/
def method? (file : ClassFile) (name : String) : Option MethodCode :=
  file.methods.find? (·.name = name)

/-- The first method that a program can start with. -/
def entryPoint? (file : ClassFile) : Option MethodCode :=
  file.methods.find? (·.signature.isEntryPoint)

/-- The signature of the class. -/
def signature (file : ClassFile) : ClassSig := ⟨file.name, file.methods.map MethodCode.signature⟩

end ClassFile

end StackScript.Code

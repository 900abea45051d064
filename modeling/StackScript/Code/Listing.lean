import StackScript.Code.ClassFile

/-!
# Listings

A class file as text: a head with the name, target, source, references and extensions, and then
each method with its numbered instructions, a remark before the first instruction of each line.
-/

namespace StackScript.Code

/-- The remarks for the line marks at the start of `lines` that belong to `place`, and the marks
after them. -/
def lineRemarks (place : Nat) (lines : List LineMark) : String × List LineMark :=
  let here := lines.takeWhile (·.place.toNat = place)
  (String.join (here.map fun mark => "    ; line " ++ toString mark.line ++ "\n"),
    lines.drop here.length)

/-- A number at the right end of a field four characters wide. -/
def padNumber (n : Nat) : String :=
  let digits := toString n
  String.ofList (List.replicate (4 - digits.length) ' ') ++ digits

/-- The instructions from `place` on, each on a line, with the remarks due on the way. A mark that
is out of order holds back those behind it. -/
def listCode (place : Nat) (lines : List LineMark) : List Instr → List String
  | [] => []
  | instr :: rest =>
    let (remarks, later) := lineRemarks place lines
    (remarks ++ "    " ++ padNumber place ++ "  " ++ instr.text ++ "\n")
      :: listCode (place + 1) later rest

/-- The listing of a method. -/
def MethodCode.listing (method : MethodCode) : String :=
  "  def " ++ method.signature.text ++ " (locals " ++ toString method.locals ++ ")\n"
    ++ String.join (listCode 0 method.lines method.code.toList)

/-- A head line with a list of names, left out when there are none. -/
def nameLine (label : String) (names : List String) : String :=
  if names.isEmpty then "" else "  " ++ label ++ " " ++ ", ".intercalate names ++ "\n"

/-- The listing of a class file. -/
def ClassFile.listing (file : ClassFile) : String :=
  "class " ++ file.name ++ " (target " ++ file.target.text ++ ")\n"
    ++ "  source " ++ file.sourceFile ++ "\n"
    ++ nameLine "references" file.references
    ++ nameLine "extensions" file.extensions
    ++ String.join (file.methods.map fun method => "\n" ++ method.listing)

end StackScript.Code

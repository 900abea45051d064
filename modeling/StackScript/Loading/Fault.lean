import StackScript.Code.Payload
import StackScript.Files.Disk

/-!
# Failures of loading

Why a class name does not become a loaded unit, and how that is told.
-/

namespace StackScript.Loading

open StackScript.Code StackScript.Files

/-- Why a class name does not become a loaded unit. -/
inductive LoadFault where
  | notFound (name : String)
  /-- The payload under the name cannot be read. -/
  | malformed (name : String) (cause : DecodeFault)
  /-- The payload under the name is that of another class. -/
  | nameMismatch (name found : String)
  | unknownExtension (name : String) (known : List String)
  /-- The file of the payload cannot be read. -/
  | unreadable (path : String) (cause : FileFault)
  deriving DecidableEq, Repr

namespace LoadFault

/-- What went wrong. -/
def message : LoadFault → String
  | notFound name => "Unit not found: " ++ name
  | malformed name cause => "Malformed unit " ++ name ++ ": " ++ cause.message
  | nameMismatch name found => "Unit " ++ name ++ " names " ++ found
  | unknownExtension name _ => "Unknown extension: " ++ name
  | unreadable path cause => "Failed to read " ++ path ++ ": " ++ cause.text

/-- The failure as it is told. -/
def notice (fault : LoadFault) : Notice :=
  match fault with
  | notFound _ =>
    { code := "mirah::load::not_found"
      message := fault.message
      help := some "Check the classpath, load path and enabled extensions" }
  | malformed _ _ => { code := "mirah::load::malformed", message := fault.message }
  | nameMismatch _ _ => { code := "mirah::load::name_mismatch", message := fault.message }
  | unknownExtension _ known =>
    { code := "mirah::load::unknown_extension"
      message := fault.message
      help := some ("Known extensions: " ++ ", ".intercalate known) }
  | unreadable _ _ => { code := "mirah::load::io", message := fault.message }

end LoadFault

end StackScript.Loading

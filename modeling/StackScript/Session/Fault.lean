import StackScript.Code.Fault
import StackScript.Loading.Fault
import StackScript.Machine.Fault

/-!
# Failures of a session

Why a command ends without success, and how that is told. Faults with a place in a source text are
reported where they are found; what ends the command then only says which phase failed.
-/

namespace StackScript.Session

open StackScript.Code StackScript.Files StackScript.Loading StackScript.Machine

/-- Why a command ends without success. -/
inductive SessionFault where
  /-- The command cannot be carried out as it was given. -/
  | usage (message : String)
  /-- Something cannot be done with a file. -/
  | file (action path cause : String)
  /-- A unit cannot be taken in; why has been reported. -/
  | unreadable (unit : String)
  /-- The batch has type faults, which have been reported. -/
  | illTyped (count : Nat)
  /-- A class is generated a second time. -/
  | duplicateClass (name : String)
  | code (fault : CodeFault)
  | load (fault : LoadFault)
  /-- The program failed. -/
  | execution (fault : RuntimeFault)
  deriving DecidableEq, Repr

namespace SessionFault

/-- An operation on a file failed. -/
def ofFile (action path : String) (cause : FileFault) : SessionFault := file action path cause.text

/-- The failure as it is told. -/
def notice : SessionFault → Notice
  | usage message =>
    { code := "mirah::usage", message, help := some "Run `mirah --help` for usage" }
  | file action path cause =>
    { code := "mirah::io", message := "Failed to " ++ action ++ " " ++ path ++ ": " ++ cause }
  | unreadable unit =>
    { code := "mirah::parse_failed", message := "Parsing " ++ unit ++ " failed" }
  | illTyped count =>
    { code := "mirah::inference_failed"
      message := "Type inference failed with " ++ toString count ++ " error(s)" }
  | duplicateClass name =>
    { code := "mirah::duplicate_unit"
      message := "Class " ++ name ++ " was generated more than once"
      help := some "Each class may be defined by only one unit per run" }
  | code fault => fault.notice
  | load fault => fault.notice
  | execution fault => fault.notice

/-- The reasons were reported when they were found. -/
def isReported : SessionFault → Bool
  | unreadable _ | illTyped _ => true
  | code fault => fault.isInternal
  | usage _ | file _ _ _ | duplicateClass _ | load _ | execution _ => false

end SessionFault

end StackScript.Session

import StackScript.Files.Disk
import StackScript.Session.Fault
import StackScript.Syntax.Script

/-!
# Sources

The entries of a command line become source units. An inline script is a unit of its own, a path
that is no directory is taken as it is, and a directory stands for the source files below it. A
queue holds what is still to be looked at, and the directories found on the way wait at its end.
-/

namespace StackScript.Session

open StackScript.Files StackScript.Syntax StackScript.Text

/-- Where the text of a unit comes from. -/
inductive Origin where
  | inline (text : String)
  | file (path : String)
  deriving DecidableEq, Repr

/-- A unit before its text is read. -/
structure SourceUnit where
  name : String
  origin : Origin
  deriving DecidableEq, Repr

namespace SourceUnit

/-- A unit from an inline script. -/
def inline (text : String) : SourceUnit := ⟨inlineName, .inline text⟩

/-- A unit from a file, named after its path. -/
def file (path : String) : SourceUnit := ⟨path, .file path⟩

/-- The text of a unit. -/
def read (disk : Disk) (unit : SourceUnit) : Except SessionFault String :=
  match unit.origin with
  | .inline text => .ok text
  | .file path => (disk.readText path).mapError (.ofFile "read" path)

end SourceUnit

/-- The file name is that of a source file. -/
def isSourceName (name : String) : Bool :=
  match (cutExtension name).2 with
  | some extension => extension = "mirah" || extension = "duby"
  | none => false

/-- The entry that announces an inline script. -/
def inlineMark : String := "-e"

/-- The units that entries stand for, directories still among them. -/
def entryUnits : List String → Except SessionFault (List SourceUnit)
  | [] => .ok []
  | entry :: rest =>
    if entry = inlineMark then
      match rest with
      | [] => .error (.usage "-e requires a script")
      | text :: rest => (SourceUnit.inline text :: ·) <$> entryUnits rest
    else (SourceUnit.file entry :: ·) <$> entryUnits rest

/-- A directory with the path under which it was found. -/
abbrev Found := String × List (String × Entry)

/-- What a directory holds, in the order of the bytes of the names. -/
def sorted (children : List (String × Entry)) : List (String × Entry) :=
  children.mergeSort fun a b => notBehind (utf8Bytes a.1) (utf8Bytes b.1)

/-- The unit of a child of the directory at `path`, if it is a source file. -/
def sourceFile? (path : String) : String × Entry → Option SourceUnit
  | (name, .file _) => if isSourceName name then some (.file (join path name)) else none
  | (_, .dir _) => none

/-- The child of the directory at `path`, if it is a directory. -/
def subdirectory? (path : String) : String × Entry → Option Found
  | (_, .file _) => none
  | (name, .dir children) => some (join path name, children)

/-- The source files in a directory. -/
def filesIn (found : Found) : List SourceUnit :=
  (sorted found.2).filterMap (sourceFile? found.1)

/-- The directories in a directory. -/
def dirsIn (found : Found) : List Found := (sorted found.2).filterMap (subdirectory? found.1)

/-- What a path holds, if it means a directory. -/
def directory? (disk : Disk) (path : String) : Option (List (String × Entry)) :=
  match disk.entry path with
  | .ok (.dir children) => some children
  | _ => none

/-- What waits in the queue. -/
inductive Waiting where
  /-- A unit that is taken as it is. -/
  | unit (unit : SourceUnit)
  /-- A directory that is still to be read. -/
  | directory (found : Found)

/-- The place of a unit in the queue. -/
def SourceUnit.waiting (disk : Disk) (unit : SourceUnit) : Waiting :=
  match unit.origin with
  | .inline _ => .unit unit
  | .file path =>
    match directory? disk path with
    | none => .unit unit
    | some children => .directory (path, children)

/-- The number of files and directories that a queue may still lead to. -/
def queueSize : List Waiting → Nat
  | [] => 0
  | .unit _ :: queue => queueSize queue + 1
  | .directory found :: queue => queueSize queue + Entry.sizes found.2 + 1

theorem queueSize_append (a b : List Waiting) :
    queueSize (a ++ b) = queueSize a + queueSize b := by
  induction a with
  | nil => exact (Nat.zero_add _).symm
  | cons first a ih =>
    cases first with
    | unit unit => rw [List.cons_append, queueSize, queueSize, ih]; omega
    | directory found => rw [List.cons_append, queueSize, queueSize, ih]; omega

theorem sizes_perm {a b : List (String × Entry)} (h : a.Perm b) :
    Entry.sizes a = Entry.sizes b := by
  induction h with
  | nil => rfl
  | cons child _ ih => rw [Entry.sizes, Entry.sizes, ih]
  | swap first second rest => simp only [Entry.sizes]; omega
  | trans _ _ hab hbc => exact hab.trans hbc

/-- What is found in a directory leads to no more than the directory itself does. -/
theorem queueSize_dirsIn (found : Found) :
    queueSize ((dirsIn found).map .directory) ≤ Entry.sizes found.2 := by
  rw [← sizes_perm (List.mergeSort_perm found.2 _), dirsIn, sorted]
  generalize found.2.mergeSort _ = children
  induction children with
  | nil => exact Nat.le_refl 0
  | cons child rest ih =>
    obtain ⟨name, node⟩ := child
    cases node with
    | file bytes => exact Nat.le_trans ih (Nat.le_add_left _ _)
    | dir children =>
      have hfound : subdirectory? found.1 (name, .dir children) =
          some (join found.1 name, children) := rfl
      rw [List.filterMap_cons_some hfound, List.map_cons, queueSize, Entry.sizes, Entry.size]
      dsimp only
      omega

/-- Takes what waits, the front of the queue first. The source files in a directory are taken when
it is read, and the directories in it wait at the end of the queue. -/
def expandQueue : List Waiting → List SourceUnit
  | [] => []
  | .unit unit :: queue => unit :: expandQueue queue
  | .directory found :: queue =>
    filesIn found ++ expandQueue (queue ++ (dirsIn found).map .directory)
termination_by queue => queueSize queue
decreasing_by
  · exact Nat.lt_succ_self _
  · have := queueSize_dirsIn found
    rw [queueSize_append, queueSize]
    omega

/-- The units that entries stand for. -/
def expand (disk : Disk) (entries : List String) : Except SessionFault (List SourceUnit) := do
  let units ← entryUnits entries
  pure (expandQueue (units.map (SourceUnit.waiting disk)))

end StackScript.Session

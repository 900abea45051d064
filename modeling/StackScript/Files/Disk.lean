import StackScript.Files.Path
import StackScript.Text.Utf8

/-!
# Files and directories

A tree of files and directories as a value, with a working directory from which relative paths
start. Each operation fails for the reasons of a real file system, told in its words; there are no
links, no permissions, and no limits to the lengths of names and to what fits on a disk.
-/

namespace StackScript.Files

open StackScript.Text

/-! ## Trees -/

/-- A file with its bytes, or a directory with what it holds by name. -/
inductive Entry where
  | file (bytes : List UInt8)
  | dir (children : List (String × Entry))
  deriving Inhabited

namespace Entry

/-- What a directory holds; a file holds nothing. -/
def children : Entry → List (String × Entry)
  | file _ => []
  | dir children => children

/-- The entry is a directory. -/
def isDir : Entry → Bool
  | file _ => false
  | dir _ => true

/-- The entry that names lead to, downwards. -/
def at? : Entry → List String → Option Entry
  | entry, [] => some entry
  | entry, name :: names => (entry.children.lookup name).bind (·.at? names)

/-- Puts a child in the place of the one with its name, or at the end. -/
def putChild (name : String) (child : Entry) : List (String × Entry) → List (String × Entry)
  | [] => [(name, child)]
  | c :: rest => if c.1 = name then (name, child) :: rest else c :: putChild name child rest

/-- Puts an entry at the end of names, downwards; directories on the way are made. -/
def put (leaf : Entry) : List String → Entry → Entry
  | [], _ => leaf
  | name :: names, entry =>
    let child := (entry.children.lookup name).getD (dir [])
    dir (putChild name (put leaf names child) entry.children)

mutual

/-- The number of files and directories in a tree, itself included. -/
def size : Entry → Nat
  | file _ => 1
  | dir children => sizes children + 1

/-- The number of files and directories below children, these included. -/
def sizes : List (String × Entry) → Nat
  | [] => 0
  | (_, child) :: rest => child.size + sizes rest

end

mutual

/-- The number of files in a tree. -/
def fileCount : Entry → Nat
  | file _ => 1
  | dir children => fileCounts children

/-- The number of files below children. -/
def fileCounts : List (String × Entry) → Nat
  | [] => 0
  | (_, child) :: rest => child.fileCount + fileCounts rest

end

mutual

/-- The files of a tree with their bytes, by the names that lead to them behind `place`. -/
def files (place : List String) : Entry → List (List String × List UInt8)
  | file bytes => [(place, bytes)]
  | dir children => filesAmong place children

/-- The files below the children of the directory at `place`. -/
def filesAmong (place : List String) : List (String × Entry) → List (List String × List UInt8)
  | [] => []
  | (name, child) :: rest => child.files (place ++ [name]) ++ filesAmong place rest

end

end Entry

/-! ## Faults -/

/-- Why an operation on files fails. -/
inductive FileFault where
  | missing
  | alreadyThere
  | notDirectory
  | isDirectory
  /-- The bytes are no text. -/
  | notText
  deriving DecidableEq, Repr

/-- The fault in words. -/
def FileFault.text : FileFault → String
  | missing => "No such file or directory (os error 2)"
  | alreadyThere => "File exists (os error 17)"
  | notDirectory => "Not a directory (os error 20)"
  | isDirectory => "Is a directory (os error 21)"
  | notText => "stream did not contain valid UTF-8"

/-! ## Disks -/

/-- A tree with a working directory. -/
structure Disk where
  root : Entry := .dir []
  /-- The names that lead from the root to the working directory. -/
  here : List String := []
  deriving Inhabited

namespace Disk

/-- Follows the components of a path from the directory at `place`; only a directory leads on. -/
def walk (disk : Disk) (place : List String) : List String → Except FileFault (List String)
  | [] => .ok place
  | part :: parts =>
    match disk.root.at? place with
    | none => .error .missing
    | some (.file _) => .error .notDirectory
    | some (.dir children) =>
      if part = "" ∨ part = "." then disk.walk place parts
      else if part = ".." then disk.walk place.dropLast parts
      else if (children.lookup part).isSome then disk.walk (place ++ [part]) parts
      else .error .missing

/-- Where paths with the given text start. -/
def base (disk : Disk) (path : String) : List String :=
  if isAbsolute path then [] else disk.here

/-- The names that lead from the root to what a path means. -/
def resolve (disk : Disk) (path : String) : Except FileFault (List String) :=
  if path = "" then .error .missing else disk.walk (disk.base path) (piecesBy '/' path)

/-- The names that lead from the root to where a path points, whether or not anything is there. -/
def placeOf (disk : Disk) (path : String) : List String :=
  (steps path).foldl (fun place part => if part = ".." then place.dropLast else place ++ [part])
    (disk.base path)

/-- The files that are not on a disk as they are on a later one, with their places. -/
def changes (before after : Disk) : List (List String × List UInt8) :=
  (after.root.files []).filter fun (place, bytes) =>
    match before.root.at? place with
    | some (.file old) => old ≠ bytes
    | _ => true

/-- What a path means. -/
def entry (disk : Disk) (path : String) : Except FileFault Entry :=
  match disk.resolve path with
  | .error fault => .error fault
  | .ok place =>
    match disk.root.at? place with
    | some entry => .ok entry
    | none => .error .missing

/-- The path means a directory. -/
def isDir (disk : Disk) (path : String) : Bool :=
  match disk.entry path with
  | .ok entry => entry.isDir
  | .error _ => false

/-- The path means a file. -/
def isFile (disk : Disk) (path : String) : Bool :=
  match disk.entry path with
  | .ok entry => !entry.isDir
  | .error _ => false

/-- The bytes of a file. -/
def readFile (disk : Disk) (path : String) : Except FileFault (List UInt8) :=
  match disk.entry path with
  | .error fault => .error fault
  | .ok (.dir _) => .error .isDirectory
  | .ok (.file bytes) => .ok bytes

/-- The text of a file. -/
def readText (disk : Disk) (path : String) : Except FileFault String :=
  match disk.readFile path with
  | .error fault => .error fault
  | .ok bytes =>
    match ofUtf8? bytes with
    | some text => .ok text
    | none => .error .notText

/-- The disk with a entry put at a place. -/
def put (disk : Disk) (place : List String) (entry : Entry) : Disk :=
  { disk with root := Entry.put entry place disk.root }

/-- Splits a path into the place of the directory that holds it and its last component; slashes at
its end do not count. Nothing holds the root. -/
def target (disk : Disk) (path : String) : Except FileFault (List String × String) :=
  match (piecesBy '/' path).reverse.dropWhile (· = "") with
  | [] => .error (if path = "" then .missing else .isDirectory)
  | last :: front =>
    match disk.walk (disk.base path) front.reverse with
    | .error fault => .error fault
    | .ok place =>
      match disk.root.at? place with
      | some (.dir _) => .ok (place, last)
      | some (.file _) => .error .notDirectory
      | none => .error .missing

/-- The component leads to a directory that is there already. -/
def isDots (part : String) : Bool := part = "." || part = ".."

/-- Makes a directory in one that is there. -/
def makeDir (disk : Disk) (path : String) : Except FileFault Disk :=
  if isAbsolute path && (steps path).isEmpty then .error .alreadyThere
  else
    match disk.target path with
    | .error fault => .error fault
    | .ok (place, name) =>
      if isDots name || (disk.root.at? (place ++ [name])).isSome then .error .alreadyThere
      else .ok (disk.put (place ++ [name]) (.dir []))

/-- Makes a directory, and with at most `fuel` steps upwards those that it needs. -/
def makeDirsFrom : Nat → Disk → String → Except FileFault Disk
  | 0, _, _ => .error .missing
  | fuel + 1, disk, path =>
    if path = "" then .ok disk
    else
      let orThere (disk : Disk) : Except FileFault Disk → Except FileFault Disk
        | .ok made => .ok made
        | .error fault => if disk.isDir path then .ok disk else .error fault
      match disk.makeDir path with
      | .error .missing =>
        match parent? path with
        | none => .error .missing
        | some upper =>
          match makeDirsFrom fuel disk upper with
          | .error fault => .error fault
          | .ok disk => orThere disk (disk.makeDir path)
      | made => orThere disk made

/-- Makes a directory and those that it needs; nothing happens if it is there. A path has fewer
directories above it than characters. -/
def makeDirs (disk : Disk) (path : String) : Except FileFault Disk :=
  makeDirsFrom (path.length + 1) disk path

/-- Writes a file into a directory that is there; what it held before is gone. -/
def writeFile (disk : Disk) (path : String) (bytes : List UInt8) : Except FileFault Disk :=
  match disk.target path with
  | .error fault => .error fault
  | .ok (place, name) =>
    if isDots name then .error .isDirectory
    else
      match disk.root.at? (place ++ [name]) with
      | some (.dir _) => .error .isDirectory
      | _ => .ok (disk.put (place ++ [name]) (.file bytes))

/-- The disk with another working directory. -/
def enter (disk : Disk) (path : String) : Except FileFault Disk := do
  let place ← disk.resolve path
  match disk.root.at? place with
  | some (.dir _) => pure { disk with here := place }
  | _ => throw .notDirectory

end Disk

end StackScript.Files

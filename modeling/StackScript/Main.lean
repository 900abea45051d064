import StackScript.Session.Command

/-!
# The program

The outer layer: takes the parts of the real file system that a request may read into a disk,
carries the request out on it, prints what is to be printed, and writes the files that changed.
-/

namespace StackScript.Main

open StackScript.Files StackScript.Session

/-- An entry of the real file system by its place below the root. -/
def entryAt (place : List String) : IO.FS.DirEntry := ⟨"/", "/".intercalate place⟩

/-- The bytes of a real file. -/
def bytesOf (entry : IO.FS.DirEntry) : IO (List UInt8) := do
  return (← IO.FS.readBinFile entry.path).data.toList

/-- The bytes of the file are of use: it is a source file or a payload. -/
def isOfUse (name : String) : Bool := isSourceName name || extension? name = some "mbc"

/-- The real tree at an entry. -/
partial def treeAt (entry : IO.FS.DirEntry) : IO Entry := do
  if ← entry.path.isDir then
    let children ← (← entry.path.readDir).toList.mapM fun child => do
      return (child.fileName, ← treeAt child)
    return .dir children
  else if isOfUse entry.fileName then return .file (← bytesOf entry)
  else return .file []

/-- The place of the first file, or of the first thing that is missing, on the way to a place. -/
def firstObstacle (place : List String) : List String → IO (Option (List String))
  | [] => return none
  | name :: names => do
    let next := place ++ [name]
    if ← (entryAt next).path.isDir then firstObstacle next names else return some next

/-- Takes what really stands at a place into a disk; a directory with what it holds if `deep`. -/
def take (deep : Bool) (disk : Disk) (place : List String) : IO Disk := do
  match ← firstObstacle [] place with
  | none =>
    if deep then return disk.put place (← treeAt (entryAt place))
    else if (disk.root.at? place).isSome then return disk
    else return disk.put place (.dir [])
  | some obstacle =>
    let entry := entryAt obstacle
    if ← entry.path.pathExists then return disk.put obstacle (.file (← bytesOf entry))
    else if (disk.root.at? obstacle.dropLast).isSome then return disk
    else return disk.put obstacle.dropLast (.dir [])

/-- The disk with what a request may read. -/
def diskFor (request : Request) : IO Disk := do
  let here := (← IO.currentDir).components.filter (· ≠ "")
  let bare : Disk ← take false ⟨.dir [], here⟩ here
  let dir := bare.placeOf (request.workingDirectory?.getD "")
  let disk ← take false bare dir
  let inside : Disk := { disk with here := dir }
  request.paths.foldlM (fun disk path => take true disk (inside.placeOf path)) disk

/-- Writes a changed file. -/
def write (change : List String × List UInt8) : IO Unit := do
  let (place, bytes) := change
  IO.FS.createDirAll (entryAt place.dropLast).path
  IO.FS.writeBinFile (entryAt place).path ⟨bytes.toArray⟩

/-- Carries out a request. What stands at the places that are to be written is looked at first. -/
def carryOut (request : Request) : IO Outcome := do
  let disk ← diskFor request
  let first := execute Machine.plenty disk request
  let places := (disk.changes first.disk).map (·.1)
  if places.isEmpty then return first
  let disk ← places.foldlM (take false) disk
  let outcome := execute Machine.plenty disk request
  (disk.changes outcome.disk).forM write
  return outcome

/-- How the program is used. -/
def usage : String :=
  "Usage: mirah compile [OPTIONS] [PATH]...\n"
    ++ "       mirah run [OPTIONS] [PATH]... [-- ARGS...]\n"
    ++ "       mirah parse FILE...\n"

/-- Shows how the program is used, as an answer or as a complaint. -/
def refuse (refusal : Refusal) : IO UInt32 := do
  if refusal.isHelp then
    IO.print usage
    return 0
  else
    IO.eprint usage
    return 1

end StackScript.Main

open StackScript StackScript.Session in
/-- Carries out the request that the arguments make. -/
def main (args : List String) : IO UInt32 := do
  match readArguments args with
  | .error refusal => Main.refuse refusal
  | .ok request =>
    let outcome ← Main.carryOut request
    IO.print outcome.out
    IO.eprint outcome.told
    return if outcome.success then 0 else 1

import StackScript.Text.Split

/-!
# Paths

Paths as texts: components between slashes, the file name with its stem and extension, and joining.
A component that is empty or a single dot does not count, except that joining keeps what is
written.
-/

namespace StackScript.Files

open StackScript.Text

/-- The components of a path that lead somewhere: neither empty nor a single dot. -/
def steps (path : String) : List String :=
  (piecesBy '/' path).filter fun part => part ≠ "" ∧ part ≠ "."

/-- The path starts at the root. -/
def isAbsolute (path : String) : Bool :=
  match path.toList with
  | '/' :: _ => true
  | _ => false

/-- The last component of a path, unless it leads upwards. -/
def fileName? (path : String) : Option String :=
  match (steps path).getLast? with
  | some ".." => none
  | other => other

/-- The parts of a file name before and after its last dot; a dot at the start does not count. -/
def cutExtension (name : String) : String × Option String :=
  match cutLast '.' name.toList with
  | none => (name, none)
  | some ([], _) => (name, none)
  | some (front, back) => (String.ofList front, some (String.ofList back))

/-- The file name of a path without its extension. -/
def stem? (path : String) : Option String := (fileName? path).map fun name => (cutExtension name).1

/-- The extension of the file name of a path. -/
def extension? (path : String) : Option String :=
  (fileName? path).bind fun name => (cutExtension name).2

/-- The written components of a path without those at its end that lead nowhere. -/
def dropIdle (reversed : List String) : List String :=
  reversed.dropWhile fun part => part = "" ∨ part = "."

/-- The path of the directory that holds a path, from its written components: of a relative path
with a single component that is the empty path, and the root has none. -/
def parent? (path : String) : Option String :=
  let join (reversed : List String) : String := "/".intercalate reversed.reverse
  match piecesBy '/' path with
  | [] => none
  | first :: rest =>
    match dropIdle rest.reverse with
    | _ :: front =>
      let front := dropIdle front
      some (if front.isEmpty ∧ first = "" then "/" else join (front ++ [first]))
    | [] => if first = "" then none else some ""

/-- A path followed by another one: an absolute one takes its place, any other is put behind a
slash. -/
def join (path part : String) : String :=
  if isAbsolute part then part
  else if path = "" then part
  else if path.toList.getLast? = some '/' then path ++ part
  else path ++ "/" ++ part

end StackScript.Files

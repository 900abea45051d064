import StackScript.Files.Disk
import StackScript.Session.Diagnostic
import StackScript.Text.Lines

/-!
# Reports

Diagnostics as text. Below the message stand the source lines of the position, when the file is
there to be read, each with carets under the part that is meant; in verbose reports what else is
known follows.
-/

namespace StackScript.Session

open StackScript.Files StackScript.Text

/-- A text made of one character. -/
def fill (c : Char) (n : Nat) : String := String.ofList (List.replicate n c)

/-- A source line with carets below it, from column `start` up to column `stop`, both counted from
zero; there is at least one. -/
def caretLines (line : List Char) (start stop : Nat) : String :=
  String.ofList line ++ "\n" ++ fill ' ' start ++ fill '^' (max (stop - start) 1) ++ "\n"

/-- The source lines from row `row` up to row `last`, with their carets: those of the first line
start at column `start`, and those of the last line stop at column `stop`. -/
def echoFrom (row last start stop : Nat) : List (List Char) → String
  | [] => ""
  | line :: rest =>
    if row < last then caretLines line start line.length ++ echoFrom (row + 1) last 0 stop rest
    else caretLines line start stop

/-- The source lines of a position with their carets, as far as the source has them. -/
def echo (position : Position) (source : String) : String :=
  let first := position.startLine - 1
  let last := max (position.endLine - 1) first
  echoFrom first last (position.startColumn - 1) (position.endColumn - 1)
    ((lines source.toList).drop first)

/-- A message with its position, and the source lines when the source is given. -/
def render (message : String) (position : Option Position) (source : Option String) : String :=
  match position with
  | none => message ++ "\n"
  | some position =>
    position.text ++ ": " ++ message ++ "\n" ++ (source.map (echo position)).getD ""

/-- The text of the file that a position is in, when it can be read. -/
def sourceOf (disk : Disk) (position : Option Position) : Option String :=
  position.bind fun position => (disk.readText position.file).toOption

/-- A line of detail. -/
def detailLine (line : List Char) : String := "    " ++ String.ofList line ++ "\n"

/-- A diagnostic as text. -/
def report (disk : Disk) (verbose : Bool) (diagnostic : Diagnostic) : String :=
  let detail := if verbose then diagnostic.detail?.getD "" else ""
  render diagnostic.message diagnostic.position? (sourceOf disk diagnostic.position?)
    ++ String.join ((lines detail.toList).map detailLine)

end StackScript.Session

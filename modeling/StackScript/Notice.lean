import StackScript.Text.Quoted

/-!
# Notices

The common shape in which every failure of the library is told: a code, a message, possibly an
advice, and labelled stretches of the source. `Notice.line` is its one-line form.
-/

namespace StackScript

/-- A stretch of a source text with a remark on it. -/
structure Label where
  /-- First byte of the stretch. -/
  offset : Nat
  /-- Number of bytes. -/
  length : Nat
  /-- The remark. -/
  text : String
  deriving DecidableEq, Repr

/-- A failure as it is told to the user. -/
structure Notice where
  /-- Stable name of the kind of failure. -/
  code : String
  /-- What went wrong. -/
  message : String
  /-- What to do about it, when there is something to say. -/
  help : Option String := none
  /-- Where it went wrong, when the source text is at hand. -/
  labels : List Label := []
  deriving DecidableEq, Repr

/-- A label as a bracketed triple. -/
def Label.show (label : Label) : String :=
  "[" ++ toString label.offset ++ "," ++ toString label.length ++ "," ++ Text.quoted label.text
    ++ "]"

/-- The notice on one line: code, message, help and labels. -/
def Notice.line (notice : Notice) : String :=
  notice.code ++ " | " ++ notice.message ++ " | " ++ notice.help.getD "-" ++ " | ["
    ++ ",".intercalate (notice.labels.map Label.show) ++ "]"

end StackScript

import StackScript.Notice
import StackScript.Syntax.Rule
import StackScript.Text.Blank

/-!
# Faults of reading

Why a text cannot be read as a unit or an expression, and how that is told.
-/

namespace StackScript.Syntax

open StackScript.Source StackScript.Text

/-- What stands at the place of a syntax fault. -/
inductive Found where
  | endOfInput
  | endOfLine
  /-- The start of the run of visible characters that stands there. -/
  | token (text : String)
  deriving DecidableEq, Repr

/-- How many characters of an unexpected token are told. -/
def foundWidth : Nat := 16

/-- What a text starts with. -/
def Found.ofRest : List Char → Found
  | [] => endOfInput
  | c :: rest =>
    if c = '\n' || c = '\r' then endOfLine
    else token (String.ofList (((c :: rest).takeWhile (!isBlank ·)).take foundWidth))

/-- What was found, in words. -/
def Found.text : Found → String
  | endOfInput => "end of input"
  | endOfLine => "end of line"
  | token text => "'" ++ text ++ "'"

/-- The texts without later repetitions. -/
def dedup : List String → List String
  | [] => []
  | s :: rest => s :: (dedup rest).filter (· ≠ s)

/-- A list in words: commas between, and "or" before the last. -/
def orList : List String → String
  | [] => "more input"
  | [only] => only
  | first :: rest =>
    ", ".intercalate (first :: rest.dropLast) ++ " or " ++ rest.getLast?.getD ""

/-- Why a text cannot be read. -/
inductive ReadFault where
  /-- The grammar does not go on at the mark, where one of the rules was expected. -/
  | unexpected (place : Mark) (found : Found) (expected : List Rule)
  /-- An expression is followed by something that is not part of it. -/
  | trailing (span : Span) (text : String)
  /-- An integer literal outside the 64-bit range. -/
  | integerRange (digits : String) (span : Span)
  /-- A backslash in a string literal before a character that has no escape. -/
  | unknownEscape (spelling : String) (span : Span)
  /-- A parse tree that the grammar does not make. -/
  | misshapen (span : Span)
  deriving DecidableEq, Repr

namespace ReadFault

/-- Where the fault lies. A syntax fault covers one column. -/
def location : ReadFault → Span
  | unexpected place _ _ => ⟨place, ⟨place.offset + 1, place.line, place.column + 1⟩⟩
  | trailing span _ | integerRange _ span | unknownEscape _ span | misshapen span => span

/-- What went wrong. -/
def message : ReadFault → String
  | unexpected _ found [] => "Syntax error: unexpected " ++ found.text
  | unexpected _ found expected =>
    "Syntax error: unexpected " ++ found.text ++ ", expected "
      ++ orList (dedup (expected.map Rule.description))
  | trailing _ text => "Syntax error: unexpected '" ++ text ++ "'"
  | integerRange digits _ => "Invalid integer literal: " ++ digits
  | unknownEscape spelling _ => "Invalid string escape sequence: " ++ spelling
  | misshapen _ => "Syntax error: unexpected tree"

/-- The advice that goes with the fault. -/
def advice : ReadFault → String
  | unexpected _ _ _ | trailing _ _ | misshapen _ =>
    "Check the syntax near the highlighted location"
  | integerRange _ _ => "Integer literals must fit in a signed 64-bit value"
  | unknownEscape _ _ => "Valid escape sequences: \\n, \\t, \\\\, \\\""

/-- The code of the fault and the remark on its place. -/
def codeAndRemark : ReadFault → String × String
  | unexpected _ _ _ | trailing _ _ | misshapen _ => ("mirah::parse::syntax", "error occurred here")
  | integerRange _ _ => ("mirah::parse::invalid_integer", "invalid integer")
  | unknownEscape _ _ => ("mirah::parse::invalid_string_escape", "invalid escape sequence")

/-- The stretch that the fault is about, with a remark on it. -/
def label (fault : ReadFault) (remark : String) : Label :=
  let span := fault.location
  ⟨span.start.offset, span.stop.offset - span.start.offset, remark⟩

/-- The fault as it is told. -/
def notice (fault : ReadFault) : Notice where
  code := fault.codeAndRemark.1
  message := fault.message
  help := some fault.advice
  labels := [fault.label fault.codeAndRemark.2]

end ReadFault

end StackScript.Syntax

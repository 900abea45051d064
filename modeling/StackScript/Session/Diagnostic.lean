import StackScript.Code.Fault
import StackScript.Syntax.Unit
import StackScript.Typing.Fault

/-!
# Diagnostics

Faults with a place in a source text, from reading, typing and code generation, in one shape.
-/

namespace StackScript.Session

open StackScript.Code StackScript.Source StackScript.Syntax StackScript.Typing

/-- A stretch of a source text, by the name of its unit. -/
structure Position where
  file : String
  startLine : Nat
  startColumn : Nat
  endLine : Nat
  endColumn : Nat
  deriving DecidableEq, Repr

namespace Position

/-- The position of a span in a unit. -/
def ofSpan (file : String) (span : Span) : Position :=
  ⟨file, span.start.line, span.start.column, span.stop.line, span.stop.column⟩

/-- The unit and the first line of a position. -/
def text (position : Position) : String :=
  position.file ++ ":" ++ toString position.startLine

end Position

/-- A fault with its place. -/
inductive Diagnostic where
  /-- A unit cannot be taken in. -/
  | reading (message : String) (position : Position)
  /-- A type fault, and what was being typed, innermost first. -/
  | typing (message : String) (position : Option Position) (trace : Option String)
  /-- The library's own fault, and what stands at the place. -/
  | internal (message : String) (position : Option Position) (node : Option String)
  deriving DecidableEq, Repr

namespace Diagnostic

/-- The fault of a unit that cannot be taken in. -/
def ofUnitFault (unit : String) (fault : UnitFault) : Diagnostic :=
  reading fault.message (.ofSpan unit fault.location)

/-- A fault that typing found. -/
def ofTypeDiagnostic (found : TypeDiagnostic) : Diagnostic :=
  typing found.fault.message (some (.ofSpan found.file found.span)) found.trace

/-- A fault of code generation, if it is one of the library itself. -/
def ofCodeFault? (fault : CodeFault) : Option Diagnostic :=
  match fault with
  | .internal _ file span node =>
    some (internal fault.message (some (.ofSpan file span)) node)
  | .unwritten _ _ => none

/-- What went wrong. -/
def message : Diagnostic → String
  | reading message _ | typing message _ _ | internal message _ _ => message

/-- Where it went wrong. -/
def position? : Diagnostic → Option Position
  | reading _ position => some position
  | typing _ position _ | internal _ position _ => position

/-- What else is known of it. -/
def detail? : Diagnostic → Option String
  | reading _ _ => none
  | typing _ _ trace => trace
  | internal _ _ node => node.map ("at " ++ ·)

end Diagnostic

end StackScript.Session

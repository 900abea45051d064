import StackScript.Syntax.Read
import StackScript.Syntax.Script

/-!
# Taking in a unit

`readUnit` reads a text and gathers its loose code, ready for typing. A run may insist that every
unit declares its package.
-/

namespace StackScript.Syntax

open StackScript.Source StackScript.Text

/-- Why a unit is not taken in. -/
inductive UnitFault where
  /-- The text cannot be read. -/
  | unreadable (fault : ReadFault)
  /-- The unit has to declare a package and does not. -/
  | noPackage (unit : String) (firstLine : Span)
  deriving DecidableEq, Repr

namespace UnitFault

/-- Where the fault lies. -/
def location : UnitFault → Span
  | unreadable fault => fault.location
  | noPackage _ firstLine => firstLine

/-- What went wrong. -/
def message : UnitFault → String
  | unreadable fault => fault.message
  | noPackage unit _ => "Missing package declaration in " ++ unit

/-- The fault as it is told. -/
def notice : UnitFault → Notice
  | unreadable fault =>
    match fault with
    | .integerRange _ _ | .unknownEscape _ _ =>
      { code := "mirah::diagnostic::invalid_literal"
        message := fault.message
        help := some fault.advice
        labels := [fault.label "invalid literal"] }
    | .unexpected _ _ _ | .trailing _ _ | .misshapen _ =>
      { code := "mirah::diagnostic::syntax_error"
        message := fault.message
        labels := [fault.label "syntax error here"] }
  | noPackage unit firstLine =>
    { code := "mirah::diagnostic::missing_package"
      message := message (noPackage unit firstLine)
      help := some "Explicit packages are required; start the file with `package name`"
      labels := [⟨firstLine.start.offset, firstLine.stop.offset - firstLine.start.offset,
        "expected a package declaration"⟩] }

end UnitFault

/-- The first line of a text, as long in columns as it is in bytes. -/
def firstLineSpan (cs : List Char) : Span :=
  let bytes := byteLength (cs.takeWhile (· ≠ '\n'))
  ⟨.first, ⟨bytes, 1, bytes + 1⟩⟩

/-- The unit that a text writes, its loose code gathered; `explicitPackages` refuses units without
a package declaration. -/
def readUnit (explicitPackages : Bool) (source text : String) : Except UnitFault Program :=
  match readProgram source text with
  | .error fault => .error (.unreadable fault)
  | .ok program =>
    if explicitPackages && program.package.isNone then
      .error (.noPackage source (firstLineSpan text.toList))
    else .ok program.gather

end StackScript.Syntax

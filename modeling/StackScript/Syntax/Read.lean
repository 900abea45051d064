import StackScript.Syntax.Build

/-!
# Reading units and expressions

`readProgram` reads a whole text as a unit, `readExpr` reads it as one expression with nothing but
white space after it.
-/

namespace StackScript.Syntax

open StackScript.Grammar StackScript.Source StackScript.Text

/-- Moves on to the given byte offset, or to the end of the text if that comes first. -/
def seek (offset : Nat) (mark : Mark) : List Char → Cursor
  | [] => ⟨[], mark⟩
  | c :: rest => if mark.offset < offset then seek offset (mark.next c) rest else ⟨c :: rest, mark⟩

/-- The fault of a text that the grammar does not match: what stands at the furthest place where
rules were tried in vain, and the rules that were wanted there. -/
def unexpected (cs : List Char) (tries : Attempts Rule) : ReadFault :=
  let cur := seek tries.place .first cs
  .unexpected cur.mark (.ofRest cur.rest) (Rule.all.filter (tries.wanted.contains ·))

/-- The node that a rule makes of the start of a text. -/
def readNode (rule : Rule) (cs : List Char) : Built Node :=
  match parse grammar rule cs with
  | (.found _ [node], _) => .ok node
  | (_, tries) => .error (unexpected cs tries)

/-- The unit that a text writes, under the given name. -/
def readProgram (source text : String) : Built Program := do
  buildProgram source (← readNode .program text.toList)

/-- The expression that a text writes. Whatever follows the longest expression at its start, apart
from white space at the end of the text, is a fault. -/
def readExpr (text : String) : Built Expr := do
  let cs := text.toList
  let node ← readNode .expression cs
  let stop := node.span.stop
  if stop.offset = byteLength (trimRight cs) then buildExpr node
  else
    let rest := (seek stop.offset .first cs).rest
    .error (.trailing ⟨stop, stop.after rest⟩ (String.ofList (trim rest)))

end StackScript.Syntax

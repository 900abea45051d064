/-!
# Marks and spans

Places in a source text. A mark is a byte offset together with its line and column, both counted
from one; a line feed is the only character that starts a new line, and every other character is
one column wide. A span is a pair of marks, the second just past the last character.
-/

namespace StackScript.Source

/-- Number of bytes of a text. -/
def byteLength : List Char → Nat
  | [] => 0
  | c :: cs => c.utf8Size + byteLength cs

/-- A place between two characters of a text. -/
structure Mark where
  /-- Number of bytes before the place. -/
  offset : Nat
  /-- Line, counted from one. -/
  line : Nat
  /-- Column in characters, counted from one. -/
  column : Nat
  deriving DecidableEq, Repr, Inhabited

/-- The place before the first character. -/
def Mark.first : Mark := ⟨0, 1, 1⟩

/-- The place just past one character. -/
def Mark.next (mark : Mark) (c : Char) : Mark :=
  if c = '\n' then ⟨mark.offset + c.utf8Size, mark.line + 1, 1⟩
  else ⟨mark.offset + c.utf8Size, mark.line, mark.column + 1⟩

/-- The place just past a run of characters. -/
def Mark.after (mark : Mark) (cs : List Char) : Mark := cs.foldl Mark.next mark

theorem Mark.offset_next (mark : Mark) (c : Char) :
    (mark.next c).offset = mark.offset + c.utf8Size := by
  unfold Mark.next
  split <;> rfl

/-- The offset of a mark counts the bytes before it. -/
theorem Mark.offset_after (mark : Mark) (cs : List Char) :
    (mark.after cs).offset = mark.offset + byteLength cs := by
  unfold Mark.after
  induction cs generalizing mark with
  | nil => rfl
  | cons c cs ih => rw [List.foldl_cons, ih, Mark.offset_next, byteLength, Nat.add_assoc]

/-- A stretch of a text. -/
structure Span where
  /-- The place before the first character. -/
  start : Mark
  /-- The place just past the last character. -/
  stop : Mark
  deriving DecidableEq, Repr, Inhabited

/-- The smallest span that covers both; on equal offsets the marks of the first one stay. -/
def Span.merge (a b : Span) : Span where
  start := if a.start.offset ≤ b.start.offset then a.start else b.start
  stop := if b.stop.offset ≤ a.stop.offset then a.stop else b.stop

/-- A place in a text together with what follows it. -/
structure Cursor where
  /-- The text that is still to be read. -/
  rest : List Char
  /-- Where that text starts. -/
  mark : Mark
  deriving Inhabited

/-- The start of a text. -/
def Cursor.ofText (cs : List Char) : Cursor := ⟨cs, .first⟩

/-- The place just past the run `cs`, if the text goes on with it. -/
def Cursor.pass? : List Char → Cursor → Option Cursor
  | [], cursor => some cursor
  | _ :: _, ⟨[], _⟩ => none
  | c :: cs, ⟨d :: rest, mark⟩ => if c = d then pass? cs ⟨rest, mark.next d⟩ else none

/-- The characters of `rest`, which starts at byte `offset`, up to byte `stop`. -/
def textUpTo (stop offset : Nat) : List Char → List Char
  | [] => []
  | c :: rest => if offset < stop then c :: textUpTo stop (offset + c.utf8Size) rest else []

/-- The text between a cursor and a later mark. -/
def Cursor.textTo (cursor : Cursor) (stop : Mark) : List Char :=
  textUpTo stop.offset cursor.mark.offset cursor.rest

end StackScript.Source

import StackScript.Source.Span

/-!
# Parsing expressions

Grammars as values. A parsing expression is built from characters, ordered choice, repetition and
lookahead, and may call rules; a grammar gives each rule an expression and a kind, and says what
may be skipped in the gaps between the parts of a sequence. A rule kind settles two things: whether
gaps are skipped inside the rule, and whether rules called inside it leave a node in the tree.
-/

namespace StackScript.Grammar

open StackScript.Source

/-- Parsing expressions over the rule names `R`. -/
inductive Peg (R : Type) where
  /-- The given characters. -/
  | text (cs : List Char)
  /-- One character of a class. -/
  | one (accepts : Char → Bool)
  /-- The start of the text. -/
  | start
  /-- The end of the text. -/
  | finish
  /-- Whatever the grammar allows in a gap; never fails. -/
  | gap
  /-- One after the other, with nothing between. -/
  | cat (first second : Peg R)
  /-- The first, or else the second. -/
  | alt (first second : Peg R)
  /-- The expression, or else nothing. -/
  | opt (part : Peg R)
  /-- The expression as often as it matches, with nothing between. -/
  | many (part : Peg R)
  /-- The expression would match here; reads nothing. -/
  | present (part : Peg R)
  /-- The expression would not match here; reads nothing. -/
  | absent (part : Peg R)
  /-- A rule of the grammar. -/
  | call (rule : R)

namespace Peg

variable {R : Type}

/-- The given text. -/
def lit (s : String) : Peg R := .text s.toList

/-- Parts in order, with a gap between any two. -/
def seq : List (Peg R) → Peg R
  | [] => .text []
  | [part] => part
  | part :: parts => .cat part (.cat .gap (seq parts))

/-- The first part that matches; with no parts, never. -/
def choice : List (Peg R) → Peg R
  | [] => .absent (.text [])
  | [part] => part
  | part :: parts => .alt part (choice parts)

/-- Any number of the part, with gaps between them. -/
def star (part : Peg R) : Peg R := .opt (.cat part (.many (.cat .gap part)))

/-- At least one of the part, with gaps between them. -/
def plus (part : Peg R) : Peg R := seq [part, star part]

/-- A line end: a line feed, a carriage return with its line feed, or a lone carriage return. -/
def newline : Peg R := choice [lit "\n", lit "\r\n", lit "\r"]

/-- Any one character. -/
def any : Peg R := .one fun _ => true

end Peg

/-- How a rule reads its expression. -/
inductive Kind where
  /-- Gaps are skipped and called rules leave nodes, unless the caller said otherwise. -/
  | loose
  /-- No gaps are skipped and called rules leave no nodes. -/
  | tight
  /-- No gaps are skipped, but called rules leave nodes. -/
  | joined
  deriving DecidableEq

/-- A rule's kind and expression. -/
structure Production (R : Type) where
  kind : Kind
  body : Peg R

/-- A grammar over the rule names `R`: its rules, and what may be skipped between parts. -/
structure Rules (R : Type) where
  /-- The production of each rule. -/
  production : R → Production R
  /-- Passes over what may stand in a gap. -/
  skip : Cursor → Cursor

/-- A node of the parse tree: a rule, the place where it started, the place where it stopped, and
the nodes inside it in order. -/
inductive ParseTree (R : Type) where
  | node (rule : R) (start : Cursor) (stop : Mark) (parts : List (ParseTree R))

namespace ParseTree

variable {R : Type}

/-- The rule of a node. -/
def rule : ParseTree R → R
  | node r _ _ _ => r

/-- The nodes inside a node. -/
def parts : ParseTree R → List (ParseTree R)
  | node _ _ _ ps => ps

/-- The stretch of text a node covers. -/
def span : ParseTree R → Span
  | node _ start stop _ => ⟨start.mark, stop⟩

/-- The text a node covers. -/
def text : ParseTree R → List Char
  | node _ start stop _ => start.textTo stop

end ParseTree

end StackScript.Grammar

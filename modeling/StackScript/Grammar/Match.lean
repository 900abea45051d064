import StackScript.Grammar.Peg

/-!
# Reading a text by a grammar

`read` runs a parsing expression at a cursor. It answers with the cursor after the match and the
nodes made on the way, or says that the expression does not match, and keeps a record of the
furthest place where a rule was tried in vain: that place and the rules tried there are what a
syntax fault reports. The record survives backtracking.

Reading takes fuel, one unit per nesting of expressions; `Outcome.spent` says that it ran out.
`parse` supplies fuel in proportion to the length of the text.
-/

namespace StackScript.Grammar

open StackScript.Source

variable {R : Type}

/-! ## Attempts -/

/-- The furthest place where rules were tried in vain, and which rules: those whose match was
wanted there, and those whose absence was. -/
structure Attempts (R : Type) where
  place : Nat := 0
  wanted : List R := []
  unwanted : List R := []

namespace Attempts

/-- Number of wanted rules recorded at `place`. -/
def wantedAt (attempts : Attempts R) (place : Nat) : Nat :=
  if attempts.place = place then attempts.wanted.length else 0

/-- Number of unwanted rules recorded at `place`. -/
def unwantedAt (attempts : Attempts R) (place : Nat) : Nat :=
  if attempts.place = place then attempts.unwanted.length else 0

/-- Number of rules recorded at `place`. -/
def countAt (attempts : Attempts R) (place : Nat) : Nat :=
  attempts.wantedAt place + attempts.unwantedAt place

/-- The record with one more rule at `place`, which is dropped when a further place is on record. -/
def push (attempts : Attempts R) (absence : Bool) (rule : R) (place : Nat) : Attempts R :=
  if attempts.place = place then
    if absence then { attempts with unwanted := attempts.unwanted ++ [rule] }
    else { attempts with wanted := attempts.wanted ++ [rule] }
  else if attempts.place < place then
    if absence then ⟨place, [], [rule]⟩ else ⟨place, [rule], []⟩
  else attempts

/-- The record without what was noted at `place` since the record was `before`. -/
def rewind (attempts before : Attempts R) (place : Nat) : Attempts R :=
  if attempts.place = place then
    { attempts with
      wanted := attempts.wanted.take (before.wantedAt place)
      unwanted := attempts.unwanted.take (before.unwantedAt place) }
  else attempts

/-- Notes that `rule` was tried in vain at `place`, the record being `before` when it was entered.
A rule that noted exactly one rule at its own place is no better a description than that one, and
is not noted; otherwise it takes the place of what it noted there. -/
def note (attempts before : Attempts R) (absence : Bool) (rule : R) (place : Nat) : Attempts R :=
  if attempts.countAt place = before.countAt place + 1 then attempts
  else (attempts.rewind before place).push absence rule place

end Attempts

/-! ## Context and outcome -/

/-- Whether the expression is read for its match or only looked at. -/
inductive Sight where
  /-- Read for its match. -/
  | plain
  /-- Looked at: it should match. -/
  | present
  /-- Looked at: it should not match. -/
  | absent
  deriving DecidableEq

/-- What an expression inherits from the rules and lookaheads around it. -/
structure Context where
  kind : Kind := .loose
  sight : Sight := .plain

/-- The context inside a lookahead for a match: a lookahead for an absence stays one. -/
def Context.lookPresent (ctx : Context) : Context :=
  { ctx with sight := if ctx.sight = .absent then .absent else .present }

/-- The context inside a lookahead for an absence: a doubled absence is a presence. -/
def Context.lookAbsent (ctx : Context) : Context :=
  { ctx with sight := if ctx.sight = .absent then .present else .absent }

/-- The context inside a rule of the given kind. -/
def Context.enter (ctx : Context) : Kind → Context
  | .loose => ctx
  | kind => { ctx with kind := kind }

/-- A rule entered here leaves a node. -/
def Context.leavesNode (ctx : Context) : Bool := ctx.sight = .plain && ctx.kind ≠ .tight

/-- What reading an expression came to. -/
inductive Outcome (R : Type) where
  /-- It matched up to the cursor and left these nodes. -/
  | found (cursor : Cursor) (trees : List (ParseTree R))
  /-- It does not match. -/
  | fail
  /-- The fuel ran out. -/
  | spent

/-- A rule whose expression came to this outcome was tried in vain. -/
def Outcome.inVain (ctx : Context) : Outcome R → Bool
  | .found _ _ => ctx.sight = .absent
  | .fail => ctx.sight ≠ .absent
  | .spent => false

/-! ## Reading -/

/-- Reads an expression at a cursor. -/
def read (g : Rules R) : Nat → Context → Peg R → Cursor → Attempts R → Outcome R × Attempts R
  | 0, _, _, _, tries => (.spent, tries)
  | fuel + 1, ctx, expr, cur, tries =>
    match expr with
    | .text cs =>
      match cur.pass? cs with
      | some cur' => (.found cur' [], tries)
      | none => (.fail, tries)
    | .one accepts =>
      match cur.rest with
      | c :: rest =>
        if accepts c then (.found ⟨rest, cur.mark.next c⟩ [], tries) else (.fail, tries)
      | [] => (.fail, tries)
    | .start => if cur.mark.offset = 0 then (.found cur [], tries) else (.fail, tries)
    | .finish => if cur.rest.isEmpty then (.found cur [], tries) else (.fail, tries)
    | .gap => (.found (if ctx.kind = .loose then g.skip cur else cur) [], tries)
    | .cat first second =>
      match read g fuel ctx first cur tries with
      | (.found cur' trees, tries) =>
        match read g fuel ctx second cur' tries with
        | (.found cur'' trees', tries) => (.found cur'' (trees ++ trees'), tries)
        | stop => stop
      | stop => stop
    | .alt first second =>
      match read g fuel ctx first cur tries with
      | (.fail, tries) => read g fuel ctx second cur tries
      | stop => stop
    | .opt part =>
      match read g fuel ctx part cur tries with
      | (.fail, tries) => (.found cur [], tries)
      | stop => stop
    | .many part =>
      match read g fuel ctx part cur tries with
      | (.found cur' trees, tries) =>
        match read g fuel ctx (.many part) cur' tries with
        | (.found cur'' trees', tries) => (.found cur'' (trees ++ trees'), tries)
        | stop => stop
      | (.fail, tries) => (.found cur [], tries)
      | stop => stop
    | .present part =>
      match read g fuel ctx.lookPresent part cur tries with
      | (.found _ _, tries) => (.found cur [], tries)
      | stop => stop
    | .absent part =>
      match read g fuel ctx.lookAbsent part cur tries with
      | (.found _ _, tries) => (.fail, tries)
      | (.fail, tries) => (.found cur [], tries)
      | stop => stop
    | .call rule =>
      let kind := (g.production rule).kind
      let outer := if kind = .joined then ctx.enter kind else ctx
      match read g fuel (ctx.enter kind) (g.production rule).body cur tries with
      | (outcome, after) =>
        let noted :=
          if outcome.inVain outer && outer.kind ≠ .tight then
            after.note tries (outer.sight = .absent) rule cur.mark.offset
          else after
        match outcome with
        | .found cur' trees =>
          let left := if outer.leavesNode then [.node rule cur cur'.mark trees] else trees
          (.found cur' left, noted)
        | stop => (stop, noted)

/-- Fuel per character: no expression of a grammar in use nests deeper between two characters. -/
def fuelPerChar : Nat := 400

/-- Reads a rule at the start of a text. -/
def parse (g : Rules R) (rule : R) (cs : List Char) : Outcome R × Attempts R :=
  read g ((cs.length + 1) * fuelPerChar) {} (.call rule) (.ofText cs) {}

end StackScript.Grammar

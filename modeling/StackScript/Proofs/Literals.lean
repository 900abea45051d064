import StackScript.Proofs.Progress

/-!
# Literals

What the grammar lets stand in integers and in strings, and what of it cannot be built: the digits
of an integer are refused where they denote a number outside the 64-bit range
(`int64?_eq_none`), and the contents of a string where a backslash stands before a character
that has no escape (`unescape_cases`). A backslash always has a character after it, since the
grammar reads both at once (`contents_of_stems`).
-/

namespace StackScript.Grammar

open StackScript.Source

variable {R : Type} {g : Rules R}

/-! ## Repetitions without gaps -/

theorem Reads.gap_inv {ctx : Context} {cur cur' : Cursor} {trees : List (ParseTree R)}
    (hctx : ctx.kind ≠ .loose) (h : Reads g ctx .gap cur cur' trees) : cur' = cur := by
  cases h
  rw [if_neg hctx]

/-- Where no gaps are skipped, a repetition passes over one piece after the other. -/
theorem Reads.covers_many {ctx : Context} {part : Peg R} {piece kind : List Char → Prop}
    (hctx : ctx.kind ≠ .loose)
    (hpart : ∀ {cur cur' trees}, Reads g ctx part cur cur' trees → Covers piece cur cur')
    (hnil : kind []) (hcons : ∀ cs cs', piece cs → kind cs' → kind (cs ++ cs'))
    {cur cur' : Cursor} {trees : List (ParseTree R)}
    (h : Reads g ctx (.many (.cat .gap part)) cur cur' trees) : Covers kind cur cur' := by
  generalize hexpr : Peg.many (.cat .gap part) = expr at h
  induction h with
  | more hfirst _ _ ih =>
    cases hexpr
    obtain ⟨_, _, _, hgap, hfirst, -⟩ := hfirst.cat_inv
    rw [hgap.gap_inv hctx] at hfirst
    exact (hpart hfirst).append (ih hctx hpart rfl) hcons
  | done => exact .nothing hnil _
  | _ => cases hexpr

theorem Reads.covers_star {ctx : Context} {part : Peg R} {piece kind : List Char → Prop}
    (hctx : ctx.kind ≠ .loose)
    (hpart : ∀ {cur cur' trees}, Reads g ctx part cur cur' trees → Covers piece cur cur')
    (hnil : kind []) (hcons : ∀ cs cs', piece cs → kind cs' → kind (cs ++ cs'))
    {cur cur' : Cursor} {trees : List (ParseTree R)}
    (h : Reads g ctx (.star part) cur cur' trees) : Covers kind cur cur' := by
  cases h with
  | some h =>
    obtain ⟨_, _, _, hfirst, hmore, -⟩ := h.cat_inv
    exact (hpart hfirst).append (hmore.covers_many hctx hpart hnil hcons) hcons
  | none => exact .nothing hnil _

end StackScript.Grammar

namespace StackScript.Syntax

open StackScript.Grammar StackScript.Source StackScript.Text

/-! ## Integers -/

/-- Digits are read as the number that they denote, if it is in the 64-bit range. -/
theorem readInteger_digits {cs : List Char} (hcs : cs ≠ []) (h : ∀ c ∈ cs, isDigit c = true) :
    readInteger cs = int64? (digitsValue 0 cs) := by
  have hdigits : readDigits cs = some (digitsValue 0 cs) := by
    have hall : cs.all isDigit = true := List.all_eq_true.mpr h
    have hempty : cs.isEmpty = false := List.isEmpty_eq_false_iff.mpr hcs
    simp [readDigits, hall, hempty]
  unfold readInteger
  split
  · exact absurd (h _ List.mem_cons_self) (by decide)
  · exact absurd (h _ List.mem_cons_self) (by decide)
  · rw [hdigits]
    rfl

theorem int64?_eq_none {n : Nat} (h : int64? n = none) : 9223372036854775807 < n := by
  unfold int64? at h
  split at h
  · cases h
  · rename_i hrange
    have hmin : Int64.minValue.toInt = -9223372036854775808 := by decide
    have hmax : Int64.maxValue.toInt = 9223372036854775807 := by decide
    rw [hmin, hmax] at hrange
    omega

/-- An integer has digits, and nothing else. -/
theorem digits_of_stems {start : Cursor} {stop : Mark} {parts : List Node}
    (h : Stems grammar (.node .integer start stop parts)) :
    start.textTo stop ≠ [] ∧ ∀ c ∈ start.textTo stop, isDigit c = true := by
  cases h with
  | @node _ _ _ cur' _ hreads _ _ =>
    have hdigit : ∀ c : Char, c.isDigit = true → isDigit c = true := fun _ hc => hc
    have hwithin : (grammar.production .integer).body.Within isDigit :=
      ⟨⟨hdigit, trivial, hdigit, trivial, hdigit⟩, trivial, trivial⟩
    obtain ⟨cs, hcs, hrest, hmark⟩ := (hreads.within hwithin).2 (by rintro ⟨⟩)
    have hless := hreads.rest_lt measured_grammar rfl
    have hcovers : Covers (fun cs => cs ≠ [] ∧ ∀ c ∈ cs, isDigit c = true) start cur' := by
      refine ⟨cs, ⟨?_, hcs⟩, hrest, hmark⟩
      rintro rfl
      rw [hrest] at hless
      exact absurd hless (Nat.lt_irrefl _)
    exact hcovers.of_textTo

/-! ## Strings -/

/-- String contents: a backslash always has a character after it. -/
inductive Contents : List Char → Prop where
  | nil : Contents []
  | plain {c : Char} {cs : List Char} (hc : c ≠ '\\') (h : Contents cs) : Contents (c :: cs)
  | pair {c : Char} {cs : List Char} (h : Contents cs) : Contents ('\\' :: c :: cs)

/-- A character that stands for itself, or a backslash with the character after it. -/
def Piece (cs : List Char) : Prop := (∃ c, c ≠ '\\' ∧ cs = [c]) ∨ ∃ c, cs = ['\\', c]

theorem Contents.cons {cs cs' : List Char} (h : Piece cs) (h' : Contents cs') :
    Contents (cs ++ cs') := by
  rcases h with ⟨c, hc, rfl⟩ | ⟨c, rfl⟩
  · exact .plain hc h'
  · exact .pair h'

/-- Where no quote, backslash or line end comes next, the next character is no backslash. -/
theorem ne_backslash_of_fails {ctx : Context} {c : Char} {rest : List Char} {mark : Mark}
    (h : Fails grammar ctx (.choice [.lit "\"", .lit "\\", .newline]) ⟨c :: rest, mark⟩) :
    c ≠ '\\' := by
  rintro rfl
  -- the second of the choices would match
  cases (fails_iff.mp h).unique (.right (.mismatch rfl) (.left (.text rfl)))

/-- A backslash and the character after it. -/
theorem covers_pair {ctx : Context} {cur cur' : Cursor} {trees : List Node}
    (hctx : ctx.kind ≠ .loose) (h : Reads grammar ctx (.seq [.lit "\\", .any]) cur cur' trees) :
    Covers (fun cs => ∃ c, cs = ['\\', c]) cur cur' := by
  obtain ⟨_, _, _, hbackslash, hmore, -⟩ := h.cat_inv
  obtain ⟨_, _, _, hgap, hone, -⟩ := hmore.cat_inv
  cases hbackslash with
  | text hpass =>
    rw [hgap.gap_inv hctx] at hone
    cases hone with
    | @one _ _ c rest mark _ =>
      have hnext : Covers (· = [c]) ⟨c :: rest, mark⟩ ⟨rest, mark.next c⟩ :=
        ⟨[c], rfl, rfl, rfl⟩
      refine (Covers.of_pass? hpass).append hnext ?_
      rintro _ _ rfl rfl
      exact ⟨c, rfl⟩

/-- A character before which no quote, backslash or line end comes next. -/
theorem plain_inv {ctx : Context} {cur cur' : Cursor} {trees : List Node}
    (hctx : ctx.kind ≠ .loose)
    (h : Reads grammar ctx (.seq [.absent (.choice [.lit "\"", .lit "\\", .newline]), .any])
      cur cur' trees) :
    ∃ c rest mark, Fails grammar ctx.lookAbsent (.choice [.lit "\"", .lit "\\", .newline])
        ⟨c :: rest, mark⟩ ∧ cur = ⟨c :: rest, mark⟩ ∧ cur' = ⟨rest, mark.next c⟩ := by
  obtain ⟨_, _, _, hahead, hmore, -⟩ := h.cat_inv
  obtain ⟨_, _, _, hgap, hone, -⟩ := hmore.cat_inv
  cases hahead with
  | absent hfails =>
    rw [hgap.gap_inv hctx] at hone
    cases hone with
    | one _ => exact ⟨_, _, _, hfails, rfl, rfl⟩

theorem covers_piece {ctx : Context} {cur cur' : Cursor} {trees : List Node}
    (hctx : ctx.kind ≠ .loose)
    (h : Reads grammar ctx (.choice [
      .seq [.absent (.choice [.lit "\"", .lit "\\", .newline]), .any],
      .seq [.lit "\\", .any]]) cur cur' trees) : Covers Piece cur cur' := by
  cases h with
  | left h =>
    obtain ⟨c, rest, mark, hfails, rfl, rfl⟩ := plain_inv hctx h
    exact .one (.inl ⟨c, ne_backslash_of_fails hfails, rfl⟩) rest mark
  | right h => exact (covers_pair hctx h).imp fun _ => .inr

theorem contents_of_stems {start : Cursor} {stop : Mark} {parts : List Node}
    (h : Stems grammar (.node .stringContent start stop parts)) :
    Contents (start.textTo stop) := by
  cases h with
  | node hreads _ _ =>
    have hctx : ∀ ctx : Context, (ctx.enter .tight).kind ≠ .loose := by
      rintro ctx ⟨⟩
    have hcovers : Covers Contents start _ :=
      hreads.covers_star (hctx _) (covers_piece (hctx _)) .nil fun _ _ => .cons
    exact hcovers.of_textTo

theorem escaped?_eq_none {c : Char} (h : escaped? c = none) : c ∉ ['n', 't', '"', '\\'] := by
  intro hc
  simp only [List.mem_cons, List.not_mem_nil, or_false] at hc
  rcases hc with rfl | rfl | rfl | rfl <;> cases h

theorem unescape_plain {c : Char} (hc : c ≠ '\\') (offset : Nat) (cs : List Char) :
    unescape offset (c :: cs) = (unescape (offset + c.utf8Size) cs).map (c :: ·) := by
  rw [unescape]
  · exact fun h => absurd h hc
  · exact fun _ _ h => absurd h hc

/-- String contents stand for a text, or there is a first backslash before a character that has no
escape. -/
theorem unescape_cases {cs : List Char} (h : Contents cs) (offset : Nat) :
    (∃ made, unescape offset cs = .ok made) ∨ ∃ before c after made,
      cs = before ++ '\\' :: c :: after ∧ unescape offset before = .ok made ∧
        escaped? c = none ∧
        unescape offset cs = .error (offset + byteLength before, ['\\', c]) := by
  induction h generalizing offset with
  | nil => exact .inl ⟨[], rfl⟩
  | @plain c cs hc _ ih =>
    rcases ih (offset + c.utf8Size) with
      ⟨made, hmade⟩ | ⟨before, d, after, made, rfl, hmade, hd, herr⟩
    · exact .inl ⟨c :: made, by rw [unescape_plain hc, hmade]; rfl⟩
    · refine .inr ⟨c :: before, d, after, c :: made, rfl, ?_, hd, ?_⟩
      · rw [unescape_plain hc, hmade]
        rfl
      · rw [unescape_plain hc, herr, byteLength, ← Nat.add_assoc]
        rfl
  | @pair c cs _ ih =>
    cases hc : escaped? c with
    | none =>
      refine .inr ⟨[], c, cs, [], rfl, rfl, hc, ?_⟩
      simp only [unescape, hc, byteLength, Nat.add_zero]
    | some d =>
      have hpair : ∀ more, unescape offset ('\\' :: c :: more) =
          (unescape (offset + '\\'.utf8Size + c.utf8Size) more).map (d :: ·) := by
        intro more
        simp only [unescape, hc]
      rcases ih (offset + '\\'.utf8Size + c.utf8Size) with
        ⟨made, hmade⟩ | ⟨before, e, after, made, rfl, hmade, he, herr⟩
      · exact .inl ⟨d :: made, by rw [hpair, hmade]; rfl⟩
      · refine .inr ⟨'\\' :: c :: before, e, after, d :: made, rfl, ?_, he, ?_⟩
        · rw [hpair, hmade]
          rfl
        · rw [hpair, herr, byteLength, byteLength, Nat.add_assoc, Nat.add_assoc]
          rfl

end StackScript.Syntax

import StackScript.Proofs.Shapes

/-!
# Reading comes to an end

Reading moves on through the text (`Reads.advances`), and an expression that eats characters leaves
fewer behind (`Reads.rest_lt`). Where every repeated part eats, and rules do not call themselves
before a character is read, the nesting between two characters is bounded, so that fuel in
proportion to the length of the text is enough (`read_ends`). More fuel changes nothing
(`read_mono`): `parse` gives the answer of every reading that comes to one (`parse_of_read`).
-/

namespace StackScript.Grammar

open StackScript.Source

variable {R : Type} {g : Rules R}

/-! ## Moving on -/

/-- The cursor moved on through the text. -/
abbrev Advances : Cursor → Cursor → Prop := Covers fun _ => True

namespace Advances

variable {cur mid cur' : Cursor}

theorem refl (cur : Cursor) : Advances cur cur := .nothing trivial cur

theorem trans (h : Advances cur mid) (h' : Advances mid cur') : Advances cur cur' :=
  h.append h' fun _ _ _ _ => trivial

theorem next {c : Char} {rest : List Char} {mark : Mark} (h : Advances ⟨rest, mark.next c⟩ cur') :
    Advances ⟨c :: rest, mark⟩ cur' := .trans (.one trivial rest mark) h

theorem rest_le (h : Advances cur cur') : cur'.rest.length ≤ cur.rest.length := by
  obtain ⟨cs, -, hrest, -⟩ := h
  rw [hrest, List.length_append]
  exact Nat.le_add_left _ _

end Advances

/-- Reading moves on through the text. -/
theorem Reads.advances {ctx : Context} {expr : Peg R} {cur cur' : Cursor}
    {trees : List (ParseTree R)} (hskip : ∀ cur, Advances cur (g.skip cur))
    (h : Reads g ctx expr cur cur' trees) : Advances cur cur' := by
  induction h with
  | text h => exact (Covers.of_pass? h).imp fun _ _ => trivial
  | one _ => exact .one trivial _ _
  | gap =>
    split
    · exact hskip _
    · exact .refl _
  | cat _ _ hfirst hsecond => exact hfirst.trans hsecond
  | left _ ih => exact ih
  | right _ ih => exact ih
  | some _ ih => exact ih
  | more _ _ hfirst hrest => exact hfirst.trans hrest
  | call _ ih => exact ih
  | _ => exact .refl _

/-! ## Eating characters -/

/-- Every text that the expression matches has a character in it, if that is so for the rules that
are known to eat. -/
def Peg.eats (known : R → Bool) : Peg R → Bool
  | .text cs => !cs.isEmpty
  | .one _ => true
  | .start | .finish | .gap | .opt _ | .many _ | .present _ | .absent _ => false
  | .cat first second => first.eats known || second.eats known
  | .alt first second => first.eats known && second.eats known
  | .call rule => known rule

/-- How deep expressions nest before the expression reads a character, if rules nest at most as deep
as their ranks. -/
def Peg.depth (known : R → Bool) (rank : R → Nat) : Peg R → Nat
  | .text _ | .one _ | .start | .finish | .gap => 1
  | .opt part | .many part | .present part | .absent part => part.depth known rank + 1
  | .cat first second =>
    max (first.depth known rank) (if first.eats known then 0 else second.depth known rank) + 1
  | .alt first second => max (first.depth known rank) (second.depth known rank) + 1
  | .call rule => rank rule + 1

/-- Nowhere inside the expression is the nesting deeper than the bound, and whatever is repeated
eats. -/
def Peg.fits (known : R → Bool) (rank : R → Nat) (bound : Nat) : Peg R → Bool
  | .cat first second =>
    (Peg.cat first second).depth known rank ≤ bound && first.fits known rank bound &&
      second.fits known rank bound
  | .alt first second =>
    (Peg.alt first second).depth known rank ≤ bound && first.fits known rank bound &&
      second.fits known rank bound
  | .many part =>
    part.eats known && (Peg.many part).depth known rank ≤ bound && part.fits known rank bound
  | .opt part | .present part | .absent part =>
    part.depth known rank + 1 ≤ bound && part.fits known rank bound
  | expr => expr.depth known rank ≤ bound

/-- The rules eat and nest as they are known to. -/
structure Rules.Measured (g : Rules R) (known : R → Bool) (rank : R → Nat) (bound : Nat) :
    Prop where
  skips : ∀ cur, Advances cur (g.skip cur)
  eats : ∀ rule, known rule = true → (g.production rule).body.eats known = true
  depth : ∀ rule, (g.production rule).body.depth known rank ≤ rank rule
  fits : ∀ rule, (g.production rule).body.fits known rank bound = true

section

variable {known : R → Bool} {rank : R → Nat} {bound : Nat}

/-- An expression that eats leaves fewer characters behind. -/
theorem Reads.rest_lt {ctx : Context} {expr : Peg R} {cur cur' : Cursor}
    {trees : List (ParseTree R)} (hg : g.Measured known rank bound)
    (h : Reads g ctx expr cur cur' trees) (hexpr : expr.eats known = true) :
    cur'.rest.length < cur.rest.length := by
  induction h with
  | text h =>
    obtain ⟨cs, rfl, hrest, -⟩ := Covers.of_pass? h
    cases cs with
    | nil => cases hexpr
    | cons c cs =>
      rw [hrest, List.length_append, List.length_cons]
      omega
  | one _ => exact Nat.lt_succ_self _
  | cat hfirst hsecond hbefore hafter =>
    have hle := (hfirst.advances hg.skips).rest_le
    have hle' := (hsecond.advances hg.skips).rest_le
    rcases (Bool.or_eq_true _ _).mp hexpr with heats | heats
    · have := hbefore heats
      omega
    · have := hafter heats
      omega
  | left _ ih => exact ih ((Bool.and_eq_true _ _).mp hexpr).1
  | right _ ih => exact ih ((Bool.and_eq_true _ _).mp hexpr).2
  | call _ ih => exact ih (hg.eats _ hexpr)
  | _ => cases hexpr

theorem Peg.depth_pos (known : R → Bool) (rank : R → Nat) (expr : Peg R) :
    0 < expr.depth known rank := by
  cases expr <;> exact Nat.succ_pos _

theorem Peg.depth_le_of_fits {expr : Peg R} (h : expr.fits known rank bound = true) :
    expr.depth known rank ≤ bound := by
  cases expr <;> simp only [fits, Bool.and_eq_true, decide_eq_true_eq] at h
  case cat => exact h.1.1
  case alt => exact h.1.1
  case many => exact h.1.2
  case opt => exact h.1
  case present => exact h.1
  case absent => exact h.1
  all_goals exact h

/-! ## Fuel -/

/-- A reading that comes to an end finds something or fails. -/
theorem ended_cases {result : Outcome R × Attempts R} (h : result.1 ≠ .spent) :
    (∃ cur trees tries, result = (.found cur trees, tries)) ∨ ∃ tries, result = (.fail, tries) := by
  obtain ⟨outcome, tries⟩ := result
  cases outcome with
  | found cur trees => exact .inl ⟨cur, trees, tries, rfl⟩
  | fail => exact .inr ⟨tries, rfl⟩
  | spent => exact absurd rfl h

/-- With fuel for the characters that are left and for the nesting up to the next one, reading comes
to an end. -/
theorem read_ends (hg : g.Measured known rank bound) (fuel : Nat) : ∀ {ctx : Context}
    {expr : Peg R} {cur : Cursor} {tries : Attempts R}, expr.fits known rank bound = true →
    cur.rest.length * bound + expr.depth known rank ≤ fuel →
      (read g fuel ctx expr cur tries).1 ≠ .spent := by
  induction fuel with
  | zero =>
    intro ctx expr cur tries _ hfuel
    have := expr.depth_pos known rank
    omega
  | succ fuel ih =>
    intro ctx expr cur tries hfits hfuel
    -- what is read after the cursor moved on has the fuel of the characters that it passed
    have hless : ∀ {cur' : Cursor}, cur'.rest.length < cur.rest.length →
        cur'.rest.length * bound + bound ≤ cur.rest.length * bound := by
      intro cur' hlt
      rw [← Nat.succ_mul]
      exact Nat.mul_le_mul_right bound hlt
    have hle : ∀ {cur' : Cursor}, cur'.rest.length ≤ cur.rest.length →
        cur'.rest.length * bound ≤ cur.rest.length * bound :=
      Nat.mul_le_mul_right bound
    cases expr <;> rw [Peg.depth] at hfuel
    case cat first second =>
      simp only [Peg.fits, Bool.and_eq_true] at hfits
      obtain ⟨⟨-, hfirst⟩, hsecond⟩ := hfits
      have hended : (read g fuel ctx first cur tries).1 ≠ .spent := ih hfirst (by omega)
      rcases ended_cases hended with ⟨mid, _, midTries, hread⟩ | ⟨_, hread⟩
      · have hreads := reads_of_read _ hread
        have hbudget : mid.rest.length * bound + second.depth known rank ≤ fuel := by
          by_cases heats : first.eats known = true
          · have := hless (hreads.rest_lt hg heats)
            have := Peg.depth_le_of_fits hsecond
            omega
          · have := hle (hreads.advances hg.skips).rest_le
            rw [if_neg heats] at hfuel
            omega
        have hended' : (read g fuel ctx second mid midTries).1 ≠ .spent := ih hsecond hbudget
        rcases ended_cases hended' with ⟨_, _, _, hread'⟩ | ⟨_, hread'⟩ <;>
          simp [read, hread, hread']
      · simp [read, hread]
    case alt first second =>
      simp only [Peg.fits, Bool.and_eq_true] at hfits
      obtain ⟨⟨-, hfirst⟩, hsecond⟩ := hfits
      have hended : (read g fuel ctx first cur tries).1 ≠ .spent := ih hfirst (by omega)
      rcases ended_cases hended with ⟨_, _, _, hread⟩ | ⟨midTries, hread⟩
      · simp [read, hread]
      · have hended' : (read g fuel ctx second cur midTries).1 ≠ .spent := ih hsecond (by omega)
        simpa [read, hread] using hended'
    case many part =>
      have hmany := hfits
      simp only [Peg.fits, Bool.and_eq_true] at hfits
      obtain ⟨⟨heats, -⟩, hpart⟩ := hfits
      have hbound := Peg.depth_le_of_fits hmany
      have hended : (read g fuel ctx part cur tries).1 ≠ .spent := ih hpart (by omega)
      rcases ended_cases hended with ⟨mid, _, midTries, hread⟩ | ⟨_, hread⟩
      · have := hless ((reads_of_read _ hread).rest_lt hg heats)
        have hended' : (read g fuel ctx (.many part) mid midTries).1 ≠ .spent :=
          ih hmany (by omega)
        rcases ended_cases hended' with ⟨_, _, _, hread'⟩ | ⟨_, hread'⟩ <;>
          simp [read, hread, hread']
      · simp [read, hread]
    case opt part =>
      simp only [Peg.fits, Bool.and_eq_true] at hfits
      have hended : (read g fuel ctx part cur tries).1 ≠ .spent := ih hfits.2 (by omega)
      rcases ended_cases hended with ⟨_, _, _, hread⟩ | ⟨_, hread⟩ <;> simp [read, hread]
    case present part =>
      simp only [Peg.fits, Bool.and_eq_true] at hfits
      have hended : (read g fuel ctx.lookPresent part cur tries).1 ≠ .spent :=
        ih hfits.2 (by omega)
      rcases ended_cases hended with ⟨_, _, _, hread⟩ | ⟨_, hread⟩ <;> simp [read, hread]
    case absent part =>
      simp only [Peg.fits, Bool.and_eq_true] at hfits
      have hended : (read g fuel ctx.lookAbsent part cur tries).1 ≠ .spent :=
        ih hfits.2 (by omega)
      rcases ended_cases hended with ⟨_, _, _, hread⟩ | ⟨_, hread⟩ <;> simp [read, hread]
    case call rule =>
      have hdepth := hg.depth rule
      have hended : (read g fuel (ctx.enter (g.production rule).kind) (g.production rule).body cur
        tries).1 ≠ .spent := ih (hg.fits rule) (by omega)
      rcases ended_cases hended with ⟨_, _, _, hread⟩ | ⟨_, hread⟩ <;> simp [read, hread]
    case one accepts =>
      obtain ⟨_ | ⟨c, rest⟩, mark⟩ := cur
      · simp [read]
      · simp only [read]
        split <;> simp
    case gap => simp [read]
    -- what is left over is one test
    all_goals simp only [read]
    all_goals split <;> simp

/-- More fuel gives the same answer, once there is one. -/
theorem read_mono (fuel : Nat) : ∀ {more : Nat} {ctx : Context} {expr : Peg R} {cur : Cursor}
    {tries : Attempts R}, fuel ≤ more → (read g fuel ctx expr cur tries).1 ≠ .spent →
      read g more ctx expr cur tries = read g fuel ctx expr cur tries := by
  induction fuel with
  | zero => exact fun _ hended => absurd rfl hended
  | succ fuel ih =>
    intro more ctx expr cur tries hle hended
    -- in each case a part that spends its fuel spends that of the whole, which does not
    obtain ⟨more, rfl⟩ : ∃ n, more = n + 1 := ⟨more - 1, by omega⟩
    have ih := @fun ctx expr cur tries => @ih more ctx expr cur tries (by omega)
    cases expr with
    | cat first second =>
      rcases hread : read g fuel ctx first cur tries with ⟨⟨mid, _⟩ | _ | _, midTries⟩
      · rcases hread' : read g fuel ctx second mid midTries with ⟨_ | _ | _, _⟩
        case spent => simp [read, hread, hread'] at hended
        all_goals simp [read, ih, hread, hread']
      · simp [read, ih, hread]
      · simp [read, hread] at hended
    | alt first second =>
      rcases hread : read g fuel ctx first cur tries with ⟨_ | _ | _, midTries⟩
      · simp [read, ih, hread]
      · have hended' : (read g fuel ctx second cur midTries).1 ≠ .spent := by
          simpa [read, hread] using hended
        simp [read, ih, hread, hended']
      · simp [read, hread] at hended
    | many part =>
      rcases hread : read g fuel ctx part cur tries with ⟨⟨mid, _⟩ | _ | _, midTries⟩
      · rcases hread' : read g fuel ctx (.many part) mid midTries with ⟨_ | _ | _, _⟩
        case spent => simp [read, hread, hread'] at hended
        all_goals simp [read, ih, hread, hread']
      · simp [read, ih, hread]
      · simp [read, hread] at hended
    | opt part =>
      rcases hread : read g fuel ctx part cur tries with ⟨_ | _ | _, midTries⟩
      case spent => simp [read, hread] at hended
      all_goals simp [read, ih, hread]
    | present part =>
      rcases hread : read g fuel ctx.lookPresent part cur tries with ⟨_ | _ | _, midTries⟩
      case spent => simp [read, hread] at hended
      all_goals simp [read, ih, hread]
    | absent part =>
      rcases hread : read g fuel ctx.lookAbsent part cur tries with ⟨_ | _ | _, midTries⟩
      case spent => simp [read, hread] at hended
      all_goals simp [read, ih, hread]
    | call rule =>
      rcases hread : read g fuel (ctx.enter (g.production rule).kind) (g.production rule).body cur
        tries with ⟨_ | _ | _, midTries⟩
      case spent => simp [read, hread] at hended
      all_goals simp [read, ih, hread]
    | _ => rfl

/-- The fuel that is supplied is enough for every text. -/
theorem parse_ends (hg : g.Measured known rank fuelPerChar) {rule : R}
    (hrule : rank rule < fuelPerChar) (cs : List Char) : (parse g rule cs).1 ≠ .spent := by
  refine read_ends hg _ (decide_eq_true hrule) ?_
  show cs.length * fuelPerChar + (rank rule + 1) ≤ (cs.length + 1) * fuelPerChar
  rw [Nat.succ_mul]
  exact Nat.add_le_add_left hrule _

/-- What a rule is found to be with some fuel, it is parsed to be. -/
theorem parse_of_read (hg : g.Measured known rank fuelPerChar) {rule : R}
    (hrule : rank rule < fuelPerChar) {cs : List Char} {fuel : Nat} {cur : Cursor}
    {trees : List (ParseTree R)} {tries : Attempts R}
    (h : read g fuel {} (.call rule) (.ofText cs) {} = (.found cur trees, tries)) :
    parse g rule cs = (.found cur trees, tries) := by
  have hended := parse_ends hg hrule cs
  have hfound : (read g fuel {} (.call rule) (.ofText cs) {}).1 ≠ .spent := by simp [h]
  unfold parse at hended ⊢
  rcases Nat.le_total fuel ((cs.length + 1) * fuelPerChar) with hle | hle
  · rw [read_mono fuel hle hfound, h]
  · rw [← read_mono _ hle hended, h]

/-- The fuel that is supplied for a text is enough to come to the answer. -/
theorem parse_of_answers (hg : g.Measured known rank fuelPerChar) {rule : R}
    (hrule : rank rule < fuelPerChar) {cs : List Char} {answer : Answer R}
    (h : Answers g {} (.call rule) (.ofText cs) answer) :
    (parse g rule cs).1.answer? = some answer := by
  obtain ⟨enough, hread⟩ := read_of_answers h
  have hended := parse_ends hg hrule cs
  rw [parse] at hended ⊢
  rw [← read_mono _ (Nat.le_max_left _ enough) hended]
  exact hread _ (Nat.le_max_right _ _) {}

/-- Where the fuel that is supplied is enough, a rule has an answer at the start of every text. -/
theorem answers_of_parse (hg : g.Measured known rank fuelPerChar) {rule : R}
    (hrule : rank rule < fuelPerChar) (cs : List Char) :
    ∃ answer, Answers g {} (.call rule) (.ofText cs) answer := by
  rcases ended_cases (parse_ends hg hrule cs) with ⟨_, _, _, hread⟩ | ⟨_, hread⟩
  · exact ⟨_, answers_of_read _ (by rw [← parse, hread]; rfl)⟩
  · exact ⟨_, answers_of_read _ (by rw [← parse, hread]; rfl)⟩

end

end StackScript.Grammar

namespace StackScript.Syntax

open StackScript.Grammar StackScript.Source

/-! ## The grammar of units -/

/-- A gap is passed over. -/
theorem advances_skipGap (inComment : Bool) (mark : Mark) (cs : List Char) :
    Advances ⟨cs, mark⟩ (skipGap inComment mark cs) := by
  fun_induction skipGap inComment mark cs with
  | case1 | case2 | case9 | case10 => exact .refl _
  | case3 | case4 | case5 =>
    rename_i ih
    exact .next ih
  | case6 | case8 =>
    rename_i ih
    exact .next (.next ih)
  | case7 =>
    rename_i ih
    exact .next (.next (.next ih))

/-- The rules that match no empty text. -/
def Rule.eats : Rule → Bool
  | .finish | .program | .block | .stringContent => false
  | _ => true

/-- A bound on how deep expressions nest in a rule before a character is read. -/
def Rule.rank : Rule → Nat
  | .keyword => 17
  | .identifier | .constant => 20
  | .term => 36
  | .expression => 40
  | .exprStmt => 41
  | .block => 52
  | .program => 62
  | _ => 26

theorem measured_grammar : grammar.Measured Rule.eats Rule.rank fuelPerChar where
  skips cur := advances_skipGap false cur.mark cur.rest
  eats rule h := by
    cases rule <;> first | decide | cases h
  depth rule := by
    cases rule <;> decide
  fits rule := by
    cases rule <;> decide

end StackScript.Syntax

import StackScript.Grammar.Match

/-!
# What an expression answers at a cursor

Reading as a relation between a cursor and what the expression comes to there (`Answers`): a cursor
and nodes, or that nothing matches. The relation says why choices fail as well as why they succeed,
and leaves out of reading only the fuel and the record of attempts: whatever reading comes to is an
answer (`answers_of_read`), every answer is what reading with enough fuel comes to
(`read_of_answers`), and there is one at most (`Answers.unique`).
-/

namespace StackScript.Grammar

open StackScript.Source

variable {R : Type} {g : Rules R}

/-! ## Answers -/

/-- Whether the rule, called in the given context, leaves a node. -/
def Rules.leavesNode (g : Rules R) (ctx : Context) (rule : R) : Bool :=
  let kind := (g.production rule).kind
  (if kind = .joined then ctx.enter kind else ctx).leavesNode

/-- The expression was tried at the cursor, and does not match there. -/
def Fails (g : Rules R) (ctx : Context) (expr : Peg R) (cur : Cursor) : Prop :=
  ∃ fuel tries tries', read g fuel ctx expr cur tries = (.fail, tries')

/-- What an expression comes to: the cursor after the match with the nodes made on the way, or that
it does not match. -/
abbrev Answer (R : Type) := Option (Cursor × List (ParseTree R))

namespace Answer

/-- The answer with nodes before its own. -/
def after (trees : List (ParseTree R)) : Answer R → Answer R :=
  Option.map fun found => (found.1, trees ++ found.2)

/-- The answer of a rule that was called at the cursor, from the answer of its expression. -/
def called (g : Rules R) (ctx : Context) (rule : R) (cur : Cursor) : Answer R → Answer R :=
  Option.map fun found =>
    (found.1, if g.leavesNode ctx rule then [.node rule cur found.1.mark found.2] else found.2)

end Answer

/-- The outcome that an answer is. -/
def Answer.outcome : Answer R → Outcome R
  | some (cur, trees) => .found cur trees
  | none => .fail

/-- The answer that an outcome gives, unless the fuel ran out. -/
def Outcome.answer? : Outcome R → Option (Answer R)
  | .found cur trees => some (some (cur, trees))
  | .fail => some none
  | .spent => none

/-- The expression comes to the answer at the cursor. -/
inductive Answers (g : Rules R) : Context → Peg R → Cursor → Answer R → Prop where
  | text {ctx cs cur cur'} (h : cur.pass? cs = some cur') :
      Answers g ctx (.text cs) cur (some (cur', []))
  | mismatch {ctx cs cur} (h : cur.pass? cs = none) : Answers g ctx (.text cs) cur none
  | one {ctx accepts c rest mark} (h : accepts c = true) :
      Answers g ctx (.one accepts) ⟨c :: rest, mark⟩ (some (⟨rest, mark.next c⟩, []))
  | other {ctx accepts c rest mark} (h : accepts c = false) :
      Answers g ctx (.one accepts) ⟨c :: rest, mark⟩ none
  | ended {ctx accepts mark} : Answers g ctx (.one accepts) ⟨[], mark⟩ none
  | start {ctx cur} :
      Answers g ctx .start cur (if cur.mark.offset = 0 then some (cur, []) else none)
  | finish {ctx cur} :
      Answers g ctx .finish cur (if cur.rest.isEmpty then some (cur, []) else none)
  | gap {ctx cur} :
      Answers g ctx .gap cur (some (if ctx.kind = .loose then g.skip cur else cur, []))
  | cat {ctx first second cur mid trees answer}
      (hfirst : Answers g ctx first cur (some (mid, trees)))
      (hsecond : Answers g ctx second mid answer) :
      Answers g ctx (.cat first second) cur (answer.after trees)
  | stuck {ctx first second cur} (hfirst : Answers g ctx first cur none) :
      Answers g ctx (.cat first second) cur none
  | left {ctx first second cur found} (h : Answers g ctx first cur (some found)) :
      Answers g ctx (.alt first second) cur (some found)
  | right {ctx first second cur answer} (hfirst : Answers g ctx first cur none)
      (hsecond : Answers g ctx second cur answer) : Answers g ctx (.alt first second) cur answer
  | opt {ctx part cur answer} (h : Answers g ctx part cur answer) :
      Answers g ctx (.opt part) cur (some (answer.getD (cur, [])))
  | more {ctx part cur mid trees answer} (hfirst : Answers g ctx part cur (some (mid, trees)))
      (hrest : Answers g ctx (.many part) mid answer) :
      Answers g ctx (.many part) cur (answer.after trees)
  | done {ctx part cur} (h : Answers g ctx part cur none) :
      Answers g ctx (.many part) cur (some (cur, []))
  | present {ctx part cur answer} (h : Answers g ctx.lookPresent part cur answer) :
      Answers g ctx (.present part) cur (answer.map fun _ => (cur, []))
  | absent {ctx part cur answer} (h : Answers g ctx.lookAbsent part cur answer) :
      Answers g ctx (.absent part) cur (if answer.isNone then some (cur, []) else none)
  | call {ctx rule cur answer}
      (h : Answers g (ctx.enter (g.production rule).kind) (g.production rule).body cur answer) :
      Answers g ctx (.call rule) cur (answer.called g ctx rule cur)

/-! ## Reading and answers -/

section

variable {ctx : Context} {expr : Peg R} {cur cur' : Cursor} {trees : List (ParseTree R)}

/-- Whatever reading comes to is an answer. -/
theorem answers_of_read (fuel : Nat) : ∀ {ctx : Context} {expr : Peg R} {cur : Cursor}
    {tries : Attempts R} {answer : Answer R},
    (read g fuel ctx expr cur tries).1.answer? = some answer → Answers g ctx expr cur answer := by
  induction fuel with
  | zero =>
    intro ctx expr cur tries answer h
    cases h
  | succ fuel ih =>
    intro ctx expr cur tries answer h
    -- of a part, reading came to an answer too, which is then known by induction
    have hfound : ∀ {ctx expr cur tries cur' trees tries'},
        read g fuel ctx expr cur tries = (.found cur' trees, tries') →
          Answers g ctx expr cur (some (cur', trees)) := fun h => ih (by rw [h]; rfl)
    have hfail : ∀ {ctx expr cur tries tries'},
        read g fuel ctx expr cur tries = (.fail, tries') → Answers g ctx expr cur none :=
      fun h => ih (by rw [h]; rfl)
    cases expr with
    | text cs =>
      simp only [read] at h
      split at h <;> cases h
      · exact .text ‹_›
      · exact .mismatch ‹_›
    | one accepts =>
      obtain ⟨_ | ⟨c, rest⟩, mark⟩ := cur
      · cases h
        exact .ended
      · simp only [read] at h
        split at h <;> cases h
        · exact .one ‹_›
        · exact .other (Bool.eq_false_iff.mpr ‹_›)
    | start =>
      have hanswer : Answers g ctx .start cur _ := .start
      simp only [read] at h
      split at h <;> rename_i hstart <;> simp only [hstart, if_true, if_false] at hanswer <;>
        cases h <;> exact hanswer
    | finish =>
      have hanswer : Answers g ctx .finish cur _ := .finish
      simp only [read] at h
      split at h <;> rename_i hfinish <;> simp only [hfinish, if_true] at hanswer <;>
        cases h <;> exact hanswer
    | gap =>
      cases h
      exact .gap
    | cat first second =>
      simp only [read] at h
      rcases hread : read g fuel ctx first cur tries with ⟨⟨mid, trees⟩ | _ | _, midTries⟩ <;>
        rw [hread] at h
      · simp only at h
        rcases hread' : read g fuel ctx second mid midTries with ⟨⟨last, more⟩ | _ | _, _⟩ <;>
          rw [hread'] at h <;> cases h
        · exact .cat (hfound hread) (hfound hread')
        · exact .cat (hfound hread) (hfail hread')
      · cases h
        exact .stuck (hfail hread)
      · cases h
    | alt first second =>
      simp only [read] at h
      rcases hread : read g fuel ctx first cur tries with ⟨_ | _ | _, midTries⟩ <;>
        rw [hread] at h
      · cases h
        exact .left (hfound hread)
      · exact .right (hfail hread) (ih h)
      · cases h
    | opt part =>
      simp only [read] at h
      rcases hread : read g fuel ctx part cur tries with ⟨_ | _ | _, midTries⟩ <;>
        rw [hread] at h <;> cases h
      · exact .opt (hfound hread)
      · exact .opt (hfail hread)
    | many part =>
      simp only [read] at h
      rcases hread : read g fuel ctx part cur tries with ⟨⟨mid, trees⟩ | _ | _, midTries⟩ <;>
        rw [hread] at h
      · simp only at h
        rcases hread' : read g fuel ctx (.many part) mid midTries with ⟨⟨last, more⟩ | _ | _, _⟩ <;>
          rw [hread'] at h <;> cases h
        · exact .more (hfound hread) (hfound hread')
        · exact .more (hfound hread) (hfail hread')
      · cases h
        exact .done (hfail hread)
      · cases h
    | present part =>
      simp only [read] at h
      rcases hread : read g fuel ctx.lookPresent part cur tries with ⟨_ | _ | _, midTries⟩ <;>
        rw [hread] at h <;> cases h
      · exact .present (hfound hread)
      · exact .present (hfail hread)
    | absent part =>
      simp only [read] at h
      rcases hread : read g fuel ctx.lookAbsent part cur tries with ⟨_ | _ | _, midTries⟩ <;>
        rw [hread] at h <;> cases h
      · exact .absent (hfound hread)
      · exact .absent (hfail hread)
    | call rule =>
      rcases hread : read g fuel (ctx.enter (g.production rule).kind) (g.production rule).body cur
        tries with ⟨_ | _ | _, after⟩ <;> simp only [read, hread] at h <;> cases h
      · exact .call (hfound hread)
      · exact .call (hfail hread)

theorem read_eq {fuel : Nat} {tries : Attempts R} {answer : Answer R}
    (h : (read g fuel ctx expr cur tries).1.answer? = some answer) :
    ∃ tries', read g fuel ctx expr cur tries = (answer.outcome, tries') := by
  rcases hread : read g fuel ctx expr cur tries with ⟨_ | _ | _, tries'⟩ <;> rw [hread] at h <;>
    cases h
  · exact ⟨tries', rfl⟩
  · exact ⟨tries', rfl⟩

/-- Reading comes to the answer, whatever else was tried, if there is fuel enough. -/
def ComesTo (g : Rules R) (ctx : Context) (expr : Peg R) (cur : Cursor) (answer : Answer R) :
    Prop :=
  ∃ enough, ∀ fuel, enough ≤ fuel → ∀ tries,
    (read g fuel ctx expr cur tries).1.answer? = some answer

/-- Where the parts have fuel enough, one unit more is enough. -/
theorem ComesTo.step {answer : Answer R} (enough : Nat) (h : ∀ fuel, enough ≤ fuel → ∀ tries,
    (read g (fuel + 1) ctx expr cur tries).1.answer? = some answer) :
    ComesTo g ctx expr cur answer := by
  refine ⟨enough + 1, fun fuel hfuel => ?_⟩
  obtain ⟨fuel, rfl⟩ : ∃ n, fuel = n + 1 := ⟨fuel - 1, by omega⟩
  exact h fuel (by omega)

/-- Every answer is what reading comes to. -/
theorem read_of_answers {answer : Answer R} (h : Answers g ctx expr cur answer) :
    ComesTo g ctx expr cur answer := by
  -- induction on the answer; two parts get along with the larger of what each of them needs
  induction h with
  | text h =>
    refine .step 0 fun fuel _ tries => ?_
    simp [read, h, Outcome.answer?]
  | mismatch h =>
    refine .step 0 fun fuel _ tries => ?_
    simp [read, h, Outcome.answer?]
  | one h =>
    refine .step 0 fun fuel _ tries => ?_
    simp [read, h, Outcome.answer?]
  | other h =>
    refine .step 0 fun fuel _ tries => ?_
    simp [read, h, Outcome.answer?]
  | ended => exact .step 0 fun fuel _ tries => rfl
  | start =>
    refine .step 0 fun fuel _ tries => ?_
    simp only [read]
    split <;> rfl
  | finish =>
    refine .step 0 fun fuel _ tries => ?_
    simp only [read]
    split <;> rfl
  | gap => exact .step 0 fun fuel _ tries => rfl
  | @cat _ _ _ _ _ _ answer _ _ hfirst hsecond =>
    obtain ⟨enough, hfirst⟩ := hfirst
    obtain ⟨enough', hsecond⟩ := hsecond
    refine .step (max enough enough') fun fuel hfuel tries => ?_
    obtain ⟨midTries, hread⟩ := read_eq (hfirst fuel (by omega) tries)
    obtain ⟨_, hread'⟩ := read_eq (hsecond fuel (by omega) midTries)
    cases answer <;> simp [read, hread, hread', Answer.outcome, Outcome.answer?, Answer.after]
  | stuck _ hfirst =>
    obtain ⟨enough, hfirst⟩ := hfirst
    refine .step enough fun fuel hfuel tries => ?_
    obtain ⟨_, hread⟩ := read_eq (hfirst fuel hfuel tries)
    simp [read, hread, Answer.outcome, Outcome.answer?]
  | left _ hfirst =>
    obtain ⟨enough, hfirst⟩ := hfirst
    refine .step enough fun fuel hfuel tries => ?_
    obtain ⟨_, hread⟩ := read_eq (hfirst fuel hfuel tries)
    simp [read, hread, Answer.outcome, Outcome.answer?]
  | right _ _ hfirst hsecond =>
    obtain ⟨enough, hfirst⟩ := hfirst
    obtain ⟨enough', hsecond⟩ := hsecond
    refine .step (max enough enough') fun fuel hfuel tries => ?_
    obtain ⟨midTries, hread⟩ := read_eq (hfirst fuel (by omega) tries)
    simp [read, hread, Answer.outcome, hsecond fuel (by omega) midTries]
  | @opt _ _ _ answer _ hpart =>
    obtain ⟨enough, hpart⟩ := hpart
    refine .step enough fun fuel hfuel tries => ?_
    obtain ⟨_, hread⟩ := read_eq (hpart fuel hfuel tries)
    cases answer <;> simp [read, hread, Answer.outcome, Outcome.answer?]
  | @more _ _ _ _ _ answer _ _ hfirst hrest =>
    obtain ⟨enough, hfirst⟩ := hfirst
    obtain ⟨enough', hrest⟩ := hrest
    refine .step (max enough enough') fun fuel hfuel tries => ?_
    obtain ⟨midTries, hread⟩ := read_eq (hfirst fuel (by omega) tries)
    obtain ⟨_, hread'⟩ := read_eq (hrest fuel (by omega) midTries)
    cases answer <;> simp [read, hread, hread', Answer.outcome, Outcome.answer?, Answer.after]
  | done _ hpart =>
    obtain ⟨enough, hpart⟩ := hpart
    refine .step enough fun fuel hfuel tries => ?_
    obtain ⟨_, hread⟩ := read_eq (hpart fuel hfuel tries)
    simp [read, hread, Answer.outcome, Outcome.answer?]
  | @present _ _ _ answer _ hpart =>
    obtain ⟨enough, hpart⟩ := hpart
    refine .step enough fun fuel hfuel tries => ?_
    obtain ⟨_, hread⟩ := read_eq (hpart fuel hfuel tries)
    cases answer <;> simp [read, hread, Answer.outcome, Outcome.answer?]
  | @absent _ _ _ answer _ hpart =>
    obtain ⟨enough, hpart⟩ := hpart
    refine .step enough fun fuel hfuel tries => ?_
    obtain ⟨_, hread⟩ := read_eq (hpart fuel hfuel tries)
    cases answer <;> simp [read, hread, Answer.outcome, Outcome.answer?]
  | @call _ rule _ answer _ hbody =>
    obtain ⟨enough, hbody⟩ := hbody
    refine .step enough fun fuel hfuel tries => ?_
    obtain ⟨_, hread⟩ := read_eq (hbody fuel hfuel tries)
    cases answer <;> simp only [read, hread] <;> rfl

/-- An expression fails where no match is its answer. -/
theorem fails_iff : Fails g ctx expr cur ↔ Answers g ctx expr cur none := by
  constructor
  · rintro ⟨fuel, tries, tries', hread⟩
    exact answers_of_read fuel (by rw [hread]; rfl)
  · intro h
    obtain ⟨enough, hread⟩ := read_of_answers h
    obtain ⟨tries', hread⟩ := read_eq (hread enough (Nat.le_refl _) {})
    exact ⟨enough, {}, tries', hread⟩

/-- There is one answer at most. -/
theorem Answers.unique {answer other : Answer R} (h : Answers g ctx expr cur answer)
    (h' : Answers g ctx expr cur other) : answer = other := by
  obtain ⟨enough, hread⟩ := read_of_answers h
  obtain ⟨enough', hread'⟩ := read_of_answers h'
  have hfirst := hread (max enough enough') (Nat.le_max_left _ _) {}
  have hsecond := hread' (max enough enough') (Nat.le_max_right _ _) {}
  exact Option.some.inj (hfirst.symm.trans hsecond)

end

/-! ## The end of the text -/

/-- The expression matches up to the end of the text only, if that is so for the rules that are
known to. -/
def Peg.closes (known : R → Bool) : Peg R → Bool
  | .finish => true
  | .cat _ second => second.closes known
  | .call rule => known rule
  | _ => false

/-- Nothing is left to read after an expression that matches up to the end of the text only. -/
theorem Answers.rest_eq_nil {known : R → Bool} {ctx : Context} {expr : Peg R} {cur cur' : Cursor}
    {trees : List (ParseTree R)}
    (hknown : ∀ rule, known rule = true → (g.production rule).body.closes known = true)
    (h : Answers g ctx expr cur (some (cur', trees))) (hexpr : expr.closes known = true) :
    cur'.rest = [] := by
  generalize hanswer : some (cur', trees) = answer at h
  -- induction along the last parts, down to the end of the text itself
  induction h generalizing trees with
  | finish =>
    split at hanswer
    · cases hanswer
      exact List.isEmpty_iff.mp ‹_›
    · cases hanswer
  | cat _ _ _ hsecond =>
    obtain ⟨found, rfl, heq⟩ := Option.map_eq_some_iff.mp hanswer.symm
    cases heq
    exact hsecond hexpr rfl
  | call _ ih =>
    obtain ⟨found, rfl, heq⟩ := Option.map_eq_some_iff.mp hanswer.symm
    cases heq
    exact ih (hknown _ hexpr) rfl
  | stuck => cases hanswer
  | _ => cases hexpr

/-- A rule that leaves a node leaves only that. -/
theorem Answers.call_inv {ctx : Context} {rule : R} {cur cur' : Cursor}
    {trees : List (ParseTree R)} (h : Answers g ctx (.call rule) cur (some (cur', trees)))
    (hleaves : g.leavesNode ctx rule = true) :
    ∃ parts, trees = [.node rule cur cur'.mark parts] := by
  generalize hanswer : some (cur', trees) = answer at h
  cases h with
  | call _ =>
    obtain ⟨found, rfl, heq⟩ := Option.map_eq_some_iff.mp hanswer.symm
    rw [if_pos hleaves] at heq
    cases heq
    exact ⟨found.2, rfl⟩

end StackScript.Grammar

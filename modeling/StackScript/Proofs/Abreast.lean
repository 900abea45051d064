import Mathlib.Data.List.Forall2
import StackScript.Proofs.Progress

/-!
# Reading two texts abreast

Two places of two texts may be in a relation from which expressions come to the same answers: no
match at either of them, or nodes that are alike (`Alike`) and places in the relation again
(`Abreast`). If the relation keeps step through the expressions that are read as a whole, it keeps
step through all that are put together from them (`answers_abreast`).
-/

namespace StackScript.Syntax

open StackScript.Grammar StackScript.Source

/-! ## Nodes that are alike -/

/-- The nodes are of the same rules all the way down, and those of rules that are read without gaps
cover the same text. -/
inductive Alike : Node → Node → Prop where
  | node {rule : Rule} {start start' : Cursor} {stop stop' : Mark} {parts parts' : List Node}
      (htext : rule.production.kind = .tight → start.textTo stop = start'.textTo stop')
      (hparts : List.Forall₂ Alike parts parts') :
      Alike (.node rule start stop parts) (.node rule start' stop' parts')

/-- The places are moved over the same text. -/
def SameText (cur mid cur' mid' : Cursor) : Prop :=
  ∃ cs, Covers (· = cs) cur mid ∧ Covers (· = cs) cur' mid'

namespace SameText

variable {cur mid last cur' mid' last' : Cursor}

theorem refl (cur cur' : Cursor) : SameText cur cur cur' cur' :=
  ⟨[], ⟨[], rfl, rfl, rfl⟩, ⟨[], rfl, rfl, rfl⟩⟩

theorem trans (h : SameText cur mid cur' mid') (hmore : SameText mid last mid' last') :
    SameText cur last cur' last' := by
  obtain ⟨cs, hcs, hcs'⟩ := h
  obtain ⟨more, hmore, hmore'⟩ := hmore
  have happend : ∀ a b, a = cs → b = more → a ++ b = cs ++ more := by
    rintro _ _ rfl rfl
    rfl
  exact ⟨cs ++ more, hcs.append hmore happend, hcs'.append hmore' happend⟩

theorem one {c : Char} {rest rest' : List Char} {mark mark' : Mark} :
    SameText ⟨c :: rest, mark⟩ ⟨rest, mark.next c⟩ ⟨c :: rest', mark'⟩ ⟨rest', mark'.next c⟩ :=
  ⟨[c], ⟨[c], rfl, rfl, rfl⟩, ⟨[c], rfl, rfl, rfl⟩⟩

/-- Cursors that go over one text have it between them. -/
theorem textTo_eq (h : SameText cur mid cur' mid') :
    cur.textTo mid.mark = cur'.textTo mid'.mark := by
  obtain ⟨cs, hcs, hcs'⟩ := h
  exact hcs.of_textTo.trans hcs'.of_textTo.symm

end SameText

/-- The answers, from two places on, are both that nothing matches, or places in the relation with
nodes that are alike; without gaps the same text is passed over. -/
inductive Abreast (rel : Cursor → Cursor → Prop) (kind : Kind) (cur cur' : Cursor) :
    Answer Rule → Answer Rule → Prop where
  | neither : Abreast rel kind cur cur' none none
  | both {mid mid' : Cursor} {trees trees' : List Node} (hmid : rel mid mid')
      (htext : kind = .tight → SameText cur mid cur' mid')
      (htrees : List.Forall₂ Alike trees trees') :
      Abreast rel kind cur cur' (some (mid, trees)) (some (mid', trees'))

namespace Abreast

variable {rel : Cursor → Cursor → Prop} {kind : Kind} {cur mid cur' mid' : Cursor}
  {answer answer' : Answer Rule}

theorem stays (h : rel cur cur') :
    Abreast rel kind cur cur' (some (cur, [])) (some (cur', [])) :=
  .both h (fun _ => .refl cur cur') .nil

/-- One answer after another. -/
theorem after {trees trees' : List Node} (h : Abreast rel kind mid mid' answer answer')
    (htext : kind = .tight → SameText cur mid cur' mid')
    (htrees : List.Forall₂ Alike trees trees') :
    Abreast rel kind cur cur' (answer.after trees) (answer'.after trees') := by
  cases h with
  | neither => exact .neither
  | both hmid hmore hafter =>
    exact .both hmid (fun hkind => (htext hkind).trans (hmore hkind))
      (List.rel_append htrees hafter)

/-- The answers of expressions that need not match. -/
theorem opt (hcur : rel cur cur') (h : Abreast rel kind cur cur' answer answer') :
    Abreast rel kind cur cur' (some (answer.getD (cur, []))) (some (answer'.getD (cur', []))) := by
  cases h with
  | neither => exact .stays hcur
  | both hmid htext htrees => exact .both hmid htext htrees

/-- Looking ahead goes abreast with what it looks for. -/
theorem present (hcur : rel cur cur') (h : Abreast rel kind cur cur' answer answer') :
    Abreast rel kind cur cur' (answer.map fun _ => (cur, []))
      (answer'.map fun _ => (cur', [])) := by
  cases h with
  | neither => exact .neither
  | both => exact .stays hcur

theorem absent (hcur : rel cur cur') (h : Abreast rel kind cur cur' answer answer') :
    Abreast rel kind cur cur' (if answer.isNone then some (cur, []) else none)
      (if answer'.isNone then some (cur', []) else none) := by
  cases h with
  | neither => exact .stays hcur
  | both => exact .neither

end Abreast

/-- A rule leaves nodes that are alike if what is inside them is. -/
theorem alike_called {ctx : Context} {rule : Rule} {cur mid cur' mid' : Cursor}
    {parts parts' : List Node}
    (htext : rule.production.kind = .tight → SameText cur mid cur' mid')
    (hparts : List.Forall₂ Alike parts parts') :
    List.Forall₂ Alike
      (if grammar.leavesNode ctx rule then [.node rule cur mid.mark parts] else parts)
      (if grammar.leavesNode ctx rule then [.node rule cur' mid'.mark parts'] else parts') := by
  split
  · exact .cons (.node (fun htight => (htext htight).textTo_eq) hparts) .nil
  · exact hparts

/-! ## Expressions put together from parts -/

/-- Whatever the expression comes to at the first of two places in the relation, it comes to abreast
of that at the second. -/
def KeepsStep (rel : Cursor → Cursor → Prop) (kind : Kind) (expr : Peg Rule) : Prop :=
  ∀ {ctx : Context} {cur cur' : Cursor} {answer : Answer Rule}, ctx.kind = kind →
    Answers grammar ctx expr cur answer → rel cur cur' →
      ∃ answer', Answers grammar ctx expr cur' answer' ∧ Abreast rel kind cur cur' answer answer'

/-- How a rule of the second kind reads inside one of the first. -/
def insideKind (outer : Kind) : Kind → Kind
  | .loose => outer
  | kind => kind

theorem kind_enter (ctx : Context) (kind : Kind) :
    (ctx.enter kind).kind = insideKind ctx.kind kind := by
  cases kind <;> rfl

/-- Where no rule is read joined, and where without gaps rules are tight, rules inside others are
tight as they are by themselves. -/
theorem insideKind_of_called {outer inner : Kind} (houter : outer ≠ .joined)
    (hinner : inner ≠ .joined) (htight : outer ≠ .tight ∨ inner = .tight) :
    insideKind outer inner ≠ .joined ∧ (insideKind outer inner = .tight ↔ inner = .tight) ∧
      (outer = .tight ∨ inner = .tight → insideKind outer inner = .tight) := by
  cases inner with
  | joined => exact absurd rfl hinner
  | tight => exact ⟨by rintro ⟨⟩, Iff.rfl, fun _ => rfl⟩
  | loose =>
    have hloose : outer ≠ .tight := htight.resolve_right (by rintro ⟨⟩)
    refine ⟨houter, ⟨fun h => absurd h hloose, fun h => nomatch h⟩, ?_⟩
    rintro (h | h)
    · exact absurd h hloose
    · cases h

/-- The expression is put together from parts that are known, and a rule that is tight, or is called
where no gaps are skipped, is read tight. -/
def PartsKnown (known : Kind → Peg Rule → Prop) (kind : Kind) : Peg Rule → Prop
  | .cat first second | .alt first second => known kind first ∧ known kind second
  | .opt part | .many part | .present part | .absent part => known kind part
  | .call rule => known (insideKind kind rule.production.kind) rule.production.body ∧
      (kind = .tight ∨ rule.production.kind = .tight →
        insideKind kind rule.production.kind = .tight)
  | _ => False

/-- **Two places keep step through whatever is put together from expressions through which they
do.** -/
theorem answers_abreast {rel : Cursor → Cursor → Prop} {known : Kind → Peg Rule → Prop}
    (hknown : ∀ {kind expr}, known kind expr → KeepsStep rel kind expr ∨
      PartsKnown known kind expr)
    {ctx : Context} {expr : Peg Rule} {cur : Cursor} {answer : Answer Rule}
    (h : Answers grammar ctx expr cur answer) : ∀ {cur' : Cursor}, known ctx.kind expr →
      rel cur cur' → ∃ answer', Answers grammar ctx expr cur' answer' ∧
        Abreast rel ctx.kind cur cur' answer answer' := by
  -- induction on the answer in the first text: the parts are read from places in the relation, and
  -- the parts that failed there fail in the second text as well
  induction h with
  | text h =>
    intro cur' hexpr hrel
    exact ((hknown hexpr).resolve_right id) rfl (.text h) hrel
  | mismatch h =>
    intro cur' hexpr hrel
    exact ((hknown hexpr).resolve_right id) rfl (.mismatch h) hrel
  | one h =>
    intro cur' hexpr hrel
    exact ((hknown hexpr).resolve_right id) rfl (.one h) hrel
  | other h =>
    intro cur' hexpr hrel
    exact ((hknown hexpr).resolve_right id) rfl (.other h) hrel
  | ended =>
    intro cur' hexpr hrel
    exact ((hknown hexpr).resolve_right id) rfl .ended hrel
  | start =>
    intro cur' hexpr hrel
    exact ((hknown hexpr).resolve_right id) rfl .start hrel
  | finish =>
    intro cur' hexpr hrel
    exact ((hknown hexpr).resolve_right id) rfl .finish hrel
  | gap =>
    intro cur' hexpr hrel
    exact ((hknown hexpr).resolve_right id) rfl .gap hrel
  | cat hfirst hsecond ihfirst ihsecond =>
    intro cur' hexpr hrel
    rcases hknown hexpr with hwhole | ⟨hexpr, hexpr'⟩
    · exact hwhole rfl (.cat hfirst hsecond) hrel
    · obtain ⟨_, hread, hmid⟩ := ihfirst hexpr hrel
      cases hmid with
      | both hmid htext htrees =>
        obtain ⟨_, hread', hlast⟩ := ihsecond hexpr' hmid
        exact ⟨_, .cat hread hread', hlast.after htext htrees⟩
  | stuck hfirst ihfirst =>
    intro cur' hexpr hrel
    rcases hknown hexpr with hwhole | ⟨hexpr, -⟩
    · exact hwhole rfl (.stuck hfirst) hrel
    · obtain ⟨_, hread, hmid⟩ := ihfirst hexpr hrel
      cases hmid
      exact ⟨_, .stuck hread, .neither⟩
  | left hfirst ihfirst =>
    intro cur' hexpr hrel
    rcases hknown hexpr with hwhole | ⟨hexpr, -⟩
    · exact hwhole rfl (.left hfirst) hrel
    · obtain ⟨_, hread, hfound⟩ := ihfirst hexpr hrel
      cases hfound with
      | both hmid htext htrees => exact ⟨_, .left hread, .both hmid htext htrees⟩
  | right hfirst hsecond ihfirst ihsecond =>
    intro cur' hexpr hrel
    rcases hknown hexpr with hwhole | ⟨hexpr, hexpr'⟩
    · exact hwhole rfl (.right hfirst hsecond) hrel
    · obtain ⟨_, hread, hnone⟩ := ihfirst hexpr hrel
      obtain ⟨_, hread', hlast⟩ := ihsecond hexpr' hrel
      cases hnone
      exact ⟨_, .right hread hread', hlast⟩
  | opt hpart ihpart =>
    intro cur' hexpr hrel
    rcases hknown hexpr with hwhole | hexpr
    · exact hwhole rfl (.opt hpart) hrel
    · obtain ⟨_, hread, hfound⟩ := ihpart hexpr hrel
      exact ⟨_, .opt hread, hfound.opt hrel⟩
  | more hfirst hrest ihfirst ihrest =>
    intro cur' hexpr hrel
    have hmany := hexpr
    rcases hknown hexpr with hwhole | hexpr
    · exact hwhole rfl (.more hfirst hrest) hrel
    · obtain ⟨_, hread, hmid⟩ := ihfirst hexpr hrel
      cases hmid with
      | both hmid htext htrees =>
        obtain ⟨_, hread', hlast⟩ := ihrest hmany hmid
        exact ⟨_, .more hread hread', hlast.after htext htrees⟩
  | done hpart ihpart =>
    intro cur' hexpr hrel
    rcases hknown hexpr with hwhole | hexpr
    · exact hwhole rfl (.done hpart) hrel
    · obtain ⟨_, hread, hnone⟩ := ihpart hexpr hrel
      cases hnone
      exact ⟨_, .done hread, .stays hrel⟩
  | present hpart ihpart =>
    intro cur' hexpr hrel
    rcases hknown hexpr with hwhole | hexpr
    · exact hwhole rfl (.present hpart) hrel
    · obtain ⟨_, hread, hfound⟩ := ihpart hexpr hrel
      exact ⟨_, .present hread, hfound.present hrel⟩
  | absent hpart ihpart =>
    intro cur' hexpr hrel
    rcases hknown hexpr with hwhole | hexpr
    · exact hwhole rfl (.absent hpart) hrel
    · obtain ⟨_, hread, hfound⟩ := ihpart hexpr hrel
      exact ⟨_, .absent hread, hfound.absent hrel⟩
  | @call ctx rule cur answer hbody ihbody =>
    intro cur' hexpr hrel
    rcases hknown hexpr with hwhole | ⟨hexpr, htight⟩
    · exact hwhole rfl (.call hbody) hrel
    · have hkind : (ctx.enter (grammar.production rule).kind).kind =
          insideKind ctx.kind rule.production.kind := kind_enter ctx _
      rw [← hkind] at hexpr htight
      obtain ⟨_, hread, hfound⟩ := ihbody hexpr hrel
      refine ⟨_, .call hread, ?_⟩
      cases hfound with
      | neither => exact .neither
      | both hmid htext htrees =>
        exact .both hmid (fun hkind => htext (htight (.inl hkind)))
          (alike_called (fun hkind => htext (htight (.inr hkind))) htrees)

end StackScript.Syntax

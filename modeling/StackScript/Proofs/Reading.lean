import StackScript.Proofs.Answers

/-!
# What reading leaves

A successful reading of an expression as a relation between cursors (`Reads`): what is left of an
answer (`Answers.reads`) without why other choices failed, other than those that had to fail. Every
node of a parse tree comes from reading the expression of its rule (`Reads.stems`). An
expression that calls no rules leaves no nodes, and where no gaps are skipped it passes over
characters of its own classes only (`Reads.within`).
-/

namespace StackScript.Grammar

open StackScript.Source

variable {R : Type} {g : Rules R}

/-! ## Successful readings -/

/-- The expression matches between the cursors and leaves the nodes. -/
inductive Reads (g : Rules R) :
    Context → Peg R → Cursor → Cursor → List (ParseTree R) → Prop where
  | text {ctx cs cur cur'} (h : cur.pass? cs = some cur') : Reads g ctx (.text cs) cur cur' []
  | one {ctx accepts c rest mark} (h : accepts c = true) :
      Reads g ctx (.one accepts) ⟨c :: rest, mark⟩ ⟨rest, mark.next c⟩ []
  | start {ctx cur} : Reads g ctx .start cur cur []
  | finish {ctx cur} : Reads g ctx .finish cur cur []
  | gap {ctx cur} : Reads g ctx .gap cur (if ctx.kind = .loose then g.skip cur else cur) []
  | cat {ctx first second cur mid cur' before after} (hfirst : Reads g ctx first cur mid before)
      (hsecond : Reads g ctx second mid cur' after) :
      Reads g ctx (.cat first second) cur cur' (before ++ after)
  | left {ctx first second cur cur' trees} (h : Reads g ctx first cur cur' trees) :
      Reads g ctx (.alt first second) cur cur' trees
  | right {ctx first second cur cur' trees} (h : Reads g ctx second cur cur' trees) :
      Reads g ctx (.alt first second) cur cur' trees
  | some {ctx part cur cur' trees} (h : Reads g ctx part cur cur' trees) :
      Reads g ctx (.opt part) cur cur' trees
  | none {ctx part cur} : Reads g ctx (.opt part) cur cur []
  | more {ctx part cur mid cur' before after} (hfirst : Reads g ctx part cur mid before)
      (hrest : Reads g ctx (.many part) mid cur' after) :
      Reads g ctx (.many part) cur cur' (before ++ after)
  | done {ctx part cur} : Reads g ctx (.many part) cur cur []
  | present {ctx part cur} : Reads g ctx (.present part) cur cur []
  | absent {ctx part cur} (h : Fails g ctx.lookAbsent part cur) :
      Reads g ctx (.absent part) cur cur []
  | call {ctx rule cur cur' trees}
      (h : Reads g (ctx.enter (g.production rule).kind) (g.production rule).body cur cur' trees) :
      Reads g ctx (.call rule) cur cur'
        (if g.leavesNode ctx rule then [.node rule cur cur'.mark trees] else trees)

/-- An answer that something matches is a successful reading. -/
theorem Answers.reads {ctx : Context} {expr : Peg R} {cur cur' : Cursor}
    {trees : List (ParseTree R)} (h : Answers g ctx expr cur (some (cur', trees))) :
    Reads g ctx expr cur cur' trees := by
  generalize hanswer : some (cur', trees) = answer at h
  induction h generalizing cur' trees with
  | text h =>
    cases hanswer
    exact .text h
  | one h =>
    cases hanswer
    exact .one h
  | start =>
    split at hanswer <;> cases hanswer
    exact .start
  | finish =>
    split at hanswer <;> cases hanswer
    exact .finish
  | gap =>
    cases hanswer
    exact .gap
  | cat _ _ hfirst hsecond =>
    obtain ⟨found, rfl, heq⟩ := Option.map_eq_some_iff.mp hanswer.symm
    cases heq
    exact .cat (hfirst rfl) (hsecond rfl)
  | left _ ih => exact .left (ih hanswer)
  | right _ _ _ ih => exact .right (ih hanswer)
  | @opt _ _ _ answer _ ih =>
    cases answer with
    | some found =>
      cases hanswer
      exact .some (ih rfl)
    | none =>
      cases hanswer
      exact .none
  | more _ _ hfirst hrest =>
    obtain ⟨found, rfl, heq⟩ := Option.map_eq_some_iff.mp hanswer.symm
    cases heq
    exact .more (hfirst rfl) (hrest rfl)
  | done _ =>
    cases hanswer
    exact .done
  | @present _ _ _ answer _ =>
    cases answer <;> cases hanswer
    exact .present
  | @absent _ _ _ answer h =>
    cases answer <;> cases hanswer
    exact .absent (fails_iff.mpr h)
  | call _ ih =>
    obtain ⟨found, rfl, heq⟩ := Option.map_eq_some_iff.mp hanswer.symm
    cases heq
    exact .call (ih rfl)
  -- what is left over did not match
  | _ => cases hanswer

/-- Whatever is found by reading is a successful reading. -/
theorem reads_of_read (fuel : Nat) {ctx : Context} {expr : Peg R} {cur cur' : Cursor}
    {tries tries' : Attempts R} {trees : List (ParseTree R)}
    (h : read g fuel ctx expr cur tries = (.found cur' trees, tries')) :
    Reads g ctx expr cur cur' trees :=
  (answers_of_read fuel (by rw [h]; rfl)).reads

/-! ## Nodes -/

/-- The node was left by its rule: it covers what the expression of the rule matched, and the nodes
inside it were left on the way. -/
inductive Stems (g : Rules R) : ParseTree R → Prop where
  | node {ctx : Context} {rule : R} {cur cur' : Cursor} {parts : List (ParseTree R)}
      (hreads : Reads g (ctx.enter (g.production rule).kind) (g.production rule).body cur cur'
        parts)
      (hleaves : g.leavesNode ctx rule = true)
      (hparts : ∀ part ∈ parts, Stems g part) : Stems g (.node rule cur cur'.mark parts)

theorem Stems.part {tree part : ParseTree R} (h : Stems g tree) (hpart : part ∈ tree.parts) :
    Stems g part := by
  cases h with
  | node _ _ hparts => exact hparts part hpart

namespace Reads

variable {ctx : Context} {expr : Peg R} {cur cur' : Cursor} {trees : List (ParseTree R)}

theorem cat_inv {first second : Peg R} (h : Reads g ctx (.cat first second) cur cur' trees) :
    ∃ mid before after, Reads g ctx first cur mid before ∧ Reads g ctx second mid cur' after ∧
      trees = before ++ after := by
  cases h with
  | cat hfirst hsecond => exact ⟨_, _, _, hfirst, hsecond, rfl⟩

/-- A rule that leaves a node leaves only that. -/
theorem call_inv {rule : R} (h : Reads g ctx (.call rule) cur cur' trees)
    (hleaves : g.leavesNode ctx rule = true) :
    ∃ parts, trees = [.node rule cur cur'.mark parts] := by
  cases h with
  | call h => exact ⟨_, if_pos hleaves⟩

/-- All nodes that are left come from rules. -/
theorem stems (h : Reads g ctx expr cur cur' trees) : ∀ tree ∈ trees, Stems g tree := by
  induction h with
  | cat _ _ hbefore hafter => exact List.forall_mem_append.mpr ⟨hbefore, hafter⟩
  | more _ _ hbefore hafter => exact List.forall_mem_append.mpr ⟨hbefore, hafter⟩
  | left _ ih => exact ih
  | right _ ih => exact ih
  | some _ ih => exact ih
  | @call ctx rule cur cur' trees h ih =>
    split
    · rename_i hleaves
      intro tree htree
      rw [List.mem_singleton.mp htree]
      exact .node h hleaves ih
    · exact ih
  | _ => exact fun _ htree => nomatch htree

end Reads

/-! ## Characters -/

/-- The cursor passed over a text of the kind. -/
def Covers (kind : List Char → Prop) (cur cur' : Cursor) : Prop :=
  ∃ cs, kind cs ∧ cur.rest = cs ++ cur'.rest ∧ cur'.mark = cur.mark.after cs

namespace Covers

variable {kind : List Char → Prop} {cur mid cur' : Cursor}

theorem nothing (h : kind []) (cur : Cursor) : Covers kind cur cur := ⟨[], h, rfl, rfl⟩

/-- A text of one kind and then one of another make up one of a third. -/
theorem append {first second : List Char → Prop} (h : Covers first cur mid)
    (h' : Covers second mid cur') (hboth : ∀ cs cs', first cs → second cs' → kind (cs ++ cs')) :
    Covers kind cur cur' := by
  obtain ⟨cs, hcs, hrest, hmark⟩ := h
  obtain ⟨cs', hcs', hrest', hmark'⟩ := h'
  refine ⟨cs ++ cs', hboth cs cs' hcs hcs', ?_, ?_⟩
  · rw [hrest, hrest', List.append_assoc]
  · rw [hmark', hmark, Mark.after, Mark.after, Mark.after, List.foldl_append]

theorem imp {other : List Char → Prop} (h : Covers kind cur cur')
    (himp : ∀ cs, kind cs → other cs) : Covers other cur cur' := by
  obtain ⟨cs, hcs, hrest, hmark⟩ := h
  exact ⟨cs, himp cs hcs, hrest, hmark⟩

theorem one {c : Char} (h : kind [c]) (rest : List Char) (mark : Mark) :
    Covers kind ⟨c :: rest, mark⟩ ⟨rest, mark.next c⟩ := ⟨[c], h, rfl, rfl⟩

/-- Reading a given text passes over it. -/
theorem of_pass? {cs : List Char} (h : cur.pass? cs = some cur') : Covers (· = cs) cur cur' := by
  induction cs generalizing cur with
  | nil =>
    cases h
    exact ⟨[], rfl, rfl, rfl⟩
  | cons c cs ih =>
    obtain ⟨_ | ⟨d, rest⟩, mark⟩ := cur
    · cases h
    · rw [Cursor.pass?] at h
      split at h
      · rename_i heq
        subst heq
        have hfirst : Covers (· = [c]) ⟨c :: rest, mark⟩ ⟨rest, mark.next c⟩ :=
          ⟨[c], rfl, rfl, rfl⟩
        refine hfirst.append (ih h) ?_
        rintro _ _ rfl rfl
        rfl
      · cases h

theorem textUpTo_append {cs : List Char} (rest : List Char) (offset : Nat) :
    textUpTo (offset + byteLength cs) offset (cs ++ rest) = cs := by
  induction cs generalizing offset with
  | nil =>
    cases rest with
    | nil => rfl
    | cons c rest => simp [textUpTo, byteLength]
  | cons c cs ih =>
    have hsize := Char.utf8Size_pos c
    rw [List.cons_append, textUpTo, if_pos (by rw [byteLength]; omega), byteLength,
      ← Nat.add_assoc, ih]

/-- The text between the cursors is what was passed over. -/
theorem of_textTo (h : Covers kind cur cur') : kind (cur.textTo cur'.mark) := by
  obtain ⟨cs, hcs, hrest, hmark⟩ := h
  rw [Cursor.textTo, hrest, hmark, Mark.offset_after, textUpTo_append]
  exact hcs

end Covers

/-- The cursor passed over characters of the class. -/
abbrev Passes (accepts : Char → Bool) : Cursor → Cursor → Prop :=
  Covers fun cs => ∀ c ∈ cs, accepts c = true

namespace Passes

variable {accepts : Char → Bool} {cur mid cur' : Cursor}

theorem refl (cur : Cursor) : Passes accepts cur cur := .nothing (List.forall_mem_nil _) cur

theorem trans (h : Passes accepts cur mid) (h' : Passes accepts mid cur') :
    Passes accepts cur cur' :=
  h.append h' fun _ _ hcs hcs' => List.forall_mem_append.mpr ⟨hcs, hcs'⟩

end Passes

/-- The expression calls no rules, and reads characters of the class only. -/
def Peg.Within (accepts : Char → Bool) : Peg R → Prop
  | .text cs => ∀ c ∈ cs, accepts c = true
  | .one only => ∀ c, only c = true → accepts c = true
  | .start | .finish | .gap | .present _ | .absent _ => True
  | .cat first second | .alt first second => first.Within accepts ∧ second.Within accepts
  | .opt part | .many part => part.Within accepts
  | .call _ => False

/-- An expression that calls no rules leaves no nodes, and passes over characters of its own
classes, unless there are gaps between. -/
theorem Reads.within {ctx : Context} {expr : Peg R} {cur cur' : Cursor}
    {trees : List (ParseTree R)} {accepts : Char → Bool} (h : Reads g ctx expr cur cur' trees)
    (hwithin : expr.Within accepts) :
    trees = [] ∧ (ctx.kind ≠ .loose → Passes accepts cur cur') := by
  induction h with
  | text h => exact ⟨rfl, fun _ => (Covers.of_pass? h).imp fun _ heq => heq ▸ hwithin⟩
  | one h =>
    refine ⟨rfl, fun _ => .one ?_ _ _⟩
    intro c hc
    rw [List.mem_singleton.mp hc]
    exact hwithin _ h
  | start => exact ⟨rfl, fun _ => .refl _⟩
  | finish => exact ⟨rfl, fun _ => .refl _⟩
  | gap =>
    refine ⟨rfl, fun hkind => ?_⟩
    rw [if_neg hkind]
    exact .refl _
  | cat _ _ hbefore hafter =>
    obtain ⟨rfl, hfirst⟩ := hbefore hwithin.1
    obtain ⟨rfl, hsecond⟩ := hafter hwithin.2
    exact ⟨rfl, fun hkind => (hfirst hkind).trans (hsecond hkind)⟩
  | left _ ih => exact ih hwithin.1
  | right _ ih => exact ih hwithin.2
  | some _ ih => exact ih hwithin
  | none => exact ⟨rfl, fun _ => .refl _⟩
  | more _ _ hbefore hafter =>
    obtain ⟨rfl, hfirst⟩ := hbefore hwithin
    obtain ⟨rfl, hsecond⟩ := hafter hwithin
    exact ⟨rfl, fun hkind => (hfirst hkind).trans (hsecond hkind)⟩
  | done => exact ⟨rfl, fun _ => .refl _⟩
  | present => exact ⟨rfl, fun _ => .refl _⟩
  | absent => exact ⟨rfl, fun _ => .refl _⟩
  | call => exact hwithin.elim

/-- An expression that calls no rules leaves no nodes. -/
theorem Reads.silent {ctx : Context} {expr : Peg R} {cur cur' : Cursor}
    {trees : List (ParseTree R)} (h : Reads g ctx expr cur cur' trees)
    (hwithin : expr.Within fun _ => true) : trees = [] := (h.within hwithin).1

end StackScript.Grammar

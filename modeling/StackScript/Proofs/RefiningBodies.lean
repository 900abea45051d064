import StackScript.Proofs.Refining

/-!
# Typing bodies with more knowledge

A body that has no fault when it is typed with more knowledge has none with less: its locals have
the same types as far as they are known, and it returns values of some of the same types
(`Site.stmts_refines`). So the return type that a body settles on with less knowledge is the one
that it settles on with more (`Site.settled?_of_refines`).
-/

namespace StackScript.Typing

open StackScript.Source StackScript.Syntax

variable {before after : Site} {locals locals' : Locals}

/-! ## Locals -/

theorem lookup_cons_eq (name other : String) (type : Option Ty) (locals : Locals) :
    List.lookup other ((name, type) :: locals) =
      if other = name then some type else locals.lookup other := by
  rw [List.lookup_cons]
  by_cases h : other = name
  · rw [if_pos h, h, beq_self_eq_true]
  · rw [if_neg h, beq_false_of_ne h]

theorem Locals.Refines.refl (locals : Locals) : locals.Refines locals := by
  intro name
  cases hlocal : locals.lookup name with
  | none => exact .inl ⟨rfl, rfl⟩
  | some t => exact .inr ⟨t, t, rfl, rfl, .inr rfl⟩

namespace Locals.Refines

variable {name : String} {s t : Option Ty}

theorem cons (h : locals.Refines locals') (hst : s = none ∨ s = t) :
    Locals.Refines ((name, s) :: locals) ((name, t) :: locals') := by
  intro other
  rw [lookup_cons_eq, lookup_cons_eq]
  split
  · exact .inr ⟨s, t, rfl, rfl, hst⟩
  · exact h other

/-- A local may be found out about again with less knowledge only. -/
theorem cons_left (h : locals.Refines locals') (hafter : locals'.lookup name = some t)
    (hst : s = none ∨ s = t) : Locals.Refines ((name, s) :: locals) locals' := by
  intro other
  rw [lookup_cons_eq]
  split
  · rename_i heq
    exact .inr ⟨s, t, rfl, heq ▸ hafter, hst⟩
  · exact h other

/-- A local of which nothing is known may be found out about with more knowledge only. -/
theorem cons_right (h : locals.Refines locals') (hbefore : locals.lookup name = some none) :
    Locals.Refines locals ((name, t) :: locals') := by
  intro other
  rw [lookup_cons_eq]
  split
  · rename_i heq
    exact .inr ⟨none, t, heq ▸ hbefore, rfl, .inl rfl⟩
  · exact h other

end Locals.Refines

/-- An assignment that is no fault with more knowledge is none with less. -/
theorem assign_refines (h : locals.Refines locals') {name : String} {type type' : Option Ty}
    (htype : ∀ t, type = some t → type' = some t) (span span' : Span)
    (hfaults : (assign locals' name type' span').2.faults = []) :
    (assign locals name type span).2 = {} ∧ (assign locals' name type' span').2 = {} ∧
      (assign locals name type span).1.Refines (assign locals' name type' span').1 := by
  have hknown : type = none ∨ type = type' := by
    cases ht : type with
    | none => exact .inl rfl
    | some t => exact .inr (htype t ht).symm
  unfold assign at hfaults ⊢
  rcases h name with ⟨hbefore, hafter⟩ | ⟨s, t, hbefore, hafter, hst⟩
  · -- a new local
    rw [hafter] at hfaults ⊢
    rw [hbefore]
    cases type with
    | none =>
      cases type' with
      | none => exact ⟨rfl, rfl, h.cons (.inl rfl)⟩
      | some found => exact ⟨rfl, rfl, h.cons (.inl rfl)⟩
    | some found =>
      rw [htype found rfl]
      exact ⟨rfl, rfl, h.cons (.inr rfl)⟩
  · rw [hafter] at hfaults ⊢
    rw [hbefore]
    cases type' with
    | none =>
      obtain rfl : type = none := hknown.elim id id
      exact ⟨rfl, rfl, h⟩
    | some found =>
      cases t with
      | none =>
        -- nothing was known of the local, and now its type is found
        obtain rfl : s = none := hst.elim id id
        rcases hknown with rfl | rfl
        · exact ⟨rfl, rfl, h.cons_right hbefore⟩
        · exact ⟨rfl, rfl, h.cons (.inr rfl)⟩
      | some existing =>
        by_cases heq : existing = found
        · subst heq
          simp only [if_true]
          rcases hknown with rfl | rfl
          · exact ⟨rfl, trivial, h⟩
          · rcases hst with rfl | rfl
            · exact ⟨rfl, trivial, h.cons_left hafter (.inr rfl)⟩
            · simp only [if_true, true_and]
              exact h
        · simp [heq] at hfaults

/-! ## Statements -/

/-- What is found in a stretch of a body that has no fault with more knowledge: with less knowledge
it has none, and returns values of some of the same types, `void` among them if it is. The types of
all returned values are the expected one, if there is one. -/
structure Findings.Refines (expected : Option Ty) (before after : Findings) : Prop where
  faults : before.faults = []
  returns : ∀ t ∈ before.returns, t ∈ after.returns
  void : .void ∈ after.returns → .void ∈ before.returns
  expected : ∀ ret, expected = some ret → ∀ t ∈ after.returns, t = ret

namespace Findings.Refines

variable {expected : Option Ty}

theorem append {a a' b b' : Findings} (ha : a.Refines expected a') (hb : b.Refines expected b') :
    (a ++ b).Refines expected (a' ++ b') where
  faults := List.append_eq_nil_iff.mpr ⟨ha.faults, hb.faults⟩
  returns t ht := by
    rcases List.mem_append.mp ht with ht | ht
    · exact List.mem_append_left _ (ha.returns t ht)
    · exact List.mem_append_right _ (hb.returns t ht)
  void ht := by
    rcases List.mem_append.mp ht with ht | ht
    · exact List.mem_append_left _ (ha.void ht)
    · exact List.mem_append_right _ (hb.void ht)
  expected ret hret t ht := by
    rcases List.mem_append.mp ht with ht | ht
    · exact ha.expected ret hret t ht
    · exact hb.expected ret hret t ht

/-- A stretch that returns nothing. -/
theorem of_returns {found found' : Findings} (hfaults : found.faults = [])
    (hreturns : found.returns = [] ∧ found'.returns = []) : found.Refines expected found' where
  faults := hfaults
  returns t ht := by
    rw [hreturns.1] at ht
    cases ht
  void ht := by
    rw [hreturns.2] at ht
    cases ht
  expected ret _ t ht := by
    rw [hreturns.2] at ht
    cases ht

theorem of_eq {found found' : Findings} (h : found = {}) (h' : found' = {}) :
    found.Refines expected found' := by
  rw [h, h']
  exact .of_returns rfl ⟨rfl, rfl⟩

/-- A stretch that returns a value of the same type in both. -/
theorem of_returned {t : Ty} (h : ∀ ret, expected = some ret → t = ret) :
    (Findings.returned t).Refines expected (.returned t) where
  faults := rfl
  returns _ ht := ht
  void ht := ht
  expected ret hret _ hs := List.mem_singleton.mp hs ▸ h ret hret

end Findings.Refines

theorem Typed.Refines.findings {same whole : Prop} {before after : Typed}
    (h : before.Refines same whole after) (expected : Option Ty) :
    before.found.Refines expected after.found :=
  .of_returns h.faults h.returns

theorem Site.returnFindings_refines (h : before.Refines after) {t : Ty} {span : Span}
    (hfaults : (after.returnFindings t span).faults = []) :
    before.returnFindings t span = .returned t ∧ after.returnFindings t span = .returned t ∧
      ∀ ret, after.expected = some ret → t = ret := by
  unfold Site.returnFindings at hfaults ⊢
  cases hret : after.expected with
  | none =>
    have hbefore : before.expected = none := h.expected.elim id (·.trans hret)
    rw [hbefore]
    exact ⟨rfl, rfl, fun _ he => nomatch he⟩
  | some ret =>
    rw [hret] at hfaults
    by_cases heq : ret = t
    · subst heq
      rcases h.expected with hbefore | hbefore
      · rw [hbefore]
        exact ⟨rfl, if_pos rfl, fun _ he => Option.some.inj he⟩
      · rw [hbefore, hret]
        exact ⟨if_pos rfl, if_pos rfl, fun _ he => Option.some.inj he⟩
    · simp [heq] at hfaults

/-- A returned value is not `void`, so what it tells is known with more knowledge at most. -/
theorem Site.valueFindings_refines (h : before.Refines after) {same whole : Prop}
    {typed typed' : Typed} (ht : typed.Refines same whole typed') (hvoid : typed'.type ≠ some .void)
    {span : Span} (hfaults : (after.valueFindings typed' span).faults = []) :
    (before.valueFindings typed span).Refines after.expected (after.valueFindings typed' span) ∧
      (before.valueFindings typed span).pending = false ∧
      (typed = typed' → before.valueFindings typed span = after.valueFindings typed' span) := by
  unfold Site.valueFindings at hfaults ⊢
  cases htype' : typed'.type with
  | none =>
    have htype : typed.type = none := ht.type_cases.elim id (·.trans htype')
    rw [htype]
    exact ⟨.of_returns rfl ⟨rfl, rfl⟩, rfl, fun _ => rfl⟩
  | some t =>
    rw [htype'] at hfaults
    obtain ⟨hbefore, hafter, hexpected⟩ := Site.returnFindings_refines h hfaults
    simp only [hafter]
    rcases ht.type_cases with htype | htype
    · rw [htype]
      refine ⟨⟨rfl, fun _ hs => (nomatch hs), fun hs => ?_, fun ret hret s hs => ?_⟩, rfl,
        fun heq => ?_⟩
      · rw [htype', List.mem_singleton.mp hs] at hvoid
        exact absurd rfl hvoid
      · exact List.mem_singleton.mp hs ▸ hexpected ret hret
      · rw [heq, htype'] at htype
        cases htype
    · rw [htype, htype']
      simp only [hbefore]
      exact ⟨.of_returned hexpected, rfl, fun _ => trivial⟩

/-- A stretch of a body, typed: what it becomes, the locals after it, and what was found. -/
abbrev Pass (α : Type) := α × Locals × Findings

/-- What is found out with more knowledge about a stretch that has no fault then: with less it has
none, and its locals and returned values are the same as far as they are known. -/
structure Pass.Refines {α : Type} (same whole : Prop) (expected : Option Ty)
    (before after : Pass α) : Prop where
  found : before.2.2.Refines expected after.2.2
  locals : before.2.1.Refines after.2.1
  eq : same → before.2.2.Final whole → before = after

mutual

/-- A statement that has no fault with more knowledge has none with less. -/
theorem Site.stmt_refines (h : before.Refines after) : ∀ (stmt : Stmt) {locals locals' : Locals},
    locals.Refines locals' → (after.stmt locals' stmt).2.2.faults = [] →
      Pass.Refines (locals = locals') (before.KnowsAll after) after.expected
        (before.stmt locals stmt) (after.stmt locals' stmt)
  | .expr value span, locals, locals', hl, hfaults => by
    have hvalue := Site.infer_refines h hl value hfaults
    refine ⟨hvalue.findings _, hl, fun hsame hfinal => ?_⟩
    rw [Site.stmt, Site.stmt, hvalue.eq hsame hfinal, hsame]
  | .assign target value span, locals, locals', hl, hfaults => by
    obtain ⟨hclean, hassign⟩ := List.append_eq_nil_iff.mp hfaults
    have hvalue := Site.value_refines h hl value hclean
    obtain ⟨hbefore, hafter, hlocals⟩ := assign_refines hl hvalue.type
      (before.value locals value).expr.span _ hassign
    refine ⟨(hvalue.findings _).append (.of_eq hbefore hafter), hlocals, fun hsame hfinal => ?_⟩
    obtain ⟨hfinal, -⟩ := Findings.final_append.mp hfinal
    rw [Site.stmt, Site.stmt, hvalue.eq hsame hfinal, hsame]
  | .cond chain span, locals, locals', hl, hfaults => by
    have hchain := Site.chain_refines h chain hl hfaults
    refine ⟨hchain.found, hchain.locals, fun hsame hfinal => ?_⟩
    rw [Site.stmt, Site.stmt, hchain.eq hsame hfinal]
  | .loop condition body span, locals, locals', hl, hfaults => by
    obtain ⟨hclean, hbody⟩ := List.append_eq_nil_iff.mp hfaults
    have hcondition := Site.condition_refines h hl condition hclean
    have hbody := Site.block_refines h body hl hbody
    refine ⟨(hcondition.findings _).append hbody.found, hbody.locals, fun hsame hfinal => ?_⟩
    obtain ⟨hfinal, hfinal'⟩ := Findings.final_append.mp hfinal
    rw [Site.stmt, Site.stmt, hcondition.eq hsame hfinal, hbody.eq hsame hfinal']
  | .ret (some value) span, locals, locals', hl, hfaults => by
    obtain ⟨hclean, hret⟩ := List.append_eq_nil_iff.mp hfaults
    have hvalue := Site.value_refines h hl value hclean
    obtain ⟨hfound, -, heq⟩ :=
      Site.valueFindings_refines h hvalue (Typed.type_asValue_ne_void _) hret
    refine ⟨(hvalue.findings _).append hfound, hl, fun hsame hfinal => ?_⟩
    obtain ⟨hfinal, -⟩ := Findings.final_append.mp hfinal
    have hvalue := hvalue.eq hsame hfinal
    rw [Site.stmt, Site.stmt, heq hvalue, hvalue, hsame]
  | .ret none span, locals, locals', hl, hfaults => by
    obtain ⟨hbefore, hafter, hexpected⟩ := Site.returnFindings_refines h hfaults
    simp only [Site.stmt, hbefore, hafter]
    exact ⟨.of_returned hexpected, hl, fun hsame _ => by rw [hsame]⟩
  | .puts value span, locals, locals', hl, hfaults => by
    have hvalue := Site.value_refines h hl value hfaults
    refine ⟨hvalue.findings _, hl, fun hsame hfinal => ?_⟩
    rw [Site.stmt, Site.stmt, hvalue.eq hsame hfinal, hsame]
  | .raise value span, locals, locals', hl, hfaults => by
    have hvalue := Site.value_refines h hl value hfaults
    refine ⟨hvalue.findings _, hl, fun hsame hfinal => ?_⟩
    rw [Site.stmt, Site.stmt, hvalue.eq hsame hfinal, hsame]

theorem Site.block_refines (h : before.Refines after) :
    ∀ (block : Block) {locals locals' : Locals}, locals.Refines locals' →
      (after.block locals' block).2.2.faults = [] →
      Pass.Refines (locals = locals') (before.KnowsAll after) after.expected
        (before.block locals block) (after.block locals' block)
  | .mk stmts span, locals, locals', hl, hfaults => by
    have hstmts := Site.stmts_refines h stmts hl hfaults
    refine ⟨hstmts.found, hstmts.locals, fun hsame hfinal => ?_⟩
    rw [Site.block, Site.block, hstmts.eq hsame hfinal]

theorem Site.stmts_refines (h : before.Refines after) :
    ∀ (stmts : List Stmt) {locals locals' : Locals}, locals.Refines locals' →
      (after.stmts locals' stmts).2.2.faults = [] →
      Pass.Refines (locals = locals') (before.KnowsAll after) after.expected
        (before.stmts locals stmts) (after.stmts locals' stmts)
  | [], locals, locals', hl, _ =>
    ⟨.of_returns rfl ⟨rfl, rfl⟩, hl, fun hsame _ => by rw [Site.stmts, Site.stmts, hsame]⟩
  | stmt :: rest, locals, locals', hl, hfaults => by
    obtain ⟨hfirst, hrest⟩ := List.append_eq_nil_iff.mp hfaults
    have hstmt := Site.stmt_refines h stmt hl hfirst
    have hstmts := Site.stmts_refines h rest hstmt.locals hrest
    refine ⟨hstmt.found.append hstmts.found, hstmts.locals, fun hsame hfinal => ?_⟩
    obtain ⟨hfinal, hfinal'⟩ := Findings.final_append.mp hfinal
    have hstmt := hstmt.eq hsame hfinal
    -- the rest starts from the same locals, as the statement leaves the same
    have hstmts := hstmts.eq (congrArg (·.2.1) hstmt) hfinal'
    simp only [Site.stmts, hstmts]
    rw [hstmt]

theorem Site.chain_refines (h : before.Refines after) :
    ∀ (chain : Chain) {locals locals' : Locals}, locals.Refines locals' →
      (after.chain locals' chain).2.2.faults = [] →
      Pass.Refines (locals = locals') (before.KnowsAll after) after.expected
        (before.chain locals chain) (after.chain locals' chain)
  | .done, locals, locals', hl, _ =>
    ⟨.of_returns rfl ⟨rfl, rfl⟩, hl, fun hsame _ => by rw [Site.chain, Site.chain, hsame]⟩
  | .otherwise body, locals, locals', hl, hfaults => by
    have hbody := Site.block_refines h body hl hfaults
    refine ⟨hbody.found, hbody.locals, fun hsame hfinal => ?_⟩
    rw [Site.chain, Site.chain, hbody.eq hsame hfinal]
  | .branch condition body rest, locals, locals', hl, hfaults => by
    obtain ⟨hboth, hrest⟩ := List.append_eq_nil_iff.mp hfaults
    obtain ⟨hclean, hbody⟩ := List.append_eq_nil_iff.mp hboth
    have hcondition := Site.condition_refines h hl condition hclean
    have hbody := Site.block_refines h body hl hbody
    have hrest := Site.chain_refines h rest hbody.locals hrest
    refine ⟨((hcondition.findings _).append hbody.found).append hrest.found, hrest.locals,
      fun hsame hfinal => ?_⟩
    obtain ⟨hfinal, hfinal''⟩ := Findings.final_append.mp hfinal
    obtain ⟨hfinal, hfinal'⟩ := Findings.final_append.mp hfinal
    have hbody := hbody.eq hsame hfinal'
    have hrest := hrest.eq (congrArg (·.2.1) hbody) hfinal''
    simp only [Site.chain, hrest, hcondition.eq hsame hfinal]
    rw [hbody]

end

/-! ## Bodies -/

/-- The statements of a body before the bare expression at its end, and that expression, if there is
one. -/
def splitValue : List Stmt → List Stmt × Option (Expr × Span)
  | [] => ([], none)
  | [.expr value span] => ([], some (value, span))
  | stmt :: rest => (stmt :: (splitValue rest).1, (splitValue rest).2)

theorem Findings.empty_append (found : Findings) : ({} : Findings) ++ found = found := by
  cases found
  rfl

theorem Findings.append_assoc (a b c : Findings) : a ++ b ++ c = a ++ (b ++ c) := by
  show Findings.mk (a.faults ++ b.faults ++ c.faults) (a.returns ++ b.returns ++ c.returns)
    (a.pending || b.pending || c.pending) = _
  rw [List.append_assoc, List.append_assoc, Bool.or_assoc]
  rfl

/-- A body is its statements, and the expression that is its value after them. -/
theorem Site.bodyStmts_eq (site : Site) (locals : Locals) (stmts : List Stmt) :
    site.bodyStmts locals stmts =
      match (splitValue stmts).2 with
      | none =>
        ((site.stmts locals (splitValue stmts).1).1, (site.stmts locals (splitValue stmts).1).2.2)
      | some (value, span) =>
        let start := site.stmts locals (splitValue stmts).1
        let typed := site.infer start.2.1 value
        (start.1 ++ [.expr typed.expr span],
          start.2.2 ++ (typed.found ++ site.implicitReturn typed)) := by
  fun_induction Site.bodyStmts site locals stmts with
  | case1 => rfl
  | case2 locals value span typed =>
    simp only [splitValue, Site.stmts, List.nil_append, Findings.empty_append]
    rfl
  | case3 locals stmt rest hne stmt' after found hstmt rest' more hrest ih =>
    rw [hrest] at ih
    rw [splitValue]
    · simp only [Site.stmts, hstmt]
      rcases hvalue : (splitValue rest).2 with _ | ⟨value, span⟩ <;> rw [hvalue] at ih
      · obtain ⟨rfl, rfl⟩ := Prod.mk.inj ih
        rfl
      · obtain ⟨rfl, rfl⟩ := Prod.mk.inj ih
        simp only [List.cons_append, Findings.append_assoc]
    · exact hne

/-- The statements of a body and the expression at its end, when the body has no fault with more
knowledge. -/
theorem Site.parts_refine (h : before.Refines after) (locals : Locals) {stmts : List Stmt}
    (hfaults : (after.bodyStmts locals stmts).2.faults = []) :
    Pass.Refines True (before.KnowsAll after) after.expected
        (before.stmts locals (splitValue stmts).1) (after.stmts locals (splitValue stmts).1) ∧
      ∀ value span, (splitValue stmts).2 = some (value, span) →
        let typed := before.infer (before.stmts locals (splitValue stmts).1).2.1 value
        let typed' := after.infer (after.stmts locals (splitValue stmts).1).2.1 value
        typed.Refines ((before.stmts locals (splitValue stmts).1).2.1 =
            (after.stmts locals (splitValue stmts).1).2.1) (before.KnowsAll after) typed' ∧
          (after.implicitReturn typed').faults = [] := by
  rw [Site.bodyStmts_eq] at hfaults
  have whole : (after.stmts locals (splitValue stmts).1).2.2.faults = [] →
      Pass.Refines True (before.KnowsAll after) after.expected
        (before.stmts locals (splitValue stmts).1) (after.stmts locals (splitValue stmts).1) := by
    intro hclean
    have hstmts := Site.stmts_refines h _ (.refl locals) hclean
    exact ⟨hstmts.found, hstmts.locals, fun _ => hstmts.eq rfl⟩
  rcases hvalue : (splitValue stmts).2 with _ | ⟨value, span⟩ <;> rw [hvalue] at hfaults
  · exact ⟨whole hfaults, fun _ _ he => nomatch he⟩
  · obtain ⟨hclean, hend⟩ := List.append_eq_nil_iff.mp hfaults
    obtain ⟨htyped, himplicit⟩ := List.append_eq_nil_iff.mp hend
    have hstmts := whole hclean
    refine ⟨hstmts, fun _ _ he => ?_⟩
    cases he
    exact ⟨Site.infer_refines h hstmts.locals value htyped, himplicit⟩

/-- Against registries that know the same, a body without a fault becomes the same. -/
theorem Site.body_eq (h : before.Refines after) (hall : before.KnowsAll after)
    (hexpected : before.expected = after.expected) {m : Method} {types : List (Option Ty)}
    (hfaults : (after.body m types).2.faults = []) : before.body m types = after.body m types := by
  obtain ⟨-, hbody⟩ := List.append_eq_nil_iff.mp hfaults
  obtain ⟨hstmts, hvalue⟩ := Site.parts_refine h (paramLocals m.params types) hbody
  have hstmts := hstmts.eq trivial (.inl hall)
  have himplicit : before.implicitReturn = after.implicitReturn := by
    funext typed
    unfold Site.implicitReturn
    rw [hexpected, h.cls, h.method]
  have hmissing : before.missingReturn m = after.missingReturn m := by
    unfold Site.missingReturn
    rw [hexpected, h.cls, h.method]
  have hsame : before.bodyStmts (paramLocals m.params types) m.body.stmts =
      after.bodyStmts (paramLocals m.params types) m.body.stmts := by
    rw [Site.bodyStmts_eq, Site.bodyStmts_eq]
    rcases hend : (splitValue m.body.stmts).2 with _ | ⟨value, span⟩
    · simp only [hstmts]
    · have htyped := (hvalue value span hend).1.eq (congrArg (·.2.1) hstmts) (.inl hall)
      simp only [htyped, himplicit]
      rw [hstmts]
  unfold Site.body
  simp only [hsame, hmissing]

/-! ### What a body settles on -/

/-- The types of the values that the statements of a body return. -/
def Site.returned (site : Site) (locals : Locals) (stmts : List Stmt) : List Ty :=
  (site.stmts locals (splitValue stmts).1).2.2.returns

/-- The type of the expression that is the value of a body. -/
def Site.valueType? (site : Site) (locals : Locals) (stmts : List Stmt) : Option Ty :=
  (splitValue stmts).2.bind fun value =>
    (site.infer (site.stmts locals (splitValue stmts).1).2.1 value.1).type

/-- What is known of a body of which no return type is expected yet, when it has no fault with more
knowledge. -/
structure BodyRefines (before after : Site) (locals : Locals) (stmts : List Stmt) : Prop where
  faults : (before.bodyStmts locals stmts).2.faults = []
  subset : ∀ t ∈ before.returned locals stmts, t ∈ after.returned locals stmts
  void : .void ∈ after.returned locals stmts → .void ∈ before.returned locals stmts
  value : ∀ t, before.valueType? locals stmts = some t → after.valueType? locals stmts = some t
  /-- The values returned by statements come before the body's own value. -/
  returns : (before.bodyStmts locals stmts).2.returns =
    before.returned locals stmts ++ (before.valueType? locals stmts).toList
  eq : (before.bodyStmts locals stmts).2.pending = false →
    before.returned locals stmts = after.returned locals stmts ∧
      before.valueType? locals stmts = after.valueType? locals stmts ∧
        (after.bodyStmts locals stmts).2.pending = false
  expected : ∀ ret, after.expected = some ret → (∀ t ∈ after.returned locals stmts, t = ret) ∧
    ∀ t, after.valueType? locals stmts = some t → ret = .void ∨ t = ret

theorem Site.implicitReturn_of_none {site : Site} (h : site.expected = none) (typed : Typed) :
    site.implicitReturn typed = { returns := typed.type.toList } := by
  unfold Site.implicitReturn
  rw [h]
  cases typed.type with
  | none => rfl
  | some t => rfl

theorem Site.pending_implicitReturn (site : Site) (typed : Typed) :
    (site.implicitReturn typed).pending = false := by
  unfold Site.implicitReturn
  split
  · rfl
  · rfl
  · rfl
  · split <;> rfl

/-- The value of a body is no fault only if its method returns nothing, or a value of that type. -/
theorem Site.implicitReturn_ok {site : Site} {typed : Typed}
    (h : (site.implicitReturn typed).faults = []) {ret t : Ty} (hret : site.expected = some ret)
    (ht : typed.type = some t) : ret = .void ∨ t = ret := by
  unfold Site.implicitReturn at h
  rw [hret, ht] at h
  split at h
  · cases ‹some ret = none›
  · exact .inl (Option.some.inj ‹_›)
  · cases ‹some t = none›
  · rename_i hexpected hfound
    cases hexpected
    cases hfound
    split at h
    · exact .inr (Eq.symm ‹_›)
    · simp at h

theorem Site.valueType?_of_none {site : Site} {stmts : List Stmt}
    (h : (splitValue stmts).2 = none) : site.valueType? locals stmts = none := by
  rw [Site.valueType?, h]
  rfl

theorem Site.valueType?_of_some {site : Site} {stmts : List Stmt} {value : Expr} {span : Span}
    (h : (splitValue stmts).2 = some (value, span)) : site.valueType? locals stmts =
      (site.infer (site.stmts locals (splitValue stmts).1).2.1 value).type := by
  rw [Site.valueType?, h]
  rfl

/-- A body without a value of its own is no more than its statements. -/
theorem Site.bodyStmts_refines_of_none {stmts : List Stmt} (hend : (splitValue stmts).2 = none)
    (hstmts : Pass.Refines True (before.KnowsAll after) after.expected
      (before.stmts locals (splitValue stmts).1) (after.stmts locals (splitValue stmts).1)) :
    BodyRefines before after locals stmts := by
  have hbody := Site.bodyStmts_eq before locals stmts
  have hbefore : before.valueType? locals stmts = none := Site.valueType?_of_none hend
  have hafter : after.valueType? locals stmts = none := Site.valueType?_of_none hend
  rw [hend] at hbody
  refine ⟨?_, hstmts.found.returns, hstmts.found.void, ?_, ?_, fun hpending => ?_, ?_⟩
  · rw [hbody]
    exact hstmts.found.faults
  · intro t ht
    rw [hbefore] at ht
    cases ht
  · rw [hbody, hbefore]
    exact (List.append_nil _).symm
  · rw [hbody] at hpending
    have heq := hstmts.eq trivial (.inr hpending)
    refine ⟨congrArg (·.2.2.returns) heq, hbefore.trans hafter.symm, ?_⟩
    rw [Site.bodyStmts_eq, hend]
    exact (congrArg (·.2.2.pending) heq).symm.trans hpending
  · intro ret hret
    refine ⟨hstmts.found.expected ret hret, fun t ht => ?_⟩
    rw [hafter] at ht
    cases ht

theorem Site.bodyStmts_refines (h : before.Refines after) (hnone : before.expected = none)
    (locals : Locals) {stmts : List Stmt}
    (hfaults : (after.bodyStmts locals stmts).2.faults = []) :
    BodyRefines before after locals stmts := by
  obtain ⟨hstmts, hvalue⟩ := Site.parts_refine h locals hfaults
  rcases hend : (splitValue stmts).2 with _ | ⟨value, span⟩
  · exact Site.bodyStmts_refines_of_none hend hstmts
  · obtain ⟨htyped, himplicit⟩ := hvalue value span hend
    have hbefore := @Site.valueType?_of_some locals before _ _ _ hend
    have hafter := @Site.valueType?_of_some locals after _ _ _ hend
    have hbody := Site.bodyStmts_eq before locals stmts
    rw [hend] at hbody
    simp only [Site.implicitReturn_of_none hnone] at hbody
    refine ⟨?_, hstmts.found.returns, hstmts.found.void, ?_, ?_, fun hpending => ?_, ?_⟩
    · rw [hbody]
      simp only [Findings.faults_append, hstmts.found.faults, htyped.faults, List.append_nil]
    · rw [hbefore, hafter]
      exact htyped.type
    · rw [hbody, hbefore]
      simp only [Findings.returns_append, htyped.returns.1, List.nil_append]
      rfl
    · -- nothing is still to be found, so the same is found with more knowledge
      rw [hbody] at hpending
      simp only [Findings.pending_append, Bool.or_false, Bool.or_eq_false_iff] at hpending
      have heq := hstmts.eq trivial (.inr hpending.1)
      have hsame := htyped.eq (congrArg (·.2.1) heq) (.inr hpending.2)
      refine ⟨congrArg (·.2.2.returns) heq,
        hbefore.trans ((congrArg Typed.type hsame).trans hafter.symm), ?_⟩
      rw [Site.bodyStmts_eq, hend]
      simp only [Findings.pending_append, Site.pending_implicitReturn, ← heq, Bool.or_false]
      rw [hpending.1, congrArg (·.2.1) heq, ← hsame, hpending.2]
      rfl
    · intro ret hret
      refine ⟨hstmts.found.expected ret hret, fun t ht => ?_⟩
      exact Site.implicitReturn_ok himplicit hret (hafter.symm.trans ht)

theorem Findings.settled?_eq {found : Findings} {statements : List Ty} {value : Option Ty}
    (h : found.returns = statements ++ value.toList) :
    found.settled? = (statements.head?.or value).or
      (if found.pending then none else some .void) := by
  unfold Findings.settled?
  rw [h]
  cases statements with
  | nil => cases value <;> rfl
  | cons t rest => rfl

/-- The type that a body settles on once all of it is known. -/
def Site.outcome (site : Site) (locals : Locals) (stmts : List Stmt) : Ty :=
  ((site.returned locals stmts).head?.or (site.valueType? locals stmts)).getD .void

namespace BodyRefines

variable {stmts : List Stmt}

/-- All returned values have the expected type, so a body that returns any settles on that. -/
theorem outcome_of_mem (h : BodyRefines before after locals stmts) {ret t : Ty}
    (hret : after.expected = some ret) (ht : t ∈ after.returned locals stmts) :
    after.outcome locals stmts = ret := by
  have hall := (h.expected ret hret).1
  unfold Site.outcome
  cases hreturned : after.returned locals stmts with
  | nil =>
    rw [hreturned] at ht
    cases ht
  | cons head tail => exact hall head (hreturned ▸ List.mem_cons_self)

/-- A body that is seen to return nothing with less knowledge, and has a value, settles on the type
of that value. -/
theorem outcome_of_value (h : BodyRefines before after locals stmts) {ret t : Ty}
    (hret : after.expected = some ret) (hnone : before.returned locals stmts = [])
    (ht : before.valueType? locals stmts = some t) : after.outcome locals stmts = t := by
  have htype := h.value t ht
  cases hreturned : after.returned locals stmts with
  | nil =>
    unfold Site.outcome
    rw [hreturned, htype]
    rfl
  | cons head tail =>
    have hhead : head ∈ after.returned locals stmts := hreturned ▸ List.mem_cons_self
    rw [h.outcome_of_mem hret hhead]
    rcases (h.expected ret hret).2 t htype with rfl | hsame
    · -- a return without a value is seen with less knowledge too
      have hvoid := h.void ((h.expected _ hret).1 head hhead ▸ hhead)
      rw [hnone] at hvoid
      cases hvoid
    · exact hsame.symm

/-- Whatever a body settles on with less knowledge is what it settles on in the end. -/
theorem settled?_eq (h : BodyRefines before after locals stmts) {ret t : Ty}
    (hret : after.expected = some ret)
    (ht : (before.bodyStmts locals stmts).2.settled? = some t) :
    t = after.outcome locals stmts := by
  rw [Findings.settled?_eq h.returns] at ht
  cases hreturned : before.returned locals stmts with
  | cons first rest =>
    have hfirst := h.subset first (hreturned ▸ List.mem_cons_self)
    rw [hreturned] at ht
    cases ht
    rw [h.outcome_of_mem hret hfirst]
    exact (h.expected ret hret).1 _ hfirst
  | nil =>
    rw [hreturned] at ht
    cases htype : before.valueType? locals stmts with
    | some type =>
      rw [htype] at ht
      cases ht
      exact (h.outcome_of_value hret hreturned htype).symm
    | none =>
      rw [htype] at ht
      cases hpending : (before.bodyStmts locals stmts).2.pending with
      | true =>
        rw [hpending] at ht
        cases ht
      | false =>
        -- nothing is returned with more knowledge either
        obtain ⟨hsame, hsameType, -⟩ := h.eq hpending
        rw [hpending] at ht
        cases ht
        unfold Site.outcome
        rw [← hsame, ← hsameType, hreturned, htype]
        rfl

/-- A body that settles on a type with less knowledge settles on one with more. -/
theorem isSome_settled? (h : BodyRefines before after locals stmts)
    (hself : BodyRefines after after locals stmts)
    (hsome : (before.bodyStmts locals stmts).2.settled?.isSome) :
    (after.bodyStmts locals stmts).2.settled?.isSome := by
  rw [Findings.settled?_eq h.returns] at hsome
  rw [Findings.settled?_eq hself.returns]
  cases hpending : (before.bodyStmts locals stmts).2.pending with
  | false =>
    obtain ⟨-, -, hfinal⟩ := h.eq hpending
    rw [hfinal, Option.isSome_or, Option.isSome_or]
    simp
  | true =>
    rw [hpending, Option.isSome_or, Option.isSome_or, Bool.or_assoc] at hsome
    rw [Option.isSome_or, Option.isSome_or, Bool.or_assoc]
    cases hbefore : before.returned locals stmts with
    | cons first rest =>
      have hfirst := h.subset _ (hbefore ▸ List.mem_cons_self)
      cases hafter : after.returned locals stmts with
      | nil =>
        rw [hafter] at hfirst
        cases hfirst
      | cons head tail => rfl
    | nil =>
      cases htype : before.valueType? locals stmts with
      | some type =>
        rw [h.value type htype]
        simp
      | none =>
        rw [hbefore, htype] at hsome
        cases hsome

end BodyRefines

/-! ### Methods -/

theorem Site.Refines.self (h : before.Refines after) : after.Refines after where
  registry := ⟨h.registry.classes.symm.trans h.registry.classes, .refl _⟩
  externals := rfl
  file := rfl
  cls := rfl
  method := rfl
  expected := .inr rfl

theorem Site.settled?_body {site : Site} (h : site.expected = none) (m : Method)
    (types : List (Option Ty)) : (site.body m types).2.settled? =
      (site.bodyStmts (paramLocals m.params types) m.body.stmts).2.settled? := by
  unfold Site.body Site.missingReturn
  rw [h]
  exact congrArg Findings.settled? (Findings.empty_append _)

theorem Site.bodyStmts_of_body {site : Site} {m : Method} {types : List (Option Ty)}
    (h : (site.body m types).2.faults = []) :
    (site.bodyStmts (paramLocals m.params types) m.body.stmts).2.faults = [] :=
  (List.append_eq_nil_iff.mp h).2

section

variable {m : Method} {types : List (Option Ty)} (h : before.Refines after)
  (hnone : before.expected = none) (hfaults : (after.body m types).2.faults = [])

include h hnone hfaults

/-- A body without a fault has none with less knowledge. -/
theorem Site.faults_of_refines : (before.body m types).2.faults = [] := by
  have hbody := Site.bodyStmts_refines h hnone _ (Site.bodyStmts_of_body hfaults)
  unfold Site.body Site.missingReturn
  rw [hnone]
  exact hbody.faults

/-- The type that a body settles on with less knowledge is the one it settles on in the end. -/
theorem Site.settled?_of_refines {ret t : Ty} (hret : after.expected = some ret)
    (ht : (before.body m types).2.settled? = some t) :
    t = after.outcome (paramLocals m.params types) m.body.stmts := by
  rw [Site.settled?_body hnone] at ht
  exact (Site.bodyStmts_refines h hnone _ (Site.bodyStmts_of_body hfaults)).settled?_eq hret ht

/-- A body that settles on a type with less knowledge settles on one with more. -/
theorem Site.isSome_settled?_of_refines (hnone' : after.expected = none)
    (hsome : (before.body m types).2.settled?.isSome) : (after.body m types).2.settled?.isSome := by
  rw [Site.settled?_body hnone] at hsome
  rw [Site.settled?_body hnone']
  have hclean := Site.bodyStmts_of_body hfaults
  exact (Site.bodyStmts_refines h hnone _ hclean).isSome_settled?
    (Site.bodyStmts_refines h.self hnone' _ hclean) hsome

end

end StackScript.Typing

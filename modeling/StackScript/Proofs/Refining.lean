import StackScript.Proofs.Headers

/-!
# Typing expressions with more knowledge

The same expression may be typed against two registries of which the second one knows more return
types. When it has no fault in the second, it has none in the first either, and the type that the
first finds, if any, is the one that the second finds (`Site.infer_refines`). Where nothing that the
first passed over was still to be found, both find exactly the same.
-/

namespace StackScript.Typing

open StackScript.Source StackScript.Syntax

/-! ## Registries and sites -/

/-- The entries are of the same method, the return type of which may have been found. -/
def MethodEntry.SettlesTo (before after : MethodEntry) : Prop :=
  ∃ ret, after = { before with ret } ∧ before.ret.SettlesTo ret

/-- A return type that is known stays known. -/
theorem ReturnState.SettlesTo.known {before after : ReturnState} (h : before.SettlesTo after)
    {t : Ty} (ht : before.known? = some t) : after.known? = some t := by
  rcases h with rfl | ⟨rfl, -⟩
  · exact ht
  · cases ht

/-- Only an open return type is settled. -/
theorem ReturnState.SettlesTo.eq_of_ne {before after : ReturnState} (h : before.SettlesTo after)
    (hne : before ≠ .pending) : after = before := by
  rcases h with h | ⟨h, -⟩
  · exact h
  · exact absurd h hne

/-- Settling never forgets a return type. -/
theorem ReturnState.SettlesTo.pending_of_pending {before after : ReturnState}
    (h : before.SettlesTo after) (hafter : after = .pending) : before = .pending := by
  rcases h with rfl | ⟨hpending, -⟩
  · exact hafter
  · exact hpending

/-- Every method that is on record after settling was there before. -/
theorem Settles.of_method? {before after : Registry} (h : Settles before after)
    {cls name : String} {entry : MethodEntry} (hentry : after.method? cls name = some entry) :
    ∃ old, before.method? cls name = some old ∧ old.SettlesTo entry := by
  cases hold : before.method? cls name with
  | none =>
    rw [h.adds hold] at hentry
    cases hentry
  | some old =>
    obtain ⟨ret, hafter, hret⟩ := h.keeps hold
    cases hafter.symm.trans hentry
    exact ⟨old, rfl, ret, rfl, hret⟩

/-- The second registry knows at least as much as the first one, of the same classes and methods. -/
structure Registry.Refines (before after : Registry) : Prop where
  classes : SameClasses before after
  settles : Settles before after

namespace Registry.Refines

variable {before after : Registry}

theorem trans {last : Registry} (h : before.Refines after) (hnext : after.Refines last) :
    before.Refines last :=
  ⟨h.classes.trans hnext.classes, h.settles.trans hnext.settles⟩

/-- The classes around a class that have the method are the same in both. -/
theorem localMethod?_fst (h : before.Refines after) (cls method : String) :
    (before.localMethod? cls method).map Prod.fst =
      (after.localMethod? cls method).map Prod.fst := by
  unfold Registry.localMethod?
  rw [h.classes.scopes_eq]
  induction after.scopes cls with
  | nil => rfl
  | cons scope scopes ih =>
    rw [List.findSome?_cons, List.findSome?_cons]
    cases hold : before.method? scope method with
    | none =>
      rw [h.settles.adds hold]
      exact ih
    | some old =>
      obtain ⟨ret, hafter, -⟩ := h.settles.keeps hold
      rw [hafter]
      rfl

end Registry.Refines

/-- The method that a meaning has: that of the class on record, or else of the signature. -/
theorem method?_of_meaning (registry : Registry) (meaning : Registry.Meaning) (name : String) :
    (registry.entry? meaning).bind (·.method? name) =
      match meaning with
      | .onRecord cls => registry.method? cls name
      | .outside sig =>
        if registry.has sig.name then registry.method? sig.name name
        else (ClassEntry.ofSig sig).method? name := by
  cases meaning with
  | onRecord cls => rfl
  | outside sig =>
    have hname : (ClassEntry.ofSig sig).name = sig.name := rfl
    simp only [Registry.entry?, Registry.class?_enroll, hname, if_true]
    cases hcls : registry.class? sig.name with
    | none =>
      rw [Registry.has, hcls]
      rfl
    | some found =>
      rw [Registry.has, hcls, Registry.method?, hcls]
      rfl

/-- The second site stands where the first one does, but sees a registry that knows more; the return
type of its method may be known in addition. -/
structure Site.Refines (before after : Site) : Prop where
  registry : before.registry.Refines after.registry
  externals : before.externals = after.externals
  file : before.file = after.file
  cls : before.cls = after.cls
  method : before.method = after.method
  expected : before.expected = none ∨ before.expected = after.expected

/-- Both sites see the same methods. -/
def Site.KnowsAll (before after : Site) : Prop :=
  ∀ cls name, before.registry.method? cls name = after.registry.method? cls name

/-- A call that has a target with more knowledge has the same target with less. -/
theorem Site.Refines.target {before after : Site} (h : before.Refines after)
    {receiver : Option Ident} {method : Ident} {cls : String} {entry : Option ClassEntry}
    {m : MethodEntry} (htarget : after.target receiver method = .ok (cls, entry))
    (hm : entry.bind (·.method? method.name) = some m) :
    ∃ found old, before.target receiver method = .ok (cls, found) ∧
      found.bind (·.method? method.name) = some old ∧ old.SettlesTo m ∧
      (before.KnowsAll after → old = m) := by
  -- a method on record that is the target is one of a class that both have on record
  have recorded : ∀ {owner}, after.registry.method? owner method.name = some m →
      ∃ old, before.registry.method? owner method.name = some old ∧ old.SettlesTo m ∧
        (before.KnowsAll after → old = m) := by
    intro owner howner
    obtain ⟨old, hold, hsettles⟩ := h.registry.settles.of_method? howner
    refine ⟨old, hold, hsettles, fun hall => ?_⟩
    rw [hall, howner] at hold
    exact (Option.some.inj hold).symm
  cases receiver with
  | some written =>
    simp only [Site.target] at htarget ⊢
    split at htarget
    · rename_i meaning hmeaning
      cases htarget
      rw [h.externals, h.cls, h.registry.classes.lookup_eq_ok_iff.mpr hmeaning]
      refine ⟨before.registry.entry? meaning, ?_⟩
      rw [method?_of_meaning] at hm ⊢
      cases meaning with
      | onRecord owner =>
        obtain ⟨old, hold, hsettles, heq⟩ := recorded hm
        exact ⟨old, rfl, hold, hsettles, heq⟩
      | outside sig =>
        simp only at hm ⊢
        rw [h.registry.classes.has_eq]
        split at hm
        · rename_i hhas
          rw [if_pos hhas]
          obtain ⟨old, hold, hsettles, heq⟩ := recorded hm
          exact ⟨old, trivial, hold, hsettles, heq⟩
        · rename_i hhas
          rw [if_neg hhas]
          exact ⟨m, trivial, hm, ⟨m.ret, rfl, .inl rfl⟩, fun _ => rfl⟩
    · cases htarget
  | none =>
    simp only [Site.target] at htarget ⊢
    split at htarget
    · rename_i owner found hfound
      cases htarget
      have hfst := h.registry.localMethod?_fst after.cls method.name
      rw [hfound, Option.map_some] at hfst
      obtain ⟨⟨name, old⟩, hold, rfl⟩ := Option.map_eq_some_iff.mp hfst
      rw [h.cls, hold]
      obtain ⟨old, hold, hsettles, heq⟩ := recorded hm
      exact ⟨_, old, rfl, hold, hsettles, heq⟩
    · cases htarget

/-! ## Findings -/

namespace Findings

@[simp] theorem pending_append (a b : Findings) :
    (a ++ b).pending = (a.pending || b.pending) := rfl

@[simp] theorem pending_fault (f : TypeFault) (span : Span) : (fault f span).pending = false := rfl

@[simp] theorem pending_returned (t : Ty) : (returned t).pending = false := rfl

/-- Nothing that was passed over is still to be found, or else nothing more is to be found at
all. -/
def Final (whole : Prop) (found : Findings) : Prop := whole ∨ found.pending = false

theorem final_append {whole : Prop} {a b : Findings} :
    (a ++ b).Final whole ↔ a.Final whole ∧ b.Final whole := by
  unfold Final
  rw [pending_append, Bool.or_eq_false_iff]
  constructor
  · rintro (h | ⟨ha, hb⟩)
    · exact ⟨.inl h, .inl h⟩
    · exact ⟨.inr ha, .inr hb⟩
  · rintro ⟨h | ha, hb⟩
    · exact .inl h
    · exact hb.imp_right fun hb => ⟨ha, hb⟩

end Findings

/-! ## Expressions -/

/-- What is found out with more knowledge about an expression that has no fault then: it has none
with less knowledge, and its type is the same as far as it is known. Both findings are the same when
they start from the same locals and nothing is still to be found. -/
structure Typed.Refines (same whole : Prop) (before after : Typed) : Prop where
  faults : before.found.faults = []
  returns : before.found.returns = [] ∧ after.found.returns = []
  type : ∀ t, before.type = some t → after.type = some t
  eq : same → before.found.Final whole → before = after

section Expressions

variable {same whole : Prop}

theorem Typed.Refines.type_cases {before after : Typed} (h : before.Refines same whole after) :
    before.type = none ∨ before.type = after.type := by
  cases ht : before.type with
  | none => exact .inl rfl
  | some t => exact .inr (h.type t ht).symm

/-- A value without a fault is not `void`. -/
theorem Typed.asValue_of_faults {typed : Typed} (h : typed.asValue.found.faults = []) :
    typed.asValue = typed ∧ typed.type ≠ some .void := by
  unfold Typed.asValue at h ⊢
  split at h
  · simp at h
  · rename_i hvoid
    exact ⟨rfl, hvoid⟩

/-- What is used as a value is not void. -/
theorem Typed.type_asValue_ne_void (typed : Typed) : typed.asValue.type ≠ some .void := by
  unfold Typed.asValue
  split
  · exact fun h => nomatch h
  · assumption

/-- Being used as a value refines with the expression. -/
theorem Typed.Refines.asValue {before after : Typed}
    (h : after.found.faults = [] → before.Refines same whole after)
    (hfaults : after.asValue.found.faults = []) :
    before.asValue.Refines same whole after.asValue := by
  obtain ⟨heq, hvoid⟩ := Typed.asValue_of_faults hfaults
  rw [heq] at hfaults ⊢
  have hrefines := h hfaults
  have hbefore : before.asValue = before := by
    unfold Typed.asValue
    split
    · rename_i ht
      exact absurd (hrefines.type _ ht) hvoid
    · rfl
  rwa [hbefore]

/-- The locals have the same names, and the second ones have the types of the first ones. -/
def Locals.Refines (before after : Locals) : Prop :=
  ∀ name, before.lookup name = none ∧ after.lookup name = none ∨
    ∃ s t, before.lookup name = some s ∧ after.lookup name = some t ∧ (s = none ∨ s = t)

theorem typeVar_refines {before after : Locals} (h : before.Refines after) (name : Ident)
    (note : Note) (hfaults : (typeVar after name note).found.faults = []) :
    (typeVar before name note).Refines (before = after) whole (typeVar after name note) := by
  unfold typeVar at hfaults ⊢
  rcases h name.name with ⟨-, hafter⟩ | ⟨s, t, hbefore, hafter, hst⟩
  · rw [hafter] at hfaults
    simp [Typed.mk'] at hfaults
  · rw [hbefore, hafter]
    refine ⟨rfl, ⟨rfl, rfl⟩, fun x hx => ?_, fun hsame _ => ?_⟩
    · rcases hst with rfl | rfl
      · cases hx
      · exact hx
    · rw [hsame, hafter] at hbefore
      rw [Option.some.inj hbefore]

/-- Expressions made of parts that are the same up to knowledge. -/
theorem Typed.Refines.mk' {e e' : Expr} {type type' : Option Ty} {found found' : Findings}
    (hfaults : found.faults = []) (hreturns : found.returns = [] ∧ found'.returns = [])
    (htype : ∀ t, type = some t → type' = some t)
    (heq : same → found.Final whole → e = e' ∧ type = type' ∧ found = found') :
    (Typed.mk' e type found).Refines same whole (Typed.mk' e' type' found') := by
  refine ⟨hfaults, hreturns, htype, fun hsame hfinal => ?_⟩
  obtain ⟨rfl, rfl, rfl⟩ := heq hsame hfinal
  rfl

/-! ### Operators

Each operation says which types of its operands, as far as they are known, are no fault, and has its
plain form for those. -/

theorem typeUnary_eq {op : UnaryOp} {operand : Typed}
    (h : ∀ s, operand.type = some s → ∃ t, unaryType? op s = some t) (note : Note) :
    typeUnary op operand note =
      .mk' (.unary op operand.expr note) (operand.type.bind (unaryType? op)) operand.found := by
  unfold typeUnary
  cases hs : operand.type with
  | none => rfl
  | some s =>
    obtain ⟨t, ht⟩ := h s hs
    simp only [ht, Option.bind_some]

/-- Without faults the operand has none, and the operator fits its type if that is known. -/
theorem typeUnary_ok {op : UnaryOp} {operand : Typed} {note : Note}
    (h : (typeUnary op operand note).found.faults = []) :
    operand.found.faults = [] ∧
      ∀ s, operand.type = some s → ∃ t, unaryType? op s = some t := by
  unfold typeUnary at h
  simp only at h
  split at h
  · rename_i hnone
    exact ⟨h, fun s hs => nomatch hnone.symm.trans hs⟩
  · rename_i s hs
    split at h
    · rename_i t ht
      exact ⟨h, fun s' hs' => ⟨t, Option.some.inj (hs.symm.trans hs') ▸ ht⟩⟩
    · simp [Typed.mk'] at h

/-- A unary operation refines with its operand. -/
theorem typeUnary_refines {before after : Typed}
    (h : after.found.faults = [] → before.Refines same whole after) (op : UnaryOp) (note : Note)
    (hfaults : (typeUnary op after note).found.faults = []) :
    (typeUnary op before note).Refines same whole (typeUnary op after note) := by
  obtain ⟨hpart, hok⟩ := typeUnary_ok hfaults
  have h := h hpart
  rw [typeUnary_eq hok, typeUnary_eq fun s hs => hok s (h.type s hs)]
  refine .mk' h.faults h.returns (fun t ht => ?_) fun hsame hfinal => ?_
  · obtain ⟨s, hs, hst⟩ := Option.bind_eq_some_iff.mp ht
    rw [h.type s hs]
    exact hst
  · rw [h.eq hsame hfinal]
    exact ⟨rfl, rfl, rfl⟩

theorem typeBinary_eq {op : BinaryOp} {left right : Typed}
    (h : ∀ l r, left.type = some l → right.type = some r → ∃ t, binaryType? op l r = some t)
    (note : Note) :
    typeBinary op left right note =
      .mk' (.binary op left.expr right.expr note)
        (left.type.bind fun l => right.type.bind (binaryType? op l))
        (left.found ++ right.found) := by
  unfold typeBinary
  cases hl : left.type with
  | none => rfl
  | some l =>
    cases hr : right.type with
    | none => rfl
    | some r =>
      obtain ⟨t, ht⟩ := h l r hl hr
      simp only [ht, Option.bind_some]

/-- Without faults the operands have none, and the operator fits their types if these are known. -/
theorem typeBinary_ok {op : BinaryOp} {left right : Typed} {note : Note}
    (h : (typeBinary op left right note).found.faults = []) :
    left.found.faults = [] ∧ right.found.faults = [] ∧
      ∀ l r, left.type = some l → right.type = some r → ∃ t, binaryType? op l r = some t := by
  unfold typeBinary at h
  simp only at h
  split at h
  · rename_i l r hl hr
    split at h
    · rename_i t ht
      have hparts := List.append_eq_nil_iff.mp h
      refine ⟨hparts.1, hparts.2, fun l' r' hl' hr' => ⟨t, ?_⟩⟩
      rw [← Option.some.inj (hl.symm.trans hl'), ← Option.some.inj (hr.symm.trans hr')]
      exact ht
    · simp [Typed.mk'] at h
  · rename_i hnone
    have hparts := List.append_eq_nil_iff.mp h
    exact ⟨hparts.1, hparts.2, fun l r hl hr => absurd hr (hnone l r hl)⟩

/-- A binary operation refines with its operands. -/
theorem typeBinary_refines {before after before' after' : Typed}
    (hl : after.found.faults = [] → before.Refines same whole after)
    (hr : after'.found.faults = [] → before'.Refines same whole after') (op : BinaryOp)
    (note : Note) (hfaults : (typeBinary op after after' note).found.faults = []) :
    (typeBinary op before before' note).Refines same whole (typeBinary op after after' note) := by
  obtain ⟨hleft, hright, hok⟩ := typeBinary_ok hfaults
  have hl := hl hleft
  have hr := hr hright
  rw [typeBinary_eq hok, typeBinary_eq fun l r hlt hrt => hok l r (hl.type l hlt) (hr.type r hrt)]
  refine .mk' ?_ ?_ (fun t ht => ?_) fun hsame hfinal => ?_
  · rw [Findings.faults_append, hl.faults, hr.faults, List.append_nil]
  · simp only [Findings.returns_append, hl.returns, hr.returns, List.append_nil, and_self]
  · obtain ⟨l, hlt, ht⟩ := Option.bind_eq_some_iff.mp ht
    obtain ⟨r, hrt, ht⟩ := Option.bind_eq_some_iff.mp ht
    rw [hl.type l hlt, hr.type r hrt]
    exact ht
  · obtain ⟨hfinal, hfinal'⟩ := Findings.final_append.mp hfinal
    rw [hl.eq hsame hfinal, hr.eq hsame hfinal']
    exact ⟨rfl, rfl, rfl⟩

/-- Values of the type have a length. -/
def hasLength : Ty → Prop
  | .string | .array _ => True
  | _ => False

theorem typeLength_eq {value : Typed} (h : ∀ t, value.type = some t → hasLength t) (note : Note) :
    typeLength value note =
      .mk' (.length value.expr note) (value.type.map fun _ => .int) value.found := by
  unfold typeLength
  cases ht : value.type with
  | none => rfl
  | some t =>
    cases t with
    | string => rfl
    | array element => rfl
    | int => exact (h _ ht).elim
    | boolean => exact (h _ ht).elim
    | void => exact (h _ ht).elim

theorem typeLength_ok {value : Typed} {note : Note}
    (h : (typeLength value note).found.faults = []) :
    value.found.faults = [] ∧ ∀ t, value.type = some t → hasLength t := by
  unfold typeLength at h
  simp only at h
  split at h
  · rename_i hnone
    exact ⟨h, fun t ht => nomatch hnone.symm.trans ht⟩
  · rename_i hstring
    exact ⟨h, fun t ht => Option.some.inj (hstring.symm.trans ht) ▸ trivial⟩
  · rename_i element harray
    exact ⟨h, fun t ht => Option.some.inj (harray.symm.trans ht) ▸ trivial⟩
  · simp [Typed.mk'] at h

theorem typeLength_refines {before after : Typed}
    (h : after.found.faults = [] → before.Refines same whole after) (note : Note)
    (hfaults : (typeLength after note).found.faults = []) :
    (typeLength before note).Refines same whole (typeLength after note) := by
  obtain ⟨hpart, hok⟩ := typeLength_ok hfaults
  have h := h hpart
  rw [typeLength_eq hok, typeLength_eq fun t ht => hok t (h.type t ht)]
  refine .mk' h.faults h.returns (fun t ht => ?_) fun hsame hfinal => ?_
  · obtain ⟨s, hs, rfl⟩ := Option.map_eq_some_iff.mp ht
    rw [h.type s hs]
    rfl
  · rw [h.eq hsame hfinal]
    exact ⟨rfl, rfl, rfl⟩

theorem typeIndex_eq {array position : Typed}
    (ha : ∀ t, array.type = some t → ∃ element, t = .array element)
    (hp : ∀ t, position.type = some t → t = .int) (note : Note) :
    typeIndex array position note =
      .mk' (.index array.expr position.expr note) (array.type.bind Ty.element?)
        (array.found ++ position.found ++ {}) := by
  have hposition : positionFindings position = {} := by
    unfold positionFindings
    split
    · rfl
    · rfl
    · rename_i t hint ht
      exact (hint (hp t ht)).elim
  unfold typeIndex
  rw [hposition]
  cases ht : array.type with
  | none => rfl
  | some t =>
    obtain ⟨element, rfl⟩ := ha t ht
    rfl

theorem typeIndex_ok {array position : Typed} {note : Note}
    (h : (typeIndex array position note).found.faults = []) :
    array.found.faults = [] ∧ position.found.faults = [] ∧
      (∀ t, array.type = some t → ∃ element, t = .array element) ∧
      ∀ t, position.type = some t → t = .int := by
  have hparts : (array.found ++ position.found ++ positionFindings position).faults = [] ∧
      ∀ t, array.type = some t → ∃ element, t = .array element := by
    unfold typeIndex at h
    simp only at h
    split at h
    · rename_i hnone
      exact ⟨h, fun t ht => nomatch hnone.symm.trans ht⟩
    · rename_i element harray
      exact ⟨h, fun t ht => ⟨element, Option.some.inj (ht.symm.trans harray)⟩⟩
    · simp [Typed.mk'] at h
  simp only [Findings.faults_append, List.append_eq_nil_iff] at hparts
  obtain ⟨⟨⟨harray, hposition⟩, hint⟩, hok⟩ := hparts
  refine ⟨harray, hposition, hok, fun t ht => ?_⟩
  unfold positionFindings at hint
  rw [ht] at hint
  split at hint
  · cases ‹some t = none›
  · exact Option.some.inj ‹_›
  · simp at hint

/-- An element refines with its array and its position. -/
theorem typeIndex_refines {before after before' after' : Typed}
    (ha : after.found.faults = [] → before.Refines same whole after)
    (hp : after'.found.faults = [] → before'.Refines same whole after') (note : Note)
    (hfaults : (typeIndex after after' note).found.faults = []) :
    (typeIndex before before' note).Refines same whole (typeIndex after after' note) := by
  obtain ⟨harray, hposition, hok, hint⟩ := typeIndex_ok hfaults
  have ha := ha harray
  have hp := hp hposition
  rw [typeIndex_eq hok hint,
    typeIndex_eq (fun t ht => hok t (ha.type t ht)) fun t ht => hint t (hp.type t ht)]
  refine .mk' ?_ ?_ (fun t ht => ?_) fun hsame hfinal => ?_
  · simp only [Findings.faults_append, ha.faults, hp.faults, List.append_nil]
  · simp only [Findings.returns_append, ha.returns, hp.returns, List.append_nil, and_self]
  · obtain ⟨s, hs, ht⟩ := Option.bind_eq_some_iff.mp ht
    rw [ha.type s hs]
    exact ht
  · obtain ⟨hfinal, -⟩ := Findings.final_append.mp hfinal
    obtain ⟨hfinal, hfinal'⟩ := Findings.final_append.mp hfinal
    rw [ha.eq hsame hfinal, hp.eq hsame hfinal']
    exact ⟨rfl, rfl, rfl⟩

/-! ### Calls -/

/-- Arguments that are the same up to knowledge, one by one. -/
abbrev AllRefine (same whole : Prop) : List Typed → List Typed → Prop :=
  List.Forall₂ fun before after => after.found.faults = [] → before.Refines same whole after

/-- What is found in arguments. -/
abbrev inArguments (args : List Typed) : Findings :=
  args.foldr (fun arg found => arg.found ++ found) {}

/-- The findings in arguments refine with the arguments. -/
theorem inArguments_refines {befores afters : List Typed}
    (h : AllRefine same whole befores afters) (hfaults : (inArguments afters).faults = []) :
    (inArguments befores).faults = [] ∧
      ((inArguments befores).returns = [] ∧ (inArguments afters).returns = []) ∧
      (same → (inArguments befores).Final whole → befores = afters) := by
  induction h with
  | nil => exact ⟨rfl, ⟨rfl, rfl⟩, fun _ _ => rfl⟩
  | cons hone _ ih =>
    obtain ⟨hfirst, hrest⟩ := List.append_eq_nil_iff.mp hfaults
    have hone := hone hfirst
    obtain ⟨hclean, hreturns, heq⟩ := ih hrest
    refine ⟨?_, ?_, fun hsame hfinal => ?_⟩
    · exact List.append_eq_nil_iff.mpr ⟨hone.faults, hclean⟩
    · exact ⟨List.append_eq_nil_iff.mpr ⟨hone.returns.1, hreturns.1⟩,
        List.append_eq_nil_iff.mpr ⟨hone.returns.2, hreturns.2⟩⟩
    · obtain ⟨hfinal, hfinal'⟩ := Findings.final_append.mp hfinal
      rw [hone.eq hsame hfinal, heq hsame hfinal']

/-- Arguments that are no fault leave nothing to be told. -/
theorem argumentFaults_eq {cls method : String} {number : Nat} {params : List (Option Ty)}
    {args : List Typed} (h : (argumentFaults cls method number params args).faults = []) :
    argumentFaults cls method number params args = {} := by
  fun_induction argumentFaults cls method number params args with
  | case1 number params arg args rest found hfound ih => exact ih h
  | case2 => simp at h
  | case3 number expected params arg args rest hnone ih => exact ih h
  | case4 number params head args ih => exact ih h
  | case5 => rfl

/-- Arguments that meet the parameters with more knowledge meet them with less. -/
theorem argumentFaults_refines {befores afters : List Typed}
    (h : AllRefine same whole befores afters) (hclean : (inArguments afters).faults = [])
    (cls method : String) (number : Nat) (params : List (Option Ty))
    (hfaults : (argumentFaults cls method number params afters).faults = []) :
    (argumentFaults cls method number params befores).faults = [] := by
  induction h generalizing number params with
  | nil => exact hfaults
  | @cons before after befores afters hone _ ih =>
    obtain ⟨hfirst, hrest⟩ := List.append_eq_nil_iff.mp hclean
    have hone := hone hfirst
    rcases params with _ | ⟨_ | expected, params⟩
    · rw [argumentFaults]
      · rintro _ _ _ _ ⟨⟩
      · rintro _ _ _ ⟨⟩
    · exact ih hrest (number + 1) params hfaults
    · rw [argumentFaults] at hfaults ⊢
      simp only at hfaults ⊢
      -- an argument without a type is compared with nothing
      rcases hone.type_cases with hnone | hsame
      · rw [hnone]
        split at hfaults
        · split at hfaults
          · exact ih hrest (number + 1) params hfaults
          · simp at hfaults
        · exact ih hrest (number + 1) params hfaults
      · rw [hsame]
        split at hfaults
        · split at hfaults
          · rename_i heq
            rw [if_pos heq]
            exact ih hrest (number + 1) params hfaults
          · simp at hfaults
        · exact ih hrest (number + 1) params hfaults

/-- A call without a fault meets its method, and tells no more than whether its type is found. -/
theorem callFindings_ok {cls : String} {entry : MethodEntry} {args : List Typed} {span : Span}
    (h : (callFindings cls entry args span).faults = []) :
    entry.params.length = args.length ∧
      (argumentFaults cls entry.name 1 entry.params args).faults = [] := by
  unfold callFindings at h
  by_cases hlength : entry.params.length = args.length
  · simp only [if_pos hlength, Findings.faults_append, List.append_nil] at h
    exact ⟨hlength, h⟩
  · rw [if_neg hlength] at h
    cases h

theorem callFindings_eq {cls : String} {entry : MethodEntry} {args : List Typed} {span : Span}
    (hlength : entry.params.length = args.length)
    (h : (argumentFaults cls entry.name 1 entry.params args).faults = []) :
    callFindings cls entry args span = { pending := entry.ret = .pending } := by
  unfold callFindings
  rw [if_pos hlength, argumentFaults_eq h]
  rfl

/-- A call refines with its arguments: its target is the same, with no less known of it. -/
theorem Site.call_refines {before after : Site} (h : before.Refines after)
    {befores afters : List Typed}
    (hargs : AllRefine same (before.KnowsAll after) befores afters) (receiver : Option Ident)
    (method : Ident) (resolved : Option String) (note : Note)
    (hfaults : (after.call receiver method afters resolved note).found.faults = []) :
    (before.call receiver method befores resolved note).Refines same (before.KnowsAll after)
      (after.call receiver method afters resolved note) := by
  unfold Site.call at hfaults ⊢
  simp only at hfaults ⊢
  split at hfaults
  · simp [Typed.mk'] at hfaults
  · rename_i cls entry htarget
    split at hfaults
    · simp [Typed.mk'] at hfaults
    · rename_i m hm
      obtain ⟨found, old, hbefore, hold, ⟨ret, rfl, hret⟩, heq⟩ := h.target htarget hm
      obtain ⟨hclean, hcall⟩ := List.append_eq_nil_iff.mp hfaults
      obtain ⟨hlength, hmatch⟩ := callFindings_ok hcall
      obtain ⟨hbefores, hreturns, hsameArgs⟩ := inArguments_refines hargs hclean
      have hmatch' := argumentFaults_refines hargs hclean cls old.name 1 old.params hmatch
      have hlength' : old.params.length = befores.length := by
        rw [List.Forall₂.length_eq hargs]
        exact hlength
      simp only [hbefore, hold]
      rw [callFindings_eq hlength hmatch, callFindings_eq hlength' hmatch']
      refine .mk' ?_ ?_ (fun t ht => hret.known ht) fun hsame hfinal => ?_
      · rw [Findings.faults_append, hbefores]
        rfl
      · simp only [Findings.returns_append, hreturns, List.append_nil, and_self]
      · obtain ⟨hfinal, hpending⟩ := Findings.final_append.mp hfinal
        -- a return type that is not still to be found stays as it is
        have hsameRet : ret = old.ret := by
          rcases hpending with hall | hknown
          · exact (congrArg MethodEntry.ret (heq hall)).symm
          · exact hret.eq_of_ne (of_decide_eq_false hknown)
        rw [hsameArgs hsame hfinal, hsameRet]
        exact ⟨rfl, rfl, rfl⟩

end Expressions

section

variable {before after : Site} {locals locals' : Locals}

mutual

/-- An expression that has no fault with more knowledge has none with less, and its type is the same
as far as it is known. -/
theorem Site.infer_refines (h : before.Refines after) (hl : locals.Refines locals') :
    ∀ e, (after.infer locals' e).found.faults = [] →
      (before.infer locals e).Refines (locals = locals') (before.KnowsAll after)
        (after.infer locals' e)
  | .int _ _, _ => .mk' rfl ⟨rfl, rfl⟩ (fun _ ht => ht) fun _ _ => ⟨rfl, rfl, rfl⟩
  | .bool _ _, _ => .mk' rfl ⟨rfl, rfl⟩ (fun _ ht => ht) fun _ _ => ⟨rfl, rfl, rfl⟩
  | .string _ _, _ => .mk' rfl ⟨rfl, rfl⟩ (fun _ ht => ht) fun _ _ => ⟨rfl, rfl, rfl⟩
  | .var name note, hfaults => typeVar_refines hl name note hfaults
  | .call receiver method args resolved note, hfaults =>
    Site.call_refines h (Site.inferValues_refines h hl args) receiver method resolved note hfaults
  | .index array position note, hfaults =>
    typeIndex_refines (Typed.Refines.asValue (Site.infer_refines h hl array))
      (Typed.Refines.asValue (Site.infer_refines h hl position)) note hfaults
  | .length value note, hfaults =>
    typeLength_refines (Typed.Refines.asValue (Site.infer_refines h hl value)) note hfaults
  | .unary op operand note, hfaults =>
    typeUnary_refines (Typed.Refines.asValue (Site.infer_refines h hl operand)) op note hfaults
  | .binary op left right note, hfaults =>
    typeBinary_refines (Typed.Refines.asValue (Site.infer_refines h hl left))
      (Typed.Refines.asValue (Site.infer_refines h hl right)) op note hfaults

theorem Site.inferValues_refines (h : before.Refines after) (hl : locals.Refines locals') :
    ∀ es, AllRefine (locals = locals') (before.KnowsAll after) (before.inferValues locals es)
      (after.inferValues locals' es)
  | [] => .nil
  | e :: es =>
    .cons (Typed.Refines.asValue (Site.infer_refines h hl e)) (Site.inferValues_refines h hl es)

end

theorem Site.value_refines (h : before.Refines after) (hl : locals.Refines locals') (e : Expr)
    (hfaults : (after.value locals' e).found.faults = []) :
    (before.value locals e).Refines (locals = locals') (before.KnowsAll after)
      (after.value locals' e) :=
  Typed.Refines.asValue (Site.infer_refines h hl e) hfaults

/-- A condition without a fault is a value whose type is `boolean`, as far as it is known. -/
theorem Site.condition_ok {site : Site} {e : Expr}
    (h : (site.condition locals e).found.faults = []) :
    site.condition locals e = site.value locals e ∧
      ∀ t, (site.value locals e).type = some t → t = .boolean := by
  unfold Site.condition at h ⊢
  simp only at h ⊢
  split at h
  · rename_i hnone
    exact ⟨rfl, fun t ht => nomatch hnone.symm.trans ht⟩
  · rename_i hbool
    exact ⟨rfl, fun t ht => (Option.some.inj (hbool.symm.trans ht)).symm⟩
  · simp at h

theorem Site.condition_eq {site : Site} {e : Expr}
    (h : ∀ t, (site.value locals e).type = some t → t = .boolean) :
    site.condition locals e = site.value locals e := by
  unfold Site.condition
  simp only
  split
  · rfl
  · rfl
  · rename_i t hbool ht
    exact (hbool (h t ht)).elim

/-- A condition refines with its expression. -/
theorem Site.condition_refines (h : before.Refines after) (hl : locals.Refines locals') (e : Expr)
    (hfaults : (after.condition locals' e).found.faults = []) :
    (before.condition locals e).Refines (locals = locals') (before.KnowsAll after)
      (after.condition locals' e) := by
  obtain ⟨heq, hbool⟩ := Site.condition_ok hfaults
  rw [heq] at hfaults ⊢
  have hvalue := Site.value_refines h hl e hfaults
  rwa [Site.condition_eq fun t ht => hbool t (hvalue.type t ht)]

end

end StackScript.Typing

import StackScript.Proofs.RefiningBodies
import StackScript.Proofs.Rounds

/-!
# Settling in any order

Methods that are settled in one order may be settled in another one. When every method is typed
without a fault in the end, each return type that was settled on the way is the one that its body
settles on with all that is known in the end (`eq_of_settled?`). So settling the methods in another
order never finds anything else (`settle_refines`), and as it goes on until nothing is left to be
found, it finds all of it (`refines_settle_of_final`).
-/

namespace StackScript.Typing

open StackScript.Source StackScript.Syntax

/-! ## Refining by settling -/

theorem Registry.Refines.settleMethod {registry : Registry}
    (h : (registry.headers.map Header.name).Nodup) (externals : Externals) (place : MethodPlace) :
    registry.Refines (settleMethod externals registry place) := by
  refine ⟨⟨?_, h⟩, settles_settleMethod externals registry place⟩
  obtain ⟨file, cls, m⟩ := place
  rcases settleMethod_cases externals registry file cls m with hsame | ⟨entry, t, -, -, -, hset⟩
  · rw [hsame]
  · rw [hset, Registry.headers_setReturn]

theorem Registry.Refines.nodup {before after : Registry} (h : before.Refines after) :
    (after.headers.map Header.name).Nodup := h.classes.symm.nodup

theorem Registry.Refines.settle {registry : Registry}
    (h : (registry.headers.map Header.name).Nodup) (externals : Externals)
    (places : List MethodPlace) : registry.Refines (settle externals places registry) := by
  apply settle_induction (Registry.Refines registry)
  · intro after place _ hafter
    exact hafter.trans (.settleMethod hafter.nodup externals place)
  · exact ⟨⟨.refl _, h⟩, .refl registry⟩

/-- Recording a return type that is known anyway keeps to what is known. -/
theorem Registry.Refines.setReturn {registry final : Registry} (h : registry.Refines final)
    {cls name : String} {entry last : MethodEntry}
    (hentry : registry.method? cls name = some entry) (hpending : entry.ret = .pending)
    {t : Ty} (hlast : final.method? cls name = some last) (ht : last.ret = .inferred t) :
    (registry.setReturn cls name (.inferred t)).Refines final where
  classes := by
    refine ⟨?_, ?_⟩
    · rw [Registry.headers_setReturn]
      exact h.classes.headers
    · rw [Registry.headers_setReturn]
      exact h.classes.nodup
  settles := by
    have hset := settles_setReturn t hentry hpending
    refine ⟨fun other => (h.settles.has other).trans (hset.has other).symm, ?_, ?_⟩
    · intro cls' name' found hfound
      rw [Registry.method?_setReturn] at hfound
      obtain ⟨old, hold, rfl⟩ := Option.map_eq_some_iff.mp hfound
      obtain ⟨ret, hafter, hret⟩ := h.settles.keeps hold
      by_cases heq : cls' = cls ∧ name' = name
      · -- the method that was settled has that type in the end, too
        obtain ⟨rfl, rfl⟩ := heq
        rw [if_pos ⟨rfl, rfl⟩]
        cases hafter.symm.trans hlast
        exact ⟨ret, hafter, .inl ht⟩
      · rw [if_neg heq]
        exact ⟨ret, hafter, hret⟩
    · intro cls' name' hnone
      rw [Registry.method?_setReturn, Option.map_eq_none_iff] at hnone
      exact h.settles.adds hnone

/-- Two registries that refine each other have the same methods. -/
theorem Registry.Refines.method?_eq {before after : Registry} (h : before.Refines after)
    (hback : after.Refines before) (cls name : String) :
    before.method? cls name = after.method? cls name := by
  cases hbefore : before.method? cls name with
  | none => rw [h.settles.adds hbefore]
  | some entry =>
    obtain ⟨ret, hafter, hret⟩ := h.settles.keeps hbefore
    obtain ⟨last, hlast, hback⟩ := hback.settles.keeps hafter
    rw [hbefore] at hlast
    have hsame : entry.ret = last := congrArg MethodEntry.ret (Option.some.inj hlast)
    rw [hafter]
    rcases hret with rfl | ⟨hpending, t, rfl⟩
    · rfl
    · -- what was found is not lost again
      rcases hback with heq | ⟨hfound, -⟩
      · rw [hpending, heq] at hsame
        cases hsame
      · cases hfound

theorem siteOf_refines {before after : Registry} (h : before.Refines after)
    (externals : Externals) (file cls : String) (m : Method) {expected expected' : Option Ty}
    (hexpected : expected = none ∨ expected = expected') :
    (siteOf externals before file cls m expected).Refines
      (siteOf externals after file cls m expected') :=
  ⟨h, rfl, rfl, rfl, rfl, hexpected⟩

/-! ## Batches typed without a fault -/

/-- Every method is on record under its own name in its class, and no other method is. -/
structure Placed (places : List MethodPlace) (declared : Registry) : Prop where
  method : ∀ {file cls m}, (file, cls, m) ∈ places →
    declared.method? cls m.name.name = some (methodEntry file m)
  unique : ∀ {file file' cls m m'}, (file, cls, m) ∈ places → (file', cls, m') ∈ places →
    m.name.name = m'.name.name → file = file' ∧ m = m'

/-- Every method is typed without a fault against the registry. -/
def Clean (externals : Externals) (places : List MethodPlace) (final : Registry) : Prop :=
  ∀ ⦃file cls m⦄, (file, cls, m) ∈ places → ∃ entry ret,
    final.method? cls m.name.name = some entry ∧ entry.origin = some (file, m.span) ∧
      entry.ret.known? = some ret ∧
      ((siteOf externals final file cls m (some ret)).body m entry.params).2.faults = []

/-- The type that the body of a method settles on against a registry. -/
def settledType? (externals : Externals) (registry : Registry) (place : MethodPlace)
    (params : List (Option Ty)) : Option Ty :=
  ((siteOf externals registry place.1 place.2.1 place.2.2 none).body place.2.2 params).2.settled?

/-- Every return type that was found is one that a body settled on with no more knowledge. -/
def Justified (externals : Externals) (places : List MethodPlace) (registry : Registry) : Prop :=
  ∀ ⦃file cls m entry t⦄, (file, cls, m) ∈ places →
    registry.method? cls m.name.name = some entry → entry.ret = .inferred t →
      ∃ earlier : Registry, earlier.Refines registry ∧
        settledType? externals earlier (file, cls, m) entry.params = some t

section

variable {externals : Externals} {places : List MethodPlace} {declared : Registry}

theorem justified_declared (h : Placed places declared) :
    Justified externals places declared := by
  intro file cls m entry t hm hentry ht
  rw [h.method hm] at hentry
  cases hentry
  -- annotations are declared types, or none at all
  simp only [methodEntry] at ht
  split at ht
  · cases ht
  · split at ht <;> cases ht

theorem justified_settleMethod (h : Placed places declared) {registry : Registry}
    (hnodup : (registry.headers.map Header.name).Nodup) {place : MethodPlace}
    (hplace : place ∈ places) (hjust : Justified externals places registry) :
    Justified externals places (settleMethod externals registry place) := by
  have hrefines := Registry.Refines.settleMethod hnodup externals place
  obtain ⟨file, cls, m⟩ := place
  intro file' cls' m' found s hm' hfound hs
  rcases settleMethod_cases externals registry file cls m with
    hsame | ⟨entry, t, hentry, hpending, ht, hset⟩
  · rw [hsame] at hfound ⊢
    exact hjust hm' hfound hs
  · have hfound' := hfound
    rw [hset, Registry.method?_setReturn] at hfound'
    obtain ⟨old, hold, rfl⟩ := Option.map_eq_some_iff.mp hfound'
    by_cases heq : cls' = cls ∧ m'.name.name = m.name.name
    · -- the method that was just settled is settled with what is known now
      obtain ⟨rfl, hname⟩ := heq
      obtain ⟨rfl, rfl⟩ := h.unique hm' hplace hname
      cases hold.symm.trans hentry
      rw [if_pos ⟨rfl, rfl⟩] at hs ⊢
      cases hs
      exact ⟨registry, hrefines, ht⟩
    · rw [if_neg heq] at hs ⊢
      obtain ⟨earlier, hearlier, hsettled⟩ := hjust hm' hold hs
      exact ⟨earlier, hearlier.trans hrefines, hsettled⟩

/-- All that rounds find is justified. -/
theorem justified_settle (externals : Externals) (h : Placed places declared)
    (hnodup : (declared.headers.map Header.name).Nodup) :
    Justified externals places (settle externals places declared) := by
  have key : declared.Refines (settle externals places declared) ∧
      Justified externals places (settle externals places declared) := by
    apply settle_induction fun registry =>
      declared.Refines registry ∧ Justified externals places registry
    · rintro registry place hplace ⟨hrefines, hjust⟩
      exact ⟨hrefines.trans (.settleMethod hrefines.nodup externals place),
        justified_settleMethod h hrefines.nodup hplace hjust⟩
    · exact ⟨⟨⟨.refl _, hnodup⟩, .refl declared⟩, justified_declared h⟩
  exact key.2

/-! ## Confluence -/

variable {final : Registry}

/-- Whatever a body settles on on the way to the final registry is what is on record there. -/
theorem eq_of_settled? (hjust : Justified externals places final)
    (hclean : Clean externals places final) {registry : Registry} (h : registry.Refines final)
    {file cls : String} {m : Method} (hm : (file, cls, m) ∈ places) {entry : MethodEntry}
    (hentry : registry.method? cls m.name.name = some entry) (hpending : entry.ret = .pending)
    {t : Ty} (ht : settledType? externals registry (file, cls, m) entry.params = some t) :
    final.method? cls m.name.name = some { entry with ret := .inferred t } := by
  obtain ⟨last, ret, hlast, -, hret, hbody⟩ := hclean hm
  obtain ⟨found, hfound, hsettles⟩ := h.settles.keeps hentry
  cases hfound.symm.trans hlast
  -- a return type that is known in the end, and was not before, was inferred
  rcases hsettles with hsame | ⟨-, s, rfl⟩
  · rw [show found = .pending from hsame.trans hpending] at hret
    cases hret
  · obtain ⟨earlier, hearlier, hs⟩ := hjust hm hlast rfl
    have hfirst := Site.settled?_of_refines
      (siteOf_refines hearlier externals file cls m (.inl rfl)) rfl hbody rfl hs
    have hthis := Site.settled?_of_refines (siteOf_refines h externals file cls m (.inl rfl))
      rfl hbody rfl ht
    rw [hlast, hthis, hfirst]

/-- Settling the methods in any order keeps to what is known in the end. -/
theorem settle_refines (hjust : Justified externals places final)
    (hclean : Clean externals places final) {others : List MethodPlace}
    (hothers : ∀ place ∈ others, place ∈ places) {registry : Registry}
    (h : registry.Refines final) : (settle externals others registry).Refines final := by
  apply settle_induction (Registry.Refines · final)
  · rintro registry ⟨file, cls, m⟩ hplace h
    rcases settleMethod_cases externals registry file cls m with
      hsame | ⟨entry, t, hentry, hpending, ht, hset⟩
    · rwa [hsame]
    · rw [hset]
      have hlast := eq_of_settled? hjust hclean h (hothers _ hplace) hentry hpending ht
      exact h.setReturn hentry hpending hlast rfl
  · exact h

/-- A method that can be settled is settled after all rounds. -/
theorem ne_pending_of_settled? {others : List MethodPlace} {registry : Registry}
    {file cls : String} {m : Method} (hm : (file, cls, m) ∈ others) {entry : MethodEntry}
    (hentry : (settle externals others registry).method? cls m.name.name = some entry)
    (horigin : entry.origin = some (file, m.span))
    (hsome : (settledType? externals (settle externals others registry) (file, cls, m)
      entry.params).isSome) : entry.ret ≠ .pending := by
  intro hpending
  have hstays := settleMethod_settle externals hm registry
  obtain ⟨t, ht⟩ := Option.isSome_iff_exists.mp hsome
  have hat := Registry.methodAt?_eq_some.mpr ⟨hentry, horigin⟩
  have hset : settleMethod externals (settle externals others registry) (file, cls, m) =
      (settle externals others registry).setReturn cls m.name.name (.inferred t) := by
    unfold settledType? at ht
    simp only [settleMethod, hat, hpending, if_true, ht]
  -- so settling it once more would change it
  rw [hset] at hstays
  have hnow := Registry.method?_setReturn (settle externals others registry) cls m.name.name
    (.inferred t) cls m.name.name
  rw [hstays, hentry, Option.map_some, if_pos ⟨rfl, rfl⟩] at hnow
  rw [Option.some.inj hnow] at hpending
  cases hpending

/-- A method that one order settles is settled by every other order, too, once that one knows at
least as much. -/
theorem settled_in_other_order (hjust : Justified externals places final)
    (hclean : Clean externals places final) {others : List MethodPlace} {registry : Registry}
    (hbelow : (settle externals others registry).Refines final) {before : Registry}
    (hbefore : before.Refines (settle externals others registry)) {file cls : String} {m : Method}
    (hm : (file, cls, m) ∈ places) (hm' : (file, cls, m) ∈ others) {entry : MethodEntry}
    (hentry : before.method? cls m.name.name = some entry) (hpending : entry.ret = .pending)
    {t : Ty} (ht : settledType? externals before (file, cls, m) entry.params = some t) :
    (settle externals others registry).method? cls m.name.name =
      some { entry with ret := .inferred t } := by
  obtain ⟨last, ret, hlast, horigin, -, hbody⟩ := hclean hm
  have hfinal := eq_of_settled? hjust hclean (hbefore.trans hbelow) hm hentry hpending ht
  cases hlast.symm.trans hfinal
  obtain ⟨found, hfound, hsettles⟩ := hbefore.settles.keeps hentry
  -- the body settles on a type with all that the other order finds, so that order finds it
  have hother : (siteOf externals (settle externals others registry) file cls m none).Refines
      (siteOf externals final file cls m (some ret)) :=
    siteOf_refines hbelow externals file cls m (.inl rfl)
  have hsome := Site.isSome_settled?_of_refines
    (siteOf_refines hbefore externals file cls m (.inl rfl)) rfl
    (Site.faults_of_refines hother rfl hbody) rfl (Option.isSome_iff_exists.mpr ⟨t, ht⟩)
  have hne := ne_pending_of_settled? hm' hfound horigin hsome
  rcases hsettles with hsame | ⟨-, s, rfl⟩
  · exact absurd (hsame.trans hpending) hne
  · -- and it is the type on record in the end
    obtain ⟨kept, hkept, hsettles⟩ := hbelow.settles.keeps hfound
    have hsame := congrArg MethodEntry.ret (Option.some.inj (hkept.symm.trans hfinal))
    rcases hsettles with heq | ⟨⟨⟩, -⟩
    have hst : s = t := ReturnState.inferred.inj (heq.symm.trans hsame)
    rw [hfound, hst]

/-- Settling the methods in any order finds what is known in the end, and nothing else. -/
theorem refines_settle_of_final (h : Placed places declared)
    (hclean : Clean externals places (settle externals places declared))
    {others : List MethodPlace} (hothers : ∀ place, place ∈ others ↔ place ∈ places)
    {registry : Registry} (hto : declared.Refines registry) (hback : registry.Refines declared) :
    (settle externals places declared).Refines (settle externals others registry) ∧
      (settle externals others registry).Refines (settle externals places declared) := by
  have hnodup := hto.classes.nodup
  have hjust := justified_settle externals h hnodup
  have hbelow := settle_refines hjust hclean (fun place => (hothers place).mp)
    (hback.trans (.settle hnodup externals places))
  refine ⟨?_, hbelow⟩
  apply settle_induction (Registry.Refines · (settle externals others registry))
  · rintro before ⟨file, cls, m⟩ hplace hbefore
    rcases settleMethod_cases externals before file cls m with
      hsame | ⟨entry, t, hentry, hpending, ht, hset⟩
    · rwa [hsame]
    · rw [hset]
      have hfound := settled_in_other_order hjust hclean hbelow hbefore hplace
        ((hothers _).mpr hplace) hentry hpending ht
      exact hbefore.setReturn hentry hpending hfound rfl
  · exact hto.trans (.settle hback.classes.nodup externals others)

end

end StackScript.Typing

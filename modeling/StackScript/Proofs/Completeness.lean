import Mathlib.Order.WellFoundedSet
import StackScript.Proofs.Batches
import StackScript.Proofs.FirstDefinitions
import StackScript.Proofs.PendingCalls
import StackScript.Proofs.Reordering

/-!
# Complete inference

The loop that infers return types stops by itself, after at most one round more than there are
methods to infer. When it stops, a method without a return type waits for a call to another such
method. So if undeclared methods do not call each other in a cycle, the loop finds all return types,
in whatever order the batch defines its methods and whatever else is wrong with them
(`infer_complete`).
-/

namespace StackScript.Typing

open StackScript.Session StackScript.Source StackScript.Syntax

/-! ## Undeclared methods that call each other -/

/-- The undeclared methods that an undeclared method calls. A method is given by its class and its
name, and its body is that of the definition that is registered. -/
def pendingCalls (externals : Externals) (batch : List Program) (x : String × String) :
    List (String × String) :=
  match firstDefinition? (batchMethods batch) x.1 x.2 with
  | none => []
  | some (file, cls, m) =>
    if m.ret.isNone then
      (blockParts m.body).filterMap
        (siteOf externals (declareAll batch).1 file cls m none).pendingTarget?
    else []

/-- The first method has no declared return type and contains a call to the second one, which has
none either. -/
def DependsOn (externals : Externals) (batch : List Program) (x y : String × String) : Prop :=
  y ∈ pendingCalls externals batch x

/-- The methods that a batch defines, by class and name. -/
def definedMethods (batch : List Program) : List (String × String) :=
  (batchMethods batch).map fun place => (place.2.1, place.2.2.name.name)

section

variable {externals : Externals} {batch : List Program}

/-- Only methods of the batch depend on others. -/
theorem DependsOn.mem_definedMethods {x y : String × String} (h : DependsOn externals batch x y) :
    x ∈ definedMethods batch := by
  unfold DependsOn pendingCalls at h
  split at h
  · cases h
  · rename_i file cls m hfirst
    obtain ⟨hplace, hcls, hname⟩ := firstDefinition?_eq_some hfirst
    exact List.mem_map.mpr ⟨(file, cls, m), hplace, Prod.ext hcls hname⟩

/-- Methods that only depend on methods of lower rank do not depend on themselves. -/
theorem DependsOn.acyclic_of_rank {rank : String × String → Nat}
    (h : ∀ x ∈ definedMethods batch, ∀ y ∈ pendingCalls externals batch x, rank y < rank x)
    (x : String × String) : ¬ Relation.TransGen (DependsOn externals batch) x x := by
  have hstep : ∀ x y, DependsOn externals batch x y → rank y < rank x :=
    fun x y hxy => h x hxy.mem_definedMethods y hxy
  have hpath : ∀ y, Relation.TransGen (DependsOn externals batch) x y → rank y < rank x := by
    intro y hxy
    induction hxy with
    | single hone => exact hstep _ _ hone
    | tail _ hone ih => exact (hstep _ _ hone).trans ih
  exact fun hcycle => Nat.lt_irrefl _ (hpath x hcycle)

/-! ## What is left when the loop stops -/

theorem declared_refines_infer (externals : Externals) (batch : List Program) :
    (declareAll batch).1.Refines (infer externals batch).registry :=
  .settle (nodup_headers_declareAll batch) externals (batchMethods batch)

theorem ret_eq_none_of_pending {file : String} {m : Method}
    (h : (methodEntry file m).ret = .pending) : m.ret = none := by
  simp only [methodEntry] at h
  split at h
  · assumption
  · split at h <;> cases h

/-- The method has no return type after all rounds. -/
def LeftPending (externals : Externals) (batch : List Program) (x : String × String) : Prop :=
  ∃ entry, (infer externals batch).registry.method? x.1 x.2 = some entry ∧ entry.ret = .pending

/-- What is left pending was registered without a return type. -/
theorem LeftPending.firstDefinition {x : String × String} (h : LeftPending externals batch x) :
    ∃ file m, firstDefinition? (batchMethods batch) x.1 x.2 = some (file, x.1, m) ∧
      x.2 = m.name.name ∧ m.ret = none ∧
      (infer externals batch).registry.method? x.1 x.2 = some (methodEntry file m) := by
  obtain ⟨entry, hentry, hret⟩ := h
  obtain ⟨old, hold, ret, rfl, hsettles⟩ :=
    (declared_refines_infer externals batch).settles.of_method? hentry
  have hpending : old.ret = .pending := hsettles.pending_of_pending hret
  have hsame : ret = old.ret := hret.trans hpending.symm
  rw [method?_declareAll_first] at hold
  obtain ⟨⟨file, cls, m⟩, hfirst, rfl⟩ := Option.map_eq_some_iff.mp hold
  obtain ⟨-, hcls, hname⟩ := firstDefinition?_eq_some hfirst
  obtain rfl : cls = x.1 := hcls
  refine ⟨file, m, hfirst, hname.symm, ret_eq_none_of_pending hpending, ?_⟩
  rw [hentry, hsame]

/-- **A method that is left pending waits for another one.** -/
theorem LeftPending.exists_dependsOn {x : String × String} (h : LeftPending externals batch x) :
    ∃ y, DependsOn externals batch x y ∧ LeftPending externals batch y := by
  obtain ⟨file, m, hfirst, hname, hret, hentry⟩ := h.firstDefinition
  have hpending : (methodEntry file m).ret = .pending := by
    obtain ⟨entry, hentry', hpending⟩ := h
    cases hentry.symm.trans hentry'
    exact hpending
  -- the body settles on nothing, or else one more round would have settled the method
  have hbody : ((siteOf externals (infer externals batch).registry file x.1 m none).body m
      (methodEntry file m).params).2.settled? = none := by
    rw [← Option.not_isSome_iff_eq_none]
    intro hsome
    rw [hname] at hentry
    have hplace := (firstDefinition?_eq_some hfirst).1
    exact ne_pending_of_settled? hplace hentry rfl hsome hpending
  obtain ⟨part, hpart, y, hy⟩ := Site.exists_pendingTarget hbody
  refine ⟨y, ?_, Site.method?_of_pendingTarget hy⟩
  -- what the call waits for in the end, it waits for from the start
  have hsites : (siteOf externals (declareAll batch).1 file x.1 m none).Refines
      (siteOf externals (infer externals batch).registry file x.1 m none) :=
    siteOf_refines (declared_refines_infer externals batch) externals file x.1 m (.inl rfl)
  unfold DependsOn pendingCalls
  simp only [hfirst, hret, Option.isNone_none, if_true]
  exact List.mem_filterMap.mpr ⟨part, hpart, hsites.pendingTarget hy⟩

/-- Among finitely many things, one leads to no other one if none leads back to itself. -/
theorem exists_not_rel_of_acyclic {α : Type} {r : α → α → Prop}
    (hacyclic : ∀ x, ¬ Relation.TransGen r x x) {s : Set α} (hs : s.Finite) (hne : s.Nonempty) :
    ∃ x ∈ s, ∀ y ∈ s, ¬ r x y := by
  have horder : IsStrictOrder α fun y x => Relation.TransGen r x y :=
    { irrefl := hacyclic, trans := fun _ _ _ hxy hyz => hyz.trans hxy }
  have hwf : s.WellFoundedOn fun y x => Relation.TransGen r x y := hs.wellFoundedOn
  obtain ⟨first, hfirst⟩ := hne
  obtain ⟨x, -, hmin⟩ := hwf.has_min Set.univ ⟨⟨first, hfirst⟩, trivial⟩
  exact ⟨x, x.2, fun y hy hxy => hmin ⟨y, hy⟩ trivial (.single hxy)⟩

/-- Without a cycle of dependencies, no method is left pending. -/
theorem not_leftPending (hacyclic : ∀ x, ¬ Relation.TransGen (DependsOn externals batch) x x)
    (x : String × String) : ¬ LeftPending externals batch x := by
  intro hx
  have hfinite : {x | LeftPending externals batch x}.Finite := by
    apply Set.Finite.subset (definedMethods batch).finite_toSet
    intro y hy
    obtain ⟨z, hyz, -⟩ := hy.exists_dependsOn
    exact hyz.mem_definedMethods
  obtain ⟨y, hy, hlast⟩ := exists_not_rel_of_acyclic hacyclic hfinite ⟨x, hx⟩
  obtain ⟨z, hyz, hz⟩ := LeftPending.exists_dependsOn hy
  exact hlast z hz hyz

/-! ## Diagnostics -/

theorem not_isIncomplete_of_declare {made : Declared}
    (h : ∀ d ∈ made.2, ¬ d.fault.IsIncomplete) (next : String × Declaration) :
    ∀ d ∈ (declare made next).2, ¬ d.fault.IsIncomplete := by
  obtain ⟨file, next⟩ := next
  cases next with
  | cls name package enclosing => exact h
  | method owner m =>
    have hannotations : ∀ d ∈ made.2 ++ annotationFaults file
        (m.params.map (·.type) ++ m.ret.toList), ¬ d.fault.IsIncomplete := by
      rw [List.forall_mem_append]
      refine ⟨h, fun d hd => ?_⟩
      obtain ⟨ref, -, rfl⟩ := List.mem_map.mp hd
      exact id
    simp only [declare]
    split
    · exact hannotations
    · rename_i fault herror
      rw [List.forall_mem_append]
      refine ⟨hannotations, List.forall_mem_singleton.mpr ?_⟩
      rcases Registry.declareMethod_eq_error herror with ⟨-, rfl⟩ | ⟨-, rfl⟩
      · exact id
      · exact id

/-- What is wrong with declarations is not about return types that could not be found. -/
theorem not_isIncomplete_of_declareAll (batch : List Program) :
    ∀ d ∈ (declareAll batch).2, ¬ d.fault.IsIncomplete := by
  have hnone : ∀ d ∈ (({}, []) : Declared).2, ¬ d.fault.IsIncomplete := fun _ hd => nomatch hd
  exact List.foldlRecOn (motive := fun made => ∀ d ∈ made.2, ¬ d.fault.IsIncomplete)
    (batchDeclarations batch) declare hnone
    fun made h next _ => not_isIncomplete_of_declare h next

/-- Only methods that are left pending are told to be incomplete. -/
theorem exists_leftPending_of_isIncomplete {d : TypeDiagnostic}
    (hd : d ∈ (infer externals batch).diagnostics) (hincomplete : d.fault.IsIncomplete) :
    ∃ x, LeftPending externals batch x := by
  rw [diagnostics_infer, List.mem_append] at hd
  rcases hd with hd | hd
  · exact absurd hincomplete (not_isIncomplete_of_declareAll batch d hd)
  · obtain ⟨⟨file, declaration⟩, -, hd⟩ := List.mem_flatMap.mp hd
    cases declaration with
    | cls name package enclosing => cases hd
    | method owner m =>
      simp only [Declaration.diagnostics, annotateMethod] at hd
      split at hd
      · cases hd
      · rename_i entry hentry
        by_cases hret : entry.ret = .pending
        · exact ⟨(owner, m.name.name), entry, (Registry.methodAt?_eq_some.mp hentry).1, hret⟩
        · -- then all that is told was found in the body
          rw [if_neg hret] at hd
          obtain ⟨found, hfound, rfl⟩ := List.mem_map.mp hd
          exact absurd hincomplete ((Site.body_of _ m entry.params).faults found hfound)

end

/-! ## Completeness -/

/-- **Inference terminates, and is complete without cycles.** The loop stops after at most one round
more than there are methods registered without a declared return type. If no such method depends on
itself through calls, then every one of them ends with an inferred return type, and none is told to
be incomplete; the order of units, classes and methods does not matter, nor do other faults. -/
theorem infer_complete (externals : Externals) (batch : List Program) :
    let declared := (declareAll batch).1
    let inference := infer externals batch
    (∃ rounds ≤ declared.pendingCount + 1,
      StopsAfter externals (batchMethods batch) rounds declared inference.registry) ∧
    ((∀ x, ¬ Relation.TransGen (DependsOn externals batch) x x) →
      (∀ cls name entry, declared.method? cls name = some entry → entry.ret = .pending →
        ∃ t, inference.registry.method? cls name = some { entry with ret := .inferred t }) ∧
      ∀ d ∈ inference.diagnostics, ∀ cls name, d.fault ≠ .incompleteInference cls name) := by
  intro declared inference
  constructor
  · exact stopsAfter_settle externals (batchMethods batch) declared
  · intro hacyclic
    constructor
    · intro cls name entry hentry hret
      obtain ⟨ret, hafter, hsettles⟩ :=
    (declared_refines_infer externals batch).settles.keeps hentry
      rcases hsettles with rfl | ⟨-, t, rfl⟩
      · exact absurd ⟨entry, hafter, hret⟩ (not_leftPending hacyclic (cls, name))
      · exact ⟨t, hafter⟩
    · intro d hd cls name hfault
      have hincomplete : d.fault.IsIncomplete := by
        rw [hfault]
        trivial
      obtain ⟨x, hx⟩ := exists_leftPending_of_isIncomplete hd hincomplete
      exact not_leftPending hacyclic x hx

/-- Two units in which methods are called before they are defined. One of the bodies has a fault of
another kind. -/
def chainedUnits : List Program :=
  [("front", "class Front\n  def self.shown\n    missing\n    Back.text() + \"!\"\n  end\nend\n"),
    ("back", "class Back\n  def self.text\n    base()\n  end\n" ++
      "  def self.base\n    \"hi\"\n  end\nend\n")].filterMap fun unit =>
      (readUnit false unit.1 unit.2).toOption

/-- How far a method of the chain is from the one that calls no other. -/
def chainRank (x : String × String) : Nat :=
  if x.2 = "shown" then 2 else if x.2 = "text" then 1 else 0

theorem infer_complete_chainedUnits :
    let declared := (declareAll chainedUnits).1
    let inference := infer .nothing chainedUnits
    (∀ x, ¬ Relation.TransGen (DependsOn .nothing chainedUnits) x x) ∧
    inference.diagnostics.map (·.fault) = [.unknownLocal "missing"] ∧
    (∃ rounds ≤ 4,
      StopsAfter .nothing (batchMethods chainedUnits) rounds declared inference.registry) ∧
    ∃ entry t, declared.method? "Front" "shown" = some entry ∧ entry.ret = .pending ∧
      inference.registry.method? "Front" "shown" = some { entry with ret := .inferred t } := by
  intro declared inference
  obtain ⟨hranks, hcount, hfaults, hshown⟩ :
      (∀ x ∈ definedMethods chainedUnits, ∀ y ∈ pendingCalls .nothing chainedUnits x,
        chainRank y < chainRank x) ∧
      declared.pendingCount = 3 ∧
      inference.diagnostics.map (·.fault) = [.unknownLocal "missing"] ∧
      (declared.method? "Front" "shown").map (·.ret) = some .pending := by
    decide +kernel
  have hacyclic := DependsOn.acyclic_of_rank hranks
  obtain ⟨hstops, hcomplete⟩ := infer_complete .nothing chainedUnits
  rw [hcount] at hstops
  obtain ⟨entry, hentry, hret⟩ := Option.map_eq_some_iff.mp hshown
  obtain ⟨t, ht⟩ := (hcomplete hacyclic).1 "Front" "shown" entry hentry hret
  exact ⟨hacyclic, hfaults, hstops, entry, t, hentry, hret, ht⟩

end StackScript.Typing

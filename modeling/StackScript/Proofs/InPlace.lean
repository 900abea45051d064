import StackScript.Proofs.Annotations
import StackScript.Proofs.Visiting

/-!
# Inference that writes as it goes

Typing a body writes into it, in every round and not only in the last pass. `inferInPlace` carries
the batch through the rounds and lets each of them write where it stands, so that a later round
meets types and targets that an earlier one left with less knowledge. Nothing of them is left in the
end, and nothing is decided by them (`inferInPlace_eq`).
-/

namespace StackScript.Typing

open StackScript.Source StackScript.Syntax

/-! ## Annotating after a visit -/

section

variable {σ : Type} (visit : String → String → Method → σ → Method × σ)

section

variable {externals : Externals} {registry : Registry} {Keeps : σ → Prop}

mutual

theorem annotateClass_visit (h : ∀ file cls m state, Keeps state →
      annotateMethod externals registry file cls (visit file cls m state).1 =
          annotateMethod externals registry file cls m ∧ Keeps (visit file cls m state).2)
    (file : String) (package : Option String) :
    ∀ (enclosing : Option String) (c : ClassDef) (state : σ), Keeps state →
      annotateClass externals registry file package enclosing
          (visitClass visit file package enclosing c state).1 =
        annotateClass externals registry file package enclosing c ∧
      Keeps (visitClass visit file package enclosing c state).2
  | _, .mk name members synthetic span, state, hstate => by
    obtain ⟨hmembers, hkeeps⟩ := annotateMembers_visit h file package _ members state hstate
    rw [visitClass]
    refine ⟨?_, hkeeps⟩
    simp only [annotateClass, hmembers]

theorem annotateMembers_visit (h : ∀ file cls m state, Keeps state →
      annotateMethod externals registry file cls (visit file cls m state).1 =
          annotateMethod externals registry file cls m ∧ Keeps (visit file cls m state).2)
    (file : String) (package : Option String) :
    ∀ (cls : String) (members : List Member) (state : σ), Keeps state →
      annotateMembers externals registry file package cls
          (visitMembers visit file package cls members state).1 =
        annotateMembers externals registry file package cls members ∧
      Keeps (visitMembers visit file package cls members state).2
  | _, [], _, hstate => ⟨rfl, hstate⟩
  | cls, .method m :: rest, state, hstate => by
    obtain ⟨hm, hnext⟩ := h file cls m state hstate
    obtain ⟨hrest, hlast⟩ := annotateMembers_visit h file package cls rest _ hnext
    rw [visitMembers]
    refine ⟨?_, hlast⟩
    simp only [annotateMembers, hm, hrest]
  | cls, .nested c :: rest, state, hstate => by
    obtain ⟨hc, hnext⟩ := annotateClass_visit h file package (some cls) c state hstate
    obtain ⟨hrest, hlast⟩ := annotateMembers_visit h file package cls rest _ hnext
    rw [visitMembers]
    refine ⟨?_, hlast⟩
    simp only [annotateMembers, hc, hrest]

end

/-- Where annotating shows nothing of the visit of a method, it shows nothing of that of a batch. -/
theorem annotateBatch_visit (h : ∀ file cls m state, Keeps state →
      annotateMethod externals registry file cls (visit file cls m state).1 =
          annotateMethod externals registry file cls m ∧ Keeps (visit file cls m state).2)
    (batch : List Program) {state : σ} (hstate : Keeps state) :
    (visitBatch visit batch state).1.map (annotateUnit externals registry) =
        batch.map (annotateUnit externals registry) ∧
      Keeps (visitBatch visit batch state).2 := by
  refine visitList_map (fun program state hstate => ?_) batch hstate
  have hitem : ∀ item state, Keeps state →
      annotateItem externals registry program.source program.packageName
          (visitItem visit program.source program.packageName item state).1 =
        annotateItem externals registry program.source program.packageName item ∧
      Keeps (visitItem visit program.source program.packageName item state).2 := by
    intro item state hstate
    cases item with
    | cls c =>
      obtain ⟨hc, hkeeps⟩ := annotateClass_visit visit h program.source program.packageName none c
        state hstate
      exact ⟨by simp only [visitItem, annotateItem, hc], hkeeps⟩
    | _ => exact ⟨rfl, hstate⟩
  obtain ⟨hitems, hkeeps⟩ := visitList_map hitem program.items hstate
  refine ⟨?_, hkeeps⟩
  simp only [visitUnit, annotateUnit, Program.packageName] at hitems ⊢
  rw [hitems]

end

end

/-! ## Rounds -/

section

variable (externals : Externals)

/-- Tries to settle the return type of a method that has none yet, and leaves in its body whatever
was found on the way. -/
def settleInPlace (file cls : String) (m : Method) (registry : Registry) : Method × Registry :=
  match registry.methodAt? cls m.name.name file m.span with
  | none => (m, registry)
  | some entry =>
    if entry.ret = .pending then
      let (body, found) := (siteOf externals registry file cls m none).body m entry.params
      match found.settled? with
      | some type => ({ m with body }, registry.setReturn cls m.name.name (.inferred type))
      | none => ({ m with body }, registry)
    else (m, registry)

/-- Rounds over a batch that is written into, until one settles nothing or `rounds` are done. -/
def roundsInPlace : Nat → List Program × Registry → List Program × Registry
  | 0, state => state
  | rounds + 1, (batch, registry) =>
    let after := visitBatch (settleInPlace externals) batch registry
    if after.2.pendingCount = registry.pendingCount then after else roundsInPlace rounds after

/-- Types a batch; every round goes on with what the one before it has written. -/
def inferInPlace (batch : List Program) : Inference :=
  let (declared, faults) := declareAll batch
  let (written, registry) := roundsInPlace externals (declared.pendingCount + 1) (batch, declared)
  let done := written.map (annotateUnit externals registry)
  ⟨registry, done.map (·.1), faults ++ done.flatMap (·.2)⟩

theorem settleInPlace_snd (file cls : String) (m : Method) (registry : Registry) :
    (settleInPlace externals file cls m registry).2 =
      settleMethod externals registry (file, cls, m) := by
  simp only [settleInPlace, settleMethod]
  cases registry.methodAt? cls m.name.name file m.span with
  | none => rfl
  | some entry =>
    by_cases hpending : entry.ret = .pending
    · simp only [hpending, if_true]
      cases ((siteOf externals registry file cls m none).body m entry.params).2.settled? <;> rfl
    · simp only [hpending, if_false]

/-- What a round leaves in a body does not show once the method is annotated, whatever is known by
then. -/
theorem annotateMethod_settleInPlace {declared registry final : Registry}
    (hregistry : declared.Refines registry) (hfinal : declared.Refines final) (file cls : String)
    (m : Method) :
    annotateMethod externals final file cls (settleInPlace externals file cls m registry).1 =
      annotateMethod externals final file cls m := by
  unfold settleInPlace
  cases hentry : registry.methodAt? cls m.name.name file m.span with
  | none => rfl
  | some entry =>
    have hwritten : annotateMethod externals final file cls { m with
        body := ((siteOf externals registry file cls m none).body m entry.params).1 } =
          annotateMethod externals final file cls m := by
      refine annotateMethod_written externals final file cls (fun known receiver method => ?_) ?_
        entry.params m.retType
      · -- both registries have the targets of the declared one
        exact (hregistry.sameCallees externals file cls m m none none receiver method).symm.trans
          (hfinal.sameCallees externals file cls m m none known receiver method)
      · rw [← hfinal.isSome_methodAt?, hregistry.isSome_methodAt?, hentry]
        rfl
    simp only
    split
    · split <;> exact hwritten
    · rfl

/-- What one round settles is what a round over the same bare batch settles, and what it writes does
not show once the batch is annotated. -/
theorem roundsInPlace_eq {declared : Registry}
    (hnodup : (declared.headers.map Header.name).Nodup) {batch : List Program} :
    ∀ (rounds : Nat) {written : List Program} {registry : Registry}, declared.Refines registry →
      (∀ final, declared.Refines final → written.map (annotateUnit externals final) =
        batch.map (annotateUnit externals final)) →
      (roundsInPlace externals rounds (written, registry)).2 =
          settleRounds externals (batchMethods batch) rounds registry ∧
        ∀ final, declared.Refines final →
          (roundsInPlace externals rounds (written, registry)).1.map
              (annotateUnit externals final) =
            batch.map (annotateUnit externals final) := by
  intro rounds
  induction rounds with
  | zero => exact fun _ hwritten => ⟨rfl, hwritten⟩
  | succ rounds ih =>
    intro written registry hregistry hwritten
    -- annotating writes no more than types and targets, so the two batches have one bare form
    have hbare : written.map (Program.relabel bare) = batch.map (Program.relabel bare) := by
      have hsame := congrArg (List.map fun done => done.1.relabel bare)
        (hwritten declared ⟨⟨.refl _, hnodup⟩, .refl declared⟩)
      simpa only [List.map_map, Function.comp_def, bare_annotateUnit] using hsame
    have hround : (visitBatch (settleInPlace externals) written registry).2 =
        settleRound externals (batchMethods batch) registry := by
      rw [visitBatch_snd, ← settleRound_bare, ← hbare, settleRound_bare, settleRound]
      congr 1
      funext registry place
      exact settleInPlace_snd externals place.1 place.2.1 place.2.2 registry
    have hvisit : ∀ final, declared.Refines final →
        (visitBatch (settleInPlace externals) written registry).1.map
              (annotateUnit externals final) = written.map (annotateUnit externals final) ∧
          declared.Refines (visitBatch (settleInPlace externals) written registry).2 := by
      intro final hfinal
      refine annotateBatch_visit _ (fun file cls m registry hregistry => ⟨?_, ?_⟩) written hregistry
      · exact annotateMethod_settleInPlace externals hregistry hfinal file cls m
      · rw [settleInPlace_snd]
        exact hregistry.trans (.settleMethod hregistry.nodup externals _)
    have hwritten' : ∀ final, declared.Refines final →
        (visitBatch (settleInPlace externals) written registry).1.map
            (annotateUnit externals final) = batch.map (annotateUnit externals final) :=
      fun final hfinal => (hvisit final hfinal).1.trans (hwritten final hfinal)
    have hnext := (hvisit registry hregistry).2
    simp only [roundsInPlace, settleRounds]
    rw [hround] at hnext ⊢
    split
    · exact ⟨hround, hwritten'⟩
    · have hlast := ih hnext hwritten'
      rw [← hround] at hlast ⊢
      exact hlast

/-- **Nothing of what the rounds write is left or decides anything.** -/
theorem inferInPlace_eq (batch : List Program) :
    inferInPlace externals batch = infer externals batch := by
  have hnodup := nodup_headers_declareAll batch
  obtain ⟨hregistry, hwritten⟩ := roundsInPlace_eq externals hnodup
    ((declareAll batch).1.pendingCount + 1) ⟨⟨.refl _, hnodup⟩, .refl _⟩ fun _ _ => rfl
  have hfinal : (declareAll batch).1.Refines
      (settle externals (batchMethods batch) (declareAll batch).1) := .settle hnodup externals _
  have hdone := hwritten _ hfinal
  simp only [inferInPlace, infer]
  rw [hregistry, ← settle, hdone]

end

end StackScript.Typing

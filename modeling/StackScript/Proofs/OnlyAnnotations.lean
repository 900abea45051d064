import StackScript.Proofs.Annotations
import StackScript.Proofs.Keeping
import StackScript.Proofs.Visiting
import StackScript.Syntax.Edit

/-!
# Inference writes only annotations and reads none

Inference goes through a batch in rounds and once more at the end, writes into the methods on the
way, and keeps the classes from outside that it finds. Each step of it writes nothing but types and
targets, and reads none; so the batch and its bare form go in step through all rounds
(`registry_roundsKeeping`) and come to the same diagnostics and the same registry. A method on
record that is at no fault is overwritten by the last pass (`overwritten_annotateKeeping`), whatever
the rounds have left in it. Only code outside the classes is left as it is (`infer_only_annotates`,
`markedScript_stays_marked`).
-/

namespace StackScript.Typing

open StackScript.Source StackScript.Syntax

/-! ## Methods stay on record -/

/-- The methods on record before are on record after, with what is known by then of their return
types. -/
def Registry.Retains (before after : Registry) : Prop :=
  ∀ ⦃cls method entry⦄, before.method? cls method = some entry →
    ∃ ret, after.method? cls method = some { entry with ret }

namespace Registry.Retains

variable {before after last : Registry}

theorem refl (registry : Registry) : registry.Retains registry := fun _ _ entry h => ⟨entry.ret, h⟩

theorem trans (h : before.Retains after) (hlast : after.Retains last) : before.Retains last := by
  intro cls method entry hentry
  obtain ⟨ret, hafter⟩ := h hentry
  obtain ⟨ret', hend⟩ := hlast hafter
  exact ⟨ret', hend⟩

theorem enroll (registry : Registry) (entry : ClassEntry) :
    registry.Retains (registry.enroll entry) := by
  intro cls method found hfound
  obtain ⟨owner, howner, hmethod⟩ := Option.bind_eq_some_iff.mp hfound
  refine ⟨found.ret, ?_⟩
  rw [Registry.method?, class?_enroll, howner]
  exact hmethod

theorem resolve (registry : Registry) (externals : Externals) (name inside : String) :
    registry.Retains (registry.resolve externals name inside).1 := by
  unfold Registry.resolve
  split
  · exact refl _
  · exact refl _
  · exact enroll _ _

theorem setReturn (registry : Registry) (cls method : String) (ret : ReturnState) :
    registry.Retains (registry.setReturn cls method ret) := by
  intro name other entry hentry
  rw [method?_setReturn, hentry, Option.map_some]
  split
  · exact ⟨ret, rfl⟩
  · exact ⟨entry.ret, rfl⟩

/-- A method that is on record at a place stays on record there. -/
theorem isSome_methodAt? (h : before.Retains after) {cls method file : String} {span : Span}
    (hat : (before.methodAt? cls method file span).isSome = true) :
    (after.methodAt? cls method file span).isSome = true := by
  obtain ⟨entry, hentry⟩ := Option.isSome_iff_exists.mp hat
  obtain ⟨hmethod, horigin⟩ := methodAt?_eq_some.mp hentry
  obtain ⟨ret, hafter⟩ := h hmethod
  exact Option.isSome_iff_exists.mpr ⟨_, methodAt?_eq_some.mpr ⟨hafter, horigin⟩⟩

end Registry.Retains

theorem Site.retains_seek (site : Site) (receiver : Option Ident) (method : Ident) :
    site.registry.Retains (site.seek receiver method).2.registry := by
  unfold Site.seek
  split
  · exact .resolve _ _ _ _
  · split <;> exact .refl _

/-- Typing a body leaves the methods on record. -/
theorem Site.retains_bodyKeeping (site : Site) (m : Method) (types : List (Option Ty)) :
    site.registry.Retains (site.bodyKeeping m types).2.registry :=
  Site.bodyKeeping_keeps (P := fun after => site.registry.Retains after.registry)
    (fun after receiver method h => h.trans (after.retains_seek receiver method)) m types
    (.refl site.registry)

/-! ## Steps -/

/-- Nothing was found to be wrong. -/
def Cleared (made : Declared) : Prop := made.2 = []

section

variable (externals : Externals) (file cls : String)

theorem bare_settleKeeping (m : Method) (registry : Registry) :
    (settleKeeping externals file cls m registry).1.relabel bare = m.relabel bare := by
  unfold settleKeeping
  split
  · rfl
  · split
    · dsimp only
      split <;> simp only [Method.relabel, Site.bare_bodyKeeping]
    · rfl

/-- What is settled for a method is settled for its bare form. -/
theorem settleKeeping_bare (m : Method) (registry : Registry) :
    (settleKeeping externals file cls (m.relabel bare) registry).2 =
      (settleKeeping externals file cls m registry).2 := by
  have hname : (m.relabel bare).name = m.name := rfl
  have hspan : (m.relabel bare).span = m.span := rfl
  unfold settleKeeping
  rw [hname, hspan]
  split
  · rfl
  · rename_i entry _
    split
    · have h := (siteOf externals registry file cls m none).bodyKeeping_bare m entry.params
      simp only [siteOf, hname] at h ⊢
      rw [h.found, h.site]
      cases Findings.settled? _ <;> rfl
    · rfl

theorem bare_annotateKeeping (m : Method) (made : Declared) :
    (annotateKeeping externals file cls m made).1.relabel bare = m.relabel bare := by
  unfold annotateKeeping
  split
  · rfl
  · simp only [Method.relabel, Site.bare_bodyKeeping]
    rfl

/-- The same is found in a method as in its bare form; and where nothing is, the same is written
into it. -/
theorem annotateKeeping_bare (m : Method) (made : Declared) :
    (annotateKeeping externals file cls (m.relabel bare) made).2 =
        (annotateKeeping externals file cls m made).2 ∧
      ((made.1.methodAt? cls m.name.name file m.span).isSome = true →
        (annotateKeeping externals file cls m made).2.2 = [] →
        annotateKeeping externals file cls (m.relabel bare) made =
          annotateKeeping externals file cls m made) := by
  have hname : (m.relabel bare).name = m.name := rfl
  have hspan : (m.relabel bare).span = m.span := rfl
  unfold annotateKeeping
  rw [hname, hspan]
  cases hentry : made.1.methodAt? cls m.name.name file m.span with
  | none => exact ⟨rfl, fun h => nomatch h⟩
  | some entry =>
    have h := (siteOf externals made.1 file cls m entry.ret.known?).bodyKeeping_bare m entry.params
    simp only [siteOf, hname] at h ⊢
    rw [← h.found, ← h.site]
    refine ⟨rfl, fun _ hclean => ?_⟩
    simp only [List.append_eq_nil_iff, List.map_eq_nil_iff] at hclean
    rw [← h.made (h.found ▸ hclean.2.2)]
    simp only [Method.params_bare, Method.ret_bare]
    rfl

/-- Annotating only adds to what was found before. -/
theorem cleared_of_annotateKeeping (m : Method) (made : Declared)
    (h : Cleared (annotateKeeping externals file cls m made).2) : Cleared made := by
  unfold annotateKeeping Cleared at h
  split at h
  · exact h
  · exact (List.append_eq_nil_iff.mp h).1

/-- Annotating leaves the methods on record. -/
theorem retains_annotateKeeping (m : Method) (made : Declared) :
    made.1.Retains (annotateKeeping externals file cls m made).2.1 := by
  unfold annotateKeeping
  split
  · exact .refl _
  · rename_i entry _
    exact (siteOf externals made.1 file cls m entry.ret.known?).retains_bodyKeeping m entry.params

/-- Settling leaves the methods on record. -/
theorem retains_settleKeeping (m : Method) (registry : Registry) :
    registry.Retains (settleKeeping externals file cls m registry).2 := by
  unfold settleKeeping
  split
  · exact .refl _
  · rename_i entry _
    have hbody := (siteOf externals registry file cls m none).retains_bodyKeeping m entry.params
    split
    · dsimp only
      split
      · exact hbody.trans (.setReturn _ _ _ _)
      · exact hbody
    · exact .refl _

/-- The last pass overwrites what a method on record carries, if it comes to no diagnostics. -/
theorem overwritten_annotateKeeping {registry : Registry} {m : Method}
    (h : (registry.methodAt? cls m.name.name file m.span).isSome = true) :
    Overwritten (annotateKeeping externals) (fun made => registry.Retains made.1) Cleared file
      (.method cls m) := by
  intro made hretains
  refine ⟨hretains.trans (retains_annotateKeeping externals file cls m made), fun hclean => ?_⟩
  exact (annotateKeeping_bare externals file cls m made).2 (hretains.isSome_methodAt? h) hclean

end

/-! ## Rounds -/

theorem retains_visitBatch {visit : String → String → Method → Registry → Method × Registry}
    (h : ∀ file cls m (registry : Registry), registry.Retains (visit file cls m registry).2)
    (batch : List Program) (registry : Registry) :
    registry.Retains (visitBatch visit batch registry).2 := by
  rw [visitBatch_snd]
  induction batchMethods batch generalizing registry with
  | nil => exact .refl registry
  | cons place rest ih => exact (h place.1 place.2.1 place.2.2 registry).trans (ih _)

section

variable (externals : Externals)

theorem retains_roundsKeeping (rounds : Nat) (written : List Program) (registry : Registry) :
    registry.Retains (roundsKeeping externals rounds (written, registry)).2 := by
  induction rounds generalizing written registry with
  | zero => exact .refl registry
  | succ rounds ih =>
    have hround := retains_visitBatch (retains_settleKeeping externals) written registry
    rw [roundsKeeping]
    split
    · exact hround
    · exact hround.trans (ih _ _)

/-- What no round shows of a batch does not show after all of them. -/
theorem map_roundsKeeping {β : Type} {shown : Program → β}
    (h : ∀ batch registry, (visitBatch (settleKeeping externals) batch registry).1.map shown =
      batch.map shown) (rounds : Nat) (written : List Program) (registry : Registry) :
    (roundsKeeping externals rounds (written, registry)).1.map shown = written.map shown := by
  induction rounds generalizing written registry with
  | zero => rfl
  | succ rounds ih =>
    rw [roundsKeeping]
    split
    · exact h written registry
    · exact (ih _ _).trans (h written registry)

/-- The rounds write nothing but types and targets. -/
theorem bare_roundsKeeping (rounds : Nat) (written : List Program) (registry : Registry) :
    (roundsKeeping externals rounds (written, registry)).1.map (Program.relabel bare) =
      written.map (Program.relabel bare) :=
  map_roundsKeeping externals (bare_visitBatch _ (bare_settleKeeping externals)) rounds written
    registry

/-- Batches with one bare form come to the same registry, however many rounds are done. -/
theorem registry_roundsKeeping (rounds : Nat) {written other : List Program}
    (h : written.map (Program.relabel bare) = other.map (Program.relabel bare))
    (registry : Registry) :
    (roundsKeeping externals rounds (written, registry)).2 =
      (roundsKeeping externals rounds (other, registry)).2 := by
  induction rounds generalizing written other registry with
  | zero => rfl
  | succ rounds ih =>
    have hround : (visitBatch (settleKeeping externals) written registry).2 =
        (visitBatch (settleKeeping externals) other registry).2 := by
      rw [← visitBatch_bare_snd _ (settleKeeping_bare externals) written, h,
        visitBatch_bare_snd _ (settleKeeping_bare externals) other]
    have hbare : (visitBatch (settleKeeping externals) written registry).1.map
          (Program.relabel bare) =
        (visitBatch (settleKeeping externals) other registry).1.map (Program.relabel bare) := by
      rw [bare_visitBatch _ (bare_settleKeeping externals),
        bare_visitBatch _ (bare_settleKeeping externals), h]
    rw [roundsKeeping, roundsKeeping]
    generalize visitBatch (settleKeeping externals) written registry = done at hround hbare
    generalize visitBatch (settleKeeping externals) other registry = beside at hround hbare
    obtain ⟨doneBatch, after⟩ := done
    obtain ⟨besideBatch, _⟩ := beside
    obtain rfl : after = _ := hround
    dsimp only
    split
    · rfl
    · exact ih hbare after

/-! ## The whole of it -/

/-- The batch and the registry after the rounds. -/
def afterRounds (batch : List Program) : List Program × Registry :=
  roundsKeeping externals ((declareAll batch).1.pendingCount + 1) (batch, (declareAll batch).1)

/-- The batch, the registry and the diagnostics after the last pass. -/
def afterAll (batch : List Program) : List Program × Declared :=
  visitBatch (annotateKeeping externals) (afterRounds externals batch).1
    ((afterRounds externals batch).2, (declareAll batch).2)

theorem inferKeeping_eq (batch : List Program) :
    inferKeeping externals batch = ⟨(afterAll externals batch).2.1, (afterAll externals batch).1,
      (afterAll externals batch).2.2⟩ := rfl

theorem bare_afterRounds (batch : List Program) :
    (afterRounds externals batch).1.map (Program.relabel bare) =
      batch.map (Program.relabel bare) :=
  bare_roundsKeeping externals _ batch _

theorem bare_afterAll (batch : List Program) :
    (afterAll externals batch).1.map (Program.relabel bare) = batch.map (Program.relabel bare) :=
  (bare_visitBatch _ (bare_annotateKeeping externals) _ _).trans (bare_afterRounds externals batch)

/-- The rounds and the last pass leave alone what is around the classes. -/
theorem frame_afterAll (batch : List Program) :
    (afterAll externals batch).1.map Program.frame = batch.map Program.frame :=
  (frame_visitBatch _ _ _).trans (map_roundsKeeping externals (frame_visitBatch _) _ batch _)

section

variable {batch other : List Program}
  (h : batch.map (Program.relabel bare) = other.map (Program.relabel bare))

include h

/-- Batches with one bare form declare the same. -/
theorem declareAll_eq_of_bare : declareAll batch = declareAll other := by
  rw [← declareAll_bare batch, h, declareAll_bare]

/-- Batches with one bare form come to the same registry in the rounds. -/
theorem registry_afterRounds :
    (afterRounds externals batch).2 = (afterRounds externals other).2 := by
  rw [afterRounds, afterRounds, declareAll_eq_of_bare h]
  exact registry_roundsKeeping externals _ h _

/-- The last pass starts from the same state for both, and may as well start from bare methods. -/
theorem afterAll_snd : (afterAll externals batch).2 = (afterAll externals other).2 := by
  have hvisit := fun batch state => visitBatch_bare_snd _
    (fun file cls m made => (annotateKeeping_bare externals file cls m made).1) batch state
  rw [afterAll, afterAll, registry_afterRounds externals h, declareAll_eq_of_bare h, ← hvisit,
    bare_afterRounds, h, ← bare_afterRounds externals other, hvisit]

end

/-- Without diagnostics, the last pass leaves in the classes what it would leave there if the rounds
had written nothing. -/
theorem classes_afterAll {batch : List Program} (hclean : Cleared (afterAll externals batch).2) :
    (afterAll externals batch).1.map Program.classes =
      (visitBatch (annotateKeeping externals) (batch.map (Program.relabel bare))
        ((afterRounds externals batch).2, (declareAll batch).2)).1.map Program.classes := by
  have hbare := bare_afterRounds externals batch
  have hdeclared := declareAll_eq_of_bare hbare
  have hfaults : Cleared (declareAll (afterRounds externals batch).1) := by
    rw [afterAll, visitBatch_snd] at hclean
    rw [hdeclared]
    have hstart : Cleared ((afterRounds externals batch).2, (declareAll batch).2) :=
      fine_of_places _ (cleared_of_annotateKeeping externals) _ hclean
    exact hstart
  have hwritten : ∀ d ∈ batchDeclarations (afterRounds externals batch).1,
      Overwritten (annotateKeeping externals) (fun made => (declareAll batch).1.Retains made.1)
        Cleared d.1 d.2 := by
    rintro ⟨file, d⟩ hd
    cases d with
    | cls name package enclosing => trivial
    | method cls m =>
      -- a method of a batch that is declared without a fault is on record
      have hmethod := (placed_declareAll hfaults).method (mem_batchMethods.mpr hd)
      rw [hdeclared] at hmethod
      have hat : (declareAll batch).1.methodAt? cls m.name.name file m.span =
          some (methodEntry file m) := Registry.methodAt?_eq_some.mpr ⟨hmethod, rfl⟩
      exact overwritten_annotateKeeping externals file cls (by rw [hat]; rfl)
  have hsame := classes_visitBatch_bare (annotateKeeping externals)
    (cleared_of_annotateKeeping externals) hwritten (retains_roundsKeeping externals _ batch _)
    hclean
  rw [hbare] at hsame
  exact hsame.symm

/-- Batches with one bare form come to the same classes, if nothing is wrong with them. -/
theorem classes_afterAll_congr {batch other : List Program}
    (h : batch.map (Program.relabel bare) = other.map (Program.relabel bare))
    (hclean : Cleared (afterAll externals batch).2) :
    (afterAll externals batch).1.map Program.classes =
      (afterAll externals other).1.map Program.classes := by
  have hother : Cleared (afterAll externals other).2 := afterAll_snd externals h ▸ hclean
  rw [classes_afterAll externals hclean, classes_afterAll externals hother, h,
    registry_afterRounds externals h, declareAll_eq_of_bare h]

/-! ### What inference comes to -/

/-- Inference writes nothing but types and targets. -/
theorem bare_inferKeeping (batch : List Program) :
    (inferKeeping externals batch).batch.map (Program.relabel bare) =
      batch.map (Program.relabel bare) := by
  rw [inferKeeping_eq, bare_afterAll]

theorem frame_inferKeeping (batch : List Program) :
    (inferKeeping externals batch).batch.map Program.frame = batch.map Program.frame := by
  rw [inferKeeping_eq, frame_afterAll]

section

variable {batch other : List Program}
  (h : batch.map (Program.relabel bare) = other.map (Program.relabel bare))

include h

/-- Batches with one bare form come to the same registry. -/
theorem registry_inferKeeping :
    (inferKeeping externals batch).registry = (inferKeeping externals other).registry := by
  simp only [inferKeeping_eq, afterAll_snd externals h]

/-- The same is wrong with batches that have one bare form. -/
theorem diagnostics_inferKeeping :
    (inferKeeping externals batch).diagnostics = (inferKeeping externals other).diagnostics := by
  simp only [inferKeeping_eq, afterAll_snd externals h]

theorem classes_inferKeeping (hclean : (inferKeeping externals batch).diagnostics = []) :
    (inferKeeping externals batch).batch.map Program.classes =
      (inferKeeping externals other).batch.map Program.classes := by
  simp only [inferKeeping_eq] at hclean ⊢
  exact classes_afterAll_congr externals h hclean

end

/-- What is inferred for a batch that has nothing but classes has nothing but classes. -/
theorem isGathered_inferKeeping {batch : List Program}
    (h : ∀ program ∈ batch, Code.IsGathered program) :
    ∀ program ∈ (inferKeeping externals batch).batch, Code.IsGathered program := by
  intro program hprogram
  have hmem := List.mem_map_of_mem (f := Program.frame) hprogram
  rw [frame_inferKeeping] at hmem
  obtain ⟨other, hother, hsame⟩ := List.mem_map.mp hmem
  exact Program.isGathered_of_frame hsame.symm (h other hother)

end

/-- **Inference writes only annotations and reads none.** Whatever types, call targets and return
types a batch carries: inference leaves the batch as it is but for these, and code outside the
classes with these; it finds the same wrong with it, and comes to the same registry as it does for
the bare batch, with the same classes from outside. When nothing is wrong, what it has written is
the same, too; only code outside the classes keeps what it carries. Inferring the result again
changes nothing. -/
theorem infer_only_annotates (externals : Externals) (batch : List Program) :
    let typed := inferKeeping externals batch
    let plain := inferKeeping externals (batch.map (Program.relabel bare))
    typed.batch.map (Program.relabel bare) = batch.map (Program.relabel bare) ∧
      typed.batch.map Program.frame = batch.map Program.frame ∧
      typed.diagnostics = plain.diagnostics ∧ typed.registry = plain.registry ∧
      (typed.diagnostics = [] → plain.batch = typed.batch.map Program.bareLoose ∧
        ((∀ program ∈ batch, Code.IsGathered program) → typed = plain) ∧
        inferKeeping externals typed.batch = typed) := by
  intro typed plain
  have hplain : batch.map (Program.relabel bare) =
      (batch.map (Program.relabel bare)).map (Program.relabel bare) := by
    simp only [List.map_map, Function.comp_def, Program.bare_bare]
  have hbare : typed.batch.map (Program.relabel bare) = batch.map (Program.relabel bare) :=
    bare_inferKeeping externals batch
  have hframe : typed.batch.map Program.frame = batch.map Program.frame :=
    frame_inferKeeping externals batch
  have hregistry : typed.registry = plain.registry := registry_inferKeeping externals hplain
  have hdiagnostics : typed.diagnostics = plain.diagnostics :=
    diagnostics_inferKeeping externals hplain
  refine ⟨hbare, hframe, hdiagnostics, hregistry, fun hclean => ?_⟩
  have hbatch : plain.batch = typed.batch.map Program.bareLoose := by
    refine eq_of_frames ?_ ?_
    · -- around the classes, both are what the batch is there without types and targets
      have hplainFrame : plain.batch.map Program.frame = _ := frame_inferKeeping externals _
      have hbareFrame := congrArg (List.map bareFrame) hframe
      simp only [List.map_map, Function.comp_def, ← Program.frame_bareLoose] at hbareFrame
      rw [hplainFrame]
      simp only [List.map_map, Function.comp_def, Program.frame_bare]
      exact hbareFrame.symm
    · rw [List.map_map]
      simp only [Function.comp_def, Program.classes_bareLoose]
      exact (classes_inferKeeping externals hplain hclean).symm
  refine ⟨hbatch, fun hgathered => ?_, ?_⟩
  · have hloose : typed.batch.map Program.bareLoose = typed.batch :=
      (List.map_congr_left fun program hprogram => Program.bareLoose_of_isGathered
        (isGathered_inferKeeping externals hgathered program hprogram)).trans (List.map_id _)
    exact Inference.eq_of hregistry (hbatch.trans hloose).symm hdiagnostics
  · -- the batch with its annotations has the same bare form, and the same around its classes
    refine Inference.eq_of (registry_inferKeeping externals hbare) (eq_of_frames ?_ ?_)
      (diagnostics_inferKeeping externals hbare)
    · exact frame_inferKeeping externals typed.batch
    · exact (classes_inferKeeping externals hbare.symm hclean).symm

/-- Units in which a call has a type and a target, and a method a return type, that nothing bears
out. -/
def markedUnits : List Program :=
  editBatch [(0, .retType (some .boolean)), (0, .type (some .string)),
    (0, .target (some "Nowhere"))] forwardUnits

theorem infer_only_annotates_markedUnits :
    (batchMethods markedUnits).map (fun place => place.2.2.retType) = [some .boolean, none] ∧
      (inferKeeping .nothing markedUnits).diagnostics = [] ∧
      (batchMethods (inferKeeping .nothing markedUnits).batch).map
        (fun place => place.2.2.retType) = [some .int, some .int] ∧
      inferKeeping .nothing markedUnits =
        inferKeeping .nothing (markedUnits.map (Program.relabel bare)) := by
  obtain ⟨-, -, -, -, hclean⟩ := infer_only_annotates .nothing markedUnits
  have hdiagnostics : (inferKeeping .nothing markedUnits).diagnostics = [] := by decide +kernel
  have hgathered : ∀ program ∈ markedUnits, Code.IsGathered program := by
    have hclasses : (markedUnits.all fun program =>
        program.items.all fun item => item.class?.isSome) = true := by decide +kernel
    intro program hprogram item hitem
    have hitem := List.all_eq_true.mp (List.all_eq_true.mp hclasses program hprogram) item hitem
    cases item with
    | cls c => exact ⟨c, rfl⟩
    | _ => cases hitem
  exact ⟨by decide +kernel, hdiagnostics, by decide +kernel, (hclean hdiagnostics).2.1 hgathered⟩

/-- A unit that is left as it was read, with a statement outside of classes, and a type on what that
prints. -/
def markedScript : List Program :=
  editBatch [(0, .type (some .int))] ((readProgram "script" "puts 1\n").toOption.toList)

/-- The type that is written into the statement stays there: nothing is wrong with the unit, but it
is not what inference makes of the bare unit. -/
theorem markedScript_stays_marked :
    ¬ ∀ (externals : Externals) (batch : List Program),
      (inferKeeping externals batch).diagnostics = [] →
        (inferKeeping externals batch).batch =
          (inferKeeping externals (batch.map (Program.relabel bare))).batch := by
  intro h
  have hsame := h .nothing markedScript (by decide +kernel)
  have hdumps := congrArg (List.map Program.sexpr) hsame
  revert hdumps
  decide +kernel

end StackScript.Typing

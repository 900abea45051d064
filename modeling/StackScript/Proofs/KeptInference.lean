import StackScript.Proofs.InPlace
import StackScript.Proofs.KeptClasses
import StackScript.Proofs.OnlyAnnotations

/-!
# Inference that keeps and inference that looks up anew

Inference that keeps the classes from outside that it finds comes to the same batch and the same
diagnostics as inference that looks them up anew at each call, and to the same registry but for what
it has kept (`inferKeeping_eq_infer`). Both go through a batch together: every method is typed the
same where one site is ahead of the other, a return type that is settled is set in both registries,
and there is nothing to settle in classes from outside.
-/

namespace StackScript.Typing

open StackScript.Source StackScript.Syntax

/-! ## Registries beside each other -/

namespace Registry

theorem namesakes_congr {registry other : Registry} (h : registry.headers = other.headers)
    (name : String) : registry.namesakes name = other.namesakes name := by
  rw [SameClasses.namesakes_eq, SameClasses.namesakes_eq, h]

/-- Which classes are on record shows in their headers. -/
theorem has_congr {registry other : Registry} (h : registry.headers = other.headers)
    (name : String) : registry.has name = other.has name := by
  rw [← isSome_find?_headers, h, isSome_find?_headers]

end Registry

namespace Keeps

variable {externals : Externals} {registry later : Registry}

/-- A return type that is set for a method of the batch is set in no class that is kept. -/
theorem setReturn (h : Keeps externals registry later) {cls : String}
    (hhas : registry.has cls = true) (method : String) (ret : ReturnState) :
    Keeps externals (registry.setReturn cls method ret) (later.setReturn cls method ret) := by
  have hheaders := registry.headers_setReturn cls method ret
  obtain ⟨kept, hclasses, hkept⟩ := h
  refine ⟨kept, ?_, fun entry hentry => ?_⟩
  · rw [Registry.setReturn, Registry.modify, hclasses]
    simp only [List.map_append]
    congr 1
    refine (List.map_congr_left fun entry hentry => ?_).trans (List.map_id kept)
    cases hkept entry hentry with
    | mk _ _ _ _ hfree =>
      -- the class of the method is on record, and what is kept has a name that was free
      refine if_neg fun hname => ?_
      rw [← hname] at hhas
      cases hfree.symm.trans hhas
  · cases hkept entry hentry with
    | mk hplain hsig hnamed hnamesakes hfree =>
      refine .mk hplain hsig hnamed ?_ ?_
      · rw [Registry.namesakes_congr hheaders, hnamesakes]
      · rw [Registry.has_congr hheaders, hfree]

/-- All return types are known in classes from outside. -/
theorem pendingCount_eq (h : Keeps externals registry later) :
    later.pendingCount = registry.pendingCount := by
  obtain ⟨kept, hclasses, hkept⟩ := h
  have hnone : (kept.flatMap ClassEntry.methods).countP (·.ret = .pending) = 0 := by
    rw [List.countP_eq_zero]
    intro m hm
    obtain ⟨entry, hentry, hm⟩ := List.mem_flatMap.mp hm
    cases hkept entry hentry
    obtain ⟨sig, -, rfl⟩ := ClassEntry.mem_ofSig hm
    exact fun hpending => by cases of_decide_eq_true hpending
  rw [Registry.pendingCount, hclasses, List.flatMap_append, List.countP_append, hnone,
    Nat.add_zero, Registry.pendingCount]

end Keeps

/-- The first registry comes from that of the batch; the second one has kept what it is asked for
besides. -/
structure Beside (externals : Externals) (batch : List Program) (registry later : Registry) :
    Prop where
  grows : Grows (declareAll batch).1 registry
  keeps : Keeps externals registry later

/-- The registries are beside each other, and the same diagnostics were found with both. -/
structure BesideFound (externals : Externals) (batch : List Program) (registry : Registry)
    (found : List TypeDiagnostic) (made : Declared) : Prop where
  registries : Beside externals batch registry made.1
  found : made.2 = found

/-- The site of a method on record has classes on record around it. -/
theorem Grows.grounded {batch : List Program} {registry : Registry}
    (h : Grows (declareAll batch).1 registry) {externals : Externals}
    (hnamed : ∀ name sig, externals name = some sig → sig.name = name) {file cls : String}
    {m : Method} {entry : MethodEntry}
    (hentry : registry.methodAt? cls m.name.name file m.span = some entry) (expected : Option Ty) :
    (siteOf externals registry file cls m expected).Grounded := by
  have hrooted : registry.Rooted := by
    intro entry hentry outer houter
    obtain ⟨_, hd⟩ := h.declared hentry houter
    obtain ⟨around, _, haround, -⟩ := h.around hd
    exact Registry.has_iff.mpr ⟨around, haround⟩
  refine ⟨hnamed, h.nesting, ?_⟩
  have hcls := Registry.has_of_method? (Registry.methodAt?_eq_some.mp hentry).1
  exact hrooted.has_of_enclosed (h.nesting.enclosed_scopes cls) hcls

/-! ## The last pass, method by method -/

/-- Types a method for good, and adds its diagnostics to those found before. -/
def annotateInPlace (externals : Externals) (registry : Registry) (file cls : String) (m : Method)
    (found : List TypeDiagnostic) : Method × List TypeDiagnostic :=
  let done := annotateMethod externals registry file cls m
  (done.1, found ++ done.2)

/-- Going through a list with a list that grows at its end. -/
theorem visitList_append {α β : Type} {step : α → List β → α × List β} {made : α → α × List β}
    (h : ∀ x found, step x found = ((made x).1, found ++ (made x).2)) (xs : List α)
    (found : List β) :
    visitList step xs found =
      ((xs.map made).map (·.1), found ++ (xs.map made).flatMap (·.2)) := by
  induction xs generalizing found with
  | nil => simp [visitList]
  | cons x rest ih => simp [visitList, h, ih]

section

variable (externals : Externals) (registry : Registry) (file : String) (package : Option String)

mutual

theorem visitClass_annotateInPlace : ∀ (enclosing : Option String) (c : ClassDef)
    (found : List TypeDiagnostic),
      visitClass (annotateInPlace externals registry) file package enclosing c found =
        ((annotateClass externals registry file package enclosing c).1,
          found ++ (annotateClass externals registry file package enclosing c).2)
  | _, .mk name members synthetic span, found => by
    rw [visitClass, visitMembers_annotateInPlace _ members]
    rfl

theorem visitMembers_annotateInPlace : ∀ (cls : String) (members : List Member)
    (found : List TypeDiagnostic),
      visitMembers (annotateInPlace externals registry) file package cls members found =
        ((annotateMembers externals registry file package cls members).1,
          found ++ (annotateMembers externals registry file package cls members).2)
  | _, [], found => by rw [visitMembers, annotateMembers, List.append_nil]
  | cls, .method m :: rest, found => by
    have hrest := visitMembers_annotateInPlace cls rest
    simp only [visitMembers, annotateMembers, annotateInPlace, hrest, List.append_assoc]
  | cls, .nested c :: rest, found => by
    have hc := visitClass_annotateInPlace (some cls) c
    have hrest := visitMembers_annotateInPlace cls rest
    simp only [visitMembers, annotateMembers, hc, hrest, List.append_assoc]

end

end

/-- Typing the methods of a batch for good, one after another, is typing each unit. -/
theorem visitBatch_annotateInPlace (externals : Externals) (registry : Registry)
    (batch : List Program) (found : List TypeDiagnostic) :
    visitBatch (annotateInPlace externals registry) batch found =
      ((batch.map (annotateUnit externals registry)).map (·.1),
        found ++ (batch.map (annotateUnit externals registry)).flatMap (·.2)) := by
  refine visitList_append (fun program found => ?_) batch found
  have hitem : ∀ item found,
      visitItem (annotateInPlace externals registry) program.source program.packageName item
          found =
        let done := annotateItem externals registry program.source program.packageName item
        (done.1, found ++ done.2) := by
    intro item found
    cases item with
    | cls c =>
      rw [visitItem, visitClass_annotateInPlace]
      rfl
    | _ => exact Prod.ext rfl (List.append_nil found).symm
  rw [visitUnit, visitList_append hitem]
  rfl

/-! ## Methods -/

section

variable {externals : Externals}
  (hnamed : ∀ name sig, externals name = some sig → sig.name = name) {batch : List Program}

include hnamed

/-- A method in words is typed the same at both sites. -/
theorem Beside.bodyKeeping_eq {registry later : Registry}
    (h : Beside externals batch registry later) {file cls : String} {m : Method}
    {entry : MethodEntry}
    (hentry : registry.methodAt? cls m.name.name file m.span = some entry)
    (hwords : (m.body.relabel bare).Written) (expected : Option Ty) :
    ((siteOf externals later file cls m expected).bodyKeeping m entry.params).1 =
        (siteOf externals registry file cls m expected).body m entry.params ∧
      Beside externals batch registry
        ((siteOf externals later file cls m expected).bodyKeeping m entry.params).2.registry := by
  have hsite := h.grows.grounded hnamed hentry expected
  obtain ⟨htyped, hlast⟩ := Site.bodyKeeping_eq hsite hwords entry.params (.mk h.keeps)
  refine ⟨htyped, h.grows, ?_⟩
  obtain ⟨later', hkeeps, hsame⟩ := hlast.exists_eq
  have hregistry := congrArg Site.registry hsame
  exact hregistry ▸ hkeeps

/-- A return type is settled for a method the same way, and whatever is kept on the way is kept. -/
theorem together_settleKeeping (file cls : String) {m : Method}
    (hwords : (m.body.relabel bare).Written) :
    Together (settleInPlace externals) (settleKeeping externals) (Beside externals batch) file
      (.method cls m) := by
  intro registry later h
  unfold settleInPlace settleKeeping
  rw [h.keeps.methodAt?_eq]
  cases hentry : registry.methodAt? cls m.name.name file m.span with
  | none => exact ⟨rfl, h⟩
  | some entry =>
    by_cases hpending : entry.ret = .pending
    · obtain ⟨htyped, hlast⟩ := h.bodyKeeping_eq hnamed hentry hwords none
      simp only [if_pos hpending, htyped]
      cases ((siteOf externals registry file cls m none).body m entry.params).2.settled? with
      | none => exact ⟨rfl, hlast⟩
      | some type =>
        have hhas := Registry.has_of_method? (Registry.methodAt?_eq_some.mp hentry).1
        exact ⟨rfl, h.grows.settle _ _ _, hlast.keeps.setReturn hhas _ _⟩
    · simp only [if_neg hpending]
      exact ⟨trivial, h⟩

/-- A method is typed for good the same way, with what was found before in front of what it has. -/
theorem together_annotateKeeping (registry : Registry) (file cls : String) {m : Method}
    (hwords : (m.body.relabel bare).Written) :
    Together (annotateInPlace externals registry) (annotateKeeping externals)
      (BesideFound externals batch registry) file (.method cls m) := by
  rintro found ⟨later, _⟩ ⟨h, rfl⟩
  unfold annotateInPlace annotateMethod annotateKeeping
  rw [h.keeps.methodAt?_eq]
  cases hentry : registry.methodAt? cls m.name.name file m.span with
  | none => exact ⟨rfl, h, (List.append_nil _).symm⟩
  | some entry =>
    obtain ⟨htyped, hlast⟩ := h.bodyKeeping_eq hnamed hentry hwords entry.ret.known?
    simp only [htyped]
    exact ⟨trivial, hlast, rfl⟩

end

/-! ## Batches -/

/-- Visits that go together at every method in words go together through a batch in words. -/
theorem together_of_inWords {σ τ : Type} {visit : String → String → Method → σ → Method × σ}
    {other : String → String → Method → τ → Method × τ} {Related : σ → τ → Prop}
    (h : ∀ file cls {m : Method}, (m.body.relabel bare).Written →
      Together visit other Related file (.method cls m)) {batch : List Program}
    (hwords : InWords batch) :
    ∀ d ∈ batchDeclarations batch, Together visit other Related d.1 d.2 := by
  rintro ⟨file, d⟩ hd
  cases d with
  | cls name package enclosing => trivial
  | method cls m => exact h file cls (hwords _ (mem_batchMethods.mpr hd))

section

variable {externals : Externals}

variable (hnamed : ∀ name sig, externals name = some sig → sig.name = name)
  {batch : List Program}

include hnamed

/-- So many rounds come to the same, wherever they start. -/
theorem Beside.roundsKeeping_eq (rounds : Nat) {written : List Program} (hwords : InWords written)
    {registry later : Registry} (h : Beside externals batch registry later) :
    (roundsKeeping externals rounds (written, later)).1 =
        (roundsInPlace externals rounds (written, registry)).1 ∧
      Beside externals batch (roundsInPlace externals rounds (written, registry)).2
        (roundsKeeping externals rounds (written, later)).2 := by
  induction rounds generalizing written registry later with
  | zero => exact ⟨rfl, h⟩
  | succ rounds ih =>
    obtain ⟨hsame, hnext⟩ := visitBatch_together _ _
      (together_of_inWords (together_settleKeeping hnamed) hwords) h
    have hbare := bare_visitBatch _ (bare_settleKeeping externals) written later
    rw [roundsKeeping, roundsInPlace]
    generalize visitBatch (settleKeeping externals) written later = kept at hsame hnext hbare
    generalize visitBatch (settleInPlace externals) written registry = inPlace at hsame hnext
    obtain ⟨keptBatch, keptRegistry⟩ := kept
    obtain ⟨newBatch, newRegistry⟩ := inPlace
    obtain rfl : newBatch = keptBatch := hsame
    -- as many methods wait in both, before and after, so both stop here or both go on
    simp only [hnext.keeps.pendingCount_eq, h.keeps.pendingCount_eq]
    split
    · exact ⟨rfl, hnext⟩
    · exact ih (hwords.of_bare hbare.symm) hnext

/-- **Inference that keeps what it finds outside comes to what inference comes to**, for units in
words and classes from outside that go by the names they are asked by: to the same batch and the
same diagnostics, and to the same registry but for the classes that it has kept. -/
theorem inferKeeping_eq_infer (hwords : InWords batch) :
    (inferKeeping externals batch).batch = (infer externals batch).batch ∧
      (inferKeeping externals batch).diagnostics = (infer externals batch).diagnostics ∧
      Keeps externals (infer externals batch).registry (inferKeeping externals batch).registry := by
  have hstart : Beside externals batch (declareAll batch).1 (declareAll batch).1 :=
    ⟨.none, .refl externals _⟩
  obtain ⟨hsame, hrounds⟩ :=
    Beside.roundsKeeping_eq hnamed ((declareAll batch).1.pendingCount + 1) hwords hstart
  have hwritten := hwords.of_bare (bare_roundsKeeping externals
    ((declareAll batch).1.pendingCount + 1) batch (declareAll batch).1).symm
  have hlast : BesideFound externals batch _ (declareAll batch).2 (_, (declareAll batch).2) :=
    ⟨hrounds, rfl⟩
  obtain ⟨hdone, hkept, hfound⟩ := visitBatch_together _ _
    (together_of_inWords (together_annotateKeeping hnamed _) hwritten) hlast
  rw [visitBatch_annotateInPlace] at hdone hfound
  -- looking up anew may write as it goes, too, which keeps the two in step from unit to unit
  rw [← inferInPlace_eq externals batch, inferKeeping_eq]
  simp only [inferInPlace, ← hsame]
  exact ⟨hdone.symm, hfound, hkept.keeps⟩

/-- For units that were read, both come to the same batch and the same diagnostics, and to the same
classes of the batch. What is on record besides is known outside by the same name. -/
theorem inferKeeping_of_read
    (hread : ∀ program ∈ batch, ∃ explicitPackages source text,
      readUnit explicitPackages source text = .ok program) :
    let kept := inferKeeping externals batch
    let typed := infer externals batch
    kept.batch = typed.batch ∧ kept.diagnostics = typed.diagnostics ∧
      kept.registry.batchClasses = typed.registry.batchClasses ∧
      (∀ cls, typed.registry.has cls = true →
        kept.registry.class? cls = typed.registry.class? cls) ∧
      ∀ cls entry, typed.registry.has cls = false → kept.registry.class? cls = some entry →
        ∃ sig, externals cls = some sig ∧ entry = .ofSig sig := by
  intro kept typed
  obtain ⟨hbatch, hdiagnostics, hkeeps⟩ := inferKeeping_eq_infer hnamed (inWords_of_read hread)
  exact ⟨hbatch, hdiagnostics, hkeeps.batchClasses_eq, fun cls => hkeeps.class?_eq,
    fun cls entry hnew hentry => hkeeps.outside_of_class? hnew hentry⟩

end

/-- A unit that calls a class from outside. -/
def parsingUnits : List Program :=
  (readUnit false "unit" "puts Integer.parse(\"1\")\n").toOption.toList

example :
    let outside : Externals := .ofList [⟨"Integer", [⟨"parse", [.string], .int⟩]⟩]
    (inferKeeping outside parsingUnits).diagnostics = [] ∧
      (inferKeeping outside parsingUnits).registry.has "Integer" = true ∧
      (infer outside parsingUnits).registry.has "Integer" = false := by
  decide +kernel

end StackScript.Typing

import StackScript.Proofs.RetypingBodies
import StackScript.Proofs.UnitOrder
import StackScript.Proofs.Generating

/-!
# Annotations

Inference writes types, call targets and return types into the methods of a batch, and nothing else.
It reads none of them: whatever a batch carries, the same is declared, the same return types are
settled (`registry_bare`), and the same is wrong with it (`diagnostics_bare`). What it carries is
replaced where nothing is wrong (`batch_bare`), so a batch may be inferred again (`infer_infer`). A
call that has a target with less knowledge has the same target with more
(`Registry.Refines.sameCallees`).
-/

namespace StackScript.Typing

open StackScript.Source StackScript.Syntax

/-! ## Targets stay -/

theorem map_const_congr {α β γ : Type} {x : Option α} {y : Option β} (c : γ)
    (h : x.isSome = y.isSome) : (x.map fun _ => c) = y.map fun _ => c := by
  cases x <;> cases y
  · rfl
  · cases h
  · cases h
  · rfl

namespace Registry.Refines

variable {before after : Registry} (h : before.Refines after)

include h

theorem isSome_method? (cls name : String) :
    (before.method? cls name).isSome = (after.method? cls name).isSome := by
  cases hold : before.method? cls name with
  | none => rw [h.settles.adds hold]
  | some old =>
    obtain ⟨ret, hafter, -⟩ := h.settles.keeps hold
    rw [hafter]
    rfl

theorem isSome_entry? (meaning : Registry.Meaning) (name : String) :
    ((before.entry? meaning).bind (·.method? name)).isSome =
      ((after.entry? meaning).bind (·.method? name)).isSome := by
  rw [method?_of_meaning, method?_of_meaning]
  cases meaning with
  | onRecord cls => exact h.isSome_method? cls name
  | outside sig =>
    simp only [h.classes.has_eq]
    split
    · exact h.isSome_method? sig.name name
    · rfl

/-- A call has the same target, whatever else is known. -/
theorem sameCallees (externals : Externals) (file cls : String) (m m' : Method)
    (expected expected' : Option Ty) :
    (siteOf externals before file cls m expected).SameCallees
      (siteOf externals after file cls m' expected') := by
  intro receiver method
  cases receiver with
  | some written =>
    simp only [Site.callee?, Site.target, siteOf]
    cases hlookup : before.lookup externals written.name cls with
    | ok meaning =>
      rw [h.classes.lookup_eq_ok_iff.mp hlookup]
      exact map_const_congr _ (h.isSome_entry? meaning method.name)
    | error fault =>
      cases hlookup' : after.lookup externals written.name cls with
      | ok meaning =>
        rw [h.classes.lookup_eq_ok_iff.mpr hlookup'] at hlookup
        cases hlookup
      | error fault' => rfl
  | none =>
    have hfst := h.localMethod?_fst cls method.name
    simp only [Site.callee?, Site.target, siteOf]
    cases hlocal : before.localMethod? cls method.name with
    | none =>
      rw [hlocal, Option.map_none, eq_comm, Option.map_eq_none_iff] at hfst
      rw [hfst]
    | some found =>
      rw [hlocal, Option.map_some, eq_comm] at hfst
      obtain ⟨found', hfound', hname⟩ := Option.map_eq_some_iff.mp hfst
      rw [hfound']
      simp only [hname]
      exact map_const_congr _ (h.isSome_method? found.1 method.name)

/-- The method at a place is on record in both or in neither. -/
theorem isSome_methodAt? (cls method file : String) (span : Span) :
    (before.methodAt? cls method file span).isSome =
      (after.methodAt? cls method file span).isSome := by
  unfold Registry.methodAt?
  cases hold : before.method? cls method with
  | none => rw [h.settles.adds hold]
  | some old =>
    obtain ⟨ret, hafter, -⟩ := h.settles.keeps hold
    rw [hafter, Option.filter_some, Option.filter_some]
    split <;> rfl

end Registry.Refines

/-! ## Methods -/

section

variable (externals : Externals) (registry : Registry) (file cls : String)

/-- Annotating a method writes nothing but types and targets. -/
theorem bare_annotateMethod (m : Method) :
    (annotateMethod externals registry file cls m).1.relabel bare = m.relabel bare := by
  unfold annotateMethod
  split
  · rfl
  · simp only [Method.relabel, Site.bare_body]
    rfl

/-- The same is wrong with a method and with its bare form. -/
theorem annotateMethod_bare (m : Method) :
    (annotateMethod externals registry file cls (m.relabel bare)).2 =
        (annotateMethod externals registry file cls m).2 ∧
      ((registry.methodAt? cls m.name.name file m.span).isSome = true →
        (annotateMethod externals registry file cls m).2 = [] →
        annotateMethod externals registry file cls (m.relabel bare) =
          annotateMethod externals registry file cls m) := by
  have hname : (m.relabel bare).name = m.name := rfl
  have hspan : (m.relabel bare).span = m.span := rfl
  unfold annotateMethod
  rw [hname, hspan]
  cases hentry : registry.methodAt? cls m.name.name file m.span with
  | none => exact ⟨rfl, fun h => nomatch h⟩
  | some entry =>
    obtain ⟨hfound, hbody⟩ := (siteOf externals registry file cls m entry.ret.known?).body_bare m
      entry.params
    simp only [siteOf, hname] at hfound hbody ⊢
    rw [← hfound]
    refine ⟨rfl, fun _ hclean => ?_⟩
    rw [List.append_eq_nil_iff, List.map_eq_nil_iff] at hclean
    rw [← hbody hclean.2]
    simp only [Method.params_bare, Method.ret_bare]
    rfl

/-- Annotating a method replaces what typing its body before has written into it. -/
theorem annotateMethod_written {before : Registry} {m : Method} {expected : Option Ty}
    (h : ∀ known, (siteOf externals before file cls m expected).SameCallees
      (siteOf externals registry file cls m known))
    (hat : (registry.methodAt? cls m.name.name file m.span).isSome = true)
    (types : List (Option Ty)) (ret : Option Ty) :
    annotateMethod externals registry file cls { m with
        body := ((siteOf externals before file cls m expected).body m types).1, retType := ret } =
      annotateMethod externals registry file cls m := by
  obtain ⟨entry, hentry⟩ := Option.isSome_iff_exists.mp hat
  have hbody := Site.body_body (h entry.ret.known?) m entry.params types ret
  simp only [siteOf] at hbody
  simp only [annotateMethod, hentry, siteOf, hbody]
  rfl

theorem annotateMethod_annotateMethod (m : Method) :
    annotateMethod externals registry file cls (annotateMethod externals registry file cls m).1 =
      annotateMethod externals registry file cls m := by
  cases hentry : registry.methodAt? cls m.name.name file m.span with
  | none => simp only [annotateMethod, hentry]
  | some entry =>
    have hsame : (annotateMethod externals registry file cls m).1 = { m with
        body := ((siteOf externals registry file cls m entry.ret.known?).body m entry.params).1
        retType := entry.ret.known? } := by
      simp only [annotateMethod, hentry]
    rw [hsame]
    exact annotateMethod_written externals registry file cls (fun _ _ _ => rfl)
      (Option.isSome_iff_exists.mpr ⟨entry, hentry⟩) _ _

end

/-! ## Classes and units -/

section

variable (externals : Externals) (registry : Registry) (file : String)

mutual

theorem bare_annotateClass (package : Option String) : ∀ (enclosing : Option String)
    (c : ClassDef),
    (annotateClass externals registry file package enclosing c).1.relabel bare = c.relabel bare
  | enclosing, .mk name members synthetic span => by
    rw [annotateClass, ClassDef.relabel, ClassDef.relabel, bare_annotateMembers package _ members]

theorem bare_annotateMembers (package : Option String) : ∀ (cls : String)
    (members : List Member),
    relabelMembers bare (annotateMembers externals registry file package cls members).1 =
      relabelMembers bare members
  | _, [] => rfl
  | cls, .method m :: rest => by
    rw [annotateMembers, relabelMembers, relabelMembers, bare_annotateMethod,
      bare_annotateMembers package cls rest]
  | cls, .nested c :: rest => by
    rw [annotateMembers, relabelMembers, relabelMembers, bare_annotateClass package (some cls) c,
      bare_annotateMembers package cls rest]

end

mutual

theorem annotateClass_annotateClass (package : Option String) : ∀ (enclosing : Option String)
    (c : ClassDef), annotateClass externals registry file package enclosing
        (annotateClass externals registry file package enclosing c).1 =
      annotateClass externals registry file package enclosing c
  | enclosing, .mk name members synthetic span => by
    simp only [annotateClass, annotateMembers_annotateMembers package _ members]

theorem annotateMembers_annotateMembers (package : Option String) : ∀ (cls : String)
    (members : List Member), annotateMembers externals registry file package cls
        (annotateMembers externals registry file package cls members).1 =
      annotateMembers externals registry file package cls members
  | _, [] => rfl
  | cls, .method m :: rest => by
    simp only [annotateMembers, annotateMethod_annotateMethod,
      annotateMembers_annotateMembers package cls rest]
  | cls, .nested c :: rest => by
    simp only [annotateMembers, annotateClass_annotateClass package (some cls) c,
      annotateMembers_annotateMembers package cls rest]

end

/-- Of what a declaration carries, nothing is left by annotating it. -/
def Replaced : Declaration → Prop
  | .cls _ _ _ => True
  | .method cls m => annotateMethod externals registry file cls (m.relabel bare) =
      annotateMethod externals registry file cls m

mutual

theorem annotateClass_bare (package : Option String) : ∀ (enclosing : Option String)
    (c : ClassDef), (∀ d ∈ declarations package enclosing c, Replaced externals registry file d) →
      annotateClass externals registry file package enclosing (c.relabel bare) =
        annotateClass externals registry file package enclosing c
  | enclosing, .mk name members synthetic span, h => by
    have hmembers := annotateMembers_bare package _ members (List.forall_mem_cons.mp h).2
    have hname : name.relabel bare = name := rfl
    simp only [ClassDef.relabel, annotateClass, hname, hmembers]
    rfl

theorem annotateMembers_bare (package : Option String) : ∀ (cls : String)
    (members : List Member),
    (∀ d ∈ memberDeclarations package cls members, Replaced externals registry file d) →
      annotateMembers externals registry file package cls (relabelMembers bare members) =
        annotateMembers externals registry file package cls members
  | _, [], _ => rfl
  | cls, .method m :: rest, h => by
    obtain ⟨hm, hrest⟩ := List.forall_mem_cons.mp h
    have hm : annotateMethod externals registry file cls (m.relabel bare) =
        annotateMethod externals registry file cls m := hm
    simp only [relabelMembers, annotateMembers, hm, annotateMembers_bare package cls rest hrest]
  | cls, .nested c :: rest, h => by
    obtain ⟨hc, hrest⟩ := List.forall_mem_append.mp h
    simp only [relabelMembers, annotateMembers, annotateClass_bare package (some cls) c hc,
      annotateMembers_bare package cls rest hrest]

end

end

section

variable (externals : Externals) (registry : Registry)

/-- Annotating a unit writes nothing but types and targets. -/
theorem bare_annotateUnit (program : Program) :
    (annotateUnit externals registry program).1.relabel bare = program.relabel bare := by
  simp only [annotateUnit, Program.relabel, List.map_map]
  congr 1
  refine List.map_congr_left fun item _ => ?_
  cases item with
  | cls c => simp only [Function.comp, annotateItem, Item.relabel, bare_annotateClass]
  | _ => rfl

/-- Typing a unit for good a second time changes nothing. -/
theorem annotateUnit_annotateUnit (program : Program) :
    annotateUnit externals registry (annotateUnit externals registry program).1 =
      annotateUnit externals registry program := by
  have hitems : ((program.items.map (annotateItem externals registry program.source
        program.packageName)).map (·.1)).map (annotateItem externals registry program.source
          program.packageName) =
      program.items.map (annotateItem externals registry program.source program.packageName) := by
    rw [List.map_map, List.map_map]
    refine List.map_congr_left fun item _ => ?_
    cases item with
    | cls c => simp only [Function.comp, annotateItem, annotateClass_annotateClass]
    | _ => rfl
  simp only [annotateUnit, Program.packageName] at hitems ⊢
  rw [hitems]

/-- A unit is annotated as its bare form is, but for what its loose code carries. -/
theorem annotateUnit_bare {program : Program}
    (h : ∀ d ∈ unitDeclarations program, Replaced externals registry d.1 d.2) :
    (annotateUnit externals registry (program.relabel bare)).1 =
      (annotateUnit externals registry program).1.bareLoose := by
  have hpackage : (program.relabel bare).packageName = program.packageName :=
    Program.packageName_relabel bare program
  simp only [annotateUnit, hpackage, Program.bareLoose, Program.package_bare, List.map_map]
  simp only [Program.relabel, List.map_map]
  congr 1
  refine List.map_congr_left fun item hitem => ?_
  cases item with
  | cls c =>
    have hclass : c ∈ program.classes := List.mem_filterMap.mpr ⟨.cls c, hitem, rfl⟩
    have hsame := annotateClass_bare externals registry program.source program.packageName none c
      fun d hd => h (program.source, d)
        (List.mem_map.mpr ⟨d, List.mem_flatMap.mpr ⟨c, hclass, hd⟩, rfl⟩)
    simp only [Function.comp, annotateItem, Item.relabel, Item.bareLoose, hsame]
  | _ => rfl

end

/-! ## Declaring and settling -/

section

variable (externals : Externals)

theorem declare_bare (made : Declared) (d : String × Declaration) :
    declare made (d.1, d.2.relabel bare) = declare made d := by
  obtain ⟨file, d⟩ := d
  cases d with
  | cls name package enclosing => rfl
  | method cls m =>
    have hentry : methodEntry file (m.relabel bare) = methodEntry file m := by
      simp only [methodEntry, Method.params_bare, Method.ret_bare]
      rfl
    simp only [Declaration.relabel, declare, hentry, Method.params_bare, Method.ret_bare]
    rfl

/-- The bare batch makes the same declarations. -/
theorem declareAll_bare (batch : List Program) :
    declareAll (batch.map (Program.relabel bare)) = declareAll batch := by
  rw [declareAll, declareAll, batchDeclarations_relabel, List.foldl_map]
  simp only [declare_bare]

theorem settleMethod_bare (registry : Registry) (place : MethodPlace) :
    settleMethod externals registry (place.1, place.2.1, place.2.2.relabel bare) =
      settleMethod externals registry place := by
  obtain ⟨file, cls, m⟩ := place
  have hname : (m.relabel bare).name = m.name := rfl
  have hspan : (m.relabel bare).span = m.span := rfl
  have hbody := fun types =>
    ((siteOf externals registry file cls m none).body_bare m types).1
  simp only [siteOf] at hbody
  simp only [settleMethod, siteOf, hname, hspan, ← hbody]

/-- The bare batch settles the same return types in a round. -/
theorem settleRound_bare (batch : List Program) :
    settleRound externals (batchMethods (batch.map (Program.relabel bare))) =
      settleRound externals (batchMethods batch) := by
  funext registry
  rw [batchMethods_relabel, settleRound, settleRound, List.foldl_map]
  simp only [settleMethod_bare]

theorem settle_bare (registry : Registry) (batch : List Program) :
    settle externals (batchMethods (batch.map (Program.relabel bare))) registry =
      settle externals (batchMethods batch) registry := by
  have hrounds : ∀ rounds registry,
      settleRounds externals (batchMethods (batch.map (Program.relabel bare))) rounds registry =
        settleRounds externals (batchMethods batch) rounds registry := by
    intro rounds
    induction rounds with
    | zero => exact fun _ => rfl
    | succ rounds ih =>
      intro registry
      simp only [settleRounds, settleRound_bare, ih]
  exact hrounds _ registry

end

/-! ## Inferring -/

theorem Inference.eq_of {inference other : Inference}
    (hregistry : inference.registry = other.registry)
    (hbatch : inference.batch = other.batch)
    (hdiagnostics : inference.diagnostics = other.diagnostics) : inference = other := by
  cases inference
  cases other
  cases hregistry
  cases hbatch
  cases hdiagnostics
  rfl

section

variable (externals : Externals) (batch : List Program)

/-- Inference writes nothing but types and targets. -/
theorem bare_infer :
    (infer externals batch).batch.map (Program.relabel bare) =
      batch.map (Program.relabel bare) := by
  simp only [infer, List.map_map]
  exact List.map_congr_left fun program _ => bare_annotateUnit externals _ program

theorem registry_bare : (infer externals (batch.map (Program.relabel bare))).registry =
    (infer externals batch).registry := by
  simp only [infer, declareAll_bare, settle_bare]

theorem diagnostics_bare : (infer externals (batch.map (Program.relabel bare))).diagnostics =
    (infer externals batch).diagnostics := by
  rw [diagnostics_infer, diagnostics_infer, declareAll_bare, registry_bare,
    batchDeclarations_relabel, List.flatMap_map]
  congr 2
  funext d
  obtain ⟨file, d⟩ := d
  cases d with
  | cls name package enclosing => rfl
  | method cls m => exact (annotateMethod_bare externals _ file cls m).1

/-- Nothing that an accepted batch carries in its classes is left. -/
theorem batch_bare (h : (infer externals batch).diagnostics = []) :
    (infer externals (batch.map (Program.relabel bare))).batch =
      (infer externals batch).batch.map Program.bareLoose := by
  have hregistry := registry_bare externals batch
  have hclean := clean_infer h
  simp only [infer, List.map_map] at hregistry hclean ⊢
  rw [hregistry]
  refine List.map_congr_left fun program hprogram => ?_
  refine annotateUnit_bare externals _ fun d hd => ?_
  have hd : d ∈ batchDeclarations batch := List.mem_flatMap.mpr ⟨program, hprogram, hd⟩
  obtain ⟨file, d⟩ := d
  cases d with
  | cls name package enclosing => trivial
  | method cls m =>
    obtain ⟨entry, ret, hentry, horigin, -, -⟩ := hclean (mem_batchMethods.mpr hd)
    have hat := Registry.methodAt?_eq_some.mpr ⟨hentry, horigin⟩
    exact (annotateMethod_bare externals _ file cls m).2 (by rw [hat]; rfl)
      (annotateMethod_of_infer h hd)

/-- Inferring a batch again changes nothing. -/
theorem infer_infer : infer externals (infer externals batch).batch = infer externals batch := by
  have hbare := bare_infer externals batch
  have hdeclared : declareAll (infer externals batch).batch = declareAll batch := by
    rw [← declareAll_bare, hbare, declareAll_bare]
  have hregistry : (infer externals (infer externals batch).batch).registry =
      (infer externals batch).registry := by
    rw [← registry_bare, hbare, registry_bare]
  -- the registry is the same, and annotating again with it leaves every unit as it is
  have hdone : (infer externals batch).batch.map
        (annotateUnit externals (infer externals batch).registry) =
      batch.map (annotateUnit externals (infer externals batch).registry) := by
    simp only [infer, List.map_map]
    exact List.map_congr_left fun program _ => annotateUnit_annotateUnit externals _ program
  have hinfer : ∀ units, infer externals units =
      ⟨(infer externals units).registry,
        (units.map (annotateUnit externals (infer externals units).registry)).map (·.1),
        (declareAll units).2 ++
          (units.map (annotateUnit externals (infer externals units).registry)).flatMap (·.2)⟩ :=
    fun _ => rfl
  rw [hinfer (infer externals batch).batch, hregistry, hdone, hdeclared, ← hinfer]

end

end StackScript.Typing

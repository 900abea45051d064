import StackScript.Proofs.Batches
import StackScript.Proofs.Reordering

/-!
# The order of units

A batch may be given with its units in any order: when one order is typed without a fault, all of
them are, and the same types and call targets are written into every unit
(`infer_ignores_unit_order`). The same classes and methods are declared in every order, and settling
the methods in any order finds the same return types; so every body is typed with the same
knowledge.
-/

namespace StackScript.Typing

open StackScript.Source StackScript.Syntax

/-! ## Annotating with the same knowledge -/

section

variable (externals : Externals) {before after : Registry} (file : String)

/-- What is written into a declaration depends on what is written into its method. -/
def SameAnnotation (externals : Externals) (before after : Registry) (file : String) :
    Declaration → Prop
  | .cls _ _ _ => True
  | .method cls m =>
    annotateMethod externals before file cls m = annotateMethod externals after file cls m

mutual

theorem annotateClass_congr (package : Option String) : ∀ (enclosing : Option String)
    (c : ClassDef), (∀ d ∈ declarations package enclosing c,
      SameAnnotation externals before after file d) →
      annotateClass externals before file package enclosing c =
        annotateClass externals after file package enclosing c
  | enclosing, .mk name members synthetic span, h => by
    have hmembers := annotateMembers_congr package _ members (List.forall_mem_cons.mp h).2
    simp only [annotateClass, hmembers]

theorem annotateMembers_congr (package : Option String) : ∀ (cls : String)
    (members : List Member), (∀ d ∈ memberDeclarations package cls members,
      SameAnnotation externals before after file d) →
      annotateMembers externals before file package cls members =
        annotateMembers externals after file package cls members
  | _, [], _ => rfl
  | cls, .method m :: rest, h => by
    obtain ⟨hm, hrest⟩ := List.forall_mem_cons.mp h
    have hsame : annotateMethod externals before file cls m =
        annotateMethod externals after file cls m := hm
    simp only [annotateMembers, hsame, annotateMembers_congr package cls rest hrest]
  | cls, .nested c :: rest, h => by
    obtain ⟨hc, hrest⟩ := List.forall_mem_append.mp h
    simp only [annotateMembers, annotateClass_congr package (some cls) c hc,
      annotateMembers_congr package cls rest hrest]

end

theorem annotateUnit_congr {program : Program}
    (h : ∀ d ∈ unitDeclarations program, SameAnnotation externals before after d.1 d.2) :
    annotateUnit externals before program = annotateUnit externals after program := by
  have hitems : program.items.map
        (annotateItem externals before program.source program.packageName) =
      program.items.map (annotateItem externals after program.source program.packageName) := by
    apply List.map_congr_left
    intro item hitem
    cases item with
    | cls c =>
      have hclass : c ∈ program.classes := List.mem_filterMap.mpr ⟨.cls c, hitem, rfl⟩
      have hsame := annotateClass_congr externals program.source program.packageName none c
        fun d hd => h (program.source, d)
          (List.mem_map.mpr ⟨d, List.mem_flatMap.mpr ⟨c, hclass, hd⟩, rfl⟩)
      simp only [annotateItem, hsame]
    | method m => rfl
    | stmt s => rfl
  simp only [annotateUnit, hitems]

end

/-! ## Typing in another order -/

section

variable {externals : Externals} {batch batch' : List Program}

/-- When nothing is wrong with a batch, all its methods are typed without a fault against what
inference has found in the end. -/
theorem clean_infer (h : (infer externals batch).diagnostics = []) :
    Clean externals (batchMethods batch) (infer externals batch).registry := by
  have hset := settled_infer externals (faults_declareAll_of_infer h)
  intro file cls m hm
  have hdone := annotateMethod_of_infer h (mem_batchMethods.mp hm)
  obtain ⟨entry, params, ret, hentry, horigin, -, -, -, hret⟩ :=
    hset.known (mem_batchMethods.mp hm) hdone
  refine ⟨entry, ret, hentry, horigin, hret, ?_⟩
  have hat := Registry.methodAt?_eq_some.mpr ⟨hentry, horigin⟩
  simp only [annotateMethod, hat, hret, List.append_eq_nil_iff, List.map_eq_nil_iff] at hdone
  exact hdone.2

/-- A method is typed the same against registries that know the same. -/
theorem annotateMethod_eq {before after : Registry} {places : List MethodPlace}
    (h : before.Refines after) (hback : after.Refines before)
    (hclean : Clean externals places after) {file cls : String} {m : Method}
    (hm : (file, cls, m) ∈ places) :
    annotateMethod externals before file cls m = annotateMethod externals after file cls m := by
  obtain ⟨entry, ret, hentry, horigin, hret, hbody⟩ := hclean hm
  have hall := h.method?_eq hback
  have hat := Registry.methodAt?_eq_some.mpr ⟨hentry, horigin⟩
  have hat' := Registry.methodAt?_eq_some.mpr ⟨(hall _ _).trans hentry, horigin⟩
  have hsame : (siteOf externals before file cls m (some ret)).body m entry.params =
      (siteOf externals after file cls m (some ret)).body m entry.params :=
    Site.body_eq (siteOf_refines h externals file cls m (.inr rfl)) hall rfl hbody
  simp only [annotateMethod, hat, hat', hret, hsame]
  rfl

/-- In another order of the units, inference finds the same return types. -/
theorem refines_infer (hplain : ∀ program ∈ batch, program.Plain) (hperm : batch.Perm batch')
    (h : (infer externals batch).diagnostics = []) :
    (infer externals batch).registry.Refines (infer externals batch').registry ∧
      (infer externals batch').registry.Refines (infer externals batch).registry := by
  have hdeclared := faults_declareAll_of_infer h
  have hplain' : ∀ program ∈ batch', program.Plain := fun program hp =>
    hplain program (hperm.mem_iff.mpr hp)
  apply refines_settle_of_final (placed_declareAll hdeclared) (clean_infer h)
  · intro place
    exact ((batchDeclarations_perm hperm).filterMap _).mem_iff.symm
  · exact refines_declareAll hplain hperm hdeclared
  · exact refines_declareAll hplain' hperm.symm (faults_declareAll_of_perm hperm hdeclared)

theorem annotateMethod_infer (hplain : ∀ program ∈ batch, program.Plain)
    (hperm : batch.Perm batch') (h : (infer externals batch).diagnostics = []) :
    ∀ d ∈ batchDeclarations batch, SameAnnotation externals (infer externals batch').registry
      (infer externals batch).registry d.1 d.2 := by
  obtain ⟨hto, hback⟩ := refines_infer hplain hperm h
  rintro ⟨file, d⟩ hd
  cases d with
  | cls name package enclosing => trivial
  | method cls m => exact annotateMethod_eq hback hto (clean_infer h) (mem_batchMethods.mpr hd)

theorem diagnostics_of_perm (hplain : ∀ program ∈ batch, program.Plain)
    (hperm : batch.Perm batch') (h : (infer externals batch).diagnostics = []) :
    (infer externals batch').diagnostics = [] := by
  have hsame := annotateMethod_infer hplain hperm h
  rw [diagnostics_infer, List.append_eq_nil_iff, List.flatMap_eq_nil_iff]
  refine ⟨faults_declareAll_of_perm hperm (faults_declareAll_of_infer h), ?_⟩
  rintro ⟨file, d⟩ hd
  have hd := (batchDeclarations_perm hperm).mem_iff.mpr hd
  cases d with
  | cls name package enclosing => rfl
  | method cls m =>
    have heq : annotateMethod externals (infer externals batch').registry file cls m =
        annotateMethod externals (infer externals batch).registry file cls m := hsame _ hd
    simp only [Declaration.diagnostics, heq]
    exact annotateMethod_of_infer h hd

/-- The order of the units of a batch does not matter: one order is typed without a fault if and
only if another one is, and then every method on record has the same return type in both, and the
same types and call targets are written into every unit. -/
theorem infer_ignores_unit_order (externals : Externals) {batch batch' : List Program}
    (hread : ∀ program ∈ batch, ∃ explicitPackages source text,
      readUnit explicitPackages source text = .ok program) (hperm : batch.Perm batch') :
    ((infer externals batch).diagnostics = [] ↔ (infer externals batch').diagnostics = []) ∧
      ((infer externals batch).diagnostics = [] →
        (∀ cls name, (infer externals batch).registry.method? cls name =
          (infer externals batch').registry.method? cls name) ∧
        ∃ annotated : Program → Program, (infer externals batch).batch = batch.map annotated ∧
          (infer externals batch').batch = batch'.map annotated) := by
  have hplain : ∀ program ∈ batch, program.Plain := by
    intro program hprogram
    obtain ⟨_, _, _, hprogram⟩ := hread program hprogram
    exact plain_readUnit hprogram
  have hplain' : ∀ program ∈ batch', program.Plain := fun program hp =>
    hplain program (hperm.mem_iff.mpr hp)
  refine ⟨⟨diagnostics_of_perm hplain hperm, diagnostics_of_perm hplain' hperm.symm⟩, fun h => ?_⟩
  obtain ⟨hto, hback⟩ := refines_infer hplain hperm h
  refine ⟨hto.method?_eq hback,
    fun program => (annotateUnit externals (infer externals batch).registry program).1, ?_, ?_⟩
  · simp only [infer, List.map_map]
    rfl
  · have hunits : ∀ program ∈ batch', annotateUnit externals (infer externals batch').registry
        program = annotateUnit externals (infer externals batch).registry program := by
      intro program hprogram
      apply annotateUnit_congr
      intro d hd
      exact annotateMethod_infer hplain hperm h d
        (List.mem_flatMap.mpr ⟨program, hperm.mem_iff.mpr hprogram, hd⟩)
    have hbatch : (infer externals batch').batch = batch'.map fun program =>
        (annotateUnit externals (infer externals batch').registry program).1 := by
      simp only [infer, List.map_map]
      rfl
    rw [hbatch]
    exact List.map_congr_left fun program hprogram => congrArg Prod.fst (hunits program hprogram)

end

/-- Two units, the first one with a method that returns what a method of the second one does. -/
def forwardUnits : List Program :=
  [("first", "class A\n  def self.f\n    B.g\n  end\nend\n"),
    ("second", "class B\n  def self.g\n    1\n  end\nend\n")].filterMap fun unit =>
      (readUnit false unit.1 unit.2).toOption

theorem infer_ignores_order_of_forwardUnits :
    forwardUnits.length = 2 ∧ (infer .nothing forwardUnits.reverse).diagnostics = [] ∧
      (infer .nothing forwardUnits).diagnostics = [] ∧
      ∃ annotated : Program → Program,
        (infer .nothing forwardUnits).batch = forwardUnits.map annotated ∧
          (infer .nothing forwardUnits.reverse).batch = forwardUnits.reverse.map annotated := by
  have hread : ∀ program ∈ forwardUnits, ∃ explicitPackages source text,
      readUnit explicitPackages source text = .ok program := by
    intro program hprogram
    obtain ⟨unit, -, hunit⟩ := List.mem_filterMap.mp hprogram
    refine ⟨false, unit.1, unit.2, ?_⟩
    cases hok : readUnit false unit.1 unit.2 with
    | error fault =>
      rw [hok] at hunit
      cases hunit
    | ok found =>
      rw [hok] at hunit
      cases hunit
      rfl
  have hclean : (infer .nothing forwardUnits).diagnostics = [] := by decide +kernel
  obtain ⟨hiff, hsame⟩ :=
    infer_ignores_unit_order .nothing hread (List.reverse_perm forwardUnits).symm
  exact ⟨by decide +kernel, hiff.mp hclean, hclean, (hsame hclean).2⟩

end StackScript.Typing

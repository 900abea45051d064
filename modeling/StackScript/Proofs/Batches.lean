import StackScript.Proofs.Accepting

/-!
# Batches that pass inference

Annotating a batch writes types into its methods where they stand and changes nothing else about
what it declares (`batchDeclarations_infer`). When inference finds nothing wrong, every method of
the batch is typed with its signature, and its class offers it to calls (`methodHasSig_of_infer`).
-/

namespace StackScript.Typing

open StackScript.Source StackScript.Syntax

/-! ## Annotating declarations -/

section

variable (externals : Externals) (registry : Registry) (file : String)

/-- A declaration of the unit `file` with its method typed. -/
def Declaration.annotate : Declaration → Declaration
  | .cls name package enclosing => .cls name package enclosing
  | .method owner m => .method owner (annotateMethod externals registry file owner m).1

/-- What is wrong with a declaration of the unit `file`. -/
def Declaration.diagnostics : Declaration → List TypeDiagnostic
  | .cls _ _ _ => []
  | .method owner m => (annotateMethod externals registry file owner m).2

mutual

theorem annotateClass_eq (package : Option String) : ∀ (enclosing : Option String) (c : ClassDef),
    declarations package enclosing (annotateClass externals registry file package enclosing c).1
        = (declarations package enclosing c).map (Declaration.annotate externals registry file) ∧
      (annotateClass externals registry file package enclosing c).2
        = (declarations package enclosing c).flatMap
            (Declaration.diagnostics externals registry file)
  | enclosing, .mk name members synthetic span => by
    have h := annotateMembers_eq package (qualify package enclosing name.name) members
    simp only [annotateClass, declarations, h.1, h.2, List.map_cons, List.flatMap_cons]
    exact ⟨rfl, rfl⟩

theorem annotateMembers_eq (package : Option String) : ∀ (cls : String) (members : List Member),
    memberDeclarations package cls
          (annotateMembers externals registry file package cls members).1
        = (memberDeclarations package cls members).map
            (Declaration.annotate externals registry file) ∧
      (annotateMembers externals registry file package cls members).2
        = (memberDeclarations package cls members).flatMap
            (Declaration.diagnostics externals registry file)
  | _, [] => ⟨rfl, rfl⟩
  | cls, .method m :: rest => by
    have h := annotateMembers_eq package cls rest
    simp only [annotateMembers, memberDeclarations, h.1, h.2, List.map_cons, List.flatMap_cons]
    exact ⟨rfl, rfl⟩
  | cls, .nested c :: rest => by
    have hc := annotateClass_eq package (some cls) c
    have h := annotateMembers_eq package cls rest
    simp only [annotateMembers, memberDeclarations, hc.1, hc.2, h.1, h.2, List.map_append,
      List.flatMap_append, and_self]

end

end

section

variable (externals : Externals) (registry : Registry)

theorem class?_annotateItem (file : String) (package : Option String) (item : Item) :
    (annotateItem externals registry file package item).1.class?
      = item.class?.map fun c => (annotateClass externals registry file package none c).1 := by
  cases item <;> rfl

theorem diagnostics_annotateItem (file : String) (package : Option String) (item : Item) :
    (annotateItem externals registry file package item).2
      = item.class?.toList.flatMap fun c =>
          (annotateClass externals registry file package none c).2 := by
  cases item <;> simp [annotateItem, Item.class?]

/-- Typing a unit for good types each of its methods, and tells the diagnostics in their order. -/
theorem annotateUnit_eq (program : Program) :
    unitDeclarations (annotateUnit externals registry program).1
        = (unitDeclarations program).map
            (fun d => (d.1, Declaration.annotate externals registry d.1 d.2)) ∧
      (annotateUnit externals registry program).2
        = (unitDeclarations program).flatMap
            fun d => Declaration.diagnostics externals registry d.1 d.2 := by
  obtain ⟨source, package, items, span⟩ := program
  constructor
  · -- only the classes of a unit declare anything; other items go through unchanged
    simp only [unitDeclarations, Program.classes, Program.packageName, annotateUnit]
    induction items with
    | nil => rfl
    | cons item rest ih =>
      simp only [List.map_cons, List.filterMap_cons, class?_annotateItem] at ih ⊢
      cases item.class? with
      | none => simpa using ih
      | some c =>
        simp only [Option.map_some, List.flatMap_cons, List.map_append, ih,
          (annotateClass_eq externals registry source _ none c).1]
        simp only [List.map_map]
        rfl
  · simp only [unitDeclarations, Program.classes, Program.packageName, annotateUnit]
    induction items with
    | nil => rfl
    | cons item rest ih =>
      simp only [List.map_cons, List.flatMap_cons, List.filterMap_cons,
        diagnostics_annotateItem] at ih ⊢
      cases item.class? with
      | none => simpa using ih
      | some c =>
        simp only [Option.toList_some, List.flatMap_cons, List.flatMap_nil, List.append_nil,
          List.map_append, List.flatMap_append, ih, List.flatMap_map,
          (annotateClass_eq externals registry source _ none c).2]

end

/-! ## The whole batch -/

variable {externals : Externals} {batch : List Program}

/-- The typed batch declares what the batch declares, with the methods typed. -/
theorem batchDeclarations_infer (externals : Externals) (batch : List Program) :
    batchDeclarations (infer externals batch).batch
      = (batchDeclarations batch).map fun d =>
          (d.1, Declaration.annotate externals (infer externals batch).registry d.1 d.2) := by
  simp only [batchDeclarations, infer, List.map_map, List.flatMap_map, List.map_flatMap]
  congr 1
  funext program
  exact (annotateUnit_eq externals _ program).1

/-- Inference tells the faults of declarations first, and then those of each method. -/
theorem diagnostics_infer (externals : Externals) (batch : List Program) :
    (infer externals batch).diagnostics
      = (declareAll batch).2 ++ (batchDeclarations batch).flatMap fun d =>
          Declaration.diagnostics externals (infer externals batch).registry d.1 d.2 := by
  simp only [batchDeclarations, infer, List.flatMap_map, List.flatMap_assoc]
  congr 2
  funext program
  exact (annotateUnit_eq externals _ program).2

/-! ## Methods of a batch without faults -/

theorem isSome_of_annotationFaults {file : String} {refs : List TypeRef}
    (h : annotationFaults file refs = []) : ∀ ref ∈ refs, ∃ t, ref.ty? = some t := by
  intro ref href
  cases ht : ref.ty? with
  | some t => exact ⟨t, rfl⟩
  | none =>
    have hmem : ref ∈ refs.filter (·.ty?.isNone) := List.mem_filter.mpr ⟨href, by simp [ht]⟩
    rw [annotationFaults, List.map_eq_nil_iff] at h
    simp [h] at hmem

/-- Annotations that all name a type are known. -/
theorem params_of_typed {params : List Param}
    (h : ∀ ref ∈ params.map (·.type), ∃ t, ref.ty? = some t) :
    ∃ ts : List Ty, params.map (·.type.ty?) = ts.map some := by
  induction params with
  | nil => exact ⟨[], rfl⟩
  | cons param rest ih =>
    obtain ⟨t, ht⟩ := h param.type List.mem_cons_self
    obtain ⟨ts, hts⟩ := ih fun ref href => h ref (List.mem_cons_of_mem _ href)
    exact ⟨t :: ts, by simp [ht, hts]⟩

/-- A method of the batch that is typed without a fault has a known signature on record. -/
theorem Settled.known {found : List (String × Declaration)} {registry : Registry}
    (hset : Settled found registry) {file cls : String} {m : Method}
    (hm : (file, Declaration.method cls m) ∈ found)
    (hdone : (annotateMethod externals registry file cls m).2 = []) :
    ∃ (entry : MethodEntry) (params : List Ty) (ret : Ty),
      registry.method? cls m.name.name = some entry ∧
      entry.origin = some (file, m.span) ∧ entry.name = m.name.name ∧
      entry.params = params.map some ∧ m.params.map (·.type.ty?) = params.map some ∧
      entry.ret.known? = some ret := by
  have htyped := isSome_of_annotationFaults (hset.typed hm)
  obtain ⟨params, hparams⟩ :=
    params_of_typed fun ref href => htyped ref (List.mem_append_left _ href)
  obtain ⟨ret, hentry, hret⟩ := hset.method hm
  have hat : registry.methodAt? cls m.name.name file m.span
      = some { methodEntry file m with ret } := Registry.methodAt?_eq_some.mpr ⟨hentry, rfl⟩
  -- annotating reports a return type that is still to be found, and declaring one that is none
  have hknown : ∃ t, ret.known? = some t := by
    cases ret with
    | declared t => exact ⟨t, rfl⟩
    | inferred t => exact ⟨t, rfl⟩
    | pending => simp [annotateMethod, hat] at hdone
    | invalid =>
      rcases hret with hsame | ⟨-, t, ht⟩
      · -- an annotation that names no type is a fault of the declaration
        simp only [methodEntry] at hsame
        cases href : m.ret with
        | none => simp [href] at hsame
        | some ref =>
          obtain ⟨t, ht⟩ := htyped ref (by simp [href])
          simp [href, ht] at hsame
      · cases ht
  obtain ⟨t, ht⟩ := hknown
  exact ⟨_, params, t, hentry, rfl, rfl, hparams, hparams, ht⟩

theorem complete_ofSig {sig : ClassSig} {entry : MethodEntry} {name : String}
    (h : (ClassEntry.ofSig sig).method? name = some entry) :
    ∃ (params : List Ty) (ret : Ty), entry.params = params.map some ∧
      entry.ret.known? = some ret := by
  obtain ⟨m, -, rfl⟩ := ClassEntry.mem_ofSig (List.mem_of_find?_eq_some h)
  exact ⟨m.params, m.ret, rfl, rfl⟩

/-- The methods that calls may go to in a batch after its inference. -/
abbrev Inference.offering (inference : Inference) (externals : Externals) : Offering :=
  Typing.offering inference.registry externals

section

variable (h : (infer externals batch).diagnostics = [])

include h

theorem faults_declareAll_of_infer : (declareAll batch).2 = [] := by
  rw [diagnostics_infer, List.append_eq_nil_iff] at h
  exact h.1

theorem annotateMethod_of_infer {file cls : String} {m : Method}
    (hm : (file, Declaration.method cls m) ∈ batchDeclarations batch) :
    (annotateMethod externals (infer externals batch).registry file cls m).2 = [] := by
  rw [diagnostics_infer, List.append_eq_nil_iff, List.flatMap_eq_nil_iff] at h
  exact h.2 _ hm

/-- When nothing is wrong with a batch, all types of all methods in reach are known. -/
theorem complete_infer : Complete (infer externals batch).registry externals := by
  have hset := settled_infer externals (faults_declareAll_of_infer h)
  intro cls entry hoffers
  cases hoffers with
  | onRecord hentry =>
    obtain ⟨file, m, hm, hsame⟩ := hset.source hentry
    obtain ⟨found, params, ret, hfound, -, -, hparams, -, hret⟩ :=
      hset.known hm (annotateMethod_of_infer h hm)
    -- names are unique in a class, so the entry is the one that was checked
    have hname : entry.name = m.name.name := by rw [hsame]; rfl
    rw [hname, hfound] at hentry
    cases hentry
    exact ⟨params, ret, hparams, hret⟩
  | outside _ _ _ hentry => exact complete_ofSig hentry

/-- When nothing is wrong with a batch, every method of the typed batch has a signature that it is
typed with and that its class offers to calls. -/
theorem methodHasSig_of_infer {file cls : String} {m : Method}
    (hm : (file, Declaration.method cls m) ∈
      batchDeclarations (infer externals batch).batch) :
    ∃ sig, MethodHasSig ((infer externals batch).offering externals) m sig ∧
      (infer externals batch).offering externals cls sig := by
  rw [batchDeclarations_infer] at hm
  obtain ⟨⟨file', d⟩, hd, heq⟩ := List.mem_map.mp hm
  simp only [Prod.mk.injEq] at heq
  obtain ⟨rfl, heq⟩ := heq
  cases d with
  | cls name package enclosing => cases heq
  | method owner before =>
    simp only [Declaration.annotate, Declaration.method.injEq] at heq
    obtain ⟨rfl, rfl⟩ := heq
    have hset := settled_infer externals (faults_declareAll_of_infer h)
    have hdone := annotateMethod_of_infer h hd
    obtain ⟨entry, params, ret, hentry, horigin, hname, hparams, htypes, hret⟩ :=
      hset.known hd hdone
    have hat : (infer externals batch).registry.methodAt? owner before.name.name file' before.span
        = some entry := Registry.methodAt?_eq_some.mpr ⟨hentry, horigin⟩
    -- the body was typed against the same registry that the types on record come from
    have hsite : (siteOf externals (infer externals batch).registry file' owner before
        (some ret)).Complete ret := ⟨complete_infer h, rfl⟩
    simp only [annotateMethod, hat, List.append_eq_nil_iff, List.map_eq_nil_iff, hparams,
      hret] at hdone ⊢
    obtain ⟨hbody, hends⟩ := Site.body_sound hsite before params hdone.2
    refine ⟨⟨before.name.name, params, ret⟩, ⟨rfl, htypes, rfl, hbody, hends⟩, ?_⟩
    exact ⟨entry, .onRecord (hname ▸ hentry), hname, hparams, hret⟩

end

/-- Methods in reach return types with written forms. -/
theorem offering_writable (hext : WritableReturns externals)
    (h : (infer externals batch).diagnostics = []) :
    ((infer externals batch).offering externals).Writable := by
  rintro cls sig ⟨entry, hoffers, -, -, hret⟩
  exact hoffers.writable (writable_infer hext (faults_declareAll_of_infer h)) hext hret

end StackScript.Typing

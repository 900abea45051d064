import StackScript.Proofs.Basics
import StackScript.Proofs.ReferenceTables

/-!
# Compiled batches

A batch is compiled when inference found nothing wrong with it, a class file was made for each of
its definitions, and no two of them have one name. The methods that a class of such a batch offers
to calls are then those in its class file (`Compiled.method?_of_offering`), each with the code of a
method that is typed with its signature.
-/

namespace StackScript.Code

open StackScript.Source StackScript.Syntax StackScript.Typing

/-- The batch passed inference and code generation, and each class is defined once. -/
structure Compiled (options : Options) (externals : Externals) (batch : List Program) : Prop where
  clean : (infer externals batch).diagnostics = []
  made : ∀ program ∈ (infer externals batch).batch,
    (unitClassFiles options program).fault = none
  distinct : ((batchDefinitions (infer externals batch).batch).map Definition.name).Nodup

/-- The class file of a definition of the typed batch. -/
structure IsClassOf (options : Options) (typed : List Program) (d : Definition)
    (file : ClassFile) : Prop where
  defined : d ∈ batchDefinitions typed
  made : d.classFile options = .ok file

/-- The code of a method of a definition, which is typed with its signature. -/
structure IsCodeOf (offers : Offering) (d : Definition) (sig : MethodSig) (m : Method)
    (code : MethodCode) : Prop where
  method : m ∈ d.cls.methods
  made : methodCode d.file m = .ok code
  typed : MethodHasSig offers m sig
  offered : offers d.name sig

namespace IsCodeOf

variable {offers : Offering} {d : Definition} {sig : MethodSig} {m : Method} {code : MethodCode}

theorem signature (h : IsCodeOf offers d sig m code) : code.signature = sig :=
  (methodCode_calls h.typed h.made).1

theorem calls (h : IsCodeOf offers d sig m code) : CallsOffered offers code.code.toList :=
  (methodCode_calls h.typed h.made).2

theorem name (h : IsCodeOf offers d sig m code) : code.name = sig.name :=
  congrArg MethodSig.name h.signature

theorem params (h : IsCodeOf offers d sig m code) : code.params = sig.params :=
  congrArg MethodSig.params h.signature

theorem ret (h : IsCodeOf offers d sig m code) : code.ret = sig.ret :=
  congrArg MethodSig.ret h.signature

end IsCodeOf

/-! ## Class files -/

section

variable {options : Options} {d : Definition} {file : ClassFile}

theorem mem_of_mapM {ε α β : Type} {f : α → Except ε β} {xs : List α} {bs : List β}
    (h : xs.mapM f = .ok bs) :
    (∀ b ∈ bs, ∃ x ∈ xs, f x = .ok b) ∧ ∀ x ∈ xs, ∃ b ∈ bs, f x = .ok b := by
  induction xs generalizing bs with
  | nil =>
    cases h
    simp
  | cons x rest ih =>
    rw [List.mapM_cons] at h
    simp only [bind_eq_ok, pure_eq_ok] at h
    obtain ⟨b, hb, others, hothers, rfl⟩ := h
    obtain ⟨hof, hto⟩ := ih hothers
    constructor
    · refine List.forall_mem_cons.mpr ⟨⟨x, List.mem_cons_self, hb⟩, fun b' hb' => ?_⟩
      obtain ⟨y, hy, hfy⟩ := hof b' hb'
      exact ⟨y, List.mem_cons_of_mem _ hy, hfy⟩
    · refine List.forall_mem_cons.mpr ⟨⟨b, List.mem_cons_self, hb⟩, fun y hy => ?_⟩
      obtain ⟨b', hb', hfy⟩ := hto y hy
      exact ⟨b', List.mem_cons_of_mem _ hb', hfy⟩

/-- What is found among results comes from what is found among those they are results of. -/
theorem find?_of_mapM {ε α β : Type} {f : α → Except ε β} {p : α → Bool} {q : β → Bool}
    (hpq : ∀ x b, f x = .ok b → q b = p x) {xs : List α} {bs : List β} (h : xs.mapM f = .ok bs)
    {b : β} (hb : bs.find? q = some b) : ∃ x, xs.find? p = some x ∧ f x = .ok b := by
  induction xs generalizing bs with
  | nil =>
    cases h
    cases hb
  | cons x rest ih =>
    rw [List.mapM_cons] at h
    simp only [bind_eq_ok, pure_eq_ok] at h
    obtain ⟨first, hfirst, others, hothers, rfl⟩ := h
    rw [List.find?_cons, hpq x first hfirst] at hb
    rw [List.find?_cons]
    split at hb
    · cases hb
      exact ⟨x, rfl, hfirst⟩
    · exact ih hothers hb

/-- The methods of a class file have the code of the methods of its definition. -/
theorem methods_of_classFile (h : d.classFile options = .ok file) :
    (∀ code ∈ file.methods, ∃ m ∈ d.cls.methods, methodCode d.file m = .ok code) ∧
      ∀ m ∈ d.cls.methods, ∃ code ∈ file.methods, methodCode d.file m = .ok code := by
  obtain ⟨methods, hmethods, rfl⟩ := classFile_eq_ok h
  exact mem_of_mapM hmethods

/-- A class file refers to the other classes that its methods call, and to no others. -/
theorem references_of_classFile (h : d.classFile options = .ok file) {other : String} :
    other ∈ file.references ↔ other ≠ d.name ∧ ∃ code ∈ file.methods, ∃ method argc,
      Instr.call other method argc ∈ code.code.toList := by
  rw [Definition.classFile] at h
  rw [(references_firstUses h).mem_iff, mem_calledClasses, name_of_classFile h]

/-- The method of a definition with a name. -/
def Definition.method? (d : Definition) (name : String) : Option Method :=
  d.cls.methods.find? (·.name.name = name)

/-- The method of a class in a batch. -/
def batchMethod? (typed : List Program) (cls name : String) : Option Method :=
  ((batchDefinitions typed).find? (·.name = cls)).bind (·.method? name)

theorem name_of_methodCode {unit : String} {m : Method} {code : MethodCode}
    (h : methodCode unit m = .ok code) : code.name = m.name.name := by
  obtain ⟨_, _, _, _, -, -, -, -, rfl⟩ := methodCode_eq_ok h
  rfl

/-- The method of a class file with a name has the code of the method of its definition. -/
theorem method?_of_classFile (h : d.classFile options = .ok file) {name : String}
    {code : MethodCode} (hcode : file.method? name = some code) :
    ∃ m, d.method? name = some m ∧ methodCode d.file m = .ok code := by
  obtain ⟨methods, hmethods, rfl⟩ := classFile_eq_ok h
  refine find?_of_mapM (fun m code hmade => ?_) hmethods hcode
  rw [name_of_methodCode hmade]

end

/-! ## Signatures on offer -/

/-- A class on record offers one signature for each method name. -/
theorem offering_unique {registry : Registry} {externals : Externals} {cls : String}
    (hcls : registry.has cls = true) {sig other : MethodSig}
    (h : offering registry externals cls sig) (hother : offering registry externals cls other)
    (hname : sig.name = other.name) : sig = other := by
  -- the class is on record, so what it offers does not come from outside
  have recorded : ∀ {sig : MethodSig}, offering registry externals cls sig → ∃ entry,
      registry.method? cls sig.name = some entry ∧ entry.params = sig.params.map some ∧
        entry.ret.known? = some sig.ret := by
    rintro sig ⟨entry, hentry, hname, hparams, hret⟩
    cases hentry with
    | onRecord hentry => exact ⟨entry, hname ▸ hentry, hparams, hret⟩
    | outside _ hnew _ _ =>
      rw [hcls] at hnew
      cases hnew
  obtain ⟨entry, hentry, hparams, hret⟩ := recorded h
  obtain ⟨entry', hentry', hparams', hret'⟩ := recorded hother
  rw [hname, hentry'] at hentry
  cases hentry
  have hsame : sig.params.map some = other.params.map some := hparams.symm.trans hparams'
  obtain ⟨name, params, ret⟩ := sig
  obtain ⟨name', params', ret'⟩ := other
  cases hname
  cases hret.symm.trans hret'
  rw [List.map_inj_right fun _ _ => Option.some.inj] at hsame
  rw [show params = params' from hsame]

/-- After an inference without diagnostics, the classes on record are those that the batch
defines. -/
theorem has_infer_iff {externals : Externals} {batch : List Program}
    (hclean : (infer externals batch).diagnostics = []) (cls : String) :
    (infer externals batch).registry.has cls = true ↔
      ∃ d ∈ batchDefinitions (infer externals batch).batch, d.name = cls := by
  rw [(settled_infer externals (faults_declareAll_of_infer hclean)).classes]
  have hnames : cls ∈ (batchDefinitions (infer externals batch).batch).map Definition.name ↔
      cls ∈ (batchDeclarations batch).filterMap fun d => className? d.2 := by
    rw [names_infer, names_batchDefinitions]
  rw [List.mem_map, List.mem_filterMap] at hnames
  rw [hnames]
  constructor
  · rintro ⟨file, package, enclosing, hd⟩
    exact ⟨_, hd, rfl⟩
  · rintro ⟨⟨file, d⟩, hd, hname⟩
    cases d with
    | cls name package enclosing =>
      cases hname
      exact ⟨file, package, enclosing, hd⟩
    | method owner m => cases hname

namespace Compiled

variable {options : Options} {externals : Externals} {batch : List Program}

/-- A definition of the batch has a class file. -/
theorem classFile (h : Compiled options externals batch) {d : Definition}
    (hd : d ∈ batchDefinitions (infer externals batch).batch) :
    ∃ file, d.classFile options = .ok file := by
  obtain ⟨program, hprogram, hd⟩ := List.mem_flatMap.mp hd
  have hfault := h.made program hprogram
  have hgathered := isGathered_of_fault hfault
  rw [unitClassFiles_eq options hgathered] at hfault
  exact Made.fault_each.mp hfault d hd

theorem has_iff (h : Compiled options externals batch) (cls : String) :
    (infer externals batch).registry.has cls = true ↔
      ∃ d ∈ batchDefinitions (infer externals batch).batch, d.name = cls :=
  has_infer_iff h.clean cls

/-- A method of the batch is typed in the definition of its class. -/
theorem definition_of_method {unit cls : String} {m : Method}
    (hm : (unit, Declaration.method cls m) ∈ batchDeclarations batch) :
    ∃ d ∈ batchDefinitions (infer externals batch).batch, d.name = cls ∧
      ∃ typed ∈ d.cls.methods, typed.name = m.name ∧ typed.params = m.params := by
  have htyped : (unit, Declaration.method cls
      (annotateMethod externals (infer externals batch).registry unit cls m).1)
        ∈ batchDeclarations (infer externals batch).batch := by
    rw [batchDeclarations_infer]
    exact List.mem_map.mpr ⟨_, hm, rfl⟩
  obtain ⟨d, hd, hname, hmember⟩ := definition_of_mem_batchDeclarations htyped
  refine ⟨d, hd, hname, _, hmember, ?_⟩
  unfold annotateMethod
  split <;> exact ⟨rfl, rfl⟩

variable {d : Definition} {file : ClassFile}

/-- The code of a method of a definition is that of a typed method. -/
theorem isCodeOf (h : Compiled options externals batch)
    (hd : d ∈ batchDefinitions (infer externals batch).batch) {m : Method}
    (hm : m ∈ d.cls.methods) {code : MethodCode} (hmade : methodCode d.file m = .ok code) :
    ∃ sig, IsCodeOf ((infer externals batch).offering externals) d sig m code := by
  obtain ⟨unit, hdecl⟩ := mem_batchDeclarations_of_definition hd hm
  obtain ⟨sig, htyped, hoffered⟩ := methodHasSig_of_infer h.clean hdecl
  exact ⟨sig, hm, hmade, htyped, hoffered⟩

/-- The methods of a batch are found by the name of their class. -/
theorem batchMethod?_eq (h : Compiled options externals batch)
    (hd : d ∈ batchDefinitions (infer externals batch).batch) (name : String) :
    batchMethod? (infer externals batch).batch d.name name = d.method? name := by
  unfold batchMethod?
  rw [(find?_key_eq_some_iff h.distinct).mpr ⟨hd, rfl⟩]
  rfl

/-- Every method in a class file has the code of a typed method of its definition. -/
theorem code_of_mem (h : Compiled options externals batch)
    (hfile : IsClassOf options (infer externals batch).batch d file) {code : MethodCode}
    (hcode : code ∈ file.methods) :
    ∃ sig m, IsCodeOf ((infer externals batch).offering externals) d sig m code := by
  obtain ⟨m, hm, hmade⟩ := (methods_of_classFile hfile.made).1 code hcode
  obtain ⟨sig, hof⟩ := h.isCodeOf hfile.defined hm hmade
  exact ⟨sig, m, hof⟩

/-- The methods in the class file of a class are those that the class offers to calls. -/
theorem method?_of_offering (h : Compiled options externals batch)
    (hfile : IsClassOf options (infer externals batch).batch d file) {sig : MethodSig}
    (hoffer : (infer externals batch).offering externals d.name sig) :
    ∃ code m, file.method? sig.name = some code ∧ d.method? sig.name = some m ∧
      IsCodeOf ((infer externals batch).offering externals) d sig m code := by
  have hcls := (h.has_iff d.name).mpr ⟨d, hfile.defined, rfl⟩
  have ⟨entry, hentry, hname, _, _⟩ := hoffer
  cases hentry with
  | outside _ hnew _ _ =>
    rw [hcls] at hnew
    cases hnew
  | onRecord hentry =>
    -- the definition has a method of the name, for the entry was declared from one
    obtain ⟨unit, m, hm, hsame⟩ :=
      (settled_infer externals (faults_declareAll_of_infer h.clean)).source hentry
    obtain ⟨other, hother, hothername, typed, hmember, htypedname, -⟩ := definition_of_method hm
    cases List.inj_on_of_nodup_map h.distinct hother hfile.defined hothername
    obtain ⟨first, hfirst, hfirstmade⟩ := (methods_of_classFile hfile.made).2 typed hmember
    have hfirstname : first.name = sig.name := by
      rw [name_of_methodCode hfirstmade, htypedname, ← hname, hsame]
      rfl
    have hfound : (file.method? sig.name).isSome = true :=
      List.find?_isSome.mpr ⟨first, hfirst, by simpa using hfirstname⟩
    obtain ⟨code, hcode⟩ := Option.isSome_iff_exists.mp hfound
    have hcodename : code.name = sig.name := by simpa using List.find?_some hcode
    obtain ⟨m', hm', hmade⟩ := method?_of_classFile hfile.made hcode
    obtain ⟨found, hof⟩ := h.isCodeOf hfile.defined (List.mem_of_find?_eq_some hm') hmade
    -- the method that is found first has the name, and the class offers one signature for it
    have heq : found = sig := by
      refine offering_unique hcls hof.offered hoffer ?_
      rw [← hof.name, hcodename]
    exact ⟨code, m', hcode, hm', heq ▸ hof⟩

end Compiled

end StackScript.Code

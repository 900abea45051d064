import StackScript.Proofs.Courses
import StackScript.Proofs.Launching

/-!
# Classes from outside a batch

Typing and loading ask one environment for the classes that a batch does not define. Typing leaves
the environment as it is, while loading a payload enables the extensions that the payload names, so
the two need not ask the same environment: it only ever grows (`Grown`), and a class that it
answers for later is the one that it answered for at first, unless a payload brought an extension
with a native class of that name in between (`ShadowedBy`). That holds for every unit a loader ever
caches (`Matches`), whatever is asked for in whatever order, and so the classes that the calls of a
batch were typed by are the ones that are loaded (`loader_sees_typed_classes`), up to shadowing.
-/

namespace StackScript.Loading

open StackScript.Code StackScript.Files StackScript.Machine

/-! ## Environments grow -/

namespace Environment

variable {disk : Disk} {env after : Environment}

/-- A class file that the environment has names the extension. -/
def Brings (disk : Disk) (env : Environment) (extension : String) : Prop :=
  ∃ name file, env.classFile? disk name = .ok (some file) ∧ extension ∈ file.extensions

/-- The environment after payloads were loaded: more extensions are enabled behind those that were,
each of them brought by a payload. -/
structure Grown (disk : Disk) (env after : Environment) : Prop where
  classpath : after.classpath = env.classpath
  loadPath : after.loadPath = env.loadPath
  enabled : ∃ more, after.enabled = env.enabled ++ more ∧
    ∀ extension ∈ more, extension ∉ env.enabled ∧ env.Brings disk extension.name

theorem Grown.refl (disk : Disk) (env : Environment) : Grown disk env env where
  classpath := rfl
  loadPath := rfl
  enabled := by
    refine ⟨[], (List.append_nil _).symm, ?_⟩
    intro extension hextension
    cases hextension

/-- The directories stay the same, and with them the class files. -/
theorem Grown.classFile?_eq (h : Grown disk env after) (name : String) :
    after.classFile? disk name = env.classFile? disk name := by
  have hlocate : after.locate disk name = env.locate disk name := by
    unfold locate
    rw [h.classpath, h.loadPath]
  unfold classFile?
  rw [hlocate]

theorem Grown.enable (h : Grown disk env after) {extension : String}
    (hbrings : env.Brings disk extension) {next : Environment}
    (hnext : after.enable extension = .ok next) : Grown disk env next := by
  unfold Environment.enable at hnext
  split at hnext
  · cases hnext
  · rename_i found hfound
    split at hnext
    · cases hnext
      exact h
    · rename_i hnew
      cases hnext
      obtain ⟨more, hmore, hbrought⟩ := h.enabled
      have hname : found.name = extension := by simpa using List.find?_some hfound
      refine ⟨h.classpath, h.loadPath, more ++ [found], ?_, ?_⟩
      · rw [hmore, List.append_assoc]
      · intro other hother
        rcases List.mem_append.mp hother with hother | hother
        · exact hbrought other hother
        · obtain rfl := List.mem_singleton.mp hother
          constructor
          · intro hmem
            apply hnew
            rw [List.contains_iff_mem, hmore]
            exact List.mem_append_left _ hmem
          · rwa [hname]

/-- The extensions before one that is not known stay enabled, and each was brought. -/
theorem Grown.enableAll {extensions : List String} (h : Grown disk env after)
    (hbrings : ∀ extension ∈ extensions, env.Brings disk extension) :
    Grown disk env (after.enableAll extensions).1 := by
  induction extensions generalizing after with
  | nil => exact h
  | cons extension rest ih =>
    rw [List.forall_mem_cons] at hbrings
    rw [Environment.enableAll]
    split
    · exact h
    · rename_i next hnext
      apply ih _ hbrings.2
      exact h.enable hbrings.1 hnext

/-- Looking for a class only makes the environment grow. -/
theorem Grown.resolve (h : Grown disk env after) (name : String) :
    Grown disk env (Environment.resolve disk after name).1 := by
  unfold Environment.resolve
  split
  · exact h
  · split
    · exact h
    · exact h
    · rename_i file hfile
      rw [h.classFile?_eq] at hfile
      have hbrings : ∀ extension ∈ file.extensions, env.Brings disk extension :=
        fun extension hextension => ⟨name, file, hfile, hextension⟩
      have hall := h.enableAll hbrings
      split
      · rename_i next hnext
        rwa [hnext] at hall
      · rename_i next fault hnext
        rwa [hnext] at hall

/-! ### What is found later -/

/-- The payload of a class is out of reach: a payload brought an extension, not enabled before,
whose native class has the same name and is found first. -/
structure ShadowedBy (disk : Disk) (env : Environment) (name : String) (extension : Extension) :
    Prop where
  /-- At first the class is found as a payload. -/
  payload : env.native? name = none ∧ ∃ file, env.classFile? disk name = .ok (some file)
  /-- The extension comes in between, by a payload. -/
  brought : extension ∉ env.enabled ∧ env.Brings disk extension.name
  native : extension.nativeClass.name = name

/-- A native class stays the one that is found, and where there was none an extension can have
brought one. -/
theorem Grown.native?_cases (h : Grown disk env after) (name : String) :
    after.native? name = env.native? name ∨
      env.native? name = none ∧ ∃ extension, extension ∉ env.enabled ∧
        env.Brings disk extension.name ∧ extension.nativeClass.name = name ∧
        after.native? name = some extension.nativeClass := by
  obtain ⟨more, hmore, hbrought⟩ := h.enabled
  unfold native? nativeClass?
  by_cases hinteger : name = NativeClass.integer.name
  · left
    rw [if_pos hinteger, if_pos hinteger]
  · rw [if_neg hinteger, if_neg hinteger, hmore, List.map_append, List.find?_append]
    cases hfirst : (env.enabled.map Extension.nativeClass).find? (·.name = name) with
    | some cls => exact .inl rfl
    | none =>
      rw [Option.none_or]
      cases hlater : (more.map Extension.nativeClass).find? (·.name = name) with
      | none => exact .inl rfl
      | some cls =>
        obtain ⟨extension, hextension, rfl⟩ := List.mem_map.mp (List.mem_of_find?_eq_some hlater)
        have hname : extension.nativeClass.name = name := by simpa using List.find?_some hlater
        obtain ⟨hnew, hbrings⟩ := hbrought extension hextension
        exact .inr ⟨rfl, extension, hnew, hbrings, hname, rfl⟩

/-- The unit is the class that typing knows under the name, or a native class that shadows it. -/
def Agrees (disk : Disk) (env : Environment) (name : String) (unit : LoadedUnit) : Prop :=
  ∀ sig, env.signatures disk name = some sig → unit.signature = sig ∨
    ∃ extension, ShadowedBy disk env name extension ∧ unit.body = .native extension.nativeClass

theorem Agrees.of_body {name : String} {unit later : LoadedUnit} (h : Agrees disk env name unit)
    (hbody : later.body = unit.body) : Agrees disk env name later := by
  intro sig hsig
  have hsignature : later.signature = unit.signature := by
    unfold LoadedUnit.signature
    rw [hbody]
  rw [hsignature, hbody]
  exact h sig hsig

/-- Without a native class of the name, typing takes the signature from the payload. -/
theorem signatures_of_native?_eq_none {name : String} (hnative : env.native? name = none)
    {sig : ClassSig} (hsig : env.signatures disk name = some sig) :
    ∃ file, env.classFile? disk name = .ok (some file) ∧ file.signature = sig := by
  unfold signatures at hsig
  simp only [hnative] at hsig
  split at hsig
  · rename_i found hfound
    obtain ⟨file, rfl, hfile⟩ := Option.map_eq_some_iff.mp hsig
    exact ⟨file, hfound, hfile⟩
  · cases hsig

/-- What a grown environment finds for a name agrees with what typing knew. -/
theorem Grown.agrees_of_resolve (h : Grown disk env after) {name : String} {next : Environment}
    {unit : LoadedUnit} (hunit : Environment.resolve disk after name = (next, .ok unit)) :
    Agrees disk env name unit := by
  intro sig hsig
  unfold Environment.resolve at hunit
  rcases h.native?_cases name with hsame | ⟨hnone, extension, hnew, hbrings, hname, hsome⟩
  · rw [hsame] at hunit
    cases hnative : env.native? name with
    | some cls =>
      rw [hnative] at hunit
      cases hunit
      unfold signatures at hsig
      rw [hnative] at hsig
      exact .inl (Option.some.inj hsig)
    | none =>
      obtain ⟨file, hfile, rfl⟩ := signatures_of_native?_eq_none hnative hsig
      -- the payload is the one that typing read, as no directory has changed
      rw [hnative] at hunit
      simp only [h.classFile?_eq, hfile] at hunit
      split at hunit
      · cases hunit
        exact .inl rfl
      · cases hunit
  · obtain ⟨file, hfile, rfl⟩ := signatures_of_native?_eq_none hnone hsig
    rw [hsome] at hunit
    cases hunit
    exact .inr ⟨extension, ⟨⟨hnone, file, hfile⟩, ⟨hnew, hbrings⟩, hname⟩, rfl⟩

/-- A class is known by its own name. -/
theorem name_of_signatures {name : String} {sig : ClassSig}
    (hsig : env.signatures disk name = some sig) : sig.name = name := by
  cases hnative : env.native? name with
  | some cls =>
    unfold signatures at hsig
    rw [hnative] at hsig
    cases hsig
    exact Session.name_of_native? hnative
  | none =>
    obtain ⟨file, hfile, rfl⟩ := signatures_of_native?_eq_none hnative hsig
    unfold classFile? at hfile
    split at hfile
    · cases hfile
    · split at hfile
      · cases hfile
      · split at hfile
        · cases hfile
        · split at hfile
          · rename_i hname
            cases hfile
            exact hname
          · cases hfile

end Environment

/-! ## Loaders agree with typing -/

namespace Loader

open Environment

variable {disk : Disk} {env : Environment} {batch : Batch} {loader : BatchLoader}

/-- The loader of a batch has come from an environment that has grown since, and every unit that it
took from there agrees with what typing knew. -/
structure Matches (disk : Disk) (env : Environment) (batch : Batch) (loader : BatchLoader) :
    Prop where
  same : loader.batch = batch
  grown : Grown disk env loader.ambient
  units : ∀ id name unit, loader.names[id]? = some name → loader.pool.unit? id = some unit →
    batch.get? name = none → Agrees disk env name unit

theorem matches_start (disk : Disk) (env : Environment) (batch : Batch) :
    Matches disk env batch (.start batch env) where
  same := rfl
  grown := .refl disk env
  units id name unit hname := by cases hname

/-- Making a unit only makes the environment grow, and a unit that is not from the batch agrees. -/
theorem Matches.materialise (h : Matches disk env batch loader) {name : String}
    {next : BatchLoader} {made : Except LoadFault LoadedUnit}
    (hmade : loader.materialise (Environment.resolve disk) name = (next, made)) :
    Grown disk env next.ambient ∧
      ∀ unit, made = .ok unit → batch.get? name = none → Agrees disk env name unit := by
  unfold Loader.materialise at hmade
  split at hmade
  · rename_i product hproduct
    have hnext : next = loader := by
      split at hmade <;> exact (Prod.mk.inj hmade).1.symm
    refine ⟨hnext ▸ h.grown, ?_⟩
    intro unit _ hnone
    rw [← h.same, hproduct] at hnone
    cases hnone
  · obtain ⟨rfl, rfl⟩ := Prod.mk.inj hmade
    refine ⟨h.grown.resolve name, ?_⟩
    intro unit hunit _
    apply h.grown.agrees_of_resolve
    exact Prod.ext rfl hunit

/-- Every change that a loader makes keeps it in agreement with typing. -/
theorem Matches.change (h : Matches disk env batch loader) (hformed : Formed loader)
    {change : Change Environment} (hallowed : Allowed (Environment.resolve disk) loader change) :
    Matches disk env batch (loader.change change) := by
  cases hallowed with
  | refused _ hmade => exact ⟨h.same, (h.materialise hmade).1, h.units⟩
  | @loaded name unit next _ hmade =>
    obtain ⟨hgrown, hagrees⟩ := h.materialise hmade
    refine ⟨h.same, hgrown, ?_⟩
    intro id other found hother hfound hnone
    simp only [Loader.change, Loader.insert, unit?_add, Pool.nextId, hformed.size] at hother hfound
    split at hfound
    · -- the new unit stands under the new name
      rename_i hid
      cases hfound
      rw [hid, List.getElem?_concat_length] at hother
      cases hother
      exact hagrees unit rfl hnone
    · have hlt := hformed.lt_of_unit? hfound
      rw [List.getElem?_append_left hlt] at hother
      exact h.units id other found hother hfound hnone
  | @linked inside target reference _ _ =>
    refine ⟨h.same, h.grown, ?_⟩
    intro id name unit hname hunit hnone
    simp only [Loader.change, Loader.link, unit?_link] at hname hunit
    split at hunit
    · obtain ⟨before, hbefore, rfl⟩ := Option.map_eq_some_iff.mp hunit
      exact (h.units id name before hname hbefore hnone).of_body rfl
    · exact h.units id name unit hname hunit hnone
  | brokenOff _ => exact h

theorem Matches.changeAll (h : Matches disk env batch loader) (hformed : Formed loader)
    {changes : List (Change Environment)}
    (hruns : Runs (Environment.resolve disk) loader changes) :
    Matches disk env batch (loader.changeAll changes) := by
  induction hruns with
  | nil => exact h
  | cons hfirst _ ih => exact ih (h.change hformed hfirst) (hformed.change hfirst)

/-- Resolving a name keeps the loader in agreement with typing, and answers with the unit that is
cached under the name. -/
theorem Matches.resolve (h : Matches disk env batch loader) (hformed : Formed loader)
    (name : String) :
    let answer := BatchLoader.resolve disk loader name
    Formed answer.1 ∧ Matches disk env batch answer.1 ∧
      ∀ id, answer.2 = .ok id → answer.1.names[id]? = some name := by
  intro answer
  have hfinds := finds_course (Environment.resolve disk) (BatchLoader.depthBound disk loader)
    hformed name
  have hanswer : answer = BatchLoader.resolve disk loader name := rfl
  rw [BatchLoader.resolve, resolveWithin, resolveFrom_eq] at hanswer
  cases hended : (course (Environment.resolve disk) (BatchLoader.depthBound disk loader) loader
      name).answer with
  | none =>
    rw [hended, Option.map_none, Option.getD_none] at hanswer
    rw [hanswer]
    refine ⟨hformed, h, ?_⟩
    intro id hid
    cases hid
  | some result =>
    rw [hended, Option.map_some, Option.getD_some] at hanswer
    rw [hanswer]
    refine ⟨hformed.changeAll hfinds.runs, h.changeAll hformed hfinds.runs, ?_⟩
    intro id hid
    apply hfinds.cached
    rw [hended]
    exact congrArg some hid

/-- Whatever was asked for before. -/
theorem Matches.resolveEach (h : Matches disk env batch loader) (hformed : Formed loader)
    (requests : List String) :
    let after := requests.foldl (fun l request => (BatchLoader.resolve disk l request).1) loader
    Formed after ∧ Matches disk env batch after := by
  induction requests generalizing loader with
  | nil => exact ⟨hformed, h⟩
  | cons request rest ih =>
    obtain ⟨hnext, hmatches, -⟩ := h.resolve hformed request
    exact ih hmatches hnext

end Loader

end StackScript.Loading

namespace StackScript.Session

open StackScript.Code StackScript.Files StackScript.Loading StackScript.Machine StackScript.Syntax
  StackScript.Typing

/-! ## Calls out of a batch -/

/-- A call with the class that it was resolved to. -/
structure ResolvedCall where
  cls : String
  method : Ident
  args : List Expr
  note : Note

/-- The call that an expression is, if its class was resolved. -/
def resolvedCall? : Expr → Option ResolvedCall
  | .call _ method args (some cls) note => some { cls, method, args, note }
  | _ => none

/-- The calls in the body of a method. -/
def declaredCalls : Declaration → List ResolvedCall
  | .method _ m => (blockParts m.body).filterMap resolvedCall?
  | .cls .. => []

/-- The calls in all methods of a batch. -/
def batchCalls (typed : List Program) : List ResolvedCall :=
  (batchDeclarations typed).flatMap fun declaration => declaredCalls declaration.2

theorem eq_call_of_resolvedCall? {e : Expr} {call : ResolvedCall}
    (h : resolvedCall? e = some call) :
    ∃ receiver, e = .call receiver call.method call.args (some call.cls) call.note := by
  unfold resolvedCall? at h
  split at h
  · rename_i receiver _ _ _ _
    cases h
    exact ⟨receiver, rfl⟩
  · cases h

/-- A call of the batch stands in the body of one of its methods. -/
theorem call_of_mem_batchCalls {typed : List Program} {call : ResolvedCall}
    (h : call ∈ batchCalls typed) :
    ∃ file owner m receiver, (file, Declaration.method owner m) ∈ batchDeclarations typed ∧
      .call receiver call.method call.args (some call.cls) call.note ∈ blockParts m.body := by
  obtain ⟨⟨file, declaration⟩, hdeclaration, hcall⟩ := List.mem_flatMap.mp h
  cases declaration with
  | cls name package enclosing => cases hcall
  | method owner m =>
    obtain ⟨e, he, hcall⟩ := List.mem_filterMap.mp hcall
    obtain ⟨receiver, rfl⟩ := eq_call_of_resolvedCall? hcall
    exact ⟨file, owner, m, receiver, hdeclaration, he⟩

/-- The call is typed by a method of the signature: by its name, with the types of its parameters
and its return type. -/
def FitsCall (sig : ClassSig) (call : ResolvedCall) : Prop :=
  ∃ m ∈ sig.methods, m.name = call.method.name ∧ call.args.map Expr.type = m.params.map some ∧
    call.note.type = some m.ret

theorem types_of_haveTys {offers : Offering} {Γ : Context} {es : List Expr} {ts : List Ty}
    (h : HaveTys offers Γ es ts) : es.map Expr.type = ts.map some := by
  induction es generalizing ts with
  | nil =>
    cases h
    rfl
  | cons e es ih =>
    cases h with
    | cons he _ hes => rw [List.map_cons, List.map_cons, he.note, ih hes]

section

variable {externals : Externals} {batch : List Program}

/-- A call of a class that the batch does not define is typed by a class from outside. -/
theorem fitsCall_of_mem
    (hnames : ∀ name sig, externals name = some sig → sig.name = name)
    (hclean : (infer externals batch).diagnostics = []) {call : ResolvedCall}
    (hcall : call ∈ batchCalls (infer externals batch).batch)
    (hout : ∀ d ∈ batchDefinitions (infer externals batch).batch, d.name ≠ call.cls) :
    ∃ sig, externals call.cls = some sig ∧ FitsCall sig call := by
  obtain ⟨file, owner, m, receiver, hm, hpart⟩ := call_of_mem_batchCalls hcall
  obtain ⟨msig, hmsig, -⟩ := methodHasSig_of_infer hclean hm
  have hkept : KeptByValues ((infer externals batch).offering externals) fun _ => True :=
    fun _ _ _ _ _ _ _ => trivial
  obtain ⟨Γ, t, -, htyped⟩ := methodParts_typed hkept hmsig trivial _ hpart
  cases htyped with
  | call hnote hoffer hargs =>
    obtain ⟨entry, hentry, hname, hparams, hret⟩ := hoffer
    cases hentry with
    | onRecord hentry =>
      -- a class on record is one of the batch
      obtain ⟨d, hd, hdname⟩ := (has_infer_iff hclean _).mp (Registry.has_of_method? hentry)
      exact absurd hdname (hout d hd)
    | @outside name sig hsame _ hsig hentry =>
      have hcls : name = call.cls := (hnames name sig hsig).symm.trans hsame
      obtain ⟨found, hfound, rfl⟩ := ClassEntry.mem_ofSig (List.mem_of_find?_eq_some hentry)
      refine ⟨sig, hcls ▸ hsig, found, hfound, hname, ?_, ?_⟩
      · rw [types_of_haveTys hargs]
        exact hparams.symm
      · rw [hnote]
        exact hret.symm

end

/-- The calls of an accepted batch that go out of it are typed by classes of the environment, and a
loader of the batch over the same environment loads exactly these classes, whatever it was asked
for before. There is one exception: a payload that another payload shadows, by bringing an
extension with a native class of the same name. -/
theorem loader_sees_typed_classes {env : Environment} {disk : Disk} {batch : List Program}
    (hclean : (infer (env.signatures disk) batch).diagnostics = []) {settings : Settings}
    {reportDisk : Disk} {delivery : Delivery (List Product)} {phase : Phase Unit}
    (hdelivery : deliverBatch reportDisk settings keep { sink := [] }
      (infer (env.signatures disk) batch).batch = (delivery, phase))
    (hok : phase.result = .ok ()) {cls : String}
    (hout : ∀ d ∈ batchDefinitions (infer (env.signatures disk) batch).batch, d.name ≠ cls)
    (hcalled : ∃ call ∈ batchCalls (infer (env.signatures disk) batch).batch, call.cls = cls) :
    ∃ sig, env.signatures disk cls = some sig ∧
      (∀ call ∈ batchCalls (infer (env.signatures disk) batch).batch, call.cls = cls →
        FitsCall sig call) ∧
      ∀ (requests : List String) (after : BatchLoader) (id : UnitId) (unit : LoadedUnit),
        BatchLoader.resolve disk
          (requests.foldl (fun l request => (BatchLoader.resolve disk l request).1)
            (.start (.ofList delivery.sink) env)) cls = (after, .ok id) →
        after.pool.unit? id = some unit →
        unit.signature = sig ∨ ∃ extension, Environment.ShadowedBy disk env cls extension ∧
          unit.body = .native extension.nativeClass := by
  have hnames : ∀ name sig, env.signatures disk name = some sig → sig.name = name :=
    fun name sig hsig => Environment.name_of_signatures hsig
  obtain ⟨call, hcall, rfl⟩ := hcalled
  obtain ⟨sig, hsig, -⟩ := fitsCall_of_mem hnames hclean hcall hout
  refine ⟨sig, hsig, ?_, ?_⟩
  · intro other hother hsame
    rw [← hsame] at hout hsig
    obtain ⟨found, hfound, hfits⟩ := fitsCall_of_mem hnames hclean hother hout
    rw [hsig] at hfound
    cases hfound
    exact hfits
  · intro requests after id unit hresolve hunit
    obtain ⟨hmade, hsink, hnodup⟩ := sink_of_deliverBatch hdelivery hok
    -- the batch has no product of the class, so the loader looks for it in the environment
    have hget : Batch.get? (.ofList delivery.sink) call.cls = none := by
      rw [ofList_eq hnodup]
      apply List.find?_eq_none.mpr
      intro product hproduct
      rw [decide_eq_true_eq]
      intro hname
      have hmem : call.cls ∈ (batchDefinitions (infer (env.signatures disk) batch).batch).map
          Definition.name := by
        rw [← names_batchProducts hmade, ← hsink, ← hname]
        exact List.mem_map.mpr ⟨product, hproduct, rfl⟩
      obtain ⟨d, hd, hdname⟩ := List.mem_map.mp hmem
      exact hout d hd hdname
    obtain ⟨hformed, hmatches⟩ :=
      (Loader.matches_start disk env (.ofList delivery.sink)).resolveEach
        (Loader.formed_start _ env) requests
    obtain ⟨-, hafter, hcached⟩ := hmatches.resolve hformed call.cls
    rw [hresolve] at hafter hcached
    exact hafter.units id call.cls unit (hcached id rfl) hunit hget sig hsig

/-! ### A payload that is shadowed -/

/-- A payload with a method `one` of no parameters, which brings the extension `math`. -/
def libFile : ClassFile where
  magic := ClassFile.rightMagic
  target := .latest
  name := "Lib"
  sourceFile := "lib"
  references := []
  methods := [
    { name := "one", params := [], ret := .int, locals := 0, code := #[.pushInt 1, .ret],
      lines := [] }]
  extensions := [Extension.math.name]

/-- A payload of the name of the class that the extension `math` has. -/
def areaFile : ClassFile where
  magic := ClassFile.rightMagic
  target := .latest
  name := NativeClass.math.name
  sourceFile := "lib"
  references := []
  methods := [
    { name := "area", params := [.int], ret := .int, locals := 1,
      code := #[.load 0, .load 0, .mul, .ret], lines := [] }]
  extensions := []

/-- A disk with both payloads in the directory `cp`. -/
def areaDisk : Disk where
  root := .dir [("cp", .dir [("Lib.mbc", .file libFile.payload),
    ("Math.mbc", .file areaFile.payload)])]

/-- An environment with the directory `cp`. -/
def areaEnvironment : Environment where
  classpath := ["cp"]

/-- A script that prints `Lib.one` and `Math.area(3)`. -/
def areaScript : Program where
  source := inlineName
  package := none
  items :=
    [.stmt (.puts (.call (some ⟨libFile.name, default⟩) ⟨"one", default⟩ [] none default) default),
      .stmt (.puts (.call (some ⟨areaFile.name, default⟩) ⟨"area", default⟩ [.int 3 default] none
        default) default)]
  span := default

/-- Asked for first, the payload is what is loaded. -/
theorem loader_sees_area :
    let typed := infer (areaEnvironment.signatures areaDisk) [areaScript.gather]
    let made := deliverBatch {} {} keep { sink := [] } typed.batch
    typed.diagnostics = [] ∧ made.2.result = .ok () ∧
    ∃ sig, areaEnvironment.signatures areaDisk areaFile.name = some sig ∧
      ∀ after id unit, BatchLoader.resolve areaDisk (.start (.ofList made.1.sink) areaEnvironment)
        areaFile.name = (after, .ok id) → after.pool.unit? id = some unit →
        unit.signature = sig ∨ ∃ extension,
          Environment.ShadowedBy areaDisk areaEnvironment areaFile.name extension ∧
            unit.body = .native extension.nativeClass := by
  intro typed made
  have hclean : typed.diagnostics = [] := by
    decide +kernel
  have hok : made.2.result = .ok () := by
    decide +kernel
  have hout : ∀ d ∈ batchDefinitions typed.batch, d.name ≠ areaFile.name := by
    decide +kernel
  have hcalled : ∃ call ∈ batchCalls typed.batch, call.cls = areaFile.name := by
    decide +kernel
  obtain ⟨sig, hsig, -, hloaded⟩ :=
    loader_sees_typed_classes hclean (Prod.eta made).symm hok hout hcalled
  exact ⟨hclean, hok, sig, hsig, hloaded []⟩

/-- Asked for behind the payload that brings the extension, it is shadowed. -/
example :
    let loader := (BatchLoader.resolve areaDisk (.start [] areaEnvironment) libFile.name).1
    let after := (BatchLoader.resolve areaDisk loader areaFile.name).1
    (after.cached? areaFile.name).map LoadedUnit.signature = some NativeClass.math.signature ∧
      areaEnvironment.signatures areaDisk areaFile.name = some areaFile.signature := by
  decide +kernel

end StackScript.Session

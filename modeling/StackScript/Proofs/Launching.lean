import StackScript.Proofs.Calling
import StackScript.Proofs.Generating
import StackScript.Proofs.Linking
import StackScript.Proofs.Payloads
import StackScript.Session.EntryPoint

/-!
# Launching a batch

In an environment without directories of payloads, whatever a batch that passed inference calls is
in the batch or native. So each of its classes resolves from its product, with all links
(`Supply.resolve_serves`), and the pool that a launch runs on holds the batch (`Supply.holds`).
-/

namespace StackScript.Session

open StackScript.Code StackScript.Files StackScript.Loading StackScript.Machine StackScript.Syntax
  StackScript.Typing

instance decidableEqExcept {ε α : Type} [DecidableEq ε] [DecidableEq α] :
    DecidableEq (Except ε α)
  | .ok a, .ok b => decidable_of_iff (a = b) ⟨congrArg _, Except.ok.inj⟩
  | .error e, .error f => decidable_of_iff (e = f) ⟨congrArg _, Except.error.inj⟩
  | .ok _, .error _ => isFalse nofun
  | .error _, .ok _ => isFalse nofun

/-! ## An environment without directories -/

/-- No directory of the environment has payloads in it, for there is none. -/
structure NoDirectories (env : Environment) : Prop where
  classpath : env.classpath = []
  loadPath : env.loadPath = []

section

variable {env : Environment}

theorem classFile?_eq (h : NoDirectories env) (disk : Disk) (name : String) :
    env.classFile? disk name = .ok none := by
  simp [Environment.classFile?, Environment.locate, h.classpath, h.loadPath]

theorem name_of_native? {name : String} {cls : NativeClass} (h : env.native? name = some cls) :
    cls.name = name := by
  unfold Environment.native? nativeClass? at h
  split at h
  · rename_i hname
    cases h
    exact hname.symm
  · simpa using List.find?_some h

theorem signatures_eq_some (h : NoDirectories env) {disk : Disk} {name : String} {sig : ClassSig}
    (hsig : env.signatures disk name = some sig) :
    ∃ cls, env.native? name = some cls ∧ sig = cls.signature := by
  unfold Environment.signatures at hsig
  split at hsig
  · rename_i cls hcls
    cases hsig
    exact ⟨cls, hcls, rfl⟩
  · rw [classFile?_eq h] at hsig
    cases hsig

theorem nativeOnly_signatures (h : NoDirectories env) (disk : Disk) :
    NativeOnly (env.signatures disk) := by
  intro name sig hsig
  obtain ⟨cls, -, hcls⟩ := signatures_eq_some h hsig
  exact ⟨cls, hcls⟩

/-- The unit of a name that is not in the batch. -/
def nativeUnit (env : Environment) (name : String) : Except LoadFault LoadedUnit :=
  match env.native? name with
  | some cls => .ok (.native cls)
  | none => .error (.notFound name)

theorem resolve_eq (h : NoDirectories env) (disk : Disk) (name : String) :
    Environment.resolve disk env name = (env, nativeUnit env name) := by
  unfold Environment.resolve nativeUnit
  cases env.native? name with
  | some cls => rfl
  | none => simp only [classFile?_eq h]

end

/-! ## Batches of products -/

theorem put_of_not_mem {product : Product} {batch : Batch}
    (h : product.name ∉ batch.map Product.name) : Batch.put product batch = batch ++ [product] := by
  induction batch with
  | nil => rfl
  | cons first rest ih =>
    rw [List.map_cons, List.mem_cons, not_or] at h
    rw [Batch.put, if_neg (Ne.symm h.1), ih h.2]
    rfl

/-- Products with distinct names make a batch as they are. -/
theorem ofList_eq {products : List Product} (h : (products.map Product.name).Nodup) :
    Batch.ofList products = products := by
  -- over the products that were put before, for the fold to go through
  have key : ∀ (rest before : List Product), ((before ++ rest).map Product.name).Nodup →
      rest.foldl (fun batch product => Batch.put product batch) before = before ++ rest := by
    intro rest
    induction rest with
    | nil => exact fun before _ => (List.append_nil before).symm
    | cons product rest ih =>
      intro before hnodup
      have hnew : product.name ∉ before.map Product.name := by
        rw [List.map_append, List.nodup_append] at hnodup
        exact fun hmem => hnodup.2.2 _ hmem _ (by simp) rfl
      rw [List.foldl_cons, put_of_not_mem hnew, ih]
      · rw [List.append_assoc, List.singleton_append]
      · rwa [List.append_assoc, List.singleton_append]
  exact key products [] h

theorem get?_eq_some {products : List Product} (h : (products.map Product.name).Nodup)
    {product : Product} (hmem : product ∈ products) :
    Batch.get? products product.name = some product :=
  (find?_key_eq_some_iff h).mpr ⟨hmem, rfl⟩

/-! ## What is kept -/

theorem sink_deliver_keep {delivery after : Delivery (List Product)} {products : List Product}
    (h : deliver keep delivery products = (after, .ok ())) :
    after.sink = delivery.sink ++ products := by
  induction products generalizing delivery with
  | nil =>
    cases h
    rw [List.append_nil]
  | cons product rest ih =>
    rw [deliver] at h
    split at h
    · cases h
    · rw [ih h]
      simp

section

variable {env : Environment} {disk : Disk} {batch : List Program} {settings : Settings}
  {products : List Product}

/-- The products that a batch was handed over as, none too long for memory. -/
structure Supply (env : Environment) (disk : Disk) (settings : Settings) (batch : List Program)
    (products : List Product) : Prop where
  directories : NoDirectories env
  compiled : Compiled settings.codeOptions (env.signatures disk) batch
  few : FewParams batch
  made : ∀ product, product ∈ products ↔ ∃ d file,
    IsClassOf settings.codeOptions (infer (env.signatures disk) batch).batch d file ∧
      product = Product.ofClassFile .bytecode file
  distinct : (products.map Product.name).Nodup
  countable : ∀ product ∈ products, Countable product.bytes

/-- A batch that was kept whole has no fault in it, and what was kept are its products, each of
another name. -/
theorem sink_of_deliverBatch {typed : List Program} {reportDisk : Disk}
    {delivery : Delivery (List Product)} {phase : Phase Unit}
    (hdelivery : deliverBatch reportDisk settings keep { sink := [] } typed = (delivery, phase))
    (hok : phase.result = .ok ()) :
    (∀ program ∈ typed, (unitClassFiles settings.codeOptions program).fault = none) ∧
      delivery.sink = batchProducts settings.codeOptions typed ∧
      (delivery.sink.map Product.name).Nodup := by
  have hmade := fault_of_deliverBatch (by rw [hdelivery]; exact hok)
  have hhanded : (delivery, phase.result) =
      deliver keep { sink := [] } (batchProducts settings.codeOptions typed) := by
    rw [← handed_deliverBatch hmade { sink := [] }, hdelivery]
  obtain ⟨rfl, hresult⟩ := Prod.ext_iff.mp hhanded
  have hok := hresult.symm.trans hok
  have hnodup := ((deliver_ok_iff (fun _ _ => rfl) _ _).mp hok).1
  have hsink := sink_deliver_keep (Prod.ext rfl hok)
  rw [List.nil_append] at hsink
  refine ⟨hmade, hsink, ?_⟩
  rwa [hsink]

/-- A batch that was kept whole is compiled, and what was kept are its products. -/
theorem supply_of_deliverBatch (hdirs : NoDirectories env)
    (hclean : (infer (env.signatures disk) batch).diagnostics = []) (hfew : FewParams batch)
    (hbackend : settings.backend = .bytecode) {reportDisk : Disk}
    {delivery : Delivery (List Product)} {phase : Phase Unit}
    (hdelivery : deliverBatch reportDisk settings keep { sink := [] }
      (infer (env.signatures disk) batch).batch = (delivery, phase))
    (hok : phase.result = .ok ()) (hbytes : ∀ product ∈ delivery.sink, Countable product.bytes) :
    Supply env disk settings batch delivery.sink := by
  obtain ⟨hmade, hsink, hnodup⟩ := sink_of_deliverBatch hdelivery hok
  rw [hsink] at hnodup hbytes ⊢
  have hcompiled : Compiled settings.codeOptions (env.signatures disk) batch :=
    ⟨hclean, hmade, names_batchProducts hmade ▸ hnodup⟩
  refine ⟨hdirs, hcompiled, hfew, fun product => ?_, hnodup, hbytes⟩
  rw [batchProducts, List.mem_flatMap]
  constructor
  · rintro ⟨program, hprogram, hproduct⟩
    obtain ⟨file, hfile, rfl⟩ := List.mem_map.mp hproduct
    obtain ⟨d, hd, hdfile⟩ := (mem_unitClassFiles (hmade program hprogram)).mp hfile
    refine ⟨d, file, ⟨List.mem_flatMap.mpr ⟨program, hprogram, hd⟩, hdfile⟩, ?_⟩
    rw [Settings.codeOptions, hbackend]
  · rintro ⟨d, file, hclass, rfl⟩
    obtain ⟨program, hprogram, hd⟩ := List.mem_flatMap.mp hclass.defined
    refine ⟨program, hprogram, List.mem_map.mpr ⟨file, ?_, ?_⟩⟩
    · exact (mem_unitClassFiles (hmade program hprogram)).mpr ⟨d, hd, hclass.made⟩
    · rw [Settings.codeOptions, hbackend]

/-! ## Units of a supply -/

/-- The unit of a name, before it is linked: from the products, or else native. -/
def unitOf (env : Environment) (products : List Product) (name : String) :
    Except LoadFault LoadedUnit :=
  match Batch.get? products name with
  | some product =>
    match ClassFile.ofPayload product.bytes with
    | .ok file => .ok (.compiled file)
    | .error cause => .error (.malformed name cause)
  | none => nativeUnit env name

theorem unitOf_of_not_mem {name : String} (h : name ∉ products.map Product.name) :
    unitOf env products name = nativeUnit env name := by
  have hget : Batch.get? products name = none := by
    refine List.find?_eq_none.mpr fun product hproduct => ?_
    simp only [decide_eq_true_eq]
    exact fun e => h (List.mem_map.mpr ⟨product, hproduct, e⟩)
  rw [unitOf, hget]

theorem steady_unitOf (hdirs : NoDirectories env) (disk : Disk) (products : List Product) :
    Loader.Steady (Environment.resolve disk) products env (unitOf env products) where
  materialise {loader} name hbatch hambient := by
    obtain ⟨loaderBatch, loaderAmbient, pool, names⟩ := loader
    simp only at hbatch hambient
    subst hbatch hambient
    unfold Loader.materialise unitOf
    -- without directories, looking for a class does not change the environment
    simp only [resolve_eq hdirs]
    cases Batch.get? loaderBatch name with
    | none => rfl
    | some product =>
      cases hread : ClassFile.ofPayload product.bytes <;> simp only [hread]
  unlinked {name unit} h := by
    unfold unitOf nativeUnit at h
    split at h
    · split at h <;> cases h
      rfl
    · split at h <;> cases h
      rfl

namespace Supply

variable (h : Supply env disk settings batch products)

include h

/-- The product of a class file is loaded as that class file. -/
theorem unitOf_eq {d : Definition} {file : ClassFile}
    (hclass : IsClassOf settings.codeOptions (infer (env.signatures disk) batch).batch d file) :
    unitOf env products d.name = .ok (.compiled file) := by
  have hproduct : Product.ofClassFile .bytecode file ∈ products :=
    (h.made _).mpr ⟨d, file, hclass, rfl⟩
  have hget := get?_eq_some h.distinct hproduct
  have hname : (Product.ofClassFile .bytecode file).name = d.name :=
    name_of_classFile hclass.made
  rw [hname] at hget
  -- the payload is short enough to be counted, so it is read back as it was written
  have hread : ClassFile.ofPayload (Product.ofClassFile .bytecode file).bytes = .ok file :=
    ofPayload_payload (h.countable _ hproduct) (magic_of_classFile hclass.made)
  rw [unitOf, hget]
  simp only [hread]

theorem exists_of_mem {name : String} (hname : name ∈ products.map Product.name) :
    ∃ d file, IsClassOf settings.codeOptions (infer (env.signatures disk) batch).batch d file ∧
      d.name = name := by
  obtain ⟨product, hproduct, rfl⟩ := List.mem_map.mp hname
  obtain ⟨d, file, hclass, rfl⟩ := (h.made product).mp hproduct
  exact ⟨d, file, hclass, (name_of_classFile hclass.made).symm⟩

theorem mem_of_definition {d : Definition}
    (hd : d ∈ batchDefinitions (infer (env.signatures disk) batch).batch) :
    d.name ∈ products.map Product.name := by
  obtain ⟨file, hfile⟩ := h.compiled.classFile hd
  refine List.mem_map.mpr ⟨_, (h.made _).mpr ⟨d, file, ⟨hd, hfile⟩, rfl⟩, ?_⟩
  exact name_of_classFile hfile

/-- A unit is a class file of the batch under its name, or the native class of the name. -/
theorem unitOf_cases {name : String} {unit : LoadedUnit}
    (hunit : unitOf env products name = .ok unit) :
    (∃ d file, IsClassOf settings.codeOptions (infer (env.signatures disk) batch).batch d file ∧
      d.name = name ∧ unit = .compiled file) ∨
    (name ∉ products.map Product.name ∧ ∃ cls, env.native? name = some cls ∧
      unit = .native cls) := by
  by_cases hname : name ∈ products.map Product.name
  · obtain ⟨d, file, hclass, rfl⟩ := h.exists_of_mem hname
    rw [h.unitOf_eq hclass] at hunit
    exact .inl ⟨d, file, hclass, rfl, (Except.ok.inj hunit).symm⟩
  · rw [unitOf_of_not_mem hname] at hunit
    unfold nativeUnit at hunit
    split at hunit
    · rename_i cls hcls
      cases hunit
      exact .inr ⟨hname, cls, hcls, rfl⟩
    · cases hunit

theorem name_of_unitOf {name : String} {unit : LoadedUnit}
    (hunit : unitOf env products name = .ok unit) : unit.name = name := by
  rcases h.unitOf_cases hunit with ⟨d, file, hclass, rfl, rfl⟩ | ⟨-, cls, hcls, rfl⟩
  · exact name_of_classFile hclass.made
  · exact name_of_native? hcls

omit h in
/-- All names that there are units for. -/
def names (env : Environment) (products : List Product) : List String :=
  products.map Product.name ++
    ([NativeClass.integer, .math, .text].map NativeClass.name).filter
      fun name => (env.native? name).isSome

omit h in
theorem length_names_le (env : Environment) (products : List Product) :
    (names env products).length ≤ products.length + 3 := by
  unfold names
  have hfilter := List.length_filter_le (fun name => (env.native? name).isSome)
    ([NativeClass.integer, .math, .text].map NativeClass.name)
  rw [List.length_append, List.length_map]
  simp only [List.map_cons, List.map_nil, List.length_cons, List.length_nil] at hfilter ⊢
  omega

omit h in
theorem mem_names_of_native {name : String} {cls : NativeClass}
    (hcls : env.native? name = some cls) : name ∈ names env products := by
  refine List.mem_append_right _ (List.mem_filter.mpr ⟨?_, by rw [hcls]; rfl⟩)
  rw [← name_of_native? hcls]
  cases cls <;> simp

/-- There are units for exactly these names. -/
theorem mem_names_iff {name : String} :
    name ∈ names env products ↔ ∃ unit, unitOf env products name = .ok unit := by
  constructor
  · intro hname
    by_cases hmem : name ∈ products.map Product.name
    · obtain ⟨d, file, hclass, rfl⟩ := h.exists_of_mem hmem
      exact ⟨_, h.unitOf_eq hclass⟩
    · have hnative := (List.mem_filter.mp ((List.mem_append.mp hname).resolve_left hmem)).2
      obtain ⟨cls, hcls⟩ := Option.isSome_iff_exists.mp hnative
      refine ⟨.native cls, ?_⟩
      rw [unitOf_of_not_mem hmem, nativeUnit, hcls]
  · rintro ⟨unit, hunit⟩
    rcases h.unitOf_cases hunit with ⟨d, file, hclass, rfl, -⟩ | ⟨-, cls, hcls, -⟩
    · exact List.mem_append_left _ (h.mem_of_definition hclass.defined)
    · exact mem_names_of_native hcls

/-- The references of a unit are names that there are units for. -/
theorem references_subset {name : String} {unit : LoadedUnit}
    (hunit : unitOf env products name = .ok unit) :
    ∀ reference ∈ unit.references, reference ∈ names env products := by
  intro reference hreference
  rcases h.unitOf_cases hunit with ⟨d, file, hclass, rfl, rfl⟩ | ⟨-, cls, hcls, rfl⟩
  · obtain ⟨-, code, hcode, method, argc, hcall⟩ :=
      (references_of_classFile hclass.made).mp hreference
    obtain ⟨_, _, hof⟩ := h.compiled.code_of_mem hclass hcode
    obtain ⟨sig, ⟨entry, hoffers, -⟩, -⟩ := hof.calls _ hcall
    cases hoffers with
    | onRecord hentry =>
      obtain ⟨other, hother, rfl⟩ :=
        (h.compiled.has_iff reference).mp (Registry.has_of_method? hentry)
      exact List.mem_append_left _ (h.mem_of_definition hother)
    -- nothing but native classes is known outside, and those are there under the same name
    | outside hsigname _ hsig _ =>
      obtain ⟨cls, hcls, rfl⟩ := signatures_eq_some h.directories hsig
      have hname := name_of_native? hcls
      rw [← hsigname]
      exact mem_names_of_native (show env.native? cls.name = some cls by rw [hname, hcls])
  · cases hreference

/-! ## Loading a supply -/

/-- A loader of the supply, with everything linked that it has loaded. -/
structure Serves (env : Environment) (products : List Product) (loader : BatchLoader) : Prop where
  sound : Loader.Sound products env (unitOf env products) loader
  linked : loader.AllLinked

omit h in
theorem serves_start (env : Environment) (products : List Product) :
    Serves env products (BatchLoader.start products env) where
  sound := Loader.sound_start products env _
  linked id unit hunit := by simp [BatchLoader.start, Pool.unit?] at hunit

/-- Every name that there is a unit for resolves, and nothing else is loaded. -/
theorem resolve_serves {loader : BatchLoader} (hloader : Serves env products loader)
    (disk : Disk) (name : String) :
    Serves env products (BatchLoader.resolve disk loader name).1 ∧
      (name ∈ names env products → ∃ id, (BatchLoader.resolve disk loader name).2 = .ok id) := by
  by_cases hname : name ∈ names env products
  · -- the bound on the depth counts every product and the native classes
    have hfuel : Loader.missing (names env products) loader.names
        < BatchLoader.depthBound disk loader := by
      have hle : Loader.missing (names env products) loader.names ≤ (names env products).length :=
        List.countP_le_length
      have hlength := length_names_le env products
      rw [BatchLoader.depthBound, hloader.sound.batch]
      omega
    obtain ⟨after, id, hafter, hsound, hextends, -⟩ :=
      Loader.resolveFrom_ok (steady_unitOf h.directories disk products)
        (fun name hname => by
          obtain ⟨unit, hunit⟩ := h.mem_names_iff.mp hname
          exact ⟨unit, hunit, h.references_subset hunit⟩)
        (BatchLoader.depthBound disk loader) hloader.sound hname hfuel
    rw [BatchLoader.resolve, Loader.resolveWithin, hafter]
    exact ⟨⟨hsound, hextends.allLinked hloader.linked⟩, fun _ => ⟨id, rfl⟩⟩
  · refine ⟨?_, fun hmem => absurd hmem hname⟩
    -- a name without a unit is not cached, and the first look for it fails
    have hid : loader.idOf? name = none := by
      refine List.idxOf?_eq_none_iff.mpr fun hmem => hname ?_
      exact h.mem_names_iff.mpr (hloader.sound.mem_names hmem)
    cases hunit : unitOf env products name with
    | ok unit => exact absurd (h.mem_names_iff.mpr ⟨unit, hunit⟩) hname
    | error fault =>
      have hmade := (steady_unitOf h.directories disk products).materialise name
        hloader.sound.batch hloader.sound.ambient
      have hfrom : Loader.resolveFrom (Environment.resolve disk)
          (BatchLoader.depthBound disk loader) loader name = some (loader, .error fault) := by
        rw [BatchLoader.depthBound, Loader.resolveFrom, hid]
        simp only [hmade, hunit]
      rw [BatchLoader.resolve, Loader.resolveWithin, hfrom]
      exact hloader

/-- The pool of a loader holds the batch. -/
theorem holds {loader : BatchLoader} (hloader : Serves env products loader) :
    Holds settings.codeOptions (env.signatures disk) batch loader.pool := by
  -- every unit in the pool was made for its name, and linking left its body alone
  have found : ∀ {id unit}, loader.pool.unit? id = some unit → ∃ made,
      unitOf env products unit.name = .ok made ∧ unit.body = made.body ∧
      loader.names[id]? = some unit.name := by
    intro id unit hunit
    have hid : id < loader.names.length := by
      refine Nat.lt_of_not_le fun hle => ?_
      rw [hloader.sound.unit?_of_le hle] at hunit
      cases hunit
    have hget := List.getElem?_eq_getElem hid
    obtain ⟨other, made, hother, hmade, hbody⟩ := hloader.sound.unit hget
    cases hother.symm.trans hunit
    have hname : unit.name = loader.names[id] :=
      (name_of_body hbody).trans (h.name_of_unitOf hmade)
    exact ⟨made, by rw [hname, hmade], hbody, by rw [hname, hget]⟩
  refine ⟨⟨fun {id unit} hunit d hd hname => ?_, fun {id unit} hunit reference hreference => ?_⟩,
    fun {id unit} hunit hnone => ?_⟩
  · obtain ⟨made, hmade, hbody, -⟩ := found hunit
    obtain ⟨file, hfile⟩ := h.compiled.classFile hd
    have heq := h.unitOf_eq ⟨hd, hfile⟩
    rw [hname, hmade] at heq
    cases heq
    exact ⟨file, ⟨hd, hfile⟩, hbody⟩
  · obtain ⟨target, htarget⟩ := hloader.linked id unit hunit reference hreference
    have hget := hloader.sound.links hunit htarget
    obtain ⟨other, made, hother, hmade, hbody⟩ := hloader.sound.unit hget
    refine ⟨other, target, ?_, hother, ?_⟩
    · rw [Pool.linked?, htarget, Option.bind_some, hother]
    · exact (name_of_body hbody).trans (h.name_of_unitOf hmade)
  · obtain ⟨made, hmade, hbody, -⟩ := found hunit
    rcases h.unitOf_cases hmade with ⟨d, file, hclass, hname, -⟩ | ⟨-, cls, -, rfl⟩
    · exact absurd hname (hnone d hclass.defined)
    · exact ⟨cls, hbody⟩

/-! ## Launching -/

theorem resolveAll_serves (disk : Disk) {requests : List String}
    (hrequests : ∀ name ∈ requests, name ∈ names env products) {loader : BatchLoader}
    (hloader : Serves env products loader) :
    ∃ after, Loader.resolveAll (BatchLoader.resolve disk) loader requests = (after, .ok ()) ∧
      Serves env products after := by
  induction requests generalizing loader with
  | nil => exact ⟨loader, rfl, hloader⟩
  | cons name rest ih =>
    obtain ⟨hafter, hok⟩ := h.resolve_serves hloader disk name
    obtain ⟨id, hid⟩ := hok (hrequests name List.mem_cons_self)
    obtain ⟨last, hlast, hserves⟩ :=
      ih (fun other hother => hrequests other (List.mem_cons_of_mem _ hother)) hafter
    refine ⟨last, ?_, hserves⟩
    rw [Loader.resolveAll]
    split
    · rename_i hfault
      rw [hfault] at hid
      cases hid
    · rename_i hresolved
      rw [hresolved] at hlast
      exact hlast

omit h in
theorem has_of_entryUnit? {σ : Type} {loader : Loader σ} {unit : LoadedUnit}
    (hunit : entryUnit? loader = some unit) :
    loader.pool.Has unit ∧ unit.hasEntryPoint = true := by
  obtain ⟨name, -, hcached⟩ := List.mem_filterMap.mp (List.mem_of_find?_eq_some hunit)
  obtain ⟨id, -, hid⟩ := Option.bind_eq_some_iff.mp hcached
  exact ⟨⟨id, hid⟩, List.find?_some hunit⟩

/-- A launch loads the batch, and starts the program if there is one. -/
theorem launch_eq (loadDisk : Disk) (launchSettings : Settings) (fuel : Nat) (args : List String) :
    ∃ after, Serves env products after ∧
      launch loadDisk launchSettings (.start products env) fuel args =
        match entryUnit? after with
        | some unit => start after fuel unit args
        | none =>
          { loader := after
            info := if launchSettings.bannerPrinted then "" else noEntryPointNotice
            result := .ok .noEntryPoint } := by
  obtain ⟨after, hafter, hserves⟩ := h.resolveAll_serves loadDisk
    (fun name hname => List.mem_append_left _ hname) (serves_start env products)
  refine ⟨after, hserves, ?_⟩
  rw [launch, launchBy]
  rewrite [show (BatchLoader.start products env).batch.map Product.name = products.map Product.name
    from rfl, hafter]
  cases hentry : entryUnit? after with
  | some unit => simp only [hentry]
  | none => simp only [hentry]

/-- A program starts with the entry point of a class of the batch. -/
theorem exists_of_hasEntryPoint {loader : BatchLoader} (hloader : Serves env products loader)
    {unit : LoadedUnit} (hunit : loader.pool.Has unit) (hentry : unit.hasEntryPoint = true) :
    ∃ d ∈ batchDefinitions (infer (env.signatures disk) batch).batch, unit.name = d.name ∧
      ∃ sig, (infer (env.signatures disk) batch).offering (env.signatures disk) d.name sig ∧
        sig.name = "main" ∧ sig.params = [.array .string] := by
  have hpool := h.holds hloader
  obtain ⟨id, hid⟩ := hunit
  have hd : ∃ d ∈ batchDefinitions (infer (env.signatures disk) batch).batch,
      d.name = unit.name := by
    -- native classes have no entry point
    refine Classical.byContradiction fun hnone => ?_
    obtain ⟨cls, hbody⟩ := hpool.native hid fun d hd hname => hnone ⟨d, hd, hname⟩
    rw [LoadedUnit.hasEntryPoint, hbody] at hentry
    cases hentry
  obtain ⟨d, hd, hname⟩ := hd
  obtain ⟨file, hclass, hbody⟩ := hpool.compiled hid d hd hname
  rw [LoadedUnit.hasEntryPoint, hbody] at hentry
  obtain ⟨code, hcode⟩ := Option.isSome_iff_exists.mp hentry
  have hmain : code.signature.isEntryPoint = true := by
    simpa using List.find?_some hcode
  obtain ⟨sig, m, hof⟩ := h.compiled.code_of_mem hclass (List.mem_of_find?_eq_some hcode)
  rw [hof.signature] at hmain
  simp only [MethodSig.isEntryPoint, Bool.and_eq_true, decide_eq_true_eq] at hmain
  exact ⟨d, hd, hname.symm, sig, hof.offered, hmain.1.1, hmain.1.2⟩

/-- A program that starts with a class of the batch never misses the target of a call. -/
theorem invoke_reaches {loader : BatchLoader} (hloader : Serves env products loader)
    {unit : LoadedUnit} (hunit : loader.pool.Has unit) (hentry : unit.hasEntryPoint = true)
    (fuel : Nat) (args : List String) {fault : RuntimeFault} {out : String}
    (hrun : invoke loader.pool fuel unit "main" [.strings args] = some ⟨.error fault, out⟩) :
    fault.missesTarget = false := by
  have hpool := h.holds hloader
  have hnative := nativeOnly_signatures h.directories disk
  obtain ⟨d, hd, hname, sig, hoffer, hsigname, hparams⟩ :=
    h.exists_of_hasEntryPoint hloader hunit hentry
  rw [← hname] at hoffer
  have hargs : [Value.strings args].length = sig.params.length := by
    rw [hparams]
    rfl
  have hgives := enter_gives h.compiled hnative hpool hunit hoffer hargs
  rw [hsigname] at hgives
  unfold invoke at hrun
  split at hrun
  · cases hrun
    exact hgives.error _ ‹_›
  · cases hrun
  · rename_i frame hframe
    have hwork : AtWork settings.codeOptions (env.signatures disk) batch loader.pool frame :=
      hgives.ok _ hframe
    exact run_reaches h.compiled hnative hpool h.few fuel ⟨hwork, List.forall_mem_nil _⟩ hrun

end Supply

end

/-- Once a batch passed inference in an environment without directories of payloads and its classes
were kept, every class of the batch resolves after any requests, a launch never fails to load, and
no call of the program that it runs misses its target. -/
theorem launch_reaches_targets {env : Environment} (hdirs : NoDirectories env) {disk : Disk}
    {batch : List Program} (hclean : (infer (env.signatures disk) batch).diagnostics = [])
    (hfew : FewParams batch) {settings : Settings} (hbackend : settings.backend = .bytecode)
    {reportDisk : Disk} {delivery : Delivery (List Product)} {phase : Phase Unit}
    (hdelivery : deliverBatch reportDisk settings keep { sink := [] }
      (infer (env.signatures disk) batch).batch = (delivery, phase))
    (hok : phase.result = .ok ())
    (hbytes : ∀ product ∈ delivery.sink, product.bytes.length < UInt64.size) :
    let loader := BatchLoader.start (.ofList delivery.sink) env
    (∀ (loadDisk : Disk) (requests : List String),
      ∀ name ∈ delivery.sink.map Product.name,
        ∃ id, (BatchLoader.resolve loadDisk
          (requests.foldl (fun l request => (BatchLoader.resolve loadDisk l request).1) loader)
          name).2 = .ok id) ∧
    ∀ (loadDisk : Disk) (launchSettings : Settings) (fuel : Nat) (args : List String),
      (∀ fault, (launch loadDisk launchSettings loader fuel args).result ≠ .error (.load fault)) ∧
      ∀ fault, (launch loadDisk launchSettings loader fuel args).result
        = .error (.execution fault) → fault.missesTarget = false := by
  have h := supply_of_deliverBatch hdirs hclean hfew hbackend hdelivery hok hbytes
  rw [ofList_eq h.distinct]
  intro loader
  have hstart : Supply.Serves env delivery.sink loader := Supply.serves_start env delivery.sink
  constructor
  · intro loadDisk requests name hname
    -- requests may ask for anything; what they load keeps the loader serving the batch
    have hserves : ∀ (requests : List String) (loader : BatchLoader),
        Supply.Serves env delivery.sink loader → Supply.Serves env delivery.sink
          (requests.foldl (fun l request => (BatchLoader.resolve loadDisk l request).1)
            loader) := by
      intro requests
      induction requests with
      | nil => exact fun _ hloader => hloader
      | cons request rest ih =>
        exact fun loader hloader => ih _ (h.resolve_serves hloader loadDisk request).1
    exact (h.resolve_serves (hserves requests loader hstart) loadDisk name).2
      (List.mem_append_left _ hname)
  · intro loadDisk launchSettings fuel args
    obtain ⟨after, hserves, hlaunch⟩ := h.launch_eq loadDisk launchSettings fuel args
    rw [hlaunch]
    split
    · rename_i unit hunit
      obtain ⟨hheld, hentry⟩ := Supply.has_of_entryUnit? hunit
      unfold start
      split
      · exact ⟨fun _ h => (nomatch h), fun _ h => (nomatch h)⟩
      · rename_i fault out hrun
        refine ⟨fun _ h => (nomatch h), fun found hresult => ?_⟩
        cases hresult
        exact h.invoke_reaches hserves hheld hentry fuel args hrun
      · exact ⟨fun _ h => (nomatch h), fun _ h => (nomatch h)⟩
    · exact ⟨fun _ h => (nomatch h), fun _ h => (nomatch h)⟩

/-- Two units whose classes call each other until a count is down to nothing. -/
def parityUnits : List Program :=
  [("even", "class Even\n  def self.main(args: String[]): void\n    puts of(3)\n  end\n" ++
      "  def self.of(n: int): boolean\n    if n == 0\n      return true\n    end\n" ++
      "    Odd.of(n - 1)\n  end\nend\n"),
    ("odd", "class Odd\n  def self.of(n: int): boolean\n    if n == 0\n      return false\n" ++
      "    end\n    Even.of(n - 1)\n  end\nend\n")].filterMap fun unit =>
      (readUnit false unit.1 unit.2).toOption

theorem launch_of_parityUnits :
    let typed := infer (Environment.signatures {} {}) parityUnits
    let made := deliverBatch {} {} keep { sink := [] } typed.batch
    let loader := BatchLoader.start (.ofList made.1.sink) {}
    made.1.sink.map Product.name = ["Even", "Odd"] ∧
    (launch {} {} loader 200 []).out = "false\n" ∧
    (∀ requests : List String, ∀ name ∈ ["Even", "Odd"],
      ∃ id, (BatchLoader.resolve {}
        (requests.foldl (fun l request => (BatchLoader.resolve {} l request).1) loader) name).2 =
          .ok id) ∧
    ∀ fuel args,
      (∀ fault, (launch {} {} loader fuel args).result ≠ .error (.load fault)) ∧
      ∀ fault, (launch {} {} loader fuel args).result = .error (.execution fault) →
        fault.missesTarget = false := by
  intro typed made loader
  have hcomputed : typed.diagnostics = [] ∧ FewParams parityUnits ∧ made.2.result = .ok () ∧
      (∀ product ∈ made.1.sink, product.bytes.length < UInt64.size) ∧
      made.1.sink.map Product.name = ["Even", "Odd"] ∧
      (launch {} {} loader 200 []).out = "false\n" := by
    decide +kernel
  obtain ⟨hclean, hfew, hok, hbytes, hnames, hout⟩ := hcomputed
  obtain ⟨hresolves, hlaunch⟩ :=
    launch_reaches_targets ⟨rfl, rfl⟩ hclean hfew rfl (Prod.eta made).symm hok hbytes
  refine ⟨hnames, hout, fun requests name hname => ?_, hlaunch {} {}⟩
  exact hresolves {} requests name (hnames ▸ hname)

end StackScript.Session

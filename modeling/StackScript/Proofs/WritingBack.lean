import Mathlib.Data.List.Nodup
import StackScript.Proofs.Filling
import StackScript.Proofs.Payloads

/-!
# Written classes are read back

The classes of a batch are written below a destination with nothing in it, and an environment that
looks there finds them. Every class has a name that can be spelled, whether it is written in a unit
or made for its loose code (`spelled_batchDefinitions`), so writing fills the destination, and what
fills a destination is what is found in it (`Filled.readsBack`). The writing is never refused
(`HandedOver.filled`).
-/

namespace StackScript.Session

open StackScript.Code StackScript.Files StackScript.Loading StackScript.Syntax StackScript.Text
  StackScript.Typing

/-! ## The names of a batch -/

mutual

theorem qualified_definitions (file : String) (package : Option String) :
    ∀ (enclosing : Option String) (c : ClassDef),
      (∀ outer, enclosing = some outer → ∃ around, Qualified outer package around) → c.Plain →
        ∀ d ∈ definitions file package enclosing c, ∃ around, Qualified d.name package around
  | enclosing, .mk name members _ _, houter, hplain => by
    have hname : Qualified (qualify package enclosing name.name) package enclosing := by
      cases enclosing with
      | none => exact .top hplain.1
      | some outer =>
        obtain ⟨around, houter⟩ := houter outer rfl
        exact .nested houter hplain.1
    refine List.forall_mem_cons.mpr ⟨⟨enclosing, hname⟩, ?_⟩
    exact qualified_memberDefinitions file package _ members ⟨enclosing, hname⟩ hplain.2

theorem qualified_memberDefinitions (file : String) (package : Option String) :
    ∀ (outer : String) (members : List Member), (∃ around, Qualified outer package around) →
      PlainMembers members →
        ∀ d ∈ memberDefinitions file package outer members,
          ∃ around, Qualified d.name package around
  | _, [], _, _ => nofun
  | outer, .method _ :: rest, houter, hplain =>
    qualified_memberDefinitions file package outer rest houter hplain
  | outer, .nested c :: rest, houter, hplain =>
    List.forall_mem_append.mpr
      ⟨qualified_definitions file package (some outer) c (fun _ h => Option.some.inj h ▸ houter)
        hplain.1, qualified_memberDefinitions file package outer rest houter hplain.2⟩

end

/-- The names of the classes of a batch can be spelled, as those are of units that were read. -/
theorem spelled_batchDefinitions {disk : Disk} {settings : Settings} {units : List SourceUnit}
    {programs : List Program}
    (hread : List.Forall₂ (fun u program => (readSource disk settings u).result = .ok program)
      units programs) {d : Definition} (hd : d ∈ batchDefinitions programs) :
    ∃ words last, Spelled words last d.name := by
  obtain ⟨program, hprogram, hd⟩ := List.mem_flatMap.mp hd
  obtain ⟨c, hc, hd⟩ := List.mem_flatMap.mp hd
  obtain ⟨unit, -, hunit⟩ := exists_of_forall₂ hread hprogram
  obtain ⟨text, htext⟩ := readUnit_of_readSource hunit
  obtain ⟨around, hname⟩ :=
    qualified_definitions program.source program.packageName none c nofun
      (plain_readUnit htext c hc) d hd
  exact spelled_of_qualified hname (dotted_readUnit htext)

/-- Typing changes no name. -/
theorem spelled_infer {disk : Disk} {settings : Settings} {units : List SourceUnit}
    {programs : List Program}
    (hread : List.Forall₂ (fun u program => (readSource disk settings u).result = .ok program)
      units programs) (externals : Externals) {d : Definition}
    (hd : d ∈ batchDefinitions (infer externals programs).batch) :
    ∃ words last, Spelled words last d.name := by
  have hmem : d.name ∈ (batchDefinitions programs).map Definition.name := by
    rw [← names_infer externals programs]
    exact List.mem_map_of_mem hd
  obtain ⟨before, hbefore, hname⟩ := List.mem_map.mp hmem
  rw [← hname]
  exact spelled_batchDefinitions hread hbefore

/-! ## What is found -/

/-- What a destination holds behind the writing of class files, and what environments find there. -/
structure ReadsBack (destination : String) (before after : Disk) (files : List ClassFile) :
    Prop where
  /-- No file of a class is that of another class or a directory above it. -/
  apart : ∀ a ∈ files, ∀ b ∈ files,
    before.placeOf (join destination (relativePath a.name Backend.bytecode.extension)) <+:
      before.placeOf (join destination (relativePath b.name Backend.bytecode.extension)) → a = b
  /-- Whatever was on the disk is there as it was. -/
  kept : Disk.Extends before after
  /-- Of files, the disk has those that it had and those of the classes, with their payloads. -/
  contents : ∀ place bytes, after.kind? place = some (.file bytes) ↔
    before.kind? place = some (.file bytes) ∨ ∃ file ∈ files, bytes = file.payload ∧
      place = before.placeOf (join destination (relativePath file.name Backend.bytecode.extension))
  /-- Each class is found as it was made. -/
  found : ∀ env : Environment, env.classpath = [destination] → ∀ file ∈ files,
    Countable file.payload → env.classFile? after file.name = .ok (some file)
  /-- No other class is found whose name is built from names of the grammar. -/
  absent : ∀ env : Environment, env.classpath = [destination] → env.loadPath = [] →
    ∀ name package around, Qualified name package around → (∀ p ∈ package, Dotted p) →
      name ∉ files.map ClassFile.name → env.classFile? after name = .ok none

section

variable {disk before after : Disk} {destination extension : String} {place words : List String}
  {products : List Product} {product : Product} {last : String}

/-- The file of a product has its bytes. -/
theorem Filled.readFile_eq (h : Filled destination before place products disk)
    (hext : IsWord extension) (hproduct : product ∈ products) (hfiled : IsFiled extension product) :
    disk.readFile (join destination product.path) = .ok product.bytes := by
  obtain ⟨hpath, words, last, hspelled⟩ := hfiled
  obtain ⟨made, hmade, hopen, hsame⟩ := h.opens
  obtain rfl := hsame (List.ne_nil_of_mem hproduct)
  have hplace := placeOf_join_relativePath hspelled hext h.place_eq
  have hpieces := (piecesBy_join_relativePath destination hspelled hext).1
  have hbase := base_join_relativePath made destination hspelled hext
  have hfile := (h.files _ _).mpr (.inr ⟨product, hproduct, rfl, rfl⟩)
  rw [hpath, hplace] at hfile
  rw [Disk.readFile_eq_ok, hpath, hpieces, hbase, List.append_assoc]
  refine ⟨?_, _, hopen.walks.append (Disk.Walks.of_names ?_ ?_), hfile⟩
  · apply ne_empty_of_mem_piecesBy (isName_file hext last).ne_empty
    rw [hpieces]
    simp
  · intro part hpart
    exact isName_of_mem hspelled hext hpart
  · rw [hfile]
    exact Option.some_ne_none _

/-- Only the files of products are found. -/
theorem Filled.mem_of_isFile (h : Filled destination before place products disk)
    (hext : IsWord extension) (hfiled : ∀ product ∈ products, IsFiled extension product)
    {name : String} (hname : Spelled words last name)
    (hfile : disk.isFile (join destination (relativePath name extension)) = true) :
    name ∈ products.map Product.name := by
  obtain ⟨bytes, hread⟩ := Disk.isFile_iff.mp hfile
  obtain ⟨-, found, hwalk, hkind⟩ := Disk.readFile_eq_ok.mp hread
  have hfollow : place = Disk.follow (disk.base destination) (opened destination) := by
    rw [Disk.base_eq h.kept.here]
    exact h.place_eq
  have hplace := placeOf_join_relativePath hname hext hfollow
  rw [Disk.placeOf_eq_follow, ← hwalk.eq_follow] at hplace
  rw [hplace] at hkind
  obtain ⟨product, hproduct, -, words', last', hspelled, heq⟩ := h.file_below hext hfiled hkind
  have hsame : name = product.name :=
    hname.unique hspelled ⟨[], (List.append_nil _).trans heq⟩
  rw [hsame]
  exact List.mem_map_of_mem hproduct

theorem path_ofClassFile (backend : Backend) (file : ClassFile) :
    (Product.ofClassFile backend file).path = relativePath file.name backend.extension := by
  dsimp only [Product.ofClassFile]

theorem bytes_ofClassFile (file : ClassFile) :
    (Product.ofClassFile .bytecode file).bytes = file.payload := rfl

/-- What fills a destination is what is found in it. -/
theorem Filled.readsBack {files : List ClassFile}
    (h : Filled destination before place (files.map (Product.ofClassFile .bytecode)) after)
    (hspelled : ∀ file ∈ files, ∃ words last, Spelled words last file.name)
    (hmagic : ∀ file ∈ files, file.magic = ClassFile.rightMagic)
    (hdistinct : (files.map ClassFile.name).Nodup) : ReadsBack destination before after files := by
  have hext : IsWord Backend.bytecode.extension := ⟨by decide, by decide⟩
  have hfiled : ∀ product ∈ files.map (Product.ofClassFile .bytecode),
      IsFiled Backend.bytecode.extension product := by
    intro product hproduct
    obtain ⟨file, hfile, rfl⟩ := List.mem_map.mp hproduct
    exact ⟨path_ofClassFile .bytecode file, hspelled file hfile⟩
  have hread : ∀ file ∈ files,
      after.readFile (join destination (relativePath file.name Backend.bytecode.extension)) =
        .ok file.payload := by
    intro file hfile
    have hproduct := List.mem_map_of_mem (f := Product.ofClassFile .bytecode) hfile
    have hbytes := h.readFile_eq hext hproduct (hfiled _ hproduct)
    rwa [path_ofClassFile, bytes_ofClassFile] at hbytes
  constructor
  -- the place of a file tells the words of its name, so no file lies below another
  · intro a ha b hb habove
    obtain ⟨words, last, hname⟩ := hspelled a ha
    obtain ⟨words', last', hname'⟩ := hspelled b hb
    rw [placeOf_join_relativePath hname hext h.place_eq,
      placeOf_join_relativePath hname' hext h.place_eq, List.prefix_append_right_inj] at habove
    exact List.inj_on_of_nodup_map hdistinct ha hb (hname.unique hname' habove)
  · exact h.kept
  · intro other bytes
    rw [h.files]
    simp only [List.mem_map, exists_exists_and_eq_and, path_ofClassFile, bytes_ofClassFile]
  · intro env hclasspath file hfile hcountable
    have hpayload := hread file hfile
    have hlocate : env.locate after file.name =
        some (join destination (relativePath file.name Backend.bytecode.extension)) := by
      have hisFile := Disk.isFile_iff.mpr ⟨_, hpayload⟩
      simp only [Environment.locate, hclasspath, List.singleton_append, List.map_cons,
        List.find?_cons, hisFile]
    unfold Environment.classFile?
    simp only [hlocate, hpayload, ofPayload_payload hcountable (hmagic file hfile), if_true]
  · intro env hclasspath hloadPath name package around hname hpackage hnew
    obtain ⟨words, last, hname⟩ := spelled_of_qualified hname hpackage
    have hnot : after.isFile (join destination (relativePath name Backend.bytecode.extension)) =
        false := by
      rw [← Bool.not_eq_true]
      intro hisFile
      apply hnew
      have hmem := h.mem_of_isFile hext hfiled hname hisFile
      rwa [List.map_map] at hmem
    have hlocate : env.locate after name = none := by
      simp only [Environment.locate, hclasspath, hloadPath, List.append_nil, List.map_cons,
        List.map_nil, List.find?_cons, hnot, List.find?_nil]
    unfold Environment.classFile?
    simp only [hlocate]

end

/-! ## What is written -/

section

variable {disk last after : Disk} {destination : String} {options : Options}
  {ds : List Definition} {taken : List Product} {result : Except SessionFault Unit}

/-- Products of definitions come of class files. -/
theorem exists_classFiles (h : List.Forall₂ (IsProductOf options) ds taken) :
    ∃ files, taken = files.map (Product.ofClassFile options.backend) ∧
      List.Forall₂ (fun d file => d.classFile options = .ok file) ds files := by
  induction h with
  | nil => exact ⟨[], rfl, .nil⟩
  | cons hfirst _ ih =>
    obtain ⟨file, hfile, rfl⟩ := hfirst
    obtain ⟨files, rfl, hfiles⟩ := ih
    exact ⟨file :: files, rfl, .cons hfile hfiles⟩

theorem name_of_isProductOf {d : Definition} {product : Product}
    (h : IsProductOf options d product) : product.name = d.name := by
  obtain ⟨file, hfile, rfl⟩ := h
  exact name_of_classFile hfile

theorem names_of_classFiles {files : List ClassFile}
    (h : List.Forall₂ (fun d file => d.classFile options = .ok file) ds files) :
    files.map ClassFile.name = ds.map Definition.name := by
  induction h with
  | nil => rfl
  | cons hfirst _ ih => rw [List.map_cons, List.map_cons, name_of_classFile hfirst, ih]

theorem names_of_made (h : List.Forall₂ (IsProductOf options) ds taken) :
    taken.map Product.name = ds.map Definition.name := by
  obtain ⟨files, rfl, hfiles⟩ := exists_classFiles h
  rw [← names_of_classFiles hfiles, List.map_map]
  rfl

/-- A name that a definition has and one before it occurs more than once. -/
theorem one_lt_count {d : Definition} {n : Nat} (hnext : ds[n]? = some d)
    (hfront : d.name ∈ (ds.take n).map Definition.name) :
    1 < (ds.map Definition.name).count d.name := by
  have hback : d ∈ ds.drop n := by
    apply List.mem_of_getElem? (i := 0)
    rw [List.getElem?_drop]
    exact hnext
  have hcount := List.count_pos_iff.mpr hfront
  have hmore := List.count_pos_iff.mpr (List.mem_map_of_mem (f := Definition.name) hback)
  rw [← List.take_append_drop n ds, List.map_append, List.count_append]
  omega

theorem isWord_extension (backend : Backend) : IsWord backend.extension := by
  cases backend <;> exact ⟨by decide, by decide⟩

/-- A product of a definition has the path of its class. -/
theorem isFiled_of_isProductOf {d : Definition} {product : Product}
    (h : IsProductOf options d product) (hspelled : ∃ words last, Spelled words last d.name) :
    IsFiled options.backend.extension product := by
  have hname := name_of_isProductOf h
  obtain ⟨file, -, rfl⟩ := h
  refine ⟨path_ofClassFile options.backend file, ?_⟩
  rw [hname]
  exact hspelled

/-- Classes that are handed over to a fresh destination fill it, and none of them is refused: what
ends the handing over is a definition without code, or two of one name. -/
theorem HandedOver.filled
    (h : HandedOver (writeBelow destination) options [] disk ds taken last after result)
    (hspelled : ∀ d ∈ ds, ∃ words last, Spelled words last d.name)
    (hfresh : Fresh disk destination) :
    (∃ place, Filled destination disk place taken after) ∧
      (result = .ok () ∨
        (∃ d ∈ ds, ∃ fault, d.classFile options = .error fault ∧ result = .error (.code fault)) ∨
        ∃ name, 1 < (ds.map Definition.name).count name ∧
          result = .error (.duplicateClass name)) := by
  have hext := isWord_extension options.backend
  have hfiled : ∀ product ∈ taken, IsFiled options.backend.extension product := by
    intro product hproduct
    obtain ⟨d, hd, hmade⟩ := exists_of_forall₂ h.made hproduct
    exact isFiled_of_isProductOf hmade (hspelled d (List.take_subset _ _ hd))
  obtain ⟨place, hempty⟩ := hfresh.filled
  have hlast := hempty.of_takes hext hfiled h.distinct h.takes
  rw [List.nil_append] at hlast
  have hstops := h.stops
  generalize hnext : ds[taken.length]? = next at hstops
  cases hstops with
  | done => exact ⟨⟨place, hlast⟩, .inl rfl⟩
  | faulty hfault =>
    exact ⟨⟨place, hlast⟩, .inr (.inl ⟨_, List.mem_of_getElem? hnext, _, hfault, rfl⟩)⟩
  | @twice d product hmade hseen =>
    rw [List.append_nil, names_of_made h.made, name_of_isProductOf hmade] at hseen
    refine ⟨⟨place, hlast⟩, .inr (.inr ⟨d.name, one_lt_count hnext hseen, ?_⟩)⟩
    rw [name_of_isProductOf hmade]
  | @refused d product after fault hmade hnew hrefused =>
    -- a product with a new name is accepted
    rw [List.append_nil] at hnew
    obtain ⟨next, haccepts, -⟩ := hlast.accepts hext hfiled
      (isFiled_of_isProductOf hmade (hspelled d (List.mem_of_getElem? hnext))) hnew
    rw [hrefused] at haccepts
    cases haccepts

end

/-- The classes of a batch in which nothing is wrong are written below a fresh destination as they
come, until one has no code or the name of one before it, and they are read back: each written class
has a file of its own that is neither that of another class nor a directory above it, nothing that
was on the disk is lost, an environment that looks into the destination finds each class exactly as
it was made, and no other class of a package and plain names. -/
theorem written_classes_are_read_back {disk : Disk} {settings : Settings} {env : Environment}
    {destination : String} {units : List SourceUnit} {programs : List Program}
    (hbackend : settings.backend = .bytecode)
    (hread : List.Forall₂ (fun u program => (readSource disk settings u).result = .ok program)
      units programs)
    (hclean : (infer (env.signatures disk) programs).diagnostics = [])
    (hfresh : Fresh disk destination) :
    let ds := batchDefinitions (infer (env.signatures disk) programs).batch
    let options := settings.codeOptions
    let outcome := produce disk settings env (writeBelow destination) disk units
    (outcome.2.result = .ok () ∨
      (∃ d ∈ ds, ∃ fault, d.classFile options = .error fault ∧
        outcome.2.result = .error (.code fault)) ∨
      ∃ name, 1 < (ds.map Definition.name).count name ∧
        outcome.2.result = .error (.duplicateClass name)) ∧
    ∃ files, List.Forall₂ (fun d file => d.classFile options = .ok file)
        (ds.take files.length) files ∧
      (files.length = ds.length ↔ outcome.2.result = .ok ()) ∧
      ReadsBack destination disk outcome.1 files := by
  intro ds options outcome
  obtain ⟨taken, last, hhanded⟩ :=
    handedOver_produce (writeBelow destination) disk disk settings hread hclean
  have hspelled : ∀ d ∈ ds, ∃ words last, Spelled words last d.name := by
    intro d hd
    exact spelled_infer hread (env.signatures disk) hd
  obtain ⟨⟨place, hfilled⟩, hends⟩ := hhanded.filled hspelled hfresh
  refine ⟨hends, ?_⟩
  obtain ⟨files, hfiles, hmade⟩ := exists_classFiles hhanded.made
  -- as many definitions were handed over as class files were made
  have hlength : taken.length = files.length := by
    rw [hfiles, List.length_map]
  rw [hlength] at hmade
  have hwhole := hhanded.whole_iff
  rw [hlength] at hwhole
  refine ⟨files, hmade, hwhole, ?_⟩
  have hbytecode : options.backend = .bytecode := hbackend
  rw [hbytecode] at hfiles
  rw [hfiles] at hfilled
  apply hfilled.readsBack
  · intro file hfile
    obtain ⟨d, hd, hmade⟩ := exists_of_forall₂ hmade hfile
    rw [name_of_classFile hmade]
    exact hspelled d (List.take_subset _ _ hd)
  · intro file hfile
    obtain ⟨d, -, hmade⟩ := exists_of_forall₂ hmade hfile
    exact magic_of_classFile hmade
  · have hdistinct := hhanded.distinct
    rw [hfiles, List.map_map] at hdistinct
    exact hdistinct

/-- A unit of a package, with a class, one nested in it, and loose code. -/
def boxUnit : SourceUnit where
  name := "box.mirah"
  origin := .inline
    "package app.parts\nclass Box\n  class Lid\n  end\n  def self.one\n    1\n  end\nend\nputs Box.one\n"

/-- The program of the unit. -/
def boxPrograms : List Program := (readSource {} {} boxUnit).result.toOption.toList

theorem boxUnit_is_read_back :
    List.Forall₂ (fun u program => (readSource {} {} u).result = .ok program) [boxUnit]
        boxPrograms ∧
      (infer (({} : Environment).signatures {}) boxPrograms).diagnostics = [] ∧ Fresh {} "out" ∧
      let outcome := produce {} {} {} (writeBelow "out") {} [boxUnit]
      outcome.2.result = .ok () ∧ ∃ files,
        files.map ClassFile.name = ["app.parts.Box", "app.parts.Box$Lid"] ∧
        ReadsBack "out" {} outcome.1 files := by
  have hread : List.Forall₂ (fun u program => (readSource {} {} u).result = .ok program) [boxUnit]
      boxPrograms := by
    have hok : (readSource {} {} boxUnit).result.isOk = true := by decide +kernel
    cases hresult : (readSource {} {} boxUnit).result with
    | error fault =>
      rw [hresult] at hok
      cases hok
    | ok program =>
      rw [boxPrograms, hresult]
      exact .cons hresult .nil
  have hclean : (infer (({} : Environment).signatures {}) boxPrograms).diagnostics = [] := by
    decide +kernel
  have hfresh : Fresh {} "out" := ⟨{ root := .dir [("out", .dir [])] }, rfl, rfl⟩
  obtain ⟨-, files, hmade, hwhole, hback⟩ :=
    written_classes_are_read_back rfl hread hclean hfresh
  have hresult : (produce {} {} {} (writeBelow "out") {} [boxUnit]).2.result = .ok () := by
    have hok : (produce {} {} {} (writeBelow "out") {} [boxUnit]).2.result.isOk = true := by
      decide +kernel
    revert hok
    generalize (produce {} {} {} (writeBelow "out") {} [boxUnit]).2.result = result
    intro hok
    cases result with
    | error fault => cases hok
    | ok done => rfl
  refine ⟨hread, hclean, hfresh, hresult, files, ?_, hback⟩
  rw [names_of_classFiles hmade, List.take_of_length_le (Nat.le_of_eq (hwhole.mpr hresult).symm)]
  decide +kernel

end StackScript.Session

import Mathlib.Data.List.Dedup
import Mathlib.Data.List.Perm.Subperm
import StackScript.Proofs.Directories
import StackScript.Proofs.Launching
import StackScript.Proofs.LoadingOrder

/-!
# How deep loading goes

A class from outside a batch is native, or it has a payload file of its own: its file holds its
name. So there are no more names with units than classes in the batch, native classes and files
(`length_le_of_supplied`), and the depth that an environment allows is never reached. What launches
do in general is thus what a launch from an environment does (`launch_from_environment`).
-/

namespace StackScript.Files.Entry

/-! ## Files of a tree -/

mutual

/-- A tree has as many files as are counted in it. -/
theorem length_files : ∀ (entry : Entry) (place : List String),
    (entry.files place).length = entry.fileCount
  | .file _, _ => rfl
  | .dir children, place => length_filesAmong children place

theorem length_filesAmong : ∀ (children : List (String × Entry)) (place : List String),
    (filesAmong place children).length = fileCounts children
  | [], _ => rfl
  | (name, child) :: rest, place => by
    rw [filesAmong, fileCounts, List.length_append, length_files child, length_filesAmong rest]

end

theorem mem_filesAmong {children : List (String × Entry)} {name : String} {child : Entry}
    (hchild : (name, child) ∈ children) {place : List String} {file : List String × List UInt8}
    (hfile : file ∈ child.files (place ++ [name])) : file ∈ filesAmong place children := by
  induction children with
  | nil => cases hchild
  | cons first rest ih =>
    obtain ⟨other, entry⟩ := first
    rw [filesAmong]
    rcases List.mem_cons.mp hchild with heq | hrest
    · cases heq
      exact List.mem_append_left _ hfile
    · exact List.mem_append_right _ (ih hrest)

/-- A file that names lead to is one of the files of the tree. -/
theorem mem_files_of_at? {names : List String} {entry : Entry} {bytes : List UInt8}
    (h : entry.at? names = some (.file bytes)) (place : List String) :
    (place ++ names, bytes) ∈ entry.files place := by
  induction names generalizing entry place with
  | nil =>
    rw [at?] at h
    cases h
    rw [List.append_nil]
    exact List.mem_singleton_self _
  | cons name names ih =>
    rw [at?] at h
    obtain ⟨child, hlookup, hchild⟩ := Option.bind_eq_some_iff.mp h
    cases entry with
    | file bytes => cases hlookup
    | dir children =>
      have hfile := ih hchild (place ++ [name])
      rw [List.append_assoc, List.singleton_append] at hfile
      exact mem_filesAmong (lookup_mem hlookup) hfile

end StackScript.Files.Entry

namespace StackScript.Loading

open StackScript.Code StackScript.Files StackScript.Machine StackScript.Session

/-! ## Names that have units -/

/-- A file that can be read is one of the files of the disk. -/
theorem mem_files_of_readFile {disk : Disk} {path : String} {bytes : List UInt8}
    (h : disk.readFile path = .ok bytes) : ∃ place, (place, bytes) ∈ disk.root.files [] := by
  obtain ⟨-, place, -, hkind⟩ := Disk.readFile_eq_ok.mp h
  exact ⟨place, Entry.mem_files_of_at? (Disk.kind?_eq_file_iff.mp hkind) []⟩

/-- The class names in the payload files of a disk. -/
def payloadNames (disk : Disk) : List String :=
  (disk.root.files []).filterMap fun file =>
    ((ClassFile.ofPayload file.2).toOption).map ClassFile.name

/-- The names of the native classes. -/
def nativeNames : List String := [NativeClass.integer, .math, .text].map NativeClass.name

theorem mem_payloadNames {env : Environment} {disk : Disk} {name : String} {file : ClassFile}
    (h : env.classFile? disk name = .ok (some file)) : name ∈ payloadNames disk := by
  rw [Environment.classFile?] at h
  split at h
  · cases h
  · split at h
    · cases h
    · rename_i bytes hread
      split at h
      · cases h
      · rename_i decoded hdecoded
        split at h
        · rename_i hname
          -- the file holds the name of its class, and so it has no other class
          obtain ⟨place, hplace⟩ := mem_files_of_readFile hread
          refine List.mem_filterMap.mpr ⟨_, hplace, ?_⟩
          rw [hdecoded, ← hname]
          rfl
        · cases h

/-- A name that has a unit is that of a class of the batch, of a native class or of a payload. -/
theorem mem_of_supplies {disk : Disk} {batch : Batch} {env : Environment} {name : String}
    {unit : LoadedUnit} (h : Supplies (Environment.resolve disk) batch env name unit) :
    name ∈ batch.map Product.name ++ (nativeNames ++ payloadNames disk) := by
  cases h with
  | @batch product file hproduct _ =>
    have hname : product.name = name := by simpa using List.find?_some hproduct
    rw [← hname]
    exact List.mem_append_left _ (List.mem_map_of_mem (List.mem_of_find?_eq_some hproduct))
  | ambient _ hunit =>
    apply List.mem_append_right
    rw [Environment.resolve] at hunit
    split at hunit
    · rename_i cls hcls
      rw [← name_of_native? hcls]
      exact List.mem_append_left _ (List.mem_map_of_mem (by cases cls <;> simp))
    · split at hunit
      · cases hunit
      · cases hunit
      · rename_i hfile
        exact List.mem_append_right _ (mem_payloadNames hfile)

/-- There are no more names with units than classes in the batch, native classes and files. -/
theorem length_le_of_supplied {disk : Disk} {batch : Batch} {env : Environment}
    {names : List String} (hnodup : names.Nodup)
    (h : ∀ name ∈ names, ∃ unit, Supplies (Environment.resolve disk) batch env name unit) :
    names.length ≤ batch.length + disk.root.fileCount + 3 := by
  have hsubset : names ⊆ batch.map Product.name ++ (nativeNames ++ payloadNames disk) := by
    intro name hname
    obtain ⟨unit, hunit⟩ := h name hname
    exact mem_of_supplies hunit
  have hle := (List.subperm_of_subset hnodup hsubset).length_le
  have hpayloads : (payloadNames disk).length ≤ disk.root.fileCount := by
    rw [← Entry.length_files disk.root []]
    exact List.length_filterMap_le _ _
  have hnative : nativeNames.length = 3 := rfl
  rw [List.length_append, List.length_append, List.length_map, hnative] at hle
  omega

/-- A launch from an environment loads the batch in depth-first order and starts the first class of
the batch that has a main method. The bound on the depth of loading plays no part in it. -/
theorem launch_from_environment {disk : Disk} {batch : Batch} {env : Environment}
    {known : List String} (h : Resolvable (Environment.resolve disk) batch env known)
    (settings : Settings) (fuel : Nat) (args : List String) :
    ∃ loader, Drawn (Environment.resolve disk) batch env loader ∧
      DepthFirst loader.referencesOf [] (batch.map Product.name) loader.names ∧
      StartsFirst batch settings fuel args loader
        (launch disk settings (.start batch env) fuel args) := by
  -- repeated names do not count
  have hdistinct : Resolvable (Environment.resolve disk) batch env known.dedup := by
    refine ⟨fun product hproduct => List.mem_dedup.mpr (h.names product hproduct), ?_⟩
    intro state hstate name hname
    obtain ⟨unit, hunit, hreferences⟩ := h.units state hstate name (List.mem_dedup.mp hname)
    exact ⟨unit, hunit, fun other hother => List.mem_dedup.mpr (hreferences other hother)⟩
  have hlength : known.dedup.length ≤ batch.length + disk.root.fileCount + 3 := by
    have hsupplied : ∀ name ∈ known.dedup, ∃ unit,
        Supplies (Environment.resolve disk) batch env name unit := by
      intro name hname
      obtain ⟨unit, hunit, -⟩ := hdistinct.units env .refl name hname
      exact ⟨unit, hunit⟩
    exact length_le_of_supplied (List.nodup_dedup known) hsupplied
  obtain ⟨loader, hdrawn, hvisit, hresolves⟩ := exists_loadsDepthFirst hdistinct
  have hall : ∀ name ∈ batch.map Product.name, name ∈ loader.names := by
    intro name hname
    simpa using hvisit.closed.1 name hname
  have hdepth : ∀ loader : BatchLoader, loader.batch = batch →
      known.dedup.length < BatchLoader.depthBound disk loader := by
    intro other hother
    rw [BatchLoader.depthBound, hother]
    omega
  exact ⟨loader, hdrawn, hvisit,
    startsFirst_of_resolveAll hdrawn hall (hresolves _ hdepth) settings fuel args⟩

end StackScript.Loading

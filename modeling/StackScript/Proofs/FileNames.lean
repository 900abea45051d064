import StackScript.Proofs.Basics
import StackScript.Proofs.Directories
import StackScript.Session.Sources

/-!
# Names of files

On a tidy disk (`Entry.Tidy`) every file and directory has a name that is a single component of a
path, and no name comes twice in a directory. So a path that leads to a directory, with a name
joined to it, leads to what the directory holds under the name (`entry_join_eq_ok`), and its file
name is that name (`fileName?_join`). What is found below a directory is found one name after the
other (`below_concat_iff`).
-/

namespace StackScript.Files

open StackScript.Text

/-! ## Names -/

/-- A name of a file: a component that leads downwards and has no slash. -/
structure IsFileName (name : String) : Prop extends IsName name where
  noSlash : '/' ∉ name.toList

instance (name : String) : Decidable (IsFileName name) :=
  decidable_of_iff (¬ IsIdle name ∧ name ≠ ".." ∧ '/' ∉ name.toList)
    ⟨fun h => ⟨⟨h.1, h.2.1⟩, h.2.2⟩, fun h => ⟨h.active, h.notUp, h.noSlash⟩⟩

namespace IsFileName

variable {name : String}

theorem isAbsolute_eq (h : IsFileName name) : isAbsolute name = false :=
  isAbsolute_of_not_mem h.noSlash

theorem piecesBy_join (h : IsFileName name) (path : String) :
    piecesBy '/' (join path name) = opened path ++ [name] := by
  rw [Files.piecesBy_join h.isAbsolute_eq, piecesBy_of_not_mem h.noSlash]

theorem join_ne_empty (h : IsFileName name) (path : String) : join path name ≠ "" := by
  intro hempty
  have hpieces := h.piecesBy_join path
  rw [hempty, show piecesBy '/' "" = [] ++ [""] from rfl] at hpieces
  exact h.ne_empty (List.append_inj_right' hpieces rfl |> List.singleton_inj.mp).symm

/-- The file name of a path with a name joined to it. -/
theorem fileName?_join (h : IsFileName name) (path : String) :
    fileName? (join path name) = some name := by
  have hlast : (steps (join path name)).getLast? = some name := by
    rw [steps, h.piecesBy_join, List.filter_append]
    have hname : [name].filter (fun part => part ≠ "" ∧ part ≠ ".") = [name] := by
      simpa [not_or] using h.active
    rw [hname, List.getLast?_concat]
  unfold fileName?
  rw [hlast]
  split
  · rename_i hup
    exact absurd (Option.some.inj hup) h.notUp
  · rfl

end IsFileName

/-! ## Tidy trees -/

/-- In every directory of the tree the names are names of files, and no two of them are equal. -/
inductive Entry.Tidy : Entry → Prop where
  | file (bytes : List UInt8) : Tidy (.file bytes)
  | dir {children : List (String × Entry)} (hnames : ∀ child ∈ children, IsFileName child.1)
    (hdistinct : (children.map Prod.fst).Nodup) (hchildren : ∀ child ∈ children, Tidy child.2) :
    Tidy (.dir children)

namespace Entry

theorem Tidy.of_at? {entry found : Entry} (h : entry.Tidy) {names : List String}
    (hat : entry.at? names = some found) : found.Tidy := by
  induction names generalizing entry with
  | nil =>
    obtain rfl := Option.some.inj hat
    exact h
  | cons name names ih =>
    rw [Entry.at?] at hat
    obtain ⟨child, hchild, hbelow⟩ := Option.bind_eq_some_iff.mp hat
    cases h with
    | file bytes => cases hchild
    | dir _ _ hchildren => exact ih (hchildren _ (lookup_mem hchild)) hbelow

end Entry

/-! ## Paths with a name joined to them -/

namespace Disk

variable {disk : Disk} {path name : String} {found : Entry}

/-- A path leads to a directory with or without a slash at its end. -/
theorem walks_opened {place last : List String} (hdir : disk.kind? last = some .dir) :
    disk.Walks place (opened path) last ↔ disk.Walks place (piecesBy '/' path) last := by
  rw [opened]
  split
  · rename_i hslash
    obtain ⟨front, hfront⟩ := List.getLast?_eq_some_iff.mp hslash
    rw [hfront, List.dropLast_concat]
    have hidle : IsIdle "" := .inl rfl
    constructor
    · intro h
      exact h.append (.idle hdir hidle (.nil last))
    · intro h
      -- the empty component behind the last slash leads nowhere
      obtain ⟨between, hbefore, hlast⟩ := h.of_append
      have hstay := hlast.eq_follow
      rw [follow_idle between (List.forall_mem_singleton.mpr hidle)] at hstay
      exact hstay ▸ hbefore
  · exact Iff.rfl

/-- A name joined to the path of a directory leads to what the directory holds under it. -/
theorem entry_join_eq_ok (hpath : path ≠ "") (hname : IsFileName name) :
    disk.entry (join path name) = .ok found ↔
      ∃ children, disk.entry path = .ok (.dir children) ∧ children.lookup name = some found := by
  rw [entry_eq_ok, base, isAbsolute_join hname.isAbsolute_eq, hname.piecesBy_join, ← base]
  constructor
  · rintro ⟨-, place, hwalk, hat⟩
    obtain ⟨between, hbefore, hlast⟩ := hwalk.of_append
    cases hlast with
    | idle _ hidle _ => exact absurd hidle hname.active
    | up _ _ => exact absurd rfl hname.notUp
    | down hdir _ _ hrest =>
      cases hrest
      obtain ⟨children, hchildren⟩ := kind?_eq_dir_iff.mp hdir
      refine ⟨children, entry_eq_ok.mpr ⟨hpath, between, (walks_opened hdir).mp hbefore,
        hchildren⟩, ?_⟩
      rw [Entry.at?_append, hchildren] at hat
      simpa [Entry.at?, Entry.children] using hat
  · rintro ⟨children, hentry, hlookup⟩
    obtain ⟨-, place, hwalk, hat⟩ := entry_eq_ok.mp hentry
    have hdir : disk.kind? place = some .dir := kind?_eq_dir_iff.mpr ⟨children, hat⟩
    have hchild : disk.root.at? (place ++ [name]) = some found := by
      rw [Entry.at?_append, hat]
      simpa [Entry.at?, Entry.children] using hlookup
    have hthere : disk.kind? (place ++ [name]) ≠ none := by
      rw [kind?, Entry.kind?, hchild]
      exact Option.some_ne_none _
    exact ⟨hname.join_ne_empty path, place ++ [name], ((walks_opened hdir).mpr hwalk).append
      (.down hdir hname.toIsName hthere (.nil _)), hchild⟩

/-- What a path leads to on a tidy disk is tidy. -/
theorem tidy_of_entry (hdisk : disk.root.Tidy) (h : disk.entry path = .ok found) :
    found.Tidy := by
  obtain ⟨-, _, -, hat⟩ := entry_eq_ok.mp h
  exact hdisk.of_at? hat

/-! ## Below a directory -/

/-- The names lead down from the directory at a path to an entry. -/
structure Below (disk : Disk) (path : String) (names : List String) (found : Entry) : Prop where
  isDir : disk.isDir path = true
  areNames : ∀ name ∈ names, IsFileName name
  entry_eq : disk.entry (names.foldl join path) = .ok found

/-- The directory itself is no file. -/
theorem Below.ne_nil {names : List String} {bytes : List UInt8}
    (h : disk.Below path names (.file bytes)) : names ≠ [] := by
  rintro rfl
  have hdir := h.isDir
  rw [Disk.isDir, show disk.entry path = .ok (.file bytes) from h.entry_eq] at hdir
  cases hdir

theorem foldl_join_ne_empty (hpath : path ≠ "") {names : List String}
    (hnames : ∀ name ∈ names, IsFileName name) : names.foldl join path ≠ "" := by
  induction names generalizing path with
  | nil => exact hpath
  | cons name names ih =>
    obtain ⟨hname, hrest⟩ := List.forall_mem_cons.mp hnames
    exact ih (hname.join_ne_empty path) hrest

/-- An entry is found below a directory when the one that holds it is. -/
theorem below_concat_iff {names : List String} :
    disk.Below path (names ++ [name]) found ↔ IsFileName name ∧
      ∃ children, disk.Below path names (.dir children) ∧ children.lookup name = some found := by
  constructor
  · intro ⟨hdir, hnames, hentry⟩
    rw [List.forall_mem_append, List.forall_mem_singleton] at hnames
    rw [List.foldl_append, List.foldl_cons, List.foldl_nil] at hentry
    have hpath := foldl_join_ne_empty (isDir_iff.mp hdir).1 hnames.1
    obtain ⟨children, hupper, hlookup⟩ := (entry_join_eq_ok hpath hnames.2).mp hentry
    exact ⟨hnames.2, children, ⟨hdir, hnames.1, hupper⟩, hlookup⟩
  · rintro ⟨hname, children, ⟨hdir, hnames, hupper⟩, hlookup⟩
    have hpath := foldl_join_ne_empty (isDir_iff.mp hdir).1 hnames
    refine ⟨hdir, ?_, ?_⟩
    · rw [List.forall_mem_append, List.forall_mem_singleton]
      exact ⟨hnames, hname⟩
    · rw [List.foldl_append, List.foldl_cons, List.foldl_nil]
      exact (entry_join_eq_ok hpath hname).mpr ⟨children, hupper, hlookup⟩

/-- A directory below a directory of a tidy disk holds what its names lead to, and nothing else. -/
theorem Below.concat_iff_mem (hdisk : disk.root.Tidy) {names : List String}
    {children : List (String × Entry)} (h : disk.Below path names (.dir children)) :
    disk.Below path (names ++ [name]) found ↔ (name, found) ∈ children := by
  have htidy := tidy_of_entry hdisk h.entry_eq
  cases htidy with
  | dir hnames hdistinct _ =>
    rw [below_concat_iff, ← lookup_eq_some_iff_mem hdistinct]
    constructor
    · rintro ⟨-, others, hothers, hlookup⟩
      cases h.entry_eq.symm.trans hothers.entry_eq
      exact hlookup
    · intro hlookup
      exact ⟨hnames _ (lookup_mem hlookup), children, h, hlookup⟩

end Disk

end StackScript.Files

namespace StackScript.Session

open StackScript.Files

variable {path name : String}

/-- Source files are those with one of two extensions. -/
theorem isSourceName_iff (hname : IsFileName name) (path : String) :
    isSourceName name = true ↔
      extension? (join path name) = some "mirah" ∨ extension? (join path name) = some "duby" := by
  rw [extension?, hname.fileName?_join, Option.bind_some, isSourceName]
  cases (cutExtension name).2 with
  | none => simp
  | some extension => simp

/-- A child of a directory is picked as a source if it is a file with one of two extensions. -/
theorem sourceFile?_eq_some_iff (hname : IsFileName name) {entry : Entry} {unit : SourceUnit} :
    sourceFile? path (name, entry) = some unit ↔
      (∃ bytes, entry = .file bytes) ∧ (extension? (join path name) = some "mirah" ∨
        extension? (join path name) = some "duby") ∧ unit = .file (join path name) := by
  rw [← isSourceName_iff hname path]
  cases entry with
  | dir children => simp [sourceFile?]
  | file bytes =>
    rw [sourceFile?, Option.ite_none_right_eq_some, Option.some.injEq, @eq_comm _ unit]
    exact (and_iff_right ⟨bytes, rfl⟩).symm

end StackScript.Session

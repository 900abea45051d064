import StackScript.Proofs.Barriers
import StackScript.Proofs.ClassPaths
import StackScript.Proofs.Destinations

/-!
# Filling a destination

Products that are written one after the other below a directory with nothing in it. Each is taken
and leaves a disk which differs from the one before in its own file and in new directories
(`Filled.accepts`). So after any number of them the disk has what it had, the file of each product,
and no other file (`Filled.of_takes`).
-/

namespace StackScript.Session

open StackScript.Code StackScript.Files StackScript.Syntax StackScript.Text

/-! ## Places of classes -/

section

variable {disk : Disk} {destination extension : String} {place words : List String}
  {last qualified : String}

/-- The components of the path of a class below a destination. -/
theorem piecesBy_join_relativePath (destination : String) (h : Spelled words last qualified)
    (hext : IsWord extension) :
    piecesBy '/' (join destination (relativePath qualified extension)) =
      opened destination ++ words ++ [last ++ "." ++ extension] ∧
    isAbsolute (join destination (relativePath qualified extension)) = isAbsolute destination := by
  obtain ⟨hpieces, hrelative⟩ :=
    h.piecesBy_relativePath (not_mem_of_plainName hext.2 (show isNameChar '/' = false by decide))
  rw [piecesBy_join hrelative, hpieces, isAbsolute_join hrelative, List.append_assoc]
  exact ⟨rfl, rfl⟩

theorem base_join_relativePath (disk : Disk) (destination : String)
    (h : Spelled words last qualified) (hext : IsWord extension) :
    disk.base (join destination (relativePath qualified extension)) = disk.base destination := by
  rw [Disk.base, Disk.base, (piecesBy_join_relativePath destination h hext).2]

/-- The components of the path of a class below its destination are names. -/
theorem isName_of_mem (h : Spelled words last qualified) (hext : IsWord extension) {part : String}
    (hpart : part ∈ words ++ [last ++ "." ++ extension]) : IsName part := by
  rcases List.mem_append.mp hpart with hword | hfile
  · exact isName_of_isWord (h.areWords part hword)
  · rw [List.mem_singleton.mp hfile]
    exact isName_file hext last

/-- The place of a class below a destination. -/
theorem placeOf_join_relativePath (h : Spelled words last qualified) (hext : IsWord extension)
    (hplace : place = Disk.follow (disk.base destination) (opened destination)) :
    disk.placeOf (join destination (relativePath qualified extension)) =
      place ++ (words ++ [last ++ "." ++ extension]) := by
  rw [Disk.placeOf_eq_follow, (piecesBy_join_relativePath destination h hext).1,
    base_join_relativePath disk destination h hext, List.append_assoc, Disk.follow_append, ← hplace]
  exact Disk.follow_names place fun part hpart => isName_of_mem h hext hpart

end

/-! ## Destinations -/

/-- A destination that is there with nothing in it, or that can be made. -/
def Fresh (disk : Disk) (destination : String) : Prop :=
  ∃ made, disk.makeDirs (parentOf (opened destination)) = .ok made ∧
    made.entry (join destination ".") = .ok (.dir [])

/-- The destination leads to a directory, below which only files have dots in their names. -/
structure IsOpen (disk : Disk) (destination : String) (place : List String) : Prop where
  walks : disk.Walks (disk.base destination) (opened destination) place
  isDir : disk.kind? place = some .dir
  noDot : ∀ names part, disk.kind? (place ++ (names ++ [part])) = some .dir → '.' ∉ part.toList

/-- What was written below a destination that had nothing in it: the disk has what it had before,
and of files only those of the products besides. The destination can be opened, and is open behind
the first product. -/
structure Filled (destination : String) (before : Disk) (place : List String)
    (products : List Product) (disk : Disk) : Prop where
  kept : Disk.Extends before disk
  opens : ∃ made, disk.makeDirs (parentOf (opened destination)) = .ok made ∧
    IsOpen made destination place ∧ (products ≠ [] → made = disk)
  empty : ∀ name names, before.kind? (place ++ name :: names) = none
  files : ∀ other bytes, disk.kind? other = some (.file bytes) ↔
    before.kind? other = some (.file bytes) ∨
      ∃ product ∈ products, bytes = product.bytes ∧
        other = before.placeOf (join destination product.path)

/-- The product has the path of a class with a name that can be spelled. -/
def IsFiled (extension : String) (product : Product) : Prop :=
  product.path = relativePath product.name extension ∧
    ∃ words last, Spelled words last product.name

section

variable {disk before after : Disk} {destination extension : String} {place words : List String}
  {products : List Product} {product : Product} {last : String}

/-- Nothing has to be made of a destination that leads to a directory. -/
theorem IsOpen.makeDirs_eq (h : IsOpen disk destination place) :
    disk.makeDirs (parentOf (opened destination)) = .ok disk := by
  have hdot : isAbsolute "." = false := by decide
  have hpieces : piecesBy '/' (join destination ".") = opened destination ++ ["."] :=
    piecesBy_join hdot
  apply Disk.makeDirs_parentOf hpieces _ h.isDir
  rw [Disk.base, isAbsolute_join hdot]
  exact h.walks

/-- A destination stays open when the disk has more, if it has no new directory with a dot. -/
theorem IsOpen.mono (h : IsOpen disk destination place) (hext : Disk.Extends disk after)
    (hnew : ∀ names part, after.kind? (place ++ (names ++ [part])) = some .dir →
      disk.kind? (place ++ (names ++ [part])) = some .dir ∨ '.' ∉ part.toList) :
    IsOpen after destination place where
  walks := by
    rw [Disk.base_eq hext.here]
    exact h.walks.mono hext
  isDir := hext.kind _ _ h.isDir
  noDot := by
    intro names part hdir
    rcases hnew names part hdir with hold | hdot
    · exact h.noDot names part hold
    · exact hdot

/-- A fresh destination has nothing written below it. -/
theorem Fresh.filled (h : Fresh disk destination) :
    ∃ place, Filled destination disk place [] disk := by
  obtain ⟨made, hmade, hentry⟩ := h
  have hgrown := Disk.makeDirs_grown hmade
  have hdot : isAbsolute "." = false := by decide
  obtain ⟨-, place, hwalk, hat⟩ := Disk.entry_eq_ok.mp hentry
  have hpieces : piecesBy '/' (join destination ".") = opened destination ++ ["."] :=
    piecesBy_join hdot
  rw [hpieces, Disk.base, isAbsolute_join hdot] at hwalk
  obtain ⟨between, hfirst, hlast⟩ := hwalk.of_append
  obtain rfl : place = between := by
    rw [hlast.eq_follow]
    apply Disk.follow_idle
    simp [IsIdle]
  have hempty : ∀ name names, made.kind? (place ++ name :: names) = none := by
    intro name names
    rw [Disk.kind?, Entry.kind?_append, hat]
    rfl
  refine ⟨place, .refl disk, ⟨made, hmade, ⟨hfirst, ?_, ?_⟩, absurd rfl⟩, ?_, ?_⟩
  · exact Disk.kind?_eq_dir_iff.mpr ⟨[], hat⟩
  · intro names part hdir
    obtain ⟨first, rest, heq⟩ := List.exists_cons_of_ne_nil
      (List.append_ne_nil_of_right_ne_nil names (List.cons_ne_nil part []))
    rw [heq, hempty] at hdir
    cases hdir
  · intro name names
    cases hkind : disk.kind? (place ++ name :: names) with
    | none => rfl
    | some kind =>
      have hmore := hgrown.kind _ _ hkind
      rw [hempty] at hmore
      cases hmore
  · simp

namespace Filled

theorem place_eq (h : Filled destination before place products disk) :
    place = Disk.follow (before.base destination) (opened destination) := by
  obtain ⟨made, hmade, hopen, -⟩ := h.opens
  have hhere : made.here = before.here := (Disk.makeDirs_grown hmade).here.trans h.kept.here
  rw [← Disk.base_eq hhere]
  exact hopen.walks.eq_follow

/-- A file below the destination is that of a product. -/
theorem file_below (h : Filled destination before place products disk) (hext : IsWord extension)
    (hfiled : ∀ product ∈ products, IsFiled extension product) {names : List String}
    {bytes : List UInt8} (hfile : disk.kind? (place ++ names) = some (.file bytes)) :
    ∃ product ∈ products, bytes = product.bytes ∧ ∃ words last, Spelled words last product.name ∧
      names = words ++ [last ++ "." ++ extension] := by
  rcases (h.files _ _).mp hfile with hbefore | ⟨product, hproduct, hbytes, hplace⟩
  · -- the destination was a directory with nothing in it
    cases names with
    | nil =>
      obtain ⟨made, hmade, hopen, -⟩ := h.opens
      have hdir := (Disk.makeDirs_grown hmade).kind _ _ hfile
      rw [List.append_nil, hopen.isDir] at hdir
      cases hdir
    | cons name names =>
      rw [h.empty] at hbefore
      cases hbefore
  · obtain ⟨hpath, words, last, hspelled⟩ := hfiled product hproduct
    rw [hpath, placeOf_join_relativePath hspelled hext h.place_eq] at hplace
    exact ⟨product, hproduct, hbytes, words, last, hspelled, List.append_cancel_left hplace⟩

/-- Nothing is where the file of a new class is to be. -/
theorem kind?_new (h : Filled destination before place products disk) (hext : IsWord extension)
    (hfiled : ∀ product ∈ products, IsFiled extension product)
    (hspelled : Spelled words last product.name)
    (hnew : product.name ∉ products.map Product.name) :
    disk.kind? (place ++ (words ++ [last ++ "." ++ extension])) = none := by
  cases hkind : disk.kind? (place ++ (words ++ [last ++ "." ++ extension])) with
  | none => rfl
  | some kind =>
    exfalso
    cases kind with
    | file bytes =>
      obtain ⟨other, hother, -, words', last', hspelled', heq⟩ := h.file_below hext hfiled hkind
      have hname : product.name = other.name :=
        hspelled.unique hspelled' ⟨[], (List.append_nil _).trans heq⟩
      rw [hname] at hnew
      exact hnew (List.mem_map_of_mem hother)
    | dir =>
      obtain ⟨made, hmade, hopen, -⟩ := h.opens
      have hdir := (Disk.makeDirs_grown hmade).kind _ _ hkind
      apply hopen.noDot _ _ hdir
      simp

/-- The directories on the way to the file of a class are made. -/
theorem way (h : Filled destination before place products disk) (hext : IsWord extension)
    (hfiled : ∀ product ∈ products, IsFiled extension product)
    (hspelled : Spelled words last product.name)
    (hpath : product.path = relativePath product.name extension) :
    ∃ after, disk.makeDirs (parentOf (opened destination ++ words)) = .ok after ∧
      Filled destination before place products after ∧ IsOpen after destination place ∧
      after.target (join destination product.path) =
        .ok (place ++ words, last ++ "." ++ extension) := by
  obtain ⟨made, hmade, hopen, -⟩ := h.opens
  have hgrown := Disk.makeDirs_grown hmade
  have hpieces := (piecesBy_join_relativePath destination hspelled hext).1
  have hbase := base_join_relativePath made destination hspelled hext
  rw [← hpath] at hpieces hbase
  have hfree : ∀ names bytes, names <+: words →
      made.kind? (place ++ names) ≠ some (.file bytes) := by
    intro names bytes hnames hfile
    rw [hgrown.file_iff] at hfile
    obtain ⟨_, -, -, words', last', -, rfl⟩ := h.file_below hext hfiled hfile
    apply not_isWord_file last' extension
    apply hspelled.areWords
    exact hnames.subset (List.mem_append_right _ (List.mem_singleton_self _))
  obtain ⟨after, hafter, hmore, hwalk, hdir, hadded⟩ :=
    Disk.makeDirs_below hpieces hmade (by rw [hbase]; exact hopen.walks) hopen.isDir
      (fun word hword => isName_of_isWord (hspelled.areWords word hword)) hfree
  have hopen' : IsOpen after destination place := by
    apply hopen.mono hmore.toExtends
    intro names part hpart
    by_cases hsame : after.kind? (place ++ (names ++ [part])) =
        made.kind? (place ++ (names ++ [part]))
    · rw [hsame] at hpart
      exact .inl hpart
    · -- the new directories have the words as names
      obtain ⟨front, hfront, heq⟩ := hadded _ hsame
      have hword : IsWord part := by
        apply hspelled.areWords
        apply hfront.subset
        rw [← List.append_cancel_left heq]
        simp
      exact .inr (not_mem_of_plainName hword.2 (by decide))
  refine ⟨after, hafter, ?_, hopen', ?_⟩
  · exact
      { kept := h.kept.trans (hgrown.trans hmore).toExtends
        opens := ⟨after, hopen'.makeDirs_eq, hopen', fun _ => rfl⟩
        empty := h.empty
        files := by
          intro other bytes
          rw [(hgrown.trans hmore).file_iff]
          exact h.files other bytes }
  · have hfile := isName_file hext last
    exact Disk.target_eq_ok.mpr ⟨_, [], hpieces, nofun, hfile.ne_empty, hwalk, hdir⟩

/-- A file that was put where nothing was is that of one more product. -/
theorem add (h : Filled destination before place products disk)
    (hopen : IsOpen disk destination place) {next : Disk} {found : List String}
    (hfound : before.placeOf (join destination product.path) = found)
    (hnone : disk.kind? found = none) (hhere : next.here = disk.here)
    (hall : ∀ other, next.kind? other =
      if other = found then some (.file product.bytes) else disk.kind? other) :
    Filled destination before place (products ++ [product]) next := by
  have hmore : Disk.Extends disk next := by
    refine ⟨hhere, ?_⟩
    intro other kind hkind
    rw [hall, if_neg]
    · exact hkind
    · rintro rfl
      rw [hnone] at hkind
      cases hkind
  have hopen' : IsOpen next destination place := by
    apply hopen.mono hmore
    intro names part hdir
    rw [hall] at hdir
    split at hdir
    · cases hdir
    · exact .inl hdir
  refine ⟨h.kept.trans hmore, ⟨next, hopen'.makeDirs_eq, hopen', fun _ => rfl⟩, h.empty, ?_⟩
  intro other bytes
  have hmem : (∃ p ∈ products ++ [product],
        bytes = p.bytes ∧ other = before.placeOf (join destination p.path)) ↔
      (∃ p ∈ products, bytes = p.bytes ∧ other = before.placeOf (join destination p.path)) ∨
        bytes = product.bytes ∧ other = found := by
    simp only [List.mem_append, List.mem_singleton, or_and_right, exists_or, exists_eq_left, hfound]
  rw [hall, hmem, ← or_assoc, ← h.files]
  by_cases hother : other = found
  · rw [if_pos hother, hother, hnone]
    simp [eq_comm]
  · rw [if_neg hother]
    simp only [hother, and_false, or_false]

/-- One more product is taken, and its file is added. -/
theorem accepts (h : Filled destination before place products disk) (hext : IsWord extension)
    (hfiled : ∀ product ∈ products, IsFiled extension product)
    (hproduct : IsFiled extension product)
    (hnew : product.name ∉ products.map Product.name) :
    ∃ next, writeBelow destination disk product = (next, .ok ()) ∧
      Filled destination before place (products ++ [product]) next := by
  obtain ⟨hpath, words, last, hspelled⟩ := hproduct
  obtain ⟨after, hafter, hfilled, hopen, htarget⟩ := h.way hext hfiled hspelled hpath
  have hfile := isName_file hext last
  have hnone := hfilled.kind?_new hext hfiled hspelled hnew
  have hplace := placeOf_join_relativePath hspelled hext hfilled.place_eq
  have hpieces := (piecesBy_join_relativePath destination hspelled hext).1
  rw [← hpath] at hplace hpieces
  rw [← List.append_assoc] at hplace hnone
  obtain ⟨next, hnext, hhere, hall⟩ := Disk.writeFile_of_target htarget
    (Disk.isDots_of_isName hfile) (by rw [hnone]; exact nofun) product.bytes
  refine ⟨next, ?_, hfilled.add hopen hplace hnone hhere hall⟩
  have hparent := parent?_eq hpieces hfile.active
  unfold writeBelow
  simp only [hparent, Option.getD_some, hafter, hnext]

/-- Products of different names are written one after the other. -/
theorem of_takes (h : Filled destination before place products disk) (hext : IsWord extension)
    {more : List Product} (hfiled : ∀ product ∈ products ++ more, IsFiled extension product)
    (hdistinct : ((products ++ more).map Product.name).Nodup)
    (htakes : Takes (writeBelow destination) disk more after) :
    Filled destination before place (products ++ more) after := by
  induction htakes generalizing products with
  | nil disk =>
    rw [List.append_nil]
    exact h
  | @cons disk next last product more hfirst _ ih =>
    obtain ⟨hold, hmore⟩ := List.forall_mem_append.mp hfiled
    have hnew : product.name ∉ products.map Product.name := by
      rw [List.map_append, List.map_cons] at hdistinct
      intro hmem
      exact (List.nodup_append.mp hdistinct).2.2 _ hmem _ List.mem_cons_self rfl
    obtain ⟨next', hnext, hfilled⟩ := h.accepts hext hold (hmore product List.mem_cons_self) hnew
    rw [hfirst] at hnext
    cases hnext
    rw [List.append_cons] at hfiled hdistinct ⊢
    exact ih hfilled hfiled hdistinct

end Filled

end

end StackScript.Session

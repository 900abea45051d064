import Mathlib.Data.List.Basic
import StackScript.Proofs.ByteOrder
import StackScript.Proofs.Entries
import StackScript.Proofs.FileNames

/-!
# Expanding directories

What entries expand to is said by places: the entry a unit comes from, with the names that lead down
to it (`Place`). A place has a source if it is an entry that is no directory, or if a source file is
found there below an entry that is one (`SourceAt`). The queue is read level by level. Each level
holds the directories as many names below the entries (`IsLevel`), and reading it gives the next one
(`IsLevel.next`), so that every source is taken once, the places further up first
(`expand_lists_sources`).
-/

namespace StackScript.Session

open StackScript.Files StackScript.Text

/-! ## Places -/

/-- The entry that a unit comes from, and the names that lead down to the unit from there. -/
structure Place where
  entry : Nat
  names : List String
  deriving DecidableEq

namespace Place

/-- The place of a name in the directory at a place. -/
def below (place : Place) (name : String) : Place := ⟨place.entry, place.names ++ [name]⟩

/-- Number of directories on the way down from the entry, its own directory aside. -/
def depth (place : Place) : Nat := place.names.length - 1

/-- The first place comes from an earlier entry, or from the same one with an earlier name where
the names part. -/
def Ahead (a b : Place) : Prop :=
  a.entry < b.entry ∨ a.entry = b.entry ∧
    ∃ front x y, NameBefore x y ∧ front ++ [x] <+: a.names ∧ front ++ [y] <+: b.names

/-- The first place is not as deep as the second one, or as deep and ahead of it. -/
def Before (a b : Place) : Prop := a.depth < b.depth ∨ a.depth = b.depth ∧ a.Ahead b

/-- The second place is the first one, or below it. -/
def Leads (a b : Place) : Prop := a.entry = b.entry ∧ a.names <+: b.names

variable {a b : Place}

theorem leads_refl (place : Place) : place.Leads place := ⟨rfl, List.prefix_rfl⟩

theorem leads_below (place : Place) (name : String) : place.Leads (place.below name) :=
  ⟨rfl, List.prefix_append _ _⟩

/-- What is below a place that is ahead is ahead. -/
theorem Ahead.of_leads (h : a.Ahead b) {a' b' : Place} (ha : a.Leads a') (hb : b.Leads b') :
    a'.Ahead b' := by
  rw [Ahead, ← ha.1, ← hb.1]
  refine h.imp_right fun ⟨hentry, front, x, y, hxy, hx, hy⟩ => ?_
  exact ⟨hentry, front, x, y, hxy, hx.trans ha.2, hy.trans hb.2⟩

theorem ahead_below (place : Place) {x y : String} (h : NameBefore x y) :
    (place.below x).Ahead (place.below y) :=
  .inr ⟨rfl, place.names, x, y, h, List.prefix_rfl, List.prefix_rfl⟩

theorem not_ahead_self (place : Place) : ¬ place.Ahead place := by
  rintro (hlt | ⟨-, front, x, y, hxy, ⟨s, hs⟩, ⟨t, ht⟩⟩)
  · exact Nat.lt_irrefl _ hlt
  · have hsame : x :: s = y :: t := by simpa using hs.trans ht.symm
    obtain rfl := (List.cons.inj hsame).1
    exact not_nameBefore_self x hxy

theorem not_before_self (place : Place) : ¬ place.Before place :=
  fun h => h.elim (Nat.lt_irrefl _) fun h => place.not_ahead_self h.2

end Place

/-! ## Sources -/

/-- The unit that a place has: an entry that is no directory as it is, or a source file below an
entry that is one, under its path. -/
inductive SourceAt (disk : Disk) (units : List SourceUnit) : Place → SourceUnit → Prop where
  | entry {i : Nat} {unit : SourceUnit} (hunit : units[i]? = some unit)
    (hplain : ∀ path, unit.origin = .file path → disk.isDir path = false) :
    SourceAt disk units ⟨i, []⟩ unit
  | below {i : Nat} {unit : SourceUnit} {path : String} {names : List String} {bytes : List UInt8}
    (hunit : units[i]? = some unit) (horigin : unit.origin = .file path)
    (hbelow : disk.Below path names (.file bytes))
    (hextension : extension? (names.foldl join path) = some "mirah" ∨
      extension? (names.foldl join path) = some "duby") :
    SourceAt disk units ⟨i, names⟩ (.file (names.foldl join path))

/-! ## The queue with places -/

section

variable {α : Type} (place : Place) (pick : String × Entry → Option α)
  (children : List (String × Entry))

/-- What is picked among the children of the directory at a place. -/
def Place.among : List (Place × α) :=
  (sorted children).filterMap fun child => (pick child).map (place.below child.1, ·)

theorem map_snd_among :
    (place.among pick children).map Prod.snd = (sorted children).filterMap pick := by
  rw [Place.among, List.map_filterMap]
  refine List.filterMap_congr fun child _ => ?_
  rw [Option.map_map]
  exact Option.map_id'

variable {place pick children}

theorem mem_among {other : Place} {value : α} :
    (other, value) ∈ place.among pick children ↔
      ∃ child ∈ children, pick child = some value ∧ other = place.below child.1 := by
  rw [Place.among, List.mem_filterMap]
  constructor
  · rintro ⟨child, hchild, hpick⟩
    obtain ⟨found, hfound, heq⟩ := Option.map_eq_some_iff.mp hpick
    cases heq
    exact ⟨child, mem_sorted.mp hchild, hfound, rfl⟩
  · rintro ⟨child, hchild, hpick, rfl⟩
    exact ⟨child, mem_sorted.mpr hchild, by rw [hpick]; rfl⟩

theorem pairwise_among (hdistinct : (children.map Prod.fst).Nodup) :
    (place.among pick children).Pairwise fun a b => a.1.Ahead b.1 := by
  refine (pairwise_sorted hdistinct).filterMap _ ?_
  intro first second hnames a ha b hb
  obtain ⟨_, -, rfl⟩ := Option.map_eq_some_iff.mp ha
  obtain ⟨_, -, rfl⟩ := Option.map_eq_some_iff.mp hb
  exact place.ahead_below hnames

theorem leads_of_mem_among {other : Place × α} (h : other ∈ place.among pick children) :
    place.Leads other.1 := by
  obtain ⟨child, -, -, hother⟩ := mem_among.mp h
  rw [hother]
  exact place.leads_below child.1

end

/-- The units that are taken when the front of the queue is read. -/
def takenAt : Place × Waiting → List (Place × SourceUnit)
  | (place, .unit unit) => [(place, unit)]
  | (place, .directory found) => place.among (sourceFile? found.1) found.2

/-- What comes to the end of the queue when its front is read. -/
def foundAt : Place × Waiting → List (Place × Waiting)
  | (_, .unit _) => []
  | (place, .directory found) =>
    place.among (fun child => (subdirectory? found.1 child).map .directory) found.2

theorem map_snd_foundAt_directory (place : Place) (found : Found) :
    (foundAt (place, .directory found)).map Prod.snd = (dirsIn found).map .directory := by
  rw [foundAt, map_snd_among, dirsIn, List.map_filterMap]

/-- The queue is read from its front, and what is found on the way is read behind all the rest. -/
theorem expandQueue_append (level later : List (Place × Waiting)) :
    expandQueue (level.map Prod.snd ++ later.map Prod.snd) =
      (level.flatMap takenAt).map Prod.snd ++
        expandQueue ((later ++ level.flatMap foundAt).map Prod.snd) := by
  induction level generalizing later with
  | nil => simp
  | cons first level ih =>
    obtain ⟨place, waiting⟩ := first
    cases waiting with
    | unit unit =>
      rw [List.map_cons, List.cons_append, expandQueue, ih]
      rfl
    | directory found =>
      have htaken : (takenAt (place, .directory found)).map Prod.snd = filesIn found :=
        map_snd_among _ _ _
      rw [List.map_cons, List.cons_append, expandQueue, List.append_assoc, ← htaken,
        ← map_snd_foundAt_directory place, ← List.map_append, ih, List.flatMap_cons,
        List.flatMap_cons]
      simp only [List.map_append, List.append_assoc]

/-- What is found leads to less than what was read. -/
theorem queueSize_foundAt (level : List (Place × Waiting)) :
    queueSize ((level.flatMap foundAt).map Prod.snd) + level.length ≤
      queueSize (level.map Prod.snd) := by
  induction level with
  | nil => exact Nat.le_refl 0
  | cons first level ih =>
    obtain ⟨place, waiting⟩ := first
    rw [List.flatMap_cons, List.map_append, queueSize_append, List.length_cons, List.map_cons]
    cases waiting with
    | unit unit =>
      rw [queueSize]
      simp only [foundAt, List.map_nil, queueSize]
      omega
    | directory found =>
      have hdirs := queueSize_dirsIn found
      rw [map_snd_foundAt_directory, queueSize]
      omega

/-! ## Levels -/

/-- What waits at a place when the queue has been read down to a level: an entry that is no
directory at the first one, and the directories that are as many names below the entries. -/
inductive WaitsAt (disk : Disk) (units : List SourceUnit) (level : Nat) :
    Place → Waiting → Prop where
  | unit {i : Nat} {unit : SourceUnit} (hlevel : level = 0) (hunit : units[i]? = some unit)
    (hplain : ∀ path, unit.origin = .file path → disk.isDir path = false) :
    WaitsAt disk units level ⟨i, []⟩ (.unit unit)
  | directory {i : Nat} {unit : SourceUnit} {path : String} {names : List String}
    {children : List (String × Entry)} (hlevel : level = names.length)
    (hunit : units[i]? = some unit) (horigin : unit.origin = .file path)
    (hbelow : disk.Below path names (.dir children)) :
    WaitsAt disk units level ⟨i, names⟩ (.directory (names.foldl join path, children))

/-- The queue holds what waits at a level, the places ahead first. -/
structure IsLevel (disk : Disk) (units : List SourceUnit) (level : Nat)
    (queue : List (Place × Waiting)) : Prop where
  mem_iff : ∀ place waiting, (place, waiting) ∈ queue ↔ WaitsAt disk units level place waiting
  ahead : queue.Pairwise fun a b => a.1.Ahead b.1

namespace IsLevel

variable {disk : Disk} {units : List SourceUnit} {level : Nat} {queue : List (Place × Waiting)}

/-- What a tidy directory in the queue holds has names of its own. -/
theorem nodup (hdisk : disk.root.Tidy) (h : IsLevel disk units level queue) {place : Place}
    {found : Found} (hfound : (place, .directory found) ∈ queue) :
    (found.2.map Prod.fst).Nodup := by
  cases (h.mem_iff _ _).mp hfound with
  | directory _ _ _ hbelow =>
    have htidy := Disk.tidy_of_entry hdisk hbelow.entry_eq
    cases htidy with
    | dir _ hdistinct _ => exact hdistinct

/-- The directories of a level hold what is one name further down. -/
theorem holds_iff (hdisk : disk.root.Tidy) (h : IsLevel disk units level queue) (place : Place)
    {name path : String} {entry : Entry} :
    (∃ upper found, (upper, Waiting.directory found) ∈ queue ∧ (name, entry) ∈ found.2 ∧
        place = upper.below name ∧ path = join found.1 name) ↔
      ∃ unit start names, units[place.entry]? = some unit ∧ unit.origin = .file start ∧
        disk.Below start place.names entry ∧ place.names = names ++ [name] ∧
        names.length = level ∧ path = place.names.foldl join start := by
  constructor
  · rintro ⟨upper, found, hfound, hentry, rfl, rfl⟩
    cases (h.mem_iff _ _).mp hfound with
    | @directory i unit start names children hlevel hunit horigin hbelow =>
      refine ⟨unit, start, names, hunit, horigin, ?_, rfl, hlevel.symm, ?_⟩
      · exact (hbelow.concat_iff_mem hdisk).mpr hentry
      · rw [Place.below, List.foldl_append]
        rfl
  · -- the directory that holds the entry is one name shorter, so it is of this level
    rintro ⟨unit, start, names, hunit, horigin, hbelow, hnames, rfl, rfl⟩
    obtain ⟨i, _⟩ := place
    obtain rfl := hnames
    obtain ⟨-, children, hupper, hlookup⟩ := Disk.below_concat_iff.mp hbelow
    refine ⟨⟨i, names⟩, _, (h.mem_iff _ _).mpr (.directory rfl hunit horigin hupper),
      lookup_mem hlookup, rfl, ?_⟩
    rw [List.foldl_append]
    rfl

/-- Reading a level leaves what waits at the next one. -/
theorem mem_foundAt (hdisk : disk.root.Tidy) (h : IsLevel disk units level queue) (place : Place)
    (waiting : Waiting) :
    (place, waiting) ∈ queue.flatMap foundAt ↔ WaitsAt disk units (level + 1) place waiting := by
  constructor
  · intro hmem
    obtain ⟨⟨upper, front⟩, hfront, hfound⟩ := List.mem_flatMap.mp hmem
    cases front with
    | unit unit => exact absurd hfound List.not_mem_nil
    | directory found =>
      obtain ⟨⟨name, entry⟩, hchild, hpick, hplace⟩ := mem_among.mp hfound
      cases entry with
      | file bytes => cases hpick
      | dir children =>
        cases hpick
        obtain ⟨unit, start, names, hunit, horigin, hbelow, hnames, hlength, hpath⟩ :=
          (h.holds_iff hdisk place).mp ⟨upper, found, hfront, hchild, hplace, rfl⟩
        rw [hpath]
        refine .directory ?_ hunit horigin hbelow
        rw [hnames, List.length_append, hlength]
        rfl
  · intro hwaits
    cases hwaits with
    | unit hlevel _ _ => cases hlevel
    | @directory i unit start names children hlevel hunit horigin hbelow =>
      -- only the first level has directories that no other one holds
      rcases List.eq_nil_or_concat' names with rfl | ⟨front, name, rfl⟩
      · cases hlevel
      · have hlength : front.length = level := by simpa using hlevel.symm
        obtain ⟨upper, found, hfound, hchild, hplace, hpath⟩ := (h.holds_iff hdisk
          ⟨i, front ++ [name]⟩).mpr ⟨unit, start, front, hunit, horigin, hbelow, rfl, hlength, rfl⟩
        dsimp only at hpath
        refine List.mem_flatMap.mpr ⟨_, hfound, mem_among.mpr ⟨_, hchild, ?_, hplace⟩⟩
        rw [hpath]
        rfl

/-- Reading a level takes the sources that are as deep. -/
theorem mem_takenAt (hdisk : disk.root.Tidy) (h : IsLevel disk units level queue) (place : Place)
    (unit : SourceUnit) :
    (place, unit) ∈ queue.flatMap takenAt ↔
      SourceAt disk units place unit ∧ place.depth = level := by
  constructor
  · intro hmem
    obtain ⟨⟨upper, front⟩, hfront, htaken⟩ := List.mem_flatMap.mp hmem
    cases front with
    | unit entry =>
      cases List.mem_singleton.mp htaken
      cases (h.mem_iff _ _).mp hfront with
      | unit hlevel hunit hplain => exact ⟨.entry hunit hplain, hlevel.symm⟩
    | directory found =>
      obtain ⟨⟨name, entry⟩, hchild, hpick, hplace⟩ := mem_among.mp htaken
      obtain ⟨unit, start, names, hunit, horigin, hbelow, hnames, hlength, hpath⟩ :=
        (h.holds_iff hdisk place).mp ⟨upper, found, hfront, hchild, hplace, rfl⟩
      have hname : IsFileName name := hbelow.areNames name (by rw [hnames]; simp)
      obtain ⟨⟨bytes, rfl⟩, hextension, rfl⟩ := (sourceFile?_eq_some_iff hname).mp hpick
      rw [hpath] at hextension ⊢
      refine ⟨.below hunit horigin hbelow hextension, ?_⟩
      rw [Place.depth, hnames, List.length_append, hlength]
      rfl
  · rintro ⟨hsource, hdepth⟩
    cases hsource with
    | entry hunit hplain =>
      exact List.mem_flatMap.mpr ⟨_, (h.mem_iff _ _).mpr (.unit hdepth.symm hunit hplain),
        List.mem_singleton_self _⟩
    | @below i unit start names bytes hunit horigin hbelow hextension =>
      obtain ⟨front, name, rfl⟩ := (List.eq_nil_or_concat' names).resolve_left hbelow.ne_nil
      have hlength : front.length = level := by simpa [Place.depth] using hdepth
      obtain ⟨upper, found, hfound, hchild, hplace, hpath⟩ := (h.holds_iff hdisk
        ⟨i, front ++ [name]⟩).mpr ⟨unit, start, front, hunit, horigin, hbelow, rfl, hlength, rfl⟩
      dsimp only at hpath
      have hname : IsFileName name := hbelow.areNames name (by simp)
      rw [hpath] at hextension ⊢
      have hpick := (sourceFile?_eq_some_iff hname).mpr ⟨⟨bytes, rfl⟩, hextension, rfl⟩
      exact List.mem_flatMap.mpr ⟨_, hfound, mem_among.mpr ⟨_, hchild, hpick, hplace⟩⟩

/-- What comes from the places of a level is in their order. -/
theorem ahead_flatMap {α : Type} {read : Place × Waiting → List (Place × α)}
    (h : IsLevel disk units level queue)
    (hread : ∀ first ∈ queue, (read first).Pairwise fun a b => a.1.Ahead b.1)
    (hleads : ∀ first, ∀ other ∈ read first, first.1.Leads other.1) :
    (queue.flatMap read).Pairwise fun a b => a.1.Ahead b.1 := by
  refine List.pairwise_flatMap.mpr ⟨hread, h.ahead.imp ?_⟩
  intro a b hab first hfirst second hsecond
  exact hab.of_leads (hleads a first hfirst) (hleads b second hsecond)

theorem ahead_takenAt (hdisk : disk.root.Tidy) (h : IsLevel disk units level queue) :
    (queue.flatMap takenAt).Pairwise fun a b => a.1.Ahead b.1 := by
  refine h.ahead_flatMap ?_ ?_
  · rintro ⟨place, waiting⟩ hmem
    cases waiting with
    | unit unit => exact List.pairwise_singleton _ _
    | directory found => exact pairwise_among (h.nodup hdisk hmem)
  · rintro ⟨place, waiting⟩ ⟨other, unit⟩ htaken
    cases waiting with
    | unit entry =>
      cases List.mem_singleton.mp htaken
      exact place.leads_refl
    | directory found => exact leads_of_mem_among htaken

/-- Reading a level leaves the next one. -/
theorem next (hdisk : disk.root.Tidy) (h : IsLevel disk units level queue) :
    IsLevel disk units (level + 1) (queue.flatMap foundAt) where
  mem_iff := h.mem_foundAt hdisk
  ahead := by
    refine h.ahead_flatMap ?_ ?_
    · rintro ⟨place, waiting⟩ hmem
      cases waiting with
      | unit unit => exact .nil
      | directory found => exact pairwise_among (h.nodup hdisk hmem)
    · rintro ⟨place, waiting⟩ ⟨other, further⟩ hfound
      cases waiting with
      | unit unit => exact absurd hfound List.not_mem_nil
      | directory found => exact leads_of_mem_among hfound

/-- What is taken at a level comes before all that is deeper. -/
theorem before_append (hdisk : disk.root.Tidy) (h : IsLevel disk units level queue)
    {later : List (Place × SourceUnit)} (hlater : later.Pairwise fun a b => a.1.Before b.1)
    (hdeeper : ∀ b ∈ later, level < b.1.depth) :
    (queue.flatMap takenAt ++ later).Pairwise fun a b => a.1.Before b.1 := by
  have hdepth : ∀ a ∈ queue.flatMap takenAt, a.1.depth = level :=
    fun a ha => ((h.mem_takenAt hdisk a.1 a.2).mp ha).2
  refine List.pairwise_append.mpr ⟨?_, hlater, ?_⟩
  · refine (h.ahead_takenAt hdisk).imp_of_mem fun {a b} ha hb hahead => .inr ⟨?_, hahead⟩
    exact (hdepth a ha).trans (hdepth b hb).symm
  · intro a ha b hb
    exact .inl ((hdepth a ha).trans_lt (hdeeper b hb))

/-- When nothing waits at a level, there are no sources that are as deep, or deeper. -/
theorem depth_lt (hdisk : disk.root.Tidy) (h : IsLevel disk units level []) {place : Place}
    {unit : SourceUnit} (hsource : SourceAt disk units place unit) : place.depth < level := by
  by_contra hdeep
  -- nothing waits at any level below it either, the source's own one among them
  have hempty : IsLevel disk units place.depth [] := by
    refine Nat.le_induction h (fun deeper _ ih => ?_) place.depth (Nat.le_of_not_lt hdeep)
    exact ih.next hdisk
  exact List.not_mem_nil ((hempty.mem_takenAt hdisk place unit).mpr ⟨hsource, rfl⟩)

/-- From a level on, the sources that are as deep or deeper are taken, each at its turn. -/
theorem exists_listed (hdisk : disk.root.Tidy) (h : IsLevel disk units level queue) :
    ∃ listed : List (Place × SourceUnit),
      expandQueue (queue.map Prod.snd) = listed.map Prod.snd ∧
      (∀ place unit, (place, unit) ∈ listed ↔
        SourceAt disk units place unit ∧ level ≤ place.depth) ∧
      listed.Pairwise fun a b => a.1.Before b.1 := by
  -- each level that holds something leads to less than the one before
  induction hsize : queueSize (queue.map Prod.snd) using Nat.strong_induction_on
    generalizing level queue with
  | _ size ih =>
    subst hsize
    by_cases hqueue : queue = []
    · subst hqueue
      refine ⟨[], by rw [List.map_nil, expandQueue]; rfl, fun place unit => ?_, .nil⟩
      refine ⟨fun hmem => absurd hmem List.not_mem_nil, fun hdeep => ?_⟩
      exact absurd (h.depth_lt hdisk hdeep.1) (Nat.not_lt.mpr hdeep.2)
    · have hless := queueSize_foundAt queue
      have hpos := List.length_pos_iff.mpr hqueue
      obtain ⟨later, hlater, hmem, hbefore⟩ := ih _ (by omega) (h.next hdisk) rfl
      have hread := expandQueue_append queue []
      rw [List.map_nil, List.append_nil, List.nil_append, hlater, ← List.map_append] at hread
      refine ⟨queue.flatMap takenAt ++ later, hread, fun place unit => ?_, ?_⟩
      · rw [List.mem_append, h.mem_takenAt hdisk, hmem, ← and_or_left]
        refine and_congr_right fun _ => ?_
        omega
      · exact h.before_append hdisk hbefore fun b hb => ((hmem b.1 b.2).mp hb).2

end IsLevel

/-! ## The first level -/

variable {disk : Disk} {unit : SourceUnit}

theorem directory?_eq_some_iff {path : String} {children : List (String × Entry)} :
    directory? disk path = some children ↔ disk.entry path = .ok (.dir children) := by
  rw [directory?]
  cases disk.entry path with
  | error fault => simp
  | ok found => cases found <;> simp

theorem directory?_eq_none_iff {path : String} :
    directory? disk path = none ↔ disk.isDir path = false := by
  rw [directory?, Disk.isDir]
  cases disk.entry path with
  | error fault => simp
  | ok found => cases found <;> simp [Entry.isDir]

/-- A unit that is no directory waits as it is. -/
theorem waiting_eq_unit_iff {other : SourceUnit} :
    unit.waiting disk = .unit other ↔
      unit = other ∧ ∀ path, unit.origin = .file path → disk.isDir path = false := by
  rw [SourceUnit.waiting]
  cases unit.origin with
  | inline text => simp
  | file path =>
    cases hdirectory : directory? disk path with
    | none => simp [hdirectory, directory?_eq_none_iff.mp hdirectory]
    | some children => simp [← directory?_eq_none_iff, hdirectory]

theorem waiting_eq_directory_iff {found : Found} :
    unit.waiting disk = .directory found ↔
      unit.origin = .file found.1 ∧ disk.entry found.1 = .ok (.dir found.2) := by
  obtain ⟨start, children⟩ := found
  rw [SourceUnit.waiting]
  cases unit.origin with
  | inline text => simp
  | file path =>
    rw [← directory?_eq_some_iff]
    cases hdirectory : directory? disk path with
    | none =>
      simp only [hdirectory, reduceCtorEq, false_iff, not_and]
      rintro ⟨⟩
      simp [hdirectory]
    | some held =>
      simp only [hdirectory, Waiting.directory.injEq, Prod.mk.injEq, Origin.file.injEq]
      refine and_congr_right ?_
      rintro rfl
      rw [hdirectory, Option.some.injEq]

/-- The queue as the units make it, with their places. -/
def firstLevel (disk : Disk) (units : List SourceUnit) : List (Place × Waiting) :=
  units.zipIdx.map fun unit => (⟨unit.2, []⟩, unit.1.waiting disk)

theorem map_snd_firstLevel (disk : Disk) (units : List SourceUnit) :
    (firstLevel disk units).map Prod.snd = units.map (SourceUnit.waiting disk) := by
  have hunits := congrArg (List.map (SourceUnit.waiting disk)) (List.zipIdx_map_fst 0 units)
  rw [List.map_map] at hunits
  rw [firstLevel, List.map_map]
  exact hunits

theorem isLevel_firstLevel (disk : Disk) (units : List SourceUnit) :
    IsLevel disk units 0 (firstLevel disk units) where
  mem_iff := by
    intro place waiting
    rw [firstLevel, List.mem_map]
    constructor
    · rintro ⟨⟨unit, i⟩, hmem, heq⟩
      have hunit := List.mem_zipIdx_iff_getElem?.mp hmem
      cases heq
      cases hwaiting : unit.waiting disk with
      | unit other =>
        obtain ⟨rfl, hplain⟩ := waiting_eq_unit_iff.mp hwaiting
        exact .unit rfl hunit hplain
      | directory found =>
        obtain ⟨horigin, hentry⟩ := waiting_eq_directory_iff.mp hwaiting
        have hdir : disk.isDir found.1 = true := by rw [Disk.isDir, hentry]; rfl
        have hbelow : disk.Below found.1 [] (.dir found.2) :=
          ⟨hdir, List.forall_mem_nil _, hentry⟩
        exact .directory rfl hunit horigin hbelow
    · intro hwaits
      cases hwaits with
      | @unit i unit _ hunit hplain =>
        refine ⟨(unit, i), List.mem_zipIdx_iff_getElem?.mpr hunit, ?_⟩
        rw [waiting_eq_unit_iff.mpr ⟨rfl, hplain⟩]
      | @directory i unit path names children hlevel hunit horigin hbelow =>
        obtain rfl := List.length_eq_zero_iff.mp hlevel.symm
        refine ⟨(unit, i), List.mem_zipIdx_iff_getElem?.mpr hunit, ?_⟩
        have hwaiting : unit.waiting disk = .directory (path, children) :=
          waiting_eq_directory_iff.mpr ⟨horigin, hbelow.entry_eq⟩
        rw [hwaiting]
        rfl
  ahead := by
    have hindices : (units.zipIdx.map Prod.snd).Pairwise (· < ·) := by
      rw [List.zipIdx_map_snd]
      exact List.pairwise_lt_range' 1
    exact List.pairwise_map.mpr ((List.pairwise_map.mp hindices).imp fun h => .inl h)

/-- On a tidy disk, entries in which every mark has a script behind it expand to the sources that
they have: each script and each entry that is no directory as it is, and each source file below an
entry that is a directory, once and under its path. What is less deep comes first, then what comes
from an earlier entry, and then what comes earlier by the bytes of the names. -/
theorem expand_lists_sources {disk : Disk} (hdisk : disk.root.Tidy) {entries : List String}
    {units : List SourceUnit} (hentries : Announced entries units) :
    ∃ listed : List (Place × SourceUnit),
      expand disk entries = .ok (listed.map Prod.snd) ∧
      (∀ place unit, (place, unit) ∈ listed ↔ SourceAt disk units place unit) ∧
      (listed.map Prod.fst).Nodup ∧
      listed.Pairwise fun a b => a.1.Before b.1 := by
  obtain ⟨listed, hlisted, hmem, hbefore⟩ := (isLevel_firstLevel disk units).exists_listed hdisk
  refine ⟨listed, ?_, fun place unit => ?_, ?_, hbefore⟩
  · rw [expand, hentries.entryUnits_eq, ← hlisted, map_snd_firstLevel]
    rfl
  · rw [hmem, and_iff_left (Nat.zero_le _)]
  · refine List.pairwise_map.mpr (hbefore.imp ?_)
    intro a b hbefore heq
    exact b.1.not_before_self (heq ▸ hbefore)

/-- What a directory holds, another directory and a file that is no source among it. -/
def shelf : List (String × Entry) :=
  [("b.duby", .file []), ("a", .dir [("c.mirah", .file [])]), ("a.txt", .file [])]

/-- A disk with the directory. -/
def shelfDisk : Disk where
  root := .dir [("src", .dir shelf)]

theorem tidy_shelfDisk : shelfDisk.root.Tidy := by
  have hfile : ∀ bytes : List UInt8, (Entry.file bytes).Tidy := .file
  have hinner : (Entry.dir [("c.mirah", .file [])]).Tidy :=
    .dir (by decide) (by decide) (by simp [hfile])
  have hshelf : (Entry.dir shelf).Tidy :=
    .dir (by decide) (by decide) (by simp [shelf, hfile, hinner])
  exact .dir (by decide) (by decide) (List.forall_mem_singleton.mpr hshelf)

theorem sorted_shelf :
    sorted shelf =
      [("a", .dir [("c.mirah", .file [])]), ("a.txt", .file []), ("b.duby", .file [])] := by
  have hshort : notBehind (utf8Bytes "a") (utf8Bytes "a.txt") = true := by decide +kernel
  have hfirst : notBehind (utf8Bytes "b.duby") (utf8Bytes "a") = false := by decide +kernel
  have hlast : notBehind (utf8Bytes "b.duby") (utf8Bytes "a.txt") = false := by decide +kernel
  simp [sorted, shelf, List.mergeSort, hshort, hfirst, hlast]

theorem expand_shelfDisk :
    expand shelfDisk ["-e", "puts 1", "src"] =
      .ok [.inline "puts 1", .file "src/b.duby", .file "src/a/c.mirah"] := by
  have hunits : entryUnits ["-e", "puts 1", "src"] = .ok [.inline "puts 1", .file "src"] := rfl
  have hscript : (SourceUnit.inline "puts 1").waiting shelfDisk = .unit (.inline "puts 1") := rfl
  have hentry : (SourceUnit.file "src").waiting shelfDisk = .directory ("src", shelf) :=
    waiting_eq_directory_iff.mpr ⟨rfl, rfl⟩
  have hfiles : filesIn ("src", shelf) = [.file "src/b.duby"] := by
    rw [filesIn, sorted_shelf]
    decide +kernel
  have hdirs : dirsIn ("src", shelf) = [("src/a", [("c.mirah", .file [])])] := by
    rw [dirsIn, sorted_shelf]
    rfl
  have hinner : filesIn ("src/a", [("c.mirah", .file [])]) = [.file "src/a/c.mirah"] := by
    rw [filesIn, sorted, List.mergeSort_singleton]
    decide +kernel
  have hend : dirsIn ("src/a", [("c.mirah", .file [])]) = [] := by
    rw [dirsIn, sorted, List.mergeSort_singleton]
    rfl
  simp [expand, hunits, hscript, hentry, expandQueue, hfiles, hdirs, hinner, hend]

theorem expand_lists_sources_of_shelf :
    shelfDisk.root.Tidy ∧ Announced ["-e", "puts 1", "src"] [.inline "puts 1", .file "src"] ∧
      ∃ listed : List (Place × SourceUnit),
        listed.map Prod.snd = [.inline "puts 1", .file "src/b.duby", .file "src/a/c.mirah"] ∧
        (∀ place unit, (place, unit) ∈ listed ↔
          SourceAt shelfDisk [.inline "puts 1", .file "src"] place unit) ∧
        (listed.map Prod.fst).Nodup ∧
        listed.Pairwise fun a b => a.1.Before b.1 := by
  have hentries : Announced ["-e", "puts 1", "src"] [.inline "puts 1", .file "src"] :=
    .script "puts 1" (.path (by decide) .nil)
  obtain ⟨listed, hlisted, hrest⟩ := expand_lists_sources tidy_shelfDisk hentries
  refine ⟨tidy_shelfDisk, hentries, listed, ?_, hrest⟩
  exact Except.ok.inj (hlisted.symm.trans expand_shelfDisk)

end StackScript.Session

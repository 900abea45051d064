import Mathlib.Data.List.TakeWhile
import StackScript.Proofs.Disks
import StackScript.Proofs.Paths

/-!
# Making directories and writing files

What the operations on a disk do to what stands there. Both start from the directory that holds a
path (`target_eq_ok`). A directory is added where nothing was (`makeDir_eq_ok`), and making all
directories of a path only adds directories (`makeDirs_grown`), after which the path leads to one
(`isDir_of_makeDirs`). Writing changes the one place that its path points to
(`writeFile_of_target`), and reading a path gives the bytes that stand there (`readFile_eq_ok`).
-/

namespace StackScript.Files.Disk

open StackScript.Text

variable {disk after : Disk} {path : String}

/-! ## Reading -/

theorem base_eq {disk after : Disk} (h : after.here = disk.here) (path : String) :
    after.base path = disk.base path := by
  rw [base, base, h]

theorem resolve_eq_ok {place : List String} :
    disk.resolve path = .ok place ↔
      path ≠ "" ∧ disk.Walks (disk.base path) (piecesBy '/' path) place := by
  unfold resolve
  split
  · rename_i hempty
    simp [hempty]
  · rename_i hpath
    rw [walk_eq_ok]
    exact ⟨fun h => ⟨hpath, h⟩, fun h => h.2⟩

theorem entry_eq_ok {found : Entry} :
    disk.entry path = .ok found ↔ path ≠ "" ∧
      ∃ place, disk.Walks (disk.base path) (piecesBy '/' path) place ∧
        disk.root.at? place = some found := by
  unfold entry
  constructor
  · intro h
    split at h
    · cases h
    · rename_i place hresolve
      obtain ⟨hpath, hwalk⟩ := resolve_eq_ok.mp hresolve
      split at h
      · rename_i hat
        cases h
        exact ⟨hpath, place, hwalk, hat⟩
      · cases h
  · rintro ⟨hpath, place, hwalk, hat⟩
    rw [resolve_eq_ok.mpr ⟨hpath, hwalk⟩]
    simp only [hat]

theorem isDir_iff : disk.isDir path = true ↔ path ≠ "" ∧
    ∃ place, disk.Walks (disk.base path) (piecesBy '/' path) place ∧
      disk.kind? place = some .dir := by
  unfold isDir
  constructor
  · intro h
    split at h
    · rename_i found hentry
      obtain ⟨hpath, place, hwalk, hat⟩ := entry_eq_ok.mp hentry
      cases found with
      | file bytes => cases h
      | dir children => exact ⟨hpath, place, hwalk, kind?_eq_dir_iff.mpr ⟨children, hat⟩⟩
    · cases h
  · rintro ⟨hpath, place, hwalk, hdir⟩
    obtain ⟨children, hat⟩ := kind?_eq_dir_iff.mp hdir
    rw [entry_eq_ok.mpr ⟨hpath, place, hwalk, hat⟩]
    rfl

theorem readFile_eq_ok {bytes : List UInt8} :
    disk.readFile path = .ok bytes ↔ path ≠ "" ∧
      ∃ place, disk.Walks (disk.base path) (piecesBy '/' path) place ∧
        disk.kind? place = some (.file bytes) := by
  unfold readFile
  constructor
  · intro h
    split at h
    · cases h
    · cases h
    · rename_i hentry
      cases h
      obtain ⟨hpath, place, hwalk, hat⟩ := entry_eq_ok.mp hentry
      exact ⟨hpath, place, hwalk, kind?_eq_file_iff.mpr hat⟩
  · rintro ⟨hpath, place, hwalk, hfile⟩
    rw [entry_eq_ok.mpr ⟨hpath, place, hwalk, kind?_eq_file_iff.mp hfile⟩]

/-- A path means a file exactly when it can be read. -/
theorem isFile_iff : disk.isFile path = true ↔ ∃ bytes, disk.readFile path = .ok bytes := by
  unfold isFile readFile
  cases disk.entry path with
  | error fault => simp
  | ok found => cases found <;> simp [Entry.isDir]

/-! ## The directory that holds a path -/

theorem isDots_of_isName {name : String} (h : IsName name) : isDots name = false := by
  rw [isDots, Bool.or_eq_false_iff, decide_eq_false_iff_not, decide_eq_false_iff_not]
  exact ⟨fun hdot => h.active (.inr hdot), h.notUp⟩

theorem isName_of_not_isDots {name : String} (hempty : name ≠ "") (h : isDots name = false) :
    IsName name := by
  rw [isDots, Bool.or_eq_false_iff, decide_eq_false_iff_not, decide_eq_false_iff_not] at h
  refine ⟨?_, h.2⟩
  rintro (heq | heq)
  · exact hempty heq
  · exact h.1 heq

theorem target_eq_ok {place : List String} {name : String} :
    disk.target path = .ok (place, name) ↔
      ∃ front idle, piecesBy '/' path = front ++ name :: idle ∧ (∀ part ∈ idle, part = "") ∧
        name ≠ "" ∧ disk.Walks (disk.base path) front place ∧ disk.kind? place = some .dir := by
  unfold target
  constructor
  · intro h
    obtain ⟨idle, hsplit, hidle⟩ := eq_append_of_dropWhile (· = "") (piecesBy '/' path)
    split at h
    · cases h
    · rename_i last front hdrop
      split at h
      · cases h
      · rename_i found hwalk
        split at h
        · rename_i children hat
          cases h
          rw [hdrop, List.reverse_cons, List.append_assoc, List.singleton_append] at hsplit
          have hlast := not_of_dropWhile_eq_cons hdrop
          exact ⟨front.reverse, idle, hsplit, by simpa using hidle, by simpa using hlast,
            walk_eq_ok.mp hwalk, kind?_eq_dir_iff.mpr ⟨children, hat⟩⟩
        · cases h
        · cases h
  · rintro ⟨front, idle, hpieces, hidle, hname, hwalk, hdir⟩
    obtain ⟨children, hat⟩ := kind?_eq_dir_iff.mp hdir
    have hdrop : (piecesBy '/' path).reverse.dropWhile (· = "") = name :: front.reverse := by
      rw [hpieces, List.reverse_append, List.reverse_cons, List.append_assoc,
        List.dropWhile_append_of_pos]
      · simp [hname]
      · intro part hpart
        simpa using hidle part (List.mem_reverse.mp hpart)
    simp only [hdrop, List.reverse_reverse, walk_eq_ok.mpr hwalk, hat]

/-- The directory that holds a path which ends in a component that is not empty. -/
theorem target_of_piecesBy (disk : Disk) {front : List String} {name : String}
    (hpieces : piecesBy '/' path = front ++ [name]) (hname : name ≠ "") :
    disk.target path =
      match disk.walk (disk.base path) front with
      | .error fault => .error fault
      | .ok place =>
        match disk.kind? place with
        | some .dir => .ok (place, name)
        | some (.file _) => .error .notDirectory
        | none => .error .missing := by
  have hdrop : (piecesBy '/' path).reverse.dropWhile (· = "") = name :: front.reverse := by
    rw [hpieces, List.reverse_append, List.reverse_singleton, List.singleton_append,
      List.dropWhile_cons_of_neg (by simpa using hname)]
  unfold target
  simp only [hdrop, List.reverse_reverse]
  cases disk.walk (disk.base path) front with
  | error fault => rfl
  | ok place =>
    simp only [kind?, Entry.kind?]
    cases disk.root.at? place with
    | none => rfl
    | some entry => cases entry <;> rfl

/-! ## Putting -/

/-- What is put into a directory where no directory is. -/
theorem kind?_put {leaf : Entry} (hleaf : leaf.children = []) {place : List String} {name : String}
    (hdir : disk.kind? place = some .dir) (hfree : disk.kind? (place ++ [name]) ≠ some .dir)
    (other : List String) :
    (disk.put (place ++ [name]) leaf).kind? other =
      if other = place ++ [name] then some leaf.kind else disk.kind? other :=
  Entry.kind?_put hleaf hdir hfree other

/-! ## Making a directory -/

theorem makeDir_eq_ok (h : disk.makeDir path = .ok after) :
    ∃ place name, disk.target path = .ok (place, name) ∧ isDots name = false ∧
      disk.kind? place = some .dir ∧ disk.kind? (place ++ [name]) = none ∧ after.here = disk.here ∧
      ∀ other, after.kind? other =
        if other = place ++ [name] then some .dir else disk.kind? other := by
  unfold makeDir at h
  split at h
  · cases h
  · split at h
    · cases h
    · rename_i place name htarget
      split at h
      · cases h
      rename_i hfree
      cases h
      simp only [Bool.or_eq_true, not_or, Bool.not_eq_true] at hfree
      obtain ⟨hdots, hnone⟩ := hfree
      obtain ⟨front, idle, -, -, -, -, hdir⟩ := target_eq_ok.mp htarget
      have hnone : disk.kind? (place ++ [name]) = none := by
        apply Decidable.not_not.mp
        rw [← Ne, ← isSome_at?, hnone]
        exact Bool.false_ne_true
      refine ⟨place, name, htarget, hdots, hdir, hnone, rfl, ?_⟩
      intro other
      exact kind?_put rfl hdir (by rw [hnone]; exact nofun) other

/-- A directory is made below one that is there, unless something is there already. -/
theorem makeDir_of_target {place : List String} {name : String}
    (htarget : disk.target path = .ok (place, name)) (hname : isDots name = false) :
    disk.makeDir path =
      if disk.kind? (place ++ [name]) = none then .ok (disk.put (place ++ [name]) (.dir []))
      else .error .alreadyThere := by
  obtain ⟨front, idle, hpieces, -, hempty, -, -⟩ := target_eq_ok.mp htarget
  have hmem : name ∈ piecesBy '/' path := by
    rw [hpieces]
    exact List.mem_append_right _ List.mem_cons_self
  have hroot := not_root_of_isName (isName_of_not_isDots hempty hname) hmem
  unfold makeDir
  simp only [if_neg hroot, htarget, hname, Bool.false_or, isSome_at?, ne_eq, ite_not]

theorem makeDir_grown (h : disk.makeDir path = .ok after) : Grown disk after := by
  obtain ⟨place, name, -, -, -, hnone, hhere, hkind⟩ := makeDir_eq_ok h
  refine ⟨⟨hhere, ?_⟩, ?_⟩
  · intro other kind hother
    rw [hkind, if_neg]
    · exact hother
    · rintro rfl
      rw [hnone] at hother
      cases hother
  · intro other hother
    rw [hkind]
    split
    · exact .inr rfl
    · exact .inl hother

theorem isDir_of_makeDir (h : disk.makeDir path = .ok after) (hpath : path ≠ "") :
    after.isDir path = true := by
  have hgrown := makeDir_grown h
  obtain ⟨place, name, htarget, hdots, hdir, -, hhere, hkind⟩ := makeDir_eq_ok h
  obtain ⟨front, idle, hpieces, hidle, hempty, hwalk, -⟩ := target_eq_ok.mp htarget
  have hthere : after.kind? (place ++ [name]) = some .dir := by
    rw [hkind, if_pos rfl]
  have hstay : after.Walks (place ++ [name]) idle (place ++ [name]) := by
    clear hpieces
    induction idle with
    | nil => exact .nil _
    | cons part idle ih =>
      obtain ⟨hpart, hrest⟩ := List.forall_mem_cons.mp hidle
      exact .idle hthere (.inl hpart) (ih hrest)
  rw [isDir_iff, hpieces, base_eq hhere]
  refine ⟨hpath, place ++ [name], (hwalk.mono hgrown.toExtends).append ?_, hthere⟩
  apply Walks.down (hgrown.kind _ _ hdir) (isName_of_not_isDots hempty hdots) _ hstay
  rw [hthere]
  exact Option.some_ne_none _

/-! ## Making all directories of a path -/

theorem makeDirsFrom_empty (fuel : Nat) (disk : Disk) :
    makeDirsFrom (fuel + 1) disk "" = .ok disk := by
  rw [makeDirsFrom, if_pos rfl]

/-- The directory is made at once, or it is there, or the one above is made first, as `up` says. -/
inductive Making (up : String → Disk → Prop) (disk : Disk) (path : String) (after : Disk) :
    Prop where
  | made (h : disk.makeDir path = .ok after)
  | there {fault : FileFault} (hfault : disk.makeDir path = .error fault)
    (hpresent : fault ≠ .missing) (hdir : disk.isDir path = true) (hafter : after = disk)
  | above {upper : String} {between : Disk} (hfault : disk.makeDir path = .error .missing)
    (hupper : parent? path = some upper) (hbetween : up upper between)
    (h : between.makeDir path = .ok after)
  | aboveThere {upper : String} {fault : FileFault}
    (hfault : disk.makeDir path = .error .missing) (hupper : parent? path = some upper)
    (hafter : up upper after) (hagain : after.makeDir path = .error fault)
    (hdir : after.isDir path = true)

theorem Making.imp {up other : String → Disk → Prop} (h : Making up disk path after)
    (himp : ∀ upper between, parent? path = some upper → up upper between → other upper between) :
    Making other disk path after := by
  cases h with
  | made h => exact .made h
  | there hfault hpresent hdir hafter => exact .there hfault hpresent hdir hafter
  | above hfault hupper hbetween h => exact .above hfault hupper (himp _ _ hupper hbetween) h
  | aboveThere hfault hupper hafter hagain hdir =>
    exact .aboveThere hfault hupper (himp _ _ hupper hafter) hagain hdir

theorem makeDirsFrom_eq_ok {fuel : Nat} (hpath : path ≠ "") :
    makeDirsFrom (fuel + 1) disk path = .ok after ↔
      Making (fun upper between => makeDirsFrom fuel disk upper = .ok between) disk path after := by
  constructor
  · intro h
    rw [makeDirsFrom, if_neg hpath] at h
    dsimp only at h
    split at h
    · rename_i hfault
      split at h
      · cases h
      -- what is above was missing: it is made first, and then the directory is tried again
      · rename_i upper hupper
        split at h
        · cases h
        · rename_i between hbetween
          split at h
          · rename_i made hmade
            cases h
            exact .above hfault hupper hbetween hmade
          · rename_i fault hagain
            split at h
            · rename_i hdir
              cases h
              exact .aboveThere hfault hupper hbetween hagain hdir
            · cases h
    · rename_i hpresent
      split at h
      · rename_i made hmade
        cases h
        exact .made hmade
      · rename_i fault hfault
        split at h
        · rename_i hdir
          cases h
          refine .there hfault ?_ hdir rfl
          rintro rfl
          exact hpresent hfault
        · cases h
  · intro h
    rw [makeDirsFrom, if_neg hpath]
    dsimp only
    cases h with
    | made h => rw [h]
    | there hfault hpresent hdir hafter =>
      rw [hfault, hafter]
      cases ‹FileFault› with
      | missing => exact absurd rfl hpresent
      | _ => simp [hdir]
    | above hfault hupper hbetween h => simp only [hfault, hupper, hbetween, h]
    | aboveThere hfault hupper hafter hagain hdir =>
      simp only [hfault, hupper, hafter, hagain, hdir, if_true]

/-- More steps upwards make no difference. -/
theorem makeDirsFrom_mono {fuel more : Nat} (h : makeDirsFrom fuel disk path = .ok after)
    (hmore : fuel ≤ more) : makeDirsFrom more disk path = .ok after := by
  induction fuel generalizing more path after with
  | zero => cases h
  | succ fuel ih =>
    obtain ⟨more, rfl⟩ : ∃ n, more = n + 1 := ⟨more - 1, by omega⟩
    by_cases hpath : path = ""
    · rw [hpath, makeDirsFrom_empty] at h ⊢
      exact h
    · rw [makeDirsFrom_eq_ok hpath] at h ⊢
      apply h.imp
      intro upper between _ hbetween
      exact ih hbetween (Nat.le_of_succ_le_succ hmore)

/-- A path has fewer directories above it than characters, so all that are needed are made. -/
theorem makeDirs_of_makeDirsFrom {fuel : Nat} (h : makeDirsFrom fuel disk path = .ok after) :
    disk.makeDirs path = .ok after := by
  unfold makeDirs
  induction fuel generalizing path after with
  | zero => cases h
  | succ fuel ih =>
    by_cases hpath : path = ""
    · rw [hpath, makeDirsFrom_empty] at h ⊢
      exact h
    · rw [makeDirsFrom_eq_ok hpath] at h ⊢
      apply h.imp
      intro upper between hupper hbetween
      exact makeDirsFrom_mono (ih hbetween) (length_parent?_lt hpath hupper)

theorem makeDirs_empty (disk : Disk) : disk.makeDirs "" = .ok disk := makeDirsFrom_empty _ disk

theorem makeDirs_eq_ok (hpath : path ≠ "") :
    disk.makeDirs path = .ok after ↔
      Making (fun upper between => disk.makeDirs upper = .ok between) disk path after := by
  constructor
  · intro h
    apply ((makeDirsFrom_eq_ok hpath).mp h).imp
    intro upper between _ hbetween
    exact makeDirs_of_makeDirsFrom hbetween
  · intro h
    apply (makeDirsFrom_eq_ok hpath).mpr
    apply h.imp
    intro upper between hupper hbetween
    exact makeDirsFrom_mono hbetween (length_parent?_lt hpath hupper)

/-- Making directories adds directories and changes nothing else. -/
theorem makeDirs_grown (h : disk.makeDirs path = .ok after) : Grown disk after := by
  unfold makeDirs at h
  generalize path.length + 1 = fuel at h
  induction fuel generalizing path after with
  | zero => cases h
  | succ fuel ih =>
    by_cases hpath : path = ""
    · rw [hpath, makeDirsFrom_empty] at h
      cases h
      exact .refl disk
    · cases (makeDirsFrom_eq_ok hpath).mp h with
      | made h => exact makeDir_grown h
      | there _ _ _ hafter =>
        rw [hafter]
        exact .refl disk
      | above _ _ hbetween h => exact (ih hbetween).trans (makeDir_grown h)
      | aboveThere _ _ hafter _ _ => exact ih hafter

/-- A path whose directories were made leads to a directory. -/
theorem isDir_of_makeDirs (h : disk.makeDirs path = .ok after) (hpath : path ≠ "") :
    after.isDir path = true := by
  cases (makeDirs_eq_ok hpath).mp h with
  | made h => exact isDir_of_makeDir h hpath
  | there _ _ hdir hafter =>
    rw [hafter]
    exact hdir
  | above _ _ _ h => exact isDir_of_makeDir h hpath
  | aboveThere _ _ _ _ hdir => exact hdir

/-- The last component of a path that leads somewhere is in a directory, and it leads elsewhere or
something is there. -/
theorem target_of_walks {front idle : List String} {last : String} {place : List String}
    (hpieces : piecesBy '/' path = front ++ last :: idle) (hlast : last ≠ "")
    (hidle : ∀ part ∈ idle, part = "")
    (hwalk : disk.Walks (disk.base path) (piecesBy '/' path) place) :
    ∃ between, disk.target path = .ok (between, last) ∧
      (isDots last = true ∨ disk.kind? (between ++ [last]) ≠ none) := by
  rw [hpieces] at hwalk
  obtain ⟨between, hfront, hback⟩ := hwalk.of_append
  have hbetween : disk.kind? between = some .dir ∧
      (isDots last = true ∨ disk.kind? (between ++ [last]) ≠ none) := by
    cases hback with
    | idle hdir hstay _ =>
      rcases hstay with hempty | rfl
      · exact absurd hempty hlast
      · exact ⟨hdir, .inl rfl⟩
    | up hdir _ => exact ⟨hdir, .inl rfl⟩
    | down hdir _ hthere _ => exact ⟨hdir, .inr hthere⟩
  refine ⟨between, ?_, hbetween.2⟩
  exact target_eq_ok.mpr ⟨front, idle, hpieces, hidle, hlast, hfront, hbetween.1⟩

/-- A directory that is there cannot be made. -/
theorem makeDir_of_isDir (h : disk.isDir path = true) :
    disk.makeDir path = .error .alreadyThere := by
  obtain ⟨hpath, place, hwalk, hdir⟩ := isDir_iff.mp h
  unfold makeDir
  split
  · rfl
  · rename_i hroot
    obtain ⟨idle, hsplit, hidle⟩ := eq_append_of_dropWhile (· = "") (piecesBy '/' path)
    cases hdrop : (piecesBy '/' path).reverse.dropWhile (· = "") with
    | nil =>
      rw [hdrop, List.reverse_nil, List.nil_append] at hsplit
      apply absurd _ hroot
      apply root_of_empty hpath
      intro part hpart
      simpa using hidle part (hsplit ▸ hpart)
    | cons last front =>
      rw [hdrop, List.reverse_cons, List.append_assoc, List.singleton_append] at hsplit
      have hlast : last ≠ "" := by simpa using not_of_dropWhile_eq_cons hdrop
      obtain ⟨between, htarget, hthere⟩ :=
        target_of_walks hsplit hlast (by simpa using hidle) hwalk
      rw [htarget]
      apply if_pos
      rw [Bool.or_eq_true, isSome_at?]
      exact hthere

/-- Nothing is made of a directory that is there. -/
theorem makeDirs_of_isDir (h : disk.isDir path = true) : disk.makeDirs path = .ok disk := by
  obtain ⟨hpath, -⟩ := isDir_iff.mp h
  exact (makeDirs_eq_ok hpath).mpr (.there (makeDir_of_isDir h) nofun h rfl)

/-! ## Writing a file -/

/-- A file is written into a directory that is there, unless its name is that of a directory. -/
theorem writeFile_of_target {place : List String} {name : String}
    (htarget : disk.target path = .ok (place, name)) (hname : isDots name = false)
    (hfree : disk.kind? (place ++ [name]) ≠ some .dir) (bytes : List UInt8) :
    ∃ after, disk.writeFile path bytes = .ok after ∧ after.here = disk.here ∧
      ∀ other, after.kind? other =
        if other = place ++ [name] then some (.file bytes) else disk.kind? other := by
  obtain ⟨front, idle, -, -, -, -, hdir⟩ := target_eq_ok.mp htarget
  refine ⟨disk.put (place ++ [name]) (.file bytes), ?_, rfl, kind?_put rfl hdir hfree⟩
  unfold writeFile
  simp only [htarget, hname, Bool.false_eq_true, if_false]
  split
  · rename_i children hat
    exact absurd (kind?_eq_dir_iff.mpr ⟨children, hat⟩) hfree
  · rfl

end StackScript.Files.Disk

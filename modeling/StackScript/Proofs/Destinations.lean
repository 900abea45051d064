import Mathlib.Data.List.Induction
import StackScript.Proofs.Directories

/-!
# Directories on the way to a file

A file below a directory is written after the directories on the way to it are made, each below the
one before. When nothing but directories is in the way, that succeeds, adds the directories of the
names on the way and nothing else (`makeDirs_below`).
-/

namespace StackScript.Files.Disk

open StackScript.Text

variable {disk between made : Disk} {path name : String} {place front : List String}

/-! ## The directory above -/

/-- The path of the directory above a path leads to the directory in which the last component is. -/
theorem isDir_parentOf (hpieces : piecesBy '/' path = front ++ [name])
    (hwalk : disk.Walks (disk.base path) front place) (hdir : disk.kind? place = some .dir) :
    parentOf front = "" ∨ disk.isDir (parentOf front) = true := by
  by_cases hfront : front = []
  · rw [hfront]
    exact .inl rfl
  · right
    rcases parentOf_cases hfront with ⟨hroot, idle, rfl, hidle⟩ |
      ⟨kept, idle, hkept, hsingle, rfl, hidle, hupper⟩
    · -- behind the first slash nothing leads on, so this is the root
      have habsolute : isAbsolute path = true :=
        isAbsolute_iff.mpr ⟨idle ++ [name], by simp, hpieces⟩
      have hplace : place = [] := by
        rw [hwalk.eq_follow, base, if_pos habsolute]
        apply follow_idle
        exact List.forall_mem_cons.mpr ⟨.inl rfl, hidle⟩
      rw [hplace] at hdir
      rw [hroot, isDir_iff]
      exact ⟨by decide, [], .idle hdir (.inl rfl) (.idle hdir (.inl rfl) (.nil [])), hdir⟩
    · have hcut : piecesBy '/' ("/".intercalate kept) = kept := by
        apply piecesBy_intercalate hkept
        intro part hpart
        apply not_mem_of_mem_piecesBy
        rw [hpieces]
        exact List.mem_append_left _ (List.mem_append_left _ hpart)
      have hbase : disk.base ("/".intercalate kept) = disk.base path := by
        rw [base, base, isAbsolute_upper _ (by rwa [hcut])]
        rw [hcut, hpieces, List.append_assoc]
        exact List.prefix_append _ _
      have hpath : "/".intercalate kept ≠ "" := by
        intro hempty
        rw [hempty] at hcut
        exact hsingle hcut.symm
      obtain ⟨middle, hfirst, hrest⟩ := hwalk.of_append
      rw [hrest.eq_follow, follow_idle middle hidle] at hdir
      rw [hupper, isDir_iff, hcut, hbase]
      exact ⟨hpath, middle, hfirst, hdir⟩

/-- Making the directory above changes nothing when it is there. -/
theorem makeDirs_parentOf (hpieces : piecesBy '/' path = front ++ [name])
    (hwalk : disk.Walks (disk.base path) front place) (hdir : disk.kind? place = some .dir) :
    disk.makeDirs (parentOf front) = .ok disk := by
  rcases isDir_parentOf hpieces hwalk hdir with hempty | hthere
  · rw [hempty]
    exact makeDirs_empty disk
  · exact makeDirs_of_isDir hthere

/-- Where the directory above leads on a grown disk, it leads already, or something is missing. -/
theorem makeDir_before (hpieces : piecesBy '/' path = front ++ [name]) (hname : IsName name)
    (hgrown : Grown disk between) (hwalk : between.Walks (between.base path) front place)
    (hdir : between.kind? place = some .dir) :
    disk.makeDir path = .error .missing ∨
      disk.Walks (disk.base path) front place ∧ disk.kind? place = some .dir := by
  have hmem : name ∈ piecesBy '/' path := by
    rw [hpieces]
    exact List.mem_append_right _ (List.mem_singleton_self _)
  have hroot := not_root_of_isName hname hmem
  have htarget := target_of_piecesBy disk hpieces hname.ne_empty
  rcases hwalk.before hgrown with hearlier | hearlier
  · rw [base_eq hgrown.here] at hearlier
    cases hkind : disk.kind? place with
    | none =>
      left
      simp only [makeDir, if_neg hroot, htarget, hearlier, hkind]
    | some kind =>
      right
      rw [hgrown.kind place kind hkind] at hdir
      exact ⟨walk_eq_ok.mp hearlier, hdir⟩
  · left
    rw [base_eq hgrown.here] at hearlier
    simp only [makeDir, if_neg hroot, htarget, hearlier]

/-- A directory of a name is made below directories that can be made, if no file is there. -/
theorem makeDirs_of_parentOf (hpieces : piecesBy '/' path = front ++ [name]) (hname : IsName name)
    (hup : disk.makeDirs (parentOf front) = .ok between)
    (hwalk : between.Walks (between.base path) front place)
    (hdir : between.kind? place = some .dir)
    (hfree : ∀ bytes, between.kind? (place ++ [name]) ≠ some (.file bytes)) :
    ∃ after, disk.makeDirs path = .ok after ∧ Grown between after ∧
      ∀ other, after.kind? other =
        if other = place ++ [name] then some .dir else between.kind? other := by
  have hparent := parent?_eq hpieces hname.active
  have htarget : between.target path = .ok (place, name) := by
    refine target_eq_ok.mpr ⟨front, [], hpieces, nofun, hname.ne_empty, hwalk, hdir⟩
  have hmake := makeDir_of_target htarget (isDots_of_isName hname)
  have hpath : path ≠ "" := by
    apply ne_empty_of_mem_piecesBy hname.ne_empty
    rw [hpieces]
    simp
  -- the directories above were there, or they are made because something is missing
  have hstart : disk.makeDir path = .error .missing ∨ between = disk := by
    rcases makeDir_before hpieces hname (makeDirs_grown hup) hwalk hdir with
      hmissing | ⟨hearlier, hthere⟩
    · exact .inl hmissing
    · rw [makeDirs_parentOf hpieces hearlier hthere] at hup
      cases hup
      exact .inr rfl
  cases hkind : between.kind? (place ++ [name]) with
  | none =>
    rw [if_pos hkind] at hmake
    obtain ⟨_, _, htarget', -, -, -, -, hall⟩ := makeDir_eq_ok hmake
    rw [htarget] at htarget'
    cases htarget'
    refine ⟨_, ?_, makeDir_grown hmake, hall⟩
    rw [makeDirs_eq_ok hpath]
    rcases hstart with hmissing | rfl
    · exact .above hmissing hparent hup hmake
    · exact .made hmake
  | some kind =>
    cases kind with
    | file bytes => exact absurd hkind (hfree bytes)
    | dir =>
      rw [if_neg (by rw [hkind]; exact Option.some_ne_none _)] at hmake
      have hthere : between.isDir path = true := by
        rw [isDir_iff, hpieces]
        refine ⟨hpath, place ++ [name], hwalk.append ?_, hkind⟩
        apply Walks.down hdir hname _ (.nil _)
        rw [hkind]
        exact Option.some_ne_none _
      refine ⟨between, ?_, .refl between, ?_⟩
      · rw [makeDirs_eq_ok hpath]
        rcases hstart with hmissing | rfl
        · exact .aboveThere hmissing hparent hup hmake hthere
        · exact .there hmake nofun hthere rfl
      · intro other
        split
        · rename_i heq
          rw [heq, hkind]
        · rfl

/-! ## Directories below a directory -/

/-- The directories of names below a directory that can be made are made when no file is in the way,
and nothing else is. -/
theorem makeDirs_below {home words : List String} {last : String}
    (hpieces : piecesBy '/' path = home ++ words ++ [last])
    (hhome : disk.makeDirs (parentOf home) = .ok made)
    (hwalk : made.Walks (made.base path) home place) (hdir : made.kind? place = some .dir)
    (hwords : ∀ word ∈ words, IsName word)
    (hfree : ∀ names bytes, names <+: words → made.kind? (place ++ names) ≠ some (.file bytes)) :
    ∃ after, disk.makeDirs (parentOf (home ++ words)) = .ok after ∧ Grown made after ∧
      after.Walks (after.base path) (home ++ words) (place ++ words) ∧
      after.kind? (place ++ words) = some .dir ∧
      ∀ other, after.kind? other ≠ made.kind? other →
        ∃ names, names <+: words ∧ other = place ++ names := by
  induction words using List.reverseRecOn generalizing path last with
  | nil =>
    rw [List.append_nil, List.append_nil]
    refine ⟨made, hhome, .refl made, hwalk, hdir, ?_⟩
    intro other hother
    exact absurd rfl hother
  | append_singleton words word ih =>
    have hword : IsName word := hwords word (List.mem_append_right _ (List.mem_singleton_self _))
    -- the path of the last directory
    have hupper : parentOf (home ++ (words ++ [word])) =
        "/".intercalate (home ++ words ++ [word]) := by
      rw [← List.append_assoc, parentOf_append hword.active]
    have hcut : piecesBy '/' ("/".intercalate (home ++ words ++ [word])) =
        home ++ words ++ [word] := by
      apply piecesBy_intercalate (by simp)
      intro part hpart
      have hmem : part ∈ piecesBy '/' path := by
        rw [hpieces, ← List.append_assoc]
        exact List.mem_append_left _ hpart
      exact not_mem_of_mem_piecesBy hmem
    have hbase : ∀ d : Disk, d.base ("/".intercalate (home ++ words ++ [word])) = d.base path := by
      intro d
      rw [base, base, isAbsolute_upper]
      · rw [hcut, hpieces, ← List.append_assoc]
        exact List.prefix_append _ _
      · rw [hcut]
        intro heq
        have hmem : word ∈ [""] := by
          rw [← heq]
          simp
        exact hword.ne_empty (List.mem_singleton.mp hmem)
    obtain ⟨between, hbetween, hgrown, hthere, hbelow, hadded⟩ := ih hcut (by rwa [hbase])
      (fun part hpart => hwords part (List.mem_append_left _ hpart))
      (fun names bytes h => hfree names bytes (h.trans (List.prefix_append _ _)))
    obtain ⟨after, hafter, hmore, hall⟩ :=
      makeDirs_of_parentOf hcut hword hbetween hthere hbelow (by
        intro bytes hfile
        apply hfree (words ++ [word]) bytes (List.prefix_refl _)
        rw [← hgrown.file_iff, ← List.append_assoc]
        exact hfile)
    have hlast : after.kind? (place ++ (words ++ [word])) = some .dir := by
      rw [hall, ← List.append_assoc, if_pos rfl]
    refine ⟨after, ?_, hgrown.trans hmore, ?_, hlast, ?_⟩
    · rw [hupper]
      exact hafter
    · rw [hbase] at hthere
      rw [base_eq hmore.here, ← List.append_assoc, ← List.append_assoc]
      apply (hthere.mono hmore.toExtends).append
      apply Walks.down (hmore.kind _ _ hbelow) hword _ (.nil _)
      rw [List.append_assoc, hlast]
      exact Option.some_ne_none _
    · intro other hother
      by_cases heq : other = place ++ words ++ [word]
      · exact ⟨words ++ [word], List.prefix_refl _, by rw [heq, List.append_assoc]⟩
      · rw [hall, if_neg heq] at hother
        obtain ⟨names, hnames, hplace⟩ := hadded other hother
        exact ⟨names, hnames.trans (List.prefix_append _ _), hplace⟩

end StackScript.Files.Disk

import StackScript.Proofs.Basics
import StackScript.Session.Arguments

/-!
# What entries mean

Entries are a list of texts in which a mark announces a script (`Announced`). Scripts and paths that
were given at places of their own become such a list in the order of the places
(`orderedEntries_eq`), and reading the list gives each of them back, unless a path is the mark
itself: then it takes the entry behind it for a script, or is refused at the end
(`ordered_entries_mean_origins`).
-/

namespace StackScript.Session

open StackScript.Files

/-! ## Reading entries -/

/-- The entries stand for the units: a mark with the text behind it for a script, and any other
entry for a path. -/
inductive Announced : List String → List SourceUnit → Prop where
  | nil : Announced [] []
  | script {entries : List String} {units : List SourceUnit} (text : String)
    (rest : Announced entries units) :
    Announced (inlineMark :: text :: entries) (.inline text :: units)
  | path {entries : List String} {units : List SourceUnit} {path : String}
    (hpath : path ≠ inlineMark) (rest : Announced entries units) :
    Announced (path :: entries) (.file path :: units)

theorem entryUnits_script (text : String) (entries : List String) :
    entryUnits (inlineMark :: text :: entries) =
      (SourceUnit.inline text :: ·) <$> entryUnits entries := by
  rw [entryUnits.eq_def]
  exact if_pos rfl

theorem entryUnits_path {path : String} (hpath : path ≠ inlineMark) (entries : List String) :
    entryUnits (path :: entries) = (SourceUnit.file path :: ·) <$> entryUnits entries := by
  rw [entryUnits.eq_def]
  exact if_neg hpath

/-- Entries in which every mark has a script behind it are read. -/
theorem Announced.entryUnits_eq {entries : List String} {units : List SourceUnit}
    (h : Announced entries units) : entryUnits entries = .ok units := by
  induction h with
  | nil => rfl
  | script text _ ih => rw [entryUnits_script, ih]; rfl
  | path hpath _ ih => rw [entryUnits_path hpath, ih]; rfl

/-! ## Writing entries -/

/-- The unit that comes from an origin. -/
def Origin.unit : Origin → SourceUnit
  | .inline text => .inline text
  | .file path => .file path

/-- The entries that an origin is given by. -/
def Origin.entries : Origin → List String
  | .inline text => [inlineMark, text]
  | .file path => [path]

theorem map_cons_eq_ok {unit : SourceUnit} {units : List SourceUnit}
    {read : Except SessionFault (List SourceUnit)} :
    (unit :: ·) <$> read = .ok (unit :: units) ↔ read = .ok units := by
  cases read with
  | error fault => exact ⟨nofun, nofun⟩
  | ok others =>
    constructor
    · intro h
      cases h
      rfl
    · intro h
      rw [h]
      rfl

/-- A path that is the mark is not read as a path. -/
theorem entryUnits_mark_ne (entries : List String) (units : List SourceUnit) :
    entryUnits (inlineMark :: entries) ≠ .ok (.file inlineMark :: units) := by
  intro h
  cases entries with
  | nil => cases h
  | cons text entries =>
    rw [entryUnits_script] at h
    cases hread : entryUnits entries with
    | error fault =>
      rw [hread] at h
      cases h
    | ok others =>
      rw [hread] at h
      have hunit := (List.cons.inj (Except.ok.inj h)).1
      cases congrArg SourceUnit.origin hunit

/-- The entries of origins are read as these origins exactly when no path is the mark. -/
theorem entryUnits_flatMap_entries (origins : List Origin) :
    entryUnits (origins.flatMap Origin.entries) = .ok (origins.map Origin.unit) ↔
      ∀ origin ∈ origins, origin ≠ .file inlineMark := by
  induction origins with
  | nil => exact ⟨fun _ => nofun, fun _ => rfl⟩
  | cons origin origins ih =>
    rw [List.flatMap_cons, List.map_cons, List.forall_mem_cons, ← ih]
    cases origin with
    | inline text =>
      have hread : entryUnits ((Origin.inline text).entries ++ origins.flatMap Origin.entries) =
          (SourceUnit.inline text :: ·) <$> entryUnits (origins.flatMap Origin.entries) :=
        entryUnits_script text _
      rw [hread]
      exact map_cons_eq_ok.trans ⟨fun h => ⟨nofun, h⟩, And.right⟩
    | file path =>
      by_cases hpath : path = inlineMark
      · subst hpath
        exact ⟨fun h => absurd h (entryUnits_mark_ne _ _), fun h => absurd rfl h.1⟩
      · have hread : entryUnits ((Origin.file path).entries ++ origins.flatMap Origin.entries) =
            (SourceUnit.file path :: ·) <$> entryUnits (origins.flatMap Origin.entries) :=
          entryUnits_path hpath _
        rw [hread]
        refine map_cons_eq_ok.trans ⟨fun h => ⟨fun hfile => hpath ?_, h⟩, And.right⟩
        exact Origin.file.inj hfile

/-! ## Scripts and paths by their places -/

/-- Scripts and paths as origins at their places. -/
def placedOrigins (scripts paths : List (Nat × String)) : List (Nat × Origin) :=
  scripts.map (fun script => (script.1, .inline script.2)) ++
    paths.map fun path => (path.1, .file path.2)

/-- Scripts and paths are put in the order of their places, one origin after the other. -/
theorem orderedEntries_eq (scripts paths : List (Nat × String)) :
    orderedEntries scripts paths =
      (((placedOrigins scripts paths).mergeSort fun a b => a.1 ≤ b.1).map Prod.snd).flatMap
        Origin.entries := by
  have hmap : (placedOrigins scripts paths).map (fun origin => (origin.1, origin.2.entries)) =
      scripts.map (fun script => (script.1, [inlineMark, script.2])) ++
        paths.map fun path => (path.1, [path.2]) := by
    rw [placedOrigins, List.map_append, List.map_map, List.map_map]
    rfl
  have hsort : ((placedOrigins scripts paths).map fun origin =>
      (origin.1, origin.2.entries)).mergeSort (fun a b => a.1 ≤ b.1) =
      ((placedOrigins scripts paths).mergeSort fun a b => a.1 ≤ b.1).map fun origin =>
        (origin.1, origin.2.entries) := by
    refine (List.map_mergeSort ?_).symm
    exact fun _ _ _ _ => rfl
  rw [orderedEntries, ← hmap, hsort, List.flatMap_map, List.flatMap_map]

theorem pairwise_origins {scripts paths : List (Nat × String)}
    (hplaces : ((scripts ++ paths).map Prod.fst).Nodup) :
    let origins := (placedOrigins scripts paths).mergeSort fun a b => a.1 ≤ b.1
    origins.Pairwise fun a b => a.1 < b.1 := by
  intro origins
  have hsorted : origins.Pairwise fun a b => a.1 ≤ b.1 := by
    refine (List.pairwise_mergeSort ?_ ?_ _).imp fun h => of_decide_eq_true h
    · intro a b c hab hbc
      exact decide_eq_true (Nat.le_trans (of_decide_eq_true hab) (of_decide_eq_true hbc))
    · intro a b
      simpa using Nat.le_total a.1 b.1
  have hkeys : (placedOrigins scripts paths).map Prod.fst = (scripts ++ paths).map Prod.fst := by
    rw [placedOrigins, List.map_append, List.map_append, List.map_map, List.map_map]
    rfl
  have hdistinct : (origins.map Prod.fst).Nodup := by
    rw [((List.mergeSort_perm _ _).map Prod.fst).nodup_iff, hkeys]
    exact hplaces
  exact (hsorted.and (List.pairwise_map.mp hdistinct)).imp fun h => Nat.lt_of_le_of_ne h.1 h.2

/-- Scripts and paths, given at places of their own, stand for themselves in the order of the
places, whatever the texts are, exactly when no path is the mark of scripts. -/
theorem ordered_entries_mean_origins (disk : Disk) {scripts paths : List (Nat × String)}
    (hplaces : ((scripts ++ paths).map Prod.fst).Nodup) :
    ∃ origins : List (Nat × Origin),
      origins.Perm (scripts.map (fun script => (script.1, .inline script.2)) ++
        paths.map fun path => (path.1, .file path.2)) ∧
      (origins.Pairwise fun a b => a.1 < b.1) ∧
      let units := origins.map (·.2.unit)
      (entryUnits (orderedEntries scripts paths) = .ok units ↔
        ∀ path ∈ paths, path.2 ≠ inlineMark) ∧
      ((∀ path ∈ paths, path.2 ≠ inlineMark) →
        expand disk (orderedEntries scripts paths) =
          .ok (expandQueue (units.map (SourceUnit.waiting disk)))) := by
  have hperm := List.mergeSort_perm (placedOrigins scripts paths) fun a b => a.1 ≤ b.1
  refine ⟨_, hperm, pairwise_origins hplaces, ?_⟩
  rw [orderedEntries_eq]
  generalize (placedOrigins scripts paths).mergeSort _ = origins at hperm ⊢
  have hread : entryUnits ((origins.map Prod.snd).flatMap Origin.entries) =
      .ok (origins.map (·.2.unit)) ↔ ∀ path ∈ paths, path.2 ≠ inlineMark := by
    have hunits : origins.map (·.2.unit) = (origins.map Prod.snd).map Origin.unit := by
      rw [List.map_map]
      rfl
    rw [hunits, entryUnits_flatMap_entries]
    constructor
    · intro h path hpath hmark
      refine h (.file path.2) (List.mem_map.mpr ⟨(path.1, .file path.2), ?_, rfl⟩) (by rw [hmark])
      exact hperm.mem_iff.mpr (List.mem_append_right _ (List.mem_map_of_mem hpath))
    · intro h origin horigin hmark
      obtain ⟨placed, hplaced, rfl⟩ := List.mem_map.mp horigin
      rcases List.mem_append.mp (hperm.mem_iff.mp hplaced) with hplaced | hplaced
      · obtain ⟨script, -, rfl⟩ := List.mem_map.mp hplaced
        cases hmark
      · obtain ⟨path, hgiven, rfl⟩ := List.mem_map.mp hplaced
        exact h path hgiven (Origin.file.inj hmark)
  refine ⟨hread, fun h => ?_⟩
  rw [expand, hread.mpr h]
  rfl

/-- Scripts and paths that take turns; a script may well be the mark. -/
def turnScripts : List (Nat × String) := [(1, "puts 1"), (3, "-e")]

/-- The paths among the scripts. -/
def turnPaths : List (Nat × String) := [(0, "a.mirah"), (2, "b.txt")]

theorem ordered_entries_of_turns :
    ((turnScripts ++ turnPaths).map Prod.fst).Nodup ∧
      (∀ path ∈ turnPaths, path.2 ≠ inlineMark) ∧
      expand {} (orderedEntries turnScripts turnPaths) =
        .ok [.file "a.mirah", .inline "puts 1", .file "b.txt", .inline "-e"] := by
  have hplaces : ((turnScripts ++ turnPaths).map Prod.fst).Nodup := by decide
  have hmark : ∀ path ∈ turnPaths, path.2 ≠ inlineMark := by decide
  obtain ⟨origins, hperm, hordered, -, hexpand⟩ := ordered_entries_mean_origins {} hplaces
  have horigins : origins = [(0, .file "a.mirah"), (1, .inline "puts 1"), (2, .file "b.txt"),
      (3, .inline "-e")] := by
    refine List.Perm.eq_of_pairwise ?_ hordered (by decide) (hperm.trans (by decide))
    intro a b _ _ hab hba
    exact absurd hba (Nat.lt_asymm hab)
  have hfirst : directory? {} "a.mirah" = none := Option.isNone_iff_eq_none.mp (by decide +kernel)
  have hsecond : directory? {} "b.txt" = none := Option.isNone_iff_eq_none.mp (by decide +kernel)
  refine ⟨hplaces, hmark, ?_⟩
  rw [hexpand hmark, horigins]
  simp [Origin.unit, SourceUnit.waiting, SourceUnit.inline, SourceUnit.file, hfirst, hsecond,
    expandQueue]

end StackScript.Session

import Mathlib.Data.List.Basic
import StackScript.Code.Generate
import StackScript.Proofs.PackageNames
import StackScript.Proofs.Paths
import StackScript.Proofs.QualifiedNames

/-!
# Where classes are written

The file of a class lies in a directory for each word of its package and is named after the class
(`piecesBy_relativePath`). No two classes have one file, and no file is where a directory of another
class has to be, since only the names of files have dots in them (`Spelled.unique`).
-/

namespace StackScript.Code

open StackScript.Files StackScript.Syntax StackScript.Text StackScript.Typing

/-! ## Names with dots -/

theorem not_mem_of_plainName {name : String} (h : PlainName name) {c : Char}
    (hc : isNameChar c = false) : c ∉ name.toList := by
  intro hmem
  have hname := h c hmem
  rw [hc] at hname
  cases hname

/-- A word is a component of a path that leads downwards. -/
theorem isName_of_isWord {word : String} (h : IsWord word) : IsName word := by
  have hdot := not_mem_of_plainName h.2 (show isNameChar '.' = false by decide)
  refine ⟨?_, ?_⟩
  · rintro (rfl | rfl)
    · exact h.1 rfl
    · exact hdot (by decide)
  · rintro rfl
    exact hdot (by decide)

theorem piecesBy_of_isWord {word : String} (h : IsWord word) : piecesBy '/' word = [word] :=
  piecesBy_of_not_mem (not_mem_of_plainName h.2 (by decide))

/-- A qualified name as the words of a package and the name of a class, which is without dots but
may have the names of classes around it before it. -/
structure Spelled (words : List String) (last qualified : String) : Prop where
  areWords : ∀ word ∈ words, IsWord word
  noDot : '.' ∉ last.toList
  noSlash : '/' ∉ last.toList
  eq : qualified = ".".intercalate (words ++ [last])

/-- The class names that packages and plain names make up can be spelled. -/
theorem spelled_of_qualified {qualified : String} {package around : Option String}
    (h : Qualified qualified package around) (hpackage : ∀ name ∈ package, Dotted name) :
    ∃ words last, Spelled words last qualified := by
  induction h with
  | @top package name hname =>
    have hdot := not_mem_of_plainName hname (show isNameChar '.' = false by decide)
    have hslash := not_mem_of_plainName hname (show isNameChar '/' = false by decide)
    cases package with
    | none => exact ⟨[], name, nofun, hdot, hslash, rfl⟩
    | some package =>
      obtain ⟨words, hwords, hall, rfl⟩ := hpackage package rfl
      refine ⟨words, name, hall, hdot, hslash, ?_⟩
      rw [String.intercalate_append_of_ne_nil hwords (List.cons_ne_nil name []),
        String.intercalate_singleton]
      rfl
  | @nested package around outer name _ hname ih =>
    have hdot := not_mem_of_plainName hname (show isNameChar '.' = false by decide)
    have hslash := not_mem_of_plainName hname (show isNameChar '/' = false by decide)
    obtain ⟨words, last, h⟩ := ih hpackage
    refine ⟨words, last ++ "$" ++ name, h.areWords, ?_, ?_, ?_⟩
    · simpa [h.noDot] using hdot
    · simpa [h.noSlash] using hslash
    · rw [qualify, h.eq]
      cases words with
      | nil => simp
      | cons first rest =>
        rw [String.intercalate_append_of_ne_nil (List.cons_ne_nil first rest)
          (List.cons_ne_nil last []), String.intercalate_append_of_ne_nil
          (List.cons_ne_nil first rest) (List.cons_ne_nil _ []), String.intercalate_singleton,
          String.intercalate_singleton]
        simp only [String.append_assoc]

/-! ## Paths of classes -/

/-- Words that are joined to a path one after the other become its components. -/
theorem opened_foldl_join {words : List String} (h : ∀ word ∈ words, IsWord word) (path : String) :
    opened (words.foldl join path) = opened path ++ words ∧
      isAbsolute (words.foldl join path) = isAbsolute path := by
  induction words generalizing path with
  | nil => exact ⟨(List.append_nil _).symm, rfl⟩
  | cons word words ih =>
    obtain ⟨hword, hrest⟩ := List.forall_mem_cons.mp h
    have hrelative := isAbsolute_of_not_mem
      (not_mem_of_plainName hword.2 (show isNameChar '/' = false by decide))
    have hopened : opened (join path word) = opened path ++ [word] := by
      rw [opened, piecesBy_join hrelative, piecesBy_of_isWord hword, if_neg]
      rw [List.getLast?_concat, Option.some.injEq]
      exact hword.1
    obtain ⟨hwords, habsolute⟩ := ih hrest (join path word)
    rw [List.foldl_cons, hwords, habsolute, hopened, isAbsolute_join hrelative, List.append_assoc]
    exact ⟨rfl, rfl⟩

section

variable {words : List String} {last qualified : String}

theorem Spelled.relativePath_eq (h : Spelled words last qualified) (extension : String) :
    relativePath qualified extension =
      join (words.foldl join "") (last ++ "." ++ extension) := by
  unfold relativePath
  rcases words.eq_nil_or_concat with rfl | ⟨front, word, hconcat⟩
  · have hname : qualified = last := by
      rw [h.eq]
      simp
    have hcut : cutLast '.' qualified.toList = none := by
      rw [hname]
      exact cutLast_of_not_mem h.noDot
    simp only [hcut]
    rw [hname]
  · have hwords : words ≠ [] := by
      rw [hconcat]
      simp
    have hname : qualified.toList = (".".intercalate words).toList ++ '.' :: last.toList := by
      rw [h.eq, String.intercalate_append_of_ne_nil hwords (List.cons_ne_nil last []),
        String.intercalate_singleton, String.toList_append, String.toList_append, List.append_assoc]
      rfl
    have hpieces : piecesBy '.' (".".intercalate words) = words := by
      apply piecesBy_intercalate hwords
      intro word hword
      exact not_mem_of_plainName (h.areWords word hword).2 (by decide)
    simp only [hname, cutLast_append h.noDot, String.ofList_toList, hpieces]

/-- The components of the path of a class are the words of its package, and its name with the
extension. -/
theorem Spelled.piecesBy_relativePath (h : Spelled words last qualified) {extension : String}
    (hextension : '/' ∉ extension.toList) :
    piecesBy '/' (relativePath qualified extension) = words ++ [last ++ "." ++ extension] ∧
      isAbsolute (relativePath qualified extension) = false := by
  have hslash : '/' ∉ (last ++ "." ++ extension).toList := by
    simp [h.noSlash, hextension]
  obtain ⟨hopened, hrelative⟩ := opened_foldl_join h.areWords ""
  have hfile := isAbsolute_of_not_mem hslash
  rw [h.relativePath_eq, piecesBy_join hfile, isAbsolute_join hfile, hopened, opened_empty,
    List.nil_append, piecesBy_of_not_mem hslash, hrelative]
  exact ⟨rfl, rfl⟩

/-- The name of the file of a class leads downwards. -/
theorem isName_file {extension : String} (h : IsWord extension) (last : String) :
    IsName (last ++ "." ++ extension) := by
  -- its last character is in a word, so it is not a dot
  have hlast : (last ++ "." ++ extension).toList.getLast? ≠ some '.' := by
    have hne : extension.toList ≠ [] := by simpa using h.1
    rw [String.toList_append, List.getLast?_append_of_ne_nil _ hne]
    intro hdot
    exact not_mem_of_plainName h.2 (by decide) (List.mem_of_getLast? hdot)
  refine ⟨?_, ?_⟩
  · rintro (hempty | hdot)
    · simpa using congrArg String.toList hempty
    · apply hlast
      rw [hdot]
      rfl
  · intro hup
    apply hlast
    rw [hup]
    rfl

/-- The name of a file has a dot, and a word has none. -/
theorem not_isWord_file (last extension : String) : ¬ IsWord (last ++ "." ++ extension) := by
  intro hword
  apply not_mem_of_plainName hword.2 (show isNameChar '.' = false by decide)
  simp

/-- Two names whose files are one, or of which the file of one is where a directory of the other has
to be, are one. -/
theorem Spelled.unique {words' : List String} {last' qualified' : String}
    (h : Spelled words last qualified) (h' : Spelled words' last' qualified') {extension : String}
    (hfront : words ++ [last ++ "." ++ extension] <+: words' ++ [last' ++ "." ++ extension]) :
    qualified = qualified' := by
  rcases List.prefix_concat_iff.mp hfront with heq | hinside
  · obtain ⟨rfl, hlast⟩ := List.append_inj' heq rfl
    have hlast : last = last' := by
      rw [List.cons.injEq, String.append_assoc, String.append_assoc] at hlast
      exact (String.append_left_inj _).mp hlast.1
    rw [h.eq, h'.eq, hlast]
  · -- a directory on the way to the other file has the name of a file
    apply absurd _ (not_isWord_file last extension)
    apply h'.areWords
    exact hinside.subset (List.mem_append_right _ (List.mem_singleton_self _))

end

end StackScript.Code

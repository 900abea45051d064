import Mathlib.Data.List.TakeWhile
import StackScript.Files.Path
import StackScript.Proofs.PlainNames

/-!
# Components of paths

A path is its components with slashes between (`intercalate_piecesBy`, `piecesBy_intercalate`). A
path that is joined to a directory has the components of the directory before its own
(`piecesBy_join`), and the directory above it is found by leaving out the last one (`parent?_eq`).
-/

namespace StackScript.Files

open StackScript.Syntax StackScript.Text

/-! ## Components -/

/-- A component that leads nowhere. -/
abbrev IsIdle (part : String) : Prop := part = "" ∨ part = "."

/-- A component that leads downwards. -/
structure IsName (part : String) : Prop where
  active : ¬ IsIdle part
  notUp : part ≠ ".."

theorem IsName.ne_empty {part : String} (h : IsName part) : part ≠ "" :=
  fun hempty => h.active (.inl hempty)

theorem piecesFrom_eq (isSeparator : Char → Bool) (current cs : List Char) :
    piecesFrom isSeparator current cs = cs.splitOnPPrepend isSeparator current := by
  induction cs generalizing current with
  | nil => rfl
  | cons c rest ih => rw [piecesFrom, List.splitOnPPrepend, ih, ih]

theorem piecesBy_eq (separator : Char) (text : String) :
    piecesBy separator text = (text.toList.splitOn separator).map String.ofList := by
  rw [piecesBy, pieces, piecesFrom_eq, List.splitOn_eq_splitOnP]
  rfl

theorem piecesBy_ne_nil (separator : Char) (text : String) : piecesBy separator text ≠ [] := by
  rw [piecesBy_eq]
  simp

theorem piecesBy_slash (path part : String) :
    piecesBy '/' (path ++ "/" ++ part) = piecesBy '/' path ++ piecesBy '/' part := by
  have hlist : (path ++ "/" ++ part).toList = path.toList ++ '/' :: part.toList := by
    rw [String.toList_append, String.toList_append, List.append_assoc]
    rfl
  rw [piecesBy_eq, piecesBy_eq, piecesBy_eq, hlist, List.splitOn_append_cons_self, List.map_append]

theorem piecesBy_of_not_mem {separator : Char} {text : String} (h : separator ∉ text.toList) :
    piecesBy separator text = [text] := by
  rw [piecesBy_eq, List.splitOn_eq_singleton h, List.map_singleton, String.ofList_toList]

/-- The components of a path give it back. -/
theorem intercalate_piecesBy (path : String) : "/".intercalate (piecesBy '/' path) = path := by
  rw [← String.toList_inj, String.toList_intercalate, piecesBy_eq, List.map_map]
  have hid : (String.toList ∘ String.ofList) = id := funext fun cs => String.toList_ofList
  rw [hid, List.map_id]
  exact List.intercalate_splitOn '/'

/-- A text of parts with a separator between is cut at it. -/
theorem piecesBy_intercalate {separator : Char} {parts : List String} (hparts : parts ≠ [])
    (hnot : ∀ part ∈ parts, separator ∉ part.toList) :
    piecesBy separator ((String.singleton separator).intercalate parts) = parts := by
  rw [piecesBy_eq, String.toList_intercalate, String.toList_singleton,
    List.splitOn_intercalate separator]
  · rw [List.map_map]
    have hid : (String.ofList ∘ String.toList) = id := funext fun s => String.ofList_toList
    rw [hid, List.map_id]
  · intro cs hcs
    obtain ⟨part, hpart, rfl⟩ := List.mem_map.mp hcs
    exact hnot part hpart
  · simpa using hparts

theorem cutLast_of_not_mem {separator : Char} {cs : List Char} (h : separator ∉ cs) :
    cutLast separator cs = none := by
  have hdrop : cs.reverse.dropWhile (· ≠ separator) = [] := by
    rw [List.dropWhile_eq_nil_iff]
    intro c hc
    simp only [decide_eq_true_eq]
    rintro rfl
    exact h (List.mem_reverse.mp hc)
  unfold cutLast
  rw [hdrop]

theorem cutLast_append {separator : Char} {front back : List Char} (h : separator ∉ back) :
    cutLast separator (front ++ separator :: back) = some (front, back) := by
  have hback : ∀ c ∈ back.reverse, decide (c ≠ separator) = true := by
    intro c hc
    simp only [decide_eq_true_eq]
    rintro rfl
    exact h (List.mem_reverse.mp hc)
  unfold cutLast
  rw [List.reverse_append, List.reverse_cons, List.append_assoc,
    List.dropWhile_append_of_pos hback, List.takeWhile_append_of_pos hback]
  simp

/-! ## Joining -/

/-- The components of a path before which nothing stands when another path is joined to it: a slash
at its end does not count. -/
def opened (path : String) : List String :=
  if (piecesBy '/' path).getLast? = some "" then (piecesBy '/' path).dropLast
  else piecesBy '/' path

theorem opened_empty : opened "" = [] := rfl

/-- The last component of a path is empty only if a slash or nothing is at its end. -/
theorem endsWithSlash_of_getLast? {path : String} (h : (piecesBy '/' path).getLast? = some "") :
    path = "" ∨ path.toList.getLast? = some '/' := by
  obtain ⟨front, hfront⟩ : ∃ front, piecesBy '/' path = front ++ [""] :=
    List.getLast?_eq_some_iff.mp h
  rw [← intercalate_piecesBy path, hfront]
  cases front with
  | nil => exact .inl rfl
  | cons first rest =>
    right
    rw [String.intercalate_append_of_ne_nil (List.cons_ne_nil first rest) (List.cons_ne_nil "" []),
      String.toList_append, String.toList_append]
    simp

/-- A path that is joined to another one has its components behind those of the other. -/
theorem piecesBy_join {path part : String} (hpart : isAbsolute part = false) :
    piecesBy '/' (join path part) = opened path ++ piecesBy '/' part := by
  rw [join, if_neg (by rw [hpart]; exact Bool.false_ne_true)]
  split
  · rename_i hempty
    rw [hempty, opened_empty, List.nil_append]
  · rename_i hpath
    split
    · rename_i hslash
      obtain ⟨front, hfront⟩ := List.getLast?_eq_some_iff.mp hslash
      have hcut : path = String.ofList front ++ "/" := by
        rw [← String.toList_inj, hfront, String.toList_append, String.toList_ofList]
        rfl
      have hpieces : piecesBy '/' path = piecesBy '/' (String.ofList front) ++ [""] := by
        rw [hcut, ← String.append_empty (s := String.ofList front ++ "/"), piecesBy_slash]
        rfl
      rw [opened, hpieces, if_pos List.getLast?_concat, List.dropLast_concat, hcut, piecesBy_slash]
    · rename_i hslash
      have hlast : ¬ (piecesBy '/' path).getLast? = some "" := by
        intro h
        rcases endsWithSlash_of_getLast? h with hempty | hends
        · exact hpath hempty
        · exact hslash hends
      rw [opened, if_neg hlast, piecesBy_slash]

/-- A path is absolute if a slash is its first character. -/
theorem isAbsolute_of_not_mem {path : String} (h : '/' ∉ path.toList) :
    isAbsolute path = false := by
  unfold isAbsolute
  split
  · rename_i hlist
    rw [hlist] at h
    exact absurd List.mem_cons_self h
  · rfl

theorem isAbsolute_append {path : String} (hpath : path ≠ "") (part : String) :
    isAbsolute (path ++ part) = isAbsolute path := by
  unfold isAbsolute
  rw [String.toList_append]
  cases hlist : path.toList with
  | nil => exact absurd (String.toList_eq_nil_iff.mp hlist) hpath
  | cons c cs => by_cases hc : c = '/' <;> simp [hc]

theorem isAbsolute_join {path part : String} (hpart : isAbsolute part = false) :
    isAbsolute (join path part) = isAbsolute path := by
  rw [join, if_neg (by rw [hpart]; exact Bool.false_ne_true)]
  split
  · rename_i hempty
    rw [hempty, hpart]
    rfl
  · rename_i hpath
    split
    · exact isAbsolute_append hpath part
    · rw [String.append_assoc]
      exact isAbsolute_append hpath _

/-- A path is absolute if its first component is empty and not the only one. -/
theorem isAbsolute_iff {path : String} :
    isAbsolute path = true ↔ ∃ rest, rest ≠ [] ∧ piecesBy '/' path = "" :: rest := by
  constructor
  · intro h
    unfold isAbsolute at h
    split at h
    · rename_i cs hlist
      refine ⟨piecesBy '/' (String.ofList cs), piecesBy_ne_nil _ _, ?_⟩
      have hcut : path = "" ++ "/" ++ String.ofList cs := by
        rw [← String.toList_inj, hlist]
        simp
      rw [hcut, piecesBy_slash]
      rfl
    · cases h
  · rintro ⟨rest, hrest, hpieces⟩
    obtain ⟨second, others, rfl⟩ := List.exists_cons_of_ne_nil hrest
    rw [← intercalate_piecesBy path, hpieces, String.intercalate_cons_cons]
    simp [isAbsolute]

/-- A path whose components are the first of another one starts where it does. -/
theorem isAbsolute_upper {path upper : String} (h : piecesBy '/' upper <+: piecesBy '/' path)
    (hupper : piecesBy '/' upper ≠ [""]) : isAbsolute upper = isAbsolute path := by
  obtain ⟨more, hmore⟩ := h
  obtain ⟨first, rest, hpieces⟩ := List.exists_cons_of_ne_nil (piecesBy_ne_nil '/' upper)
  rw [hpieces] at hmore hupper
  rw [Bool.eq_iff_iff, isAbsolute_iff, isAbsolute_iff, hpieces, ← hmore]
  constructor
  · rintro ⟨others, hothers, heq⟩
    obtain ⟨rfl, rfl⟩ := List.cons.inj heq
    exact ⟨rest ++ more, List.append_ne_nil_of_left_ne_nil hothers more, rfl⟩
  · rintro ⟨others, -, heq⟩
    obtain ⟨rfl, -⟩ := List.cons.inj heq
    refine ⟨rest, ?_, rfl⟩
    rintro rfl
    exact hupper rfl

theorem not_mem_of_mem_piecesBy {path part : String} (h : part ∈ piecesBy '/' path) :
    '/' ∉ part.toList := by
  obtain ⟨piece, hpiece, rfl⟩ := List.mem_map.mp h
  intro hslash
  rw [String.toList_ofList] at hslash
  have hnot := mem_piecesFrom (List.forall_mem_nil _) hpiece '/' hslash
  simp at hnot

/-- A path with a component that is not empty is not empty. -/
theorem ne_empty_of_mem_piecesBy {path part : String} (hpart : part ≠ "")
    (h : part ∈ piecesBy '/' path) : path ≠ "" := by
  rintro rfl
  exact hpart (List.mem_singleton.mp h)

/-- A path of slashes alone is the root. -/
theorem root_of_empty {path : String} (hpath : path ≠ "")
    (hempty : ∀ part ∈ piecesBy '/' path, part = "") :
    (isAbsolute path && (steps path).isEmpty) = true := by
  rw [Bool.and_eq_true, isAbsolute_iff]
  constructor
  · obtain ⟨first, rest, hpieces⟩ := List.exists_cons_of_ne_nil (piecesBy_ne_nil '/' path)
    rw [hpieces, List.forall_mem_cons] at hempty
    obtain ⟨rfl, -⟩ := hempty
    refine ⟨rest, ?_, hpieces⟩
    rintro rfl
    apply hpath
    rw [← intercalate_piecesBy path, hpieces]
    rfl
  · rw [List.isEmpty_iff, steps, List.filter_eq_nil_iff]
    intro part hpart
    simp [hempty part hpart]

/-- A path with a name among its components is not the root. -/
theorem not_root_of_isName {path name : String} (hname : IsName name)
    (hmem : name ∈ piecesBy '/' path) :
    ¬ (isAbsolute path && (steps path).isEmpty) = true := by
  have hsteps : name ∈ steps path := by
    rw [steps, List.mem_filter]
    exact ⟨hmem, by simpa [not_or] using hname.active⟩
  rw [Bool.and_eq_true, List.isEmpty_iff]
  rintro ⟨-, hnone⟩
  rw [hnone] at hsteps
  cases hsteps

/-! ## The directory above -/

/-- Cutting off the end of components leaves out those that are as it is asked for. -/
theorem eq_append_of_dropWhile (p : String → Bool) (parts : List String) :
    ∃ cut, parts = (parts.reverse.dropWhile p).reverse ++ cut ∧ ∀ part ∈ cut, p part = true := by
  refine ⟨(parts.reverse.takeWhile p).reverse, ?_, ?_⟩
  · rw [← List.reverse_append, List.takeWhile_append_dropWhile, List.reverse_reverse]
  · intro part hpart
    exact List.mem_takeWhile_imp (List.mem_reverse.mp hpart)

/-- What is left ends in a component that is not so. -/
theorem not_of_dropWhile_eq_cons {p : String → Bool} {parts front : List String} {last : String}
    (h : parts.dropWhile p = last :: front) : p last = false := by
  have hhead := List.head?_dropWhile_not p parts
  rw [h] at hhead
  simpa using hhead

theorem eq_append_of_dropIdle (parts : List String) :
    ∃ idle, parts = (dropIdle parts.reverse).reverse ++ idle ∧ ∀ part ∈ idle, IsIdle part := by
  obtain ⟨idle, hparts, hidle⟩ :=
    eq_append_of_dropWhile (fun part => part = "" ∨ part = ".") parts
  exact ⟨idle, hparts, fun part hpart => by simpa using hidle part hpart⟩

/-- The path of the directory that holds a path, from the components of the path before its last
one. -/
def parentOf : List String → String
  | [] => ""
  | first :: rest =>
    if (dropIdle rest.reverse).isEmpty ∧ first = "" then "/"
    else "/".intercalate (dropIdle rest.reverse ++ [first]).reverse

/-- The directory above a path that ends in a name. -/
theorem parent?_eq {path name : String} {front : List String}
    (h : piecesBy '/' path = front ++ [name]) (hname : ¬ IsIdle name) :
    parent? path = some (parentOf front) := by
  unfold parent?
  rw [h]
  cases front with
  | nil =>
    have hempty : name ≠ "" := fun heq => hname (.inl heq)
    simp [dropIdle, hempty, parentOf]
  | cons first rest =>
    have hdrop : dropIdle (rest ++ [name]).reverse = name :: rest.reverse := by
      rw [List.reverse_append, dropIdle, List.reverse_singleton, List.singleton_append,
        List.dropWhile_cons_of_neg (by simpa using hname)]
    simp only [List.cons_append, hdrop, parentOf]

/-- Nothing is left out of components that end in a name. -/
theorem parentOf_append {front : List String} {name : String}
    (hname : ¬ IsIdle name) :
    parentOf (front ++ [name]) = "/".intercalate (front ++ [name]) := by
  cases front with
  | nil =>
    have hempty : name ≠ "" := fun heq => hname (.inl heq)
    simp [parentOf, dropIdle, hempty]
  | cons first rest =>
    have hdrop : dropIdle (rest ++ [name]).reverse = name :: rest.reverse := by
      rw [List.reverse_append, dropIdle, List.reverse_singleton, List.singleton_append,
        List.dropWhile_cons_of_neg (by simpa using hname)]
    rw [List.cons_append, parentOf, hdrop, if_neg (by simp)]
    simp

/-- Of components that are not empty, those of the directory above are a part, behind which only
components follow that lead nowhere; above components that all lead nowhere is the root. -/
theorem parentOf_cases {front : List String} (hfront : front ≠ []) :
    (parentOf front = "/" ∧ ∃ idle, front = "" :: idle ∧ ∀ part ∈ idle, IsIdle part) ∨
      ∃ kept idle, kept ≠ [] ∧ kept ≠ [""] ∧ front = kept ++ idle ∧
        (∀ part ∈ idle, IsIdle part) ∧ parentOf front = "/".intercalate kept := by
  obtain ⟨first, rest, rfl⟩ := List.exists_cons_of_ne_nil hfront
  obtain ⟨idle, hrest, hidle⟩ := eq_append_of_dropIdle rest
  rw [parentOf]
  by_cases hroot : (dropIdle rest.reverse).isEmpty ∧ first = ""
  · left
    obtain ⟨hempty, rfl⟩ := hroot
    rw [List.isEmpty_iff] at hempty
    rw [hempty, List.reverse_nil, List.nil_append] at hrest
    exact ⟨if_pos ⟨by rw [hempty]; rfl, rfl⟩, rest, rfl, hrest ▸ hidle⟩
  · right
    refine ⟨first :: (dropIdle rest.reverse).reverse, idle, List.cons_ne_nil _ _, ?_, ?_, hidle,
      ?_⟩
    · intro heq
      rw [List.cons.injEq, List.reverse_eq_nil_iff] at heq
      exact hroot ⟨List.isEmpty_iff.mpr heq.2, heq.1⟩
    · rw [List.cons_append, ← hrest]
    · rw [if_neg hroot, List.reverse_append, List.reverse_singleton, List.singleton_append]

/-- Leaving out components makes a path shorter. -/
theorem length_intercalate_lt {front back : List String} (hfront : front ≠ []) (hback : back ≠ []) :
    ("/".intercalate front).length < ("/".intercalate (front ++ back)).length := by
  rw [String.intercalate_append_of_ne_nil hfront hback, String.length_append, String.length_append]
  have hslash : "/".length = 1 := rfl
  omega

/-- The directory above a path holds its last component that leads somewhere, unless there is no
other component. -/
theorem parent?_eq_some {path upper : String} (h : parent? path = some upper) :
    upper = "" ∨ ∃ front last idle, front ≠ [] ∧ last ≠ "" ∧
      piecesBy '/' path = front ++ last :: idle ∧ upper = parentOf front := by
  unfold parent? at h
  split at h
  · cases h
  · rename_i first rest hpieces
    obtain ⟨idle, hrest, -⟩ := eq_append_of_dropIdle rest
    split at h
    · rename_i last front hdrop
      right
      rw [hdrop, List.reverse_cons, List.append_assoc, List.singleton_append] at hrest
      refine ⟨first :: front.reverse, last, idle, List.cons_ne_nil _ _, ?_, ?_, ?_⟩
      · have hlast := not_of_dropWhile_eq_cons hdrop
        rintro rfl
        simp at hlast
      · rw [hpieces, List.cons_append, ← hrest]
      · rw [parentOf, List.reverse_reverse]
        exact (Option.some.inj h).symm
    · left
      split at h
      · cases h
      · exact (Option.some.inj h).symm

/-- The path of the directory above is shorter. -/
theorem length_parent?_lt {path upper : String} (hpath : path ≠ "")
    (h : parent? path = some upper) : upper.length < path.length := by
  rcases parent?_eq_some h with rfl | ⟨front, last, idle, hfront, hlast, hpieces, rfl⟩
  · rw [String.length_empty, Nat.pos_iff_ne_zero]
    simpa using hpath
  · rw [← intercalate_piecesBy path, hpieces]
    rcases parentOf_cases hfront with ⟨hroot, others, rfl, -⟩ |
      ⟨kept, others, hkept, -, rfl, -, hupper⟩
    · -- behind the first slash there is a name
      have htail : others ++ last :: idle ≠ [] := by simp
      have hnot : ∀ part ∈ others ++ last :: idle, '/' ∉ part.toList := by
        intro part hpart
        apply not_mem_of_mem_piecesBy
        rw [hpieces, List.cons_append]
        exact List.mem_cons_of_mem _ hpart
      have hname : "/".intercalate (others ++ last :: idle) ≠ "" := by
        intro hempty
        have hcut := piecesBy_intercalate htail hnot
        rw [show String.singleton '/' = "/" from rfl, hempty] at hcut
        have hlast' : last ∈ [""] := by
          rw [show [""] = piecesBy '/' "" from rfl, hcut]
          simp
        exact hlast (List.mem_singleton.mp hlast')
      have hpositive : 0 < ("/".intercalate (others ++ last :: idle)).length := by
        rw [Nat.pos_iff_ne_zero, Ne, String.length_eq_zero_iff]
        exact hname
      rw [hroot, List.cons_append, String.intercalate_cons_of_ne_nil htail, String.length_append,
        String.length_append]
      have hslash : "/".length = 1 := rfl
      omega
    · rw [hupper, List.append_assoc]
      exact length_intercalate_lt hkept (by simp)

end StackScript.Files

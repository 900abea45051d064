import Mathlib.Data.List.Induction
import Mathlib.Data.List.TakeWhile
import StackScript.Text.Blank

/-!
# Trimming

White space at the ends of a text. Every text is a text without white space at its ends with white
space around it (`trimmed_trim`), and there is one way to take it apart like that (`trim_eq_iff`).
-/

namespace StackScript.Syntax

open StackScript.Text

/-! ## White space at the end -/

/-- All characters are white space. -/
def Blank (cs : List Char) : Prop := ∀ c ∈ cs, isBlank c = true

instance (cs : List Char) : Decidable (Blank cs) := List.decidableBAll (isBlank · = true) cs

/-- The last character, if there is one, is no white space. -/
def EndsVisibly (cs : List Char) : Prop := ∀ c ∈ cs.getLast?, isBlank c = false

theorem EndsVisibly.tail {c : Char} {cs : List Char} (h : EndsVisibly (c :: cs)) :
    EndsVisibly cs := by
  cases cs with
  | nil => exact fun d hd => nomatch hd
  | cons d cs =>
    rw [EndsVisibly, List.getLast?_cons_cons] at h
    exact h

theorem EndsVisibly.right {cs more : List Char} (h : EndsVisibly (cs ++ more)) :
    EndsVisibly more := by
  induction cs with
  | nil => exact h
  | cons c cs ih => exact ih h.tail

theorem trimRight_append {cs blanks : List Char} (hcs : EndsVisibly cs) (hblanks : Blank blanks) :
    trimRight (cs ++ blanks) = cs := by
  have hskipped : ∀ c ∈ blanks.reverse, isBlank c = true := fun c hc =>
    hblanks c (List.mem_reverse.mp hc)
  rw [trimRight, trimLeft, List.reverse_append, List.dropWhile_append_of_pos hskipped]
  induction cs using List.reverseRecOn with
  | nil => rfl
  | append_singleton cs c _ =>
    have hc : isBlank c = false := hcs c List.getLast?_concat
    rw [List.reverse_concat, List.dropWhile_cons_of_neg (by simp [hc]), List.reverse_cons,
      List.reverse_reverse]

/-- Every text is what it is without its trailing white space, and that. -/
theorem exists_trailing (cs : List Char) :
    ∃ visible blanks, cs = visible ++ blanks ∧ EndsVisibly visible ∧ Blank blanks := by
  induction cs using List.reverseRecOn with
  | nil => exact ⟨[], [], rfl, fun _ hc => (nomatch hc), List.forall_mem_nil _⟩
  | append_singleton cs c ih =>
    cases hc : isBlank c with
    | true =>
      obtain ⟨visible, blanks, rfl, hvisible, hblanks⟩ := ih
      refine ⟨visible, blanks ++ [c], List.append_assoc _ _ _, hvisible, ?_⟩
      exact List.forall_mem_append.mpr ⟨hblanks, List.forall_mem_singleton.mpr hc⟩
    | false =>
      refine ⟨cs ++ [c], [], (List.append_nil _).symm, ?_, List.forall_mem_nil _⟩
      intro d hd
      rw [List.getLast?_concat] at hd
      cases hd
      exact hc

/-! ## White space at both ends -/

/-- The first character, if there is one, is no white space. -/
def StartsVisibly (cs : List Char) : Prop := ∀ c ∈ cs.head?, isBlank c = false

/-- The text is `core` with white space around it, and `core` has none at its ends. -/
inductive Trimmed : List Char → List Char → Prop where
  | mk {front core back : List Char} (hfront : Blank front) (hback : Blank back)
      (hstart : StartsVisibly core) (hend : EndsVisibly core) :
      Trimmed (front ++ core ++ back) core

/-- A text without white space in it has none at its ends. -/
theorem Trimmed.of_visible {front core back : List Char} (hfront : Blank front)
    (hback : Blank back) (hcore : ∀ c ∈ core, isBlank c = false) :
    Trimmed (front ++ core ++ back) core :=
  .mk hfront hback (fun c hc => hcore c (List.mem_of_mem_head? hc))
    fun c hc => hcore c (List.mem_of_getLast? hc)

/-- Trimming takes off exactly the white space around the core. -/
theorem Trimmed.trim_eq {cs core : List Char} (h : Trimmed cs core) : trim cs = core := by
  obtain ⟨hfront, hback, hstart, hend⟩ := h
  rw [trim, trimLeft, List.append_assoc, List.dropWhile_append_of_pos hfront]
  cases core with
  | nil =>
    have hall : List.dropWhile isBlank _ = [] := List.dropWhile_eq_nil_iff.mpr hback
    rw [List.nil_append, hall]
    rfl
  | cons c core =>
    have hc : isBlank c = false := hstart c rfl
    rw [List.cons_append, List.dropWhile_cons_of_neg (by simp [hc])]
    exact trimRight_append hend hback

theorem trimmed_trim (cs : List Char) : Trimmed cs (trim cs) := by
  obtain ⟨visible, back, hvisible, hend, hback⟩ := exists_trailing (trimLeft cs)
  have hsplit : cs = cs.takeWhile isBlank ++ visible ++ back := by
    rw [List.append_assoc, ← hvisible]
    exact List.takeWhile_append_dropWhile.symm
  have hfront : Blank (cs.takeWhile isBlank) := fun c hc => List.mem_takeWhile_imp hc
  have hstart : StartsVisibly visible := by
    intro c hc
    -- the first character that is kept is the one that stopped the dropping
    have hhead : (cs.dropWhile isBlank).head? = some c := by
      rw [← trimLeft, hvisible, List.head?_append, hc]
      rfl
    have hstopped := List.head?_dropWhile_not isBlank cs
    rwa [hhead] at hstopped
  have htrimmed : Trimmed cs visible := by
    have h := Trimmed.mk hfront hback hstart hend
    rwa [← hsplit] at h
  rw [htrimmed.trim_eq]
  exact htrimmed

theorem trim_eq_iff {cs core : List Char} : trim cs = core ↔ Trimmed cs core := by
  constructor
  · rintro rfl
    exact trimmed_trim cs
  · exact Trimmed.trim_eq

end StackScript.Syntax

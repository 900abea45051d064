import Mathlib.Data.List.TakeWhile
import StackScript.Code.Listing
import StackScript.Proofs.InstrTexts

/-!
# Rows of a listing

The listing of a method goes through its instructions and its line marks at once. Before an
instruction it takes the marks at its place from the front of those that are left, so a mark that is
behind the place, or above the end of the code, is not taken, and keeps back all that come after it.
What is listed are the rows of all instructions and of the marks up to there, each directly above
the instruction at its place (`Interleaved`); it is all marks exactly if their places rise and are
places of the code (`exists_rows`). A row tells what it is for (`Row.text_eq_iff`).
-/

namespace StackScript.Code

open StackScript.Text

/-- A row of the listing of a method. -/
inductive Row where
  /-- The source line of the next instruction. -/
  | remark (mark : LineMark)
  /-- An instruction with its place. -/
  | instr (place : Nat) (instr : Instr)

namespace Row

/-- The row as it is written. -/
def text : Row → String
  | remark mark => "    ; line " ++ toString mark.line ++ "\n"
  | instr place code => "    " ++ padNumber place ++ "  " ++ code.text ++ "\n"

/-- The rows are remarks of one line, or instructions at one place that are alike. -/
inductive Alike : Row → Row → Prop where
  | remark {mark other : LineMark} (hline : mark.line = other.line) :
    Alike (.remark mark) (.remark other)
  | instr (place : Nat) {code other : Instr} (h : code.Alike other) :
    Alike (.instr place code) (.instr place other)

/-- What stands behind the blanks that the row begins with. -/
def body : Row → String
  | remark mark => "; line " ++ toString mark.line ++ "\n"
  | instr place code => toString place ++ ("  " ++ code.text ++ "\n")

/-- A row is its body behind some blanks. -/
theorem exists_blanks (row : Row) :
    ∃ blanks : List Char, (∀ c ∈ blanks, (c == ' ') = true) ∧
      row.text.toList = blanks ++ row.body.toList := by
  have hblanks : ∀ c ∈ "    ".toList, (c == ' ') = true := List.all_eq_true.mp (by decide)
  cases row with
  | remark mark => exact ⟨"    ".toList, hblanks, by simp [text, body]⟩
  | instr place code =>
    refine ⟨"    ".toList ++ List.replicate (4 - (toString place).length) ' ', ?_, ?_⟩
    · refine List.forall_mem_append.mpr ⟨hblanks, fun c hc => ?_⟩
      rw [List.eq_of_mem_replicate hc]
      rfl
    · simp [text, body, padNumber]

/-- A numeral begins with a digit. -/
theorem head_numeral (n : Nat) (rest : List Char) :
    ∀ c ∈ ((toString n).toList ++ rest).head?, c.isDigit = true := by
  intro c hc
  cases hdigits : (toString n).toList with
  | nil => exact absurd (String.toList_eq_nil_iff.mp hdigits) Nat.repr_ne_empty
  | cons digit digits =>
    rw [hdigits] at hc
    cases hc
    exact isDigit_of_mem_repr (hdigits ▸ List.mem_cons_self)

/-- The body of a row begins with a semicolon or a digit. -/
theorem head_body (row : Row) : ∀ c ∈ row.body.toList.head?, (c == ' ') = false := by
  cases row with
  | remark mark =>
    intro c hc
    simp only [body, String.toList_append, List.append_assoc] at hc
    cases hc
    rfl
  | instr place code =>
    intro c hc
    rw [body, String.toList_append] at hc
    have hdigit := head_numeral place _ c hc
    rw [beq_eq_false_iff_ne]
    rintro rfl
    cases hdigit

/-- The bodies of two rows tell them apart. -/
theorem alike_of_body {row other : Row} (h : row.body = other.body) : row.Alike other := by
  have hchars := congrArg String.toList h
  cases row with
  | remark mark =>
    cases other with
    | remark mark' =>
      simp only [body, String.toList_append, List.append_assoc] at hchars
      have hnumeral := List.append_cancel_right (List.append_cancel_left hchars)
      exact .remark (UInt32.toNat_inj.mp (nat_eq_of_repr (String.toList_inj.mp hnumeral)))
    | instr place code =>
      -- no numeral begins with a semicolon
      simp only [body, String.toList_append, List.append_assoc] at hchars
      have hhead := head_numeral place ("  ".toList ++ (code.text.toList ++ "\n".toList))
      rw [← hchars] at hhead
      exact absurd (hhead ';' rfl) (by decide)
  | instr place code =>
    cases other with
    | remark mark =>
      simp only [body, String.toList_append, List.append_assoc] at hchars
      have hhead := head_numeral place ("  ".toList ++ (code.text.toList ++ "\n".toList))
      rw [hchars] at hhead
      exact absurd (hhead ';' rfl) (by decide)
    | instr place' code' =>
      have hdigits : ∀ n : Nat, ∀ c ∈ (toString n).toList, c.isDigit = true :=
        fun n c hc => isDigit_of_mem_repr hc
      have hblank : ∀ code : Instr, ∀ c ∈ ("  " ++ code.text ++ "\n").toList.head?,
          c.isDigit = false := by
        intro code c hc
        rw [String.append_assoc, String.toList_append] at hc
        cases hc
        rfl
      rw [body, body, String.toList_append, String.toList_append (s := toString place')] at hchars
      obtain ⟨hplace, hrest⟩ := stretch_unique (hdigits place) (hdigits place') (hblank code)
        (hblank code') hchars
      simp only [String.toList_append, List.append_assoc] at hrest
      have htext := List.append_cancel_right (List.append_cancel_left hrest)
      rw [nat_eq_of_repr (String.toList_inj.mp hplace)]
      exact .instr place' (Instr.text_eq_iff.mp (String.toList_inj.mp htext))

/-- The text of a row tells it. -/
theorem text_eq_iff {row other : Row} : row.text = other.text ↔ row.Alike other := by
  constructor
  · intro h
    obtain ⟨blanks, hblanks, htext⟩ := row.exists_blanks
    obtain ⟨blanks', hblanks', htext'⟩ := other.exists_blanks
    have hchars := congrArg String.toList h
    rw [htext, htext'] at hchars
    have hbody := (stretch_unique hblanks hblanks' row.head_body other.head_body hchars).2
    exact alike_of_body (String.toList_inj.mp hbody)
  · rintro (⟨hline⟩ | ⟨place, hcode⟩)
    · rw [text, text, hline]
    · rw [text, text, Instr.text_eq_iff.mpr hcode]

end Row

/-! ## Rows in order -/

/-- The rows are the instructions in order, numbered from `place` on, and the marks in order, each
above the instruction at its place with only other marks between. -/
inductive Interleaved : Nat → List LineMark → List Instr → List Row → Prop where
  | nil (place : Nat) : Interleaved place [] [] []
  | instr {place : Nat} {lines : List LineMark} {code : List Instr} {rows : List Row}
    (instr : Instr) (h : Interleaved (place + 1) lines code rows) :
    Interleaved place lines (instr :: code) (.instr place instr :: rows)
  | mark {place : Nat} {mark : LineMark} {lines : List LineMark} {instr : Instr}
    {code : List Instr} {rows : List Row} (hplace : mark.place.toNat = place)
    (h : Interleaved place lines (instr :: code) rows) :
    Interleaved place (mark :: lines) (instr :: code) (.remark mark :: rows)

/-- The places of the marks rise, not always strictly, from one place on and stay below another. -/
structure MarksWithin (low high : Nat) (lines : List LineMark) : Prop where
  bounds : ∀ mark ∈ lines, low ≤ mark.place.toNat ∧ mark.place.toNat < high
  sorted : lines.Pairwise fun a b => a.place.toNat ≤ b.place.toNat

namespace MarksWithin

variable {low high : Nat} {here later : List LineMark}

theorem nil (low high : Nat) : MarksWithin low high [] := ⟨List.forall_mem_nil _, .nil⟩

/-- Marks at one place, and then others behind it. -/
theorem append_iff (hhere : ∀ mark ∈ here, mark.place.toNat = low)
    (hlater : ∀ mark ∈ later.head?, mark.place.toNat ≠ low) (hlow : low < high) :
    MarksWithin low high (here ++ later) ↔ MarksWithin (low + 1) high later := by
  constructor
  · rintro ⟨hbounds, hsorted⟩
    have hsuffix := hsorted.sublist (List.sublist_append_right here later)
    refine ⟨fun mark hmark => ?_, hsuffix⟩
    -- the first of the others is above the place, and the rest is not below that one
    obtain ⟨hge, hlt⟩ := hbounds mark (List.mem_append_right here hmark)
    refine ⟨?_, hlt⟩
    cases later with
    | nil => cases hmark
    | cons first rest =>
      have hfirst := (hbounds first (List.mem_append_right here List.mem_cons_self)).1
      have hne := hlater first rfl
      have hle : first.place.toNat ≤ mark.place.toNat := by
        rcases List.mem_cons.mp hmark with rfl | hrest
        · exact Nat.le_refl _
        · exact (List.pairwise_cons.mp hsuffix).1 mark hrest
      omega
  · rintro ⟨hbounds, hsorted⟩
    constructor
    · refine List.forall_mem_append.mpr ⟨fun mark hmark => ?_, fun mark hmark => ?_⟩
      · rw [hhere mark hmark]
        exact ⟨Nat.le_refl _, hlow⟩
      · obtain ⟨hge, hlt⟩ := hbounds mark hmark
        exact ⟨Nat.le_of_succ_le hge, hlt⟩
    · refine List.pairwise_append.mpr ⟨?_, hsorted, fun a ha b hb => ?_⟩
      · refine List.pairwise_of_forall_mem_list fun a ha b hb => ?_
        exact Nat.le_of_eq ((hhere a ha).trans (hhere b hb).symm)
      · rw [hhere a ha]
        exact Nat.le_of_succ_le (hbounds b hb).1

end MarksWithin

namespace Interleaved

variable {place : Nat} {lines : List LineMark} {code : List Instr} {rows : List Row}

/-- Marks at the place of an instruction, above its row. -/
theorem marks {instr : Instr} (h : Interleaved place lines (instr :: code) rows)
    {here : List LineMark} (hhere : ∀ mark ∈ here, mark.place.toNat = place) :
    Interleaved place (here ++ lines) (instr :: code) (here.map .remark ++ rows) := by
  induction here with
  | nil => exact h
  | cons mark here ih =>
    obtain ⟨hmark, hrest⟩ := List.forall_mem_cons.mp hhere
    exact .mark hmark (ih hrest)

/-- Marks that are listed rise, at places of the code. -/
theorem marksWithin (h : Interleaved place lines code rows) :
    MarksWithin place (place + code.length) lines := by
  induction h with
  | nil place => exact .nil _ _
  | @instr place lines code rows instr h ih =>
    rw [List.length_cons, ← Nat.add_assoc, Nat.add_right_comm]
    refine ⟨fun mark hmark => ?_, ih.sorted⟩
    obtain ⟨hge, hlt⟩ := ih.bounds mark hmark
    exact ⟨Nat.le_of_succ_le hge, hlt⟩
  | mark hplace h ih =>
    obtain ⟨hbounds, hsorted⟩ := ih
    refine ⟨List.forall_mem_cons.mpr ⟨?_, hbounds⟩, List.pairwise_cons.mpr ⟨?_, hsorted⟩⟩
    · rw [hplace, List.length_cons]
      omega
    · intro mark hmark
      rw [hplace]
      exact (hbounds mark hmark).1

end Interleaved

/-- The marks at the front that are at the place are taken, and then comes one that is not. -/
theorem lineRemarks_eq (place : Nat) (lines : List LineMark) :
    ∃ here later, lines = here ++ later ∧ (∀ mark ∈ here, mark.place.toNat = place) ∧
      (∀ mark ∈ later.head?, mark.place.toNat ≠ place) ∧
      lineRemarks place lines = (String.join ((here.map Row.remark).map Row.text), later) := by
  let taken := fun mark : LineMark => decide (mark.place.toNat = place)
  have hsplit : lines.takeWhile taken ++ lines.dropWhile taken = lines :=
    List.takeWhile_append_dropWhile
  refine ⟨lines.takeWhile taken, lines.dropWhile taken, hsplit.symm, ?_, ?_, ?_⟩
  · intro mark hmark
    exact of_decide_eq_true (List.mem_takeWhile_imp (p := taken) hmark)
  · intro mark hmark
    have hnot := List.head?_dropWhile_not taken lines
    rw [Option.mem_def.mp hmark] at hnot
    exact of_decide_eq_false hnot
  · have hdrop : lines.drop (lines.takeWhile taken).length = lines.dropWhile taken := by
      calc
        lines.drop (lines.takeWhile taken).length
          = (lines.takeWhile taken ++ lines.dropWhile taken).drop
              (lines.takeWhile taken).length := by
          rw [hsplit]
        _ = lines.dropWhile taken := List.drop_append_length
    rw [List.map_map, ← hdrop]
    rfl

/-- A listing has all instructions, and the marks as far as their places rise within the code. -/
theorem exists_rows (code : List Instr) (place : Nat) (lines : List LineMark) :
    ∃ shown left rows, lines = shown ++ left ∧ Interleaved place shown code rows ∧
      String.join (listCode place lines code) = String.join (rows.map Row.text) ∧
      (left = [] ↔ MarksWithin place (place + code.length) lines) := by
  induction code generalizing place lines with
  | nil =>
    refine ⟨[], lines, [], rfl, .nil place, rfl, ?_⟩
    constructor
    · rintro rfl
      exact .nil _ _
    · intro h
      -- there is no place for a mark
      refine List.eq_nil_iff_forall_not_mem.mpr fun mark hmark => ?_
      obtain ⟨hlow, hhigh⟩ := h.bounds mark hmark
      exact absurd hhigh (Nat.not_lt.mpr hlow)
  | cons instr code ih =>
    obtain ⟨here, later, rfl, hhere, hlater, hremarks⟩ := lineRemarks_eq place lines
    obtain ⟨shown, left, rows, rfl, hrows, htext, hleft⟩ := ih (place + 1) later
    refine ⟨here ++ shown, left, here.map .remark ++ .instr place instr :: rows,
      (List.append_assoc ..).symm, (Interleaved.instr instr hrows).marks hhere, ?_, ?_⟩
    · rw [listCode, hremarks]
      simp only [List.map_append, List.map_cons, String.join_cons, String.join_append, htext,
        Row.text, String.append_assoc]
    · have hlow : place < place + (instr :: code).length :=
        Nat.lt_add_of_pos_right (Nat.succ_pos _)
      rw [hleft, MarksWithin.append_iff hhere hlater hlow, List.length_cons, ← Nat.add_assoc,
        Nat.add_right_comm]

end StackScript.Code

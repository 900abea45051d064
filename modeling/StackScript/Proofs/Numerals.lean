import Mathlib.Data.Nat.Digits.Defs
import StackScript.Machine.Native
import StackScript.Proofs.Trimming

/-!
# Numerals

What is read as an integer, and what integers are written as. A numeral is an optional sign and one
or more digits, and denotes an integer by the places of its digits (`Numeral`). Reading accepts
exactly the numerals that denote an integer of 64 bits (`readInteger_eq_some_iff`), at both ends of
the range, which reach further on the one side than on the other. The native methods read what is
left of a text without the white space around it, and what they write is read back
(`integers_read_back`).
-/

namespace StackScript.Text

/-! ## Digits -/

/-- One or more digits. -/
def IsDigits (cs : List Char) : Prop := cs ≠ [] ∧ ∀ c ∈ cs, isDigit c = true

/-- The number that digits denote by their places: the last one counts ones, the one before it
tens, and so on. -/
def placeValue (digits : List Char) : Nat := Nat.ofDigits 10 (digits.reverse.map digitValue)

theorem isDigit_iff {c : Char} : isDigit c = true ↔ c.isDigit = true := by
  simp [isDigit, Char.isDigit, Char.le_def]

theorem ofDigitChars_eq_digitsValue (cs : List Char) (acc : Nat) :
    Nat.ofDigitChars 10 cs acc = digitsValue acc cs := by
  induction cs generalizing acc with
  | nil => exact Nat.ofDigitChars_nil
  | cons c cs ih =>
    rw [Nat.ofDigitChars_cons, ih]
    rfl

/-- Reading digits from the left moves those read so far up by as many places as follow. -/
theorem digitsValue_eq (cs : List Char) (acc : Nat) :
    digitsValue acc cs = placeValue cs + 10 ^ cs.length * acc := by
  induction cs generalizing acc with
  | nil =>
    have hnil : placeValue [] = 0 := Nat.ofDigits_nil
    rw [hnil, List.length_nil, pow_zero, Nat.zero_add, Nat.one_mul]
    rfl
  | cons c cs ih =>
    have hplace : placeValue (c :: cs) = placeValue cs + 10 ^ cs.length * digitValue c := by
      rw [placeValue, List.reverse_cons, List.map_append, Nat.ofDigits_append, List.map_singleton,
        Nat.ofDigits_singleton, List.length_map, List.length_reverse, placeValue]
    calc
      digitsValue acc (c :: cs) = placeValue cs + 10 ^ cs.length * (10 * acc + digitValue c) :=
        ih _
      _ = placeValue (c :: cs) + 10 ^ (c :: cs).length * acc := by
        rw [hplace, List.length_cons, pow_succ]
        ring

theorem digitsValue_zero (cs : List Char) : digitsValue 0 cs = placeValue cs := by
  rw [digitsValue_eq, Nat.mul_zero, Nat.add_zero]

theorem readDigits_eq_some_iff {cs : List Char} {n : Nat} :
    readDigits cs = some n ↔ IsDigits cs ∧ placeValue cs = n := by
  rw [readDigits, digitsValue_zero]
  have hdigits : (!cs.isEmpty && cs.all isDigit) = true ↔ IsDigits cs := by
    rw [Bool.and_eq_true, Bool.not_eq_true', List.isEmpty_eq_false_iff, List.all_eq_true, IsDigits]
  split
  · rename_i h
    simp [hdigits.mp h]
  · rename_i h
    simp [mt hdigits.mpr h]

/-! ## Numerals -/

/-- The text is an optional sign and one or more digits, and denotes the integer. -/
inductive Numeral : List Char → Int → Prop where
  | bare {digits : List Char} (h : IsDigits digits) : Numeral digits (placeValue digits)
  | plus {digits : List Char} (h : IsDigits digits) : Numeral ('+' :: digits) (placeValue digits)
  | minus {digits : List Char} (h : IsDigits digits) :
      Numeral ('-' :: digits) (-(placeValue digits : Int))

/-- No digits start with a sign. -/
theorem IsDigits.ne_cons {cs : List Char} (h : IsDigits cs) {c : Char} (hc : isDigit c = false)
    (rest : List Char) : cs ≠ c :: rest := by
  rintro rfl
  have hdigit := h.2 c List.mem_cons_self
  rw [hc] at hdigit
  cases hdigit

theorem numeral_minus_iff {digits : List Char} {value : Int} :
    Numeral ('-' :: digits) value ↔ IsDigits digits ∧ value = -(placeValue digits : Int) := by
  constructor
  · intro h
    generalize hcs : '-' :: digits = cs at h
    cases h with
    | bare h => exact absurd hcs.symm (h.ne_cons (by decide) digits)
    | plus h => exact absurd (List.cons.inj hcs).1 (by decide)
    | minus h =>
      obtain rfl := (List.cons.inj hcs).2
      exact ⟨h, rfl⟩
  · rintro ⟨h, rfl⟩
    exact .minus h

theorem numeral_plus_iff {digits : List Char} {value : Int} :
    Numeral ('+' :: digits) value ↔ IsDigits digits ∧ value = placeValue digits := by
  constructor
  · intro h
    generalize hcs : '+' :: digits = cs at h
    cases h with
    | bare h => exact absurd hcs.symm (h.ne_cons (by decide) digits)
    | plus h =>
      obtain rfl := (List.cons.inj hcs).2
      exact ⟨h, rfl⟩
    | minus h => exact absurd (List.cons.inj hcs).1 (by decide)
  · rintro ⟨h, rfl⟩
    exact .plus h

theorem numeral_bare_iff {cs : List Char} (hminus : ∀ digits, cs ≠ '-' :: digits)
    (hplus : ∀ digits, cs ≠ '+' :: digits) {value : Int} :
    Numeral cs value ↔ IsDigits cs ∧ value = placeValue cs := by
  constructor
  · intro h
    cases h with
    | bare h => exact ⟨h, rfl⟩
    | plus h => exact absurd rfl (hplus _)
    | minus h => exact absurd rfl (hminus _)
  · rintro ⟨h, rfl⟩
    exact .bare h

/-- A numeral denotes one integer. -/
theorem Numeral.unique {cs : List Char} {value value' : Int} (h : Numeral cs value)
    (h' : Numeral cs value') : value = value' := by
  cases h with
  | bare h =>
    have hminus : ∀ digits, cs ≠ '-' :: digits := h.ne_cons (by decide)
    have hplus : ∀ digits, cs ≠ '+' :: digits := h.ne_cons (by decide)
    exact ((numeral_bare_iff hminus hplus).mp h').2.symm
  | plus _ => exact (numeral_plus_iff.mp h').2.symm
  | minus _ => exact (numeral_minus_iff.mp h').2.symm

theorem not_isBlank_of_isDigit {c : Char} (h : isDigit c = true) : isBlank c = false := by
  refine Bool.eq_false_iff.mpr fun hblank => ?_
  obtain ⟨range, hrange, hlow, hhigh⟩ := Ranges.contain_iff.mp hblank
  simp only [isDigit, Bool.and_eq_true, decide_eq_true_eq, Char.le_def, UInt32.le_iff_toNat_le] at h
  obtain ⟨hzero, hnine⟩ := h
  have hzero : 48 ≤ c.toNat := hzero
  have hnine : c.toNat ≤ 57 := hnine
  simp only [blankRanges, List.mem_cons, List.not_mem_nil, or_false] at hrange
  rcases hrange with rfl | rfl | rfl | rfl | rfl | rfl | rfl | rfl | rfl | rfl <;>
    simp only at hlow hhigh <;> omega

/-- There is no white space in a numeral. -/
theorem Numeral.visible {cs : List Char} {value : Int} (h : Numeral cs value) :
    ∀ c ∈ cs, isBlank c = false := by
  cases h with
  | bare h => exact fun c hc => not_isBlank_of_isDigit (h.2 c hc)
  | plus h | minus h =>
    exact List.forall_mem_cons.mpr ⟨by decide, fun c hc => not_isBlank_of_isDigit (h.2 c hc)⟩

/-! ## The 64-bit range -/

/-- The integers of 64 bits are those from `-2 ^ 63` up to `2 ^ 63`, exclusive. -/
theorem int64?_eq_some_iff {value : Int} {n : Int64} : int64? value = some n ↔ n.toInt = value := by
  have hmin : Int64.minValue.toInt = -2 ^ 63 := by decide
  have hmax : Int64.maxValue.toInt = 2 ^ 63 - 1 := by decide
  rw [int64?, hmin, hmax]
  constructor
  · intro h
    split at h
    · rename_i hrange
      cases h
      exact Int64.toInt_ofInt_of_le hrange.1 (by omega)
    · cases h
  · rintro rfl
    have hlow := n.le_toInt
    have hhigh := n.toInt_lt
    rw [if_pos ⟨hlow, by omega⟩, Int64.ofInt_toInt]

/-- **Reading accepts exactly the numerals that denote an integer of 64 bits.** -/
theorem readInteger_eq_some_iff {cs : List Char} {n : Int64} :
    readInteger cs = some n ↔ Numeral cs n.toInt := by
  have hread : ∀ (digits : List Char) (sign : Nat → Int),
      ((readDigits digits).bind fun value => int64? (sign value)) = some n ↔
        IsDigits digits ∧ n.toInt = sign (placeValue digits) := by
    intro digits sign
    simp only [Option.bind_eq_some_iff, readDigits_eq_some_iff, int64?_eq_some_iff]
    constructor
    · rintro ⟨_, ⟨hdigits, rfl⟩, hvalue⟩
      exact ⟨hdigits, hvalue⟩
    · rintro ⟨hdigits, hvalue⟩
      exact ⟨_, ⟨hdigits, rfl⟩, hvalue⟩
  unfold readInteger
  split
  · rw [numeral_minus_iff]
    exact hread _ fun value => -(value : Int)
  · rw [numeral_plus_iff]
    exact hread _ fun value => (value : Int)
  · rename_i hminus hplus
    rw [numeral_bare_iff hminus hplus]
    exact hread _ fun value => (value : Int)

/-! ## Writing -/

theorem numeral_repr (n : Nat) : IsDigits n.repr.toList ∧ placeValue n.repr.toList = n := by
  rw [Nat.repr_eq_ofList_toDigits, String.toList_ofList]
  refine ⟨⟨Nat.toDigits_ne_nil, fun c hc => ?_⟩, ?_⟩
  · exact isDigit_iff.mpr (Nat.isDigit_of_mem_toDigits (by decide) (by decide) hc)
  · rw [← digitsValue_zero, ← ofDigitChars_eq_digitsValue, Nat.ofDigitChars_ten_toDigits]

/-- An integer is written as a numeral that denotes it. -/
theorem numeral_showInteger (n : Int64) : Numeral (showInteger n).toList n.toInt := by
  rw [showInteger, Int.toString_eq_repr, Int.repr_eq_if]
  split
  · rename_i hnonneg
    obtain ⟨hdigits, hvalue⟩ := numeral_repr n.toInt.toNat
    have h := Numeral.bare hdigits
    rwa [hvalue, Int.toNat_of_nonneg hnonneg] at h
  · rename_i hneg
    obtain ⟨hdigits, hvalue⟩ := numeral_repr (-n.toInt).toNat
    have h := Numeral.minus hdigits
    rw [hvalue, Int.toNat_of_nonneg (by omega), Int.neg_neg] at h
    rwa [String.toList_append]

end StackScript.Text

namespace StackScript.Machine

open StackScript.Syntax StackScript.Text

/-! ## The native methods -/

/-- The method reads what is left without the white space around it, and a fault has the whole
text. -/
theorem call_parse (text : String) :
    NativeClass.integer.call "parse" [.string text] =
      match readInteger (trim text.toList) with
      | some n => .ok (.int n)
      | none => .error (.invalidInteger text) := by
  -- looking the method up and checking its argument are closed computations
  show Value.int <$> parseInteger text = _
  rw [parseInteger]
  cases readInteger (trim text.toList) <;> rfl

theorem call_show (n : Int64) :
    NativeClass.integer.call "to_s" [.int n] = .ok (.string (showInteger n)) := rfl

/-- **Integers are read back from what they are written as.** An integer is written as a numeral
that denotes it, and read from there, also with white space around the numeral. A text is read as an
integer exactly if what is left of it without the white space at its ends is a numeral of that
integer; where no numeral of an integer of 64 bits is left, it is refused, and the fault has the
text as it was. -/
theorem integers_read_back :
    (∀ n : Int64, ∃ text : String,
      NativeClass.integer.call "to_s" [.int n] = .ok (.string text) ∧
        Numeral text.toList n.toInt ∧
        ∀ front back : String, Blank front.toList → Blank back.toList →
          NativeClass.integer.call "parse" [.string (front ++ text ++ back)] = .ok (.int n)) ∧
    ∀ text : String, ∃ core, Trimmed text.toList core ∧
      (∀ n : Int64, NativeClass.integer.call "parse" [.string text] = .ok (.int n) ↔
        Numeral core n.toInt) ∧
      (NativeClass.integer.call "parse" [.string text] = .error (.invalidInteger text) ↔
        ∀ value, Numeral core value → value < -2 ^ 63 ∨ 2 ^ 63 ≤ value) := by
  constructor
  · intro n
    have hnumeral := numeral_showInteger n
    refine ⟨showInteger n, call_show n, hnumeral, fun front back hfront hback => ?_⟩
    have htrim := (Trimmed.of_visible hfront hback hnumeral.visible).trim_eq
    rw [← String.toList_append, ← String.toList_append] at htrim
    rw [call_parse, htrim, readInteger_eq_some_iff.mpr hnumeral]
  · intro text
    refine ⟨trim text.toList, trimmed_trim _, fun n => ?_, ?_⟩
    · rw [call_parse, ← readInteger_eq_some_iff]
      cases readInteger (trim text.toList) <;> simp
    · rw [call_parse]
      cases hread : readInteger (trim text.toList) with
      | some n =>
        have hnumeral := readInteger_eq_some_iff.mp hread
        simp only [reduceCtorEq, false_iff]
        intro hnone
        have hlow := n.le_toInt
        have hhigh := n.toInt_lt
        have := hnone _ hnumeral
        omega
      | none =>
        simp only [true_iff]
        intro value hnumeral
        by_contra hrange
        have hfits : (Int64.ofInt value).toInt = value :=
          Int64.toInt_ofInt_of_le (by omega) (by omega)
        have hsome := readInteger_eq_some_iff.mpr (hfits.symm ▸ hnumeral)
        rw [hread] at hsome
        cases hsome

/-- The least integer has no negative of 64 bits, and is read all the same. -/
theorem least_integer_is_read_back :
    NativeClass.integer.call "to_s" [.int Int64.minValue] =
        .ok (.string "-9223372036854775808") ∧
      NativeClass.integer.call "parse"
        [.string ("\u00a0" ++ "-9223372036854775808" ++ "\r\n")] = .ok (.int Int64.minValue) := by
  have hshow : showInteger Int64.minValue = "-9223372036854775808" := by decide +kernel
  have hfront : Blank "\u00a0".toList := by decide +kernel
  have hback : Blank "\r\n".toList := by decide +kernel
  obtain ⟨text, htext, -, hread⟩ := integers_read_back.1 Int64.minValue
  rw [call_show, hshow] at htext
  cases htext
  exact ⟨(call_show _).trans (by rw [hshow]), hread _ _ hfront hback⟩

end StackScript.Machine

import Mathlib.Data.List.Nodup
import Mathlib.Data.Nat.Init

/-!
# Results, keyed lists and numerals

What the modules about the library share about the types that it is written with. A step that may
fail, with another one after it, succeeds exactly when both do. Looking up a key in a list of pairs
finds one of its pairs, and the only one when no key comes twice; and so it is with items that are
found by a key that they have. A decimal numeral tells its number.
-/

namespace StackScript

/-! ## Results -/

section

variable {ε α β : Type}

/-- Two steps succeed when both do. -/
theorem bind_eq_ok {x : Except ε α} {f : α → Except ε β} {b : β} :
    x >>= f = .ok b ↔ ∃ a, x = .ok a ∧ f a = .ok b := by
  cases x with
  | error e => simp [bind, Except.bind]
  | ok a => simp [bind, Except.bind]

theorem pure_eq_ok {a b : α} : (pure a : Except ε α) = .ok b ↔ a = b := by
  simp [pure, Except.pure]

/-- What passes a test is there. -/
theorem exists_of_any {x : Except ε α} {p : α → Bool} (h : x.toOption.any p = true) :
    ∃ a, x = .ok a ∧ p a = true := by
  cases x with
  | error fault => cases h
  | ok a => exact ⟨a, rfl, h⟩

end

/-! ## Keyed lists -/

section

variable {α β : Type}

/-- What is found under a key stands in the list with it. -/
theorem lookup_mem [BEq α] [LawfulBEq α] {key : α} {value : β} {pairs : List (α × β)}
    (h : pairs.lookup key = some value) : (key, value) ∈ pairs := by
  obtain ⟨before, after, rfl, -⟩ := List.lookup_eq_some_iff.mp h
  simp

theorem lookup_eq_some_iff_mem [BEq α] [LawfulBEq α] {pairs : List (α × β)}
    (h : (pairs.map Prod.fst).Nodup) {key : α} {value : β} :
    pairs.lookup key = some value ↔ (key, value) ∈ pairs := by
  refine ⟨lookup_mem, fun hmem => ?_⟩
  induction pairs with
  | nil => cases hmem
  | cons first rest ih =>
    obtain ⟨other, found⟩ := first
    rw [List.map_cons, List.nodup_cons] at h
    rcases List.mem_cons.mp hmem with heq | hrest
    · cases heq
      exact List.lookup_cons_self
    · have hne : key ≠ other := by
        rintro rfl
        exact h.1 (List.mem_map.mpr ⟨_, hrest, rfl⟩)
      rw [List.lookup_cons, beq_false_of_ne hne]
      exact ih h.2 hrest

/-- When no two items have one key, what is found under a key is the item that has it. -/
theorem find?_key_eq_some_iff [DecidableEq β] {key : α → β} {items : List α}
    (h : (items.map key).Nodup) {k : β} {item : α} :
    items.find? (fun other => key other = k) = some item ↔ item ∈ items ∧ key item = k := by
  constructor
  · intro hfind
    exact ⟨List.mem_of_find?_eq_some hfind, by simpa using List.find?_some hfind⟩
  · rintro ⟨hmem, rfl⟩
    cases hfind : items.find? fun other => key other = key item with
    | none =>
      have hother := List.find?_eq_none.mp hfind item hmem
      exact absurd (decide_eq_true rfl) hother
    | some found =>
      have hkey : key found = key item := by simpa using List.find?_some hfind
      rw [List.inj_on_of_nodup_map h (List.mem_of_find?_eq_some hfind) hmem hkey]

end

/-! ## Numerals -/

/-- The numeral of a natural number has digits only. -/
theorem isDigit_of_mem_repr {n : Nat} {c : Char} (hc : c ∈ n.repr.toList) : c.isDigit = true := by
  rw [Nat.repr_eq_ofList_toDigits, String.toList_ofList] at hc
  exact Nat.isDigit_of_mem_toDigits (by decide) (by decide) hc

/-- The numeral of a natural number tells it. -/
theorem nat_eq_of_repr {m n : Nat} (h : m.repr = n.repr) : m = n := by
  rw [Nat.repr_eq_ofList_toDigits, Nat.repr_eq_ofList_toDigits] at h
  have hdigits := congrArg (fun text => Nat.ofDigitChars 10 text.toList 0) h
  simp only [String.toList_ofList] at hdigits
  rwa [Nat.ofDigitChars_toDigits (by decide) (by decide),
    Nat.ofDigitChars_toDigits (by decide) (by decide)] at hdigits

/-- A sign stands in front of no natural number. -/
theorem repr_ne_minus (m n : Nat) : m.repr ≠ "-" ++ n.repr := by
  intro h
  have hminus : '-' ∈ m.repr.toList := by
    rw [h, String.toList_append]
    exact List.mem_append_left _ (by decide)
  exact absurd (isDigit_of_mem_repr hminus) (by decide)

/-- The numeral of an integer tells it. -/
theorem eq_of_numeral {m n : Int} (h : toString m = toString n) : m = n := by
  rw [Int.toString_eq_repr, Int.toString_eq_repr, Int.repr_eq_if, Int.repr_eq_if] at h
  split at h <;> split at h
  · have hnat := nat_eq_of_repr h
    omega
  · exact absurd h (repr_ne_minus _ _)
  · exact absurd h.symm (repr_ne_minus _ _)
  · have hdigits := congrArg String.toList h
    rw [String.toList_append, String.toList_append] at hdigits
    have hnat := nat_eq_of_repr (String.toList_inj.mp (List.append_cancel_left hdigits))
    omega

end StackScript

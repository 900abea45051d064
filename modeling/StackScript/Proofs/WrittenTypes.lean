import StackScript.Ty

/-!
# Types and their written forms

Every type without an array of `void` is read back from its written form, and no type with one is
(`Ty.parse?_text`). An array of `void` has the text of an annotation, but no type is read from it.
-/

namespace StackScript.Ty

theorem arrays_ne_void {base : Ty} (h : base ≠ void) (dims : Nat) : base.arrays dims ≠ void := by
  cases dims with
  | zero => exact h
  | succ n => exact fun e => Ty.noConfusion e

/-- One more dimension makes the array of what there was, unless that was `void` or no type. -/
theorem ofParts?_succ (base : String) (dims : Nat) :
    ofParts? base (dims + 1) =
      (ofParts? base dims).bind fun t => if t = void then none else some (array t) := by
  by_cases hint : base = "int"
  · simp [ofParts?, hint, arrays, arrays_ne_void]
  by_cases hbool : base = "boolean"
  · simp [ofParts?, hbool, arrays, arrays_ne_void]
  by_cases hstr : base = "String"
  · simp [ofParts?, hstr, arrays, arrays_ne_void]
  by_cases hvoid : base = "void" ∧ dims = 0
  · simp [ofParts?, hvoid.1, hvoid.2]
  · simp [ofParts?, hint, hbool, hstr, hvoid]

/-- Of an array type one more pair of brackets is split off. -/
theorem splitText_array (element : Ty) :
    splitText (array element).text.toList =
      ((splitText element.text.toList).1, (splitText element.text.toList).2 + 1) := by
  simp [splitText, text, stripBrackets]

/-- The array type is read from its written form as soon as its element is, `void` apart. -/
theorem parse?_text_array (element : Ty) :
    parse? (array element).text =
      (parse? element.text).bind fun t => if t = void then none else some (array t) := by
  simp only [parse?]
  rw [splitText_array, ofParts?_succ]

/-- A written form gives its type back exactly when there is no array of `void` in it. -/
theorem parse?_text (t : Ty) : parse? t.text = if t.isWritable then some t else none := by
  induction t with
  | int => decide +kernel
  | boolean => decide +kernel
  | string => decide +kernel
  | void => decide +kernel
  | array element ih =>
    rw [parse?_text_array, ih]
    -- an array of an array is written when its element is; the rest is decided by the element
    cases element with
    | int => rfl
    | boolean => rfl
    | string => rfl
    | void => rfl
    | array inner =>
      by_cases h : (array inner).isWritable = true
      · have hout : (array (array inner)).isWritable = true := h
        simp [h, hout]
      · have hout : ¬ (array (array inner)).isWritable = true := h
        simp [h, hout]

/-- A type that can be written is read back from its text. -/
theorem parse?_text_of_isWritable {t : Ty} (h : t.isWritable = true) : parse? t.text = some t := by
  rw [parse?_text, if_pos h]

theorem isWritable_of_array {t : Ty} (h : (array t).isWritable = true) : t.isWritable = true := by
  cases t <;> simp_all [isWritable]

theorem isWritable_array {t : Ty} (h : t.isWritable = true) (hv : t ≠ void) :
    (array t).isWritable = true := by
  cases t <;> simp_all [isWritable]

theorem isWritable_arrays {base : Ty} (h : base.isWritable = true) (hv : base ≠ void) (dims : Nat) :
    (base.arrays dims).isWritable = true := by
  induction dims with
  | zero => exact h
  | succ n ih => exact isWritable_array ih (arrays_ne_void hv n)

/-- A type that is put together from written parts has a written form. -/
theorem isWritable_of_ofParts? {base : String} {dims : Nat} {t : Ty}
    (h : ofParts? base dims = some t) : t.isWritable = true := by
  unfold ofParts? at h
  split at h
  · cases h; exact isWritable_arrays rfl (by decide) dims
  split at h
  · cases h; exact isWritable_arrays rfl (by decide) dims
  split at h
  · cases h; exact isWritable_arrays rfl (by decide) dims
  split at h
  · cases h; rfl
  · cases h

theorem isVoid_iff {t : Ty} : t.isVoid = true ↔ t = void := by
  cases t <;> simp [isVoid]

end StackScript.Ty

import StackScript.Code.Emit
import StackScript.Proofs.Meaning
import StackScript.Typing.Body

/-!
# Typed values

Values have types, and on values of the right types each operation of the machine computes what the
operation of the tree means: a value of the type that the typing of operators tells, or the fault of
a zero divisor or of an index out of bounds.
-/

namespace StackScript.Machine

open StackScript.Code StackScript.Meaning StackScript.Syntax StackScript.Typing

/-! ## Types of values -/

namespace Value

/-- The value has the type. -/
inductive HasTy : Value → Ty → Prop where
  | int {n} : HasTy (.int n) .int
  | bool {b} : HasTy (.bool b) .boolean
  | string {s} : HasTy (.string s) .string
  | void : HasTy .void .void
  | array {items t} (hitems : ∀ item ∈ items, HasTy item t) : HasTy (.array items) (.array t)

/-- The values have the types one by one. -/
inductive HaveTys : List Value → List Ty → Prop where
  | nil : HaveTys [] []
  | cons {v t vs ts} (h : HasTy v t) (hrest : HaveTys vs ts) : HaveTys (v :: vs) (t :: ts)

/-- A value of type `int` is an integer. -/
theorem HasTy.int_inv {v : Value} (h : v.HasTy .int) : ∃ n, v = .int n := by
  cases h
  exact ⟨_, rfl⟩

theorem HasTy.bool_inv {v : Value} (h : v.HasTy .boolean) : ∃ b, v = .bool b := by
  cases h
  exact ⟨_, rfl⟩

theorem HasTy.string_inv {v : Value} (h : v.HasTy .string) : ∃ s, v = .string s := by
  cases h
  exact ⟨_, rfl⟩

/-- A value of an array type is an array with elements of that type. -/
theorem HasTy.array_inv {v : Value} {t : Ty} (h : v.HasTy (.array t)) :
    ∃ items, v = .array items ∧ ∀ item ∈ items, item.HasTy t := by
  cases h with
  | array hitems => exact ⟨_, rfl, hitems⟩

/-- Only the lack of a value has the type of no value. -/
theorem HasTy.isVoid_eq {v : Value} {t : Ty} (h : v.HasTy t) : v.isVoid = t.isVoid := by
  cases h <;> rfl

/-- Only `void` has no value. -/
theorem HasTy.isVoid_of_ne {v : Value} {t : Ty} (h : v.HasTy t) (ht : t ≠ .void) :
    v.isVoid = false := by
  rw [h.isVoid_eq]
  cases t with
  | void => exact absurd rfl ht
  | _ => rfl

theorem HaveTys.length {vs : List Value} {ts : List Ty} (h : HaveTys vs ts) :
    vs.length = ts.length := by
  induction h with
  | nil => rfl
  | cons _ _ ih => rw [List.length_cons, List.length_cons, ih]

end Value

/-! ## Operations on typed values -/

/-- What is computed is a value of the type, or one of the faults. -/
structure Yields (allowed : RuntimeFault → Prop) (x : Except RuntimeFault Value) (t : Ty) :
    Prop where
  value : ∀ v, x = .ok v → v.HasTy t
  fault : ∀ fault, x = .error fault → allowed fault

section

variable {allowed : RuntimeFault → Prop} {t : Ty}

theorem Yields.ok {v : Value} (h : v.HasTy t) : Yields allowed (.ok v) t :=
  ⟨fun _ e => Except.ok.inj e ▸ h, fun _ e => nomatch e⟩

theorem Yields.error {fault : RuntimeFault} (h : allowed fault) :
    Yields allowed (.error fault) t :=
  ⟨fun _ e => (nomatch e), fun _ e => Except.error.inj e ▸ h⟩

/-- A unary operation on a value of the right type gives one of the right type. -/
theorem unaryValue_yields {op : UnaryOp} {s : Ty} (hop : unaryType? op s = some t) {v : Value}
    (hv : v.HasTy s) : Yields allowed (unaryValue op v) t := by
  cases op <;> cases hv <;> cases hop <;> exact .ok (by constructor)

/-- Operations of two typed values give values of their type, but for a zero divisor. -/
theorem binaryValue_yields {op : BinaryOp} {l r : Ty} (hop : binaryType? op l r = some t)
    (hzero : allowed .divisionByZero) {a b : Value} (ha : a.HasTy l) (hb : b.HasTy r) :
    Yields allowed (binaryValue op (some t) a b) t := by
  -- arithmetic and comparisons differ in what they make of two numbers, not in how they get them
  have harith : ∀ {f : Int → Int → Value}, (∀ m n, (f m n).HasTy t) → l = .int ∧ r = .int →
      Yields allowed (arithmetic f a b) t := by
    rintro f hf ⟨rfl, rfl⟩
    obtain ⟨m, rfl⟩ := ha.int_inv
    obtain ⟨n, rfl⟩ := hb.int_inv
    exact .ok (hf ..)
  have hdiv : ∀ {f : Int → Int → Value}, (∀ m n, (f m n).HasTy t) → l = .int ∧ r = .int →
      Yields allowed (division f a b) t := by
    rintro f hf ⟨rfl, rfl⟩
    obtain ⟨m, rfl⟩ := ha.int_inv
    obtain ⟨n, rfl⟩ := hb.int_inv
    show Yields allowed (if n.toInt = 0 then _ else _) t
    split
    · exact .error hzero
    · exact .ok (hf ..)
  cases op with
  | add =>
    simp only [binaryType?] at hop
    split at hop
    · rename_i hint
      cases hop
      rw [binaryValue, if_neg (by decide)]
      exact harith (fun _ _ => .int) hint
    · split at hop
      · cases hop
        exact .ok .string
      · cases hop
  | eq | ne =>
    simp only [binaryType?] at hop
    split at hop
    · cases hop
      exact .ok .bool
    · cases hop
  | and | or =>
    simp only [binaryType?] at hop
    split at hop
    · rename_i hbool
      obtain ⟨rfl, rfl⟩ := hbool
      cases hop
      obtain ⟨m, rfl⟩ := ha.bool_inv
      obtain ⟨n, rfl⟩ := hb.bool_inv
      exact .ok .bool
    · cases hop
  | sub | mul =>
    simp only [binaryType?] at hop
    split at hop
    · cases hop
      exact harith (fun _ _ => .int) ‹_›
    · cases hop
  | div | mod =>
    simp only [binaryType?] at hop
    split at hop
    · cases hop
      exact hdiv (fun _ _ => .int) ‹_›
    · cases hop
  | lt | le | gt | ge =>
    simp only [binaryType?] at hop
    split at hop
    · cases hop
      exact harith (fun _ _ => .bool) ‹_›
    · cases hop

/-- The element of an array is the one that the machine takes. -/
theorem elementOf_array (items : List Value) (n : Int64) :
    elementOf (.array items) (.int n) = Frame.elementAt items n := by
  -- the one asks whether the index is negative, the other whether it is not
  have hsame : (if n.toInt < 0 then none else items[n.toInt.toNat]?)
      = if 0 ≤ n.toInt then items[n.toInt.toNat]? else none := by
    split <;> split <;> first | rfl | omega
  cases hitem : if 0 ≤ n.toInt then items[n.toInt.toNat]? else none with
  | some item =>
    simp only [elementOf, Frame.elementAt, Value.asInt, bind, Except.bind, pure, Except.pure, hsame,
      hitem]
  | none =>
    simp only [elementOf, Frame.elementAt, Value.asInt, bind, Except.bind, throw, throwThe,
      MonadExceptOf.throw, hsame, hitem]

/-- An element of a typed array is there, or the index is out of bounds. -/
theorem elementOf_yields {target position : Value} (htarget : target.HasTy (.array t))
    (hposition : position.HasTy .int) (hbounds : ∀ n length, allowed (.indexOutOfBounds n length)) :
    Yields allowed (elementOf target position) t := by
  obtain ⟨n, rfl⟩ := hposition.int_inv
  obtain ⟨items, rfl, hitems⟩ := htarget.array_inv
  rw [elementOf_array]
  unfold Frame.elementAt
  split
  · rename_i item hitem
    refine .ok (hitems item ?_)
    split at hitem
    · exact List.mem_of_getElem? hitem
    · cases hitem
  · exact .error (hbounds _ _)

/-- What has a length has an integer for it. -/
theorem lengthOf_yields {target : Value} {s : Ty} (htarget : target.HasTy s)
    (hs : s = .string ∨ ∃ element, s = .array element) :
    Yields allowed (lengthOf target) .int := by
  rcases hs with rfl | ⟨element, rfl⟩
  · obtain ⟨text, rfl⟩ := htarget.string_inv
    exact .ok .int
  · obtain ⟨items, rfl, -⟩ := htarget.array_inv
    exact .ok .int

end

/-! ## The machine computes them -/

/-- An integer of the machine wraps around to itself. -/
theorem wrap_toInt (n : Int64) : wrap n.toInt = .int n := by
  rw [wrap, Int64.ofInt_toInt]

theorem wrap_neg (n : Int64) : wrap (-n.toInt) = .int (-n) := by
  rw [wrap, Int64.ofInt_neg, Int64.ofInt_toInt]

/-- Sums wrap around as the machine has them. -/
theorem wrap_add (m n : Int64) : wrap (m.toInt + n.toInt) = .int (m + n) := by
  rw [wrap, Int64.ofInt_add, Int64.ofInt_toInt, Int64.ofInt_toInt]

theorem wrap_sub (m n : Int64) : wrap (m.toInt - n.toInt) = .int (m - n) := by
  rw [wrap, Int64.ofInt_sub, Int64.ofInt_toInt, Int64.ofInt_toInt]

theorem wrap_mul (m n : Int64) : wrap (m.toInt * n.toInt) = .int (m * n) := by
  rw [wrap, Int64.ofInt_mul, Int64.ofInt_toInt, Int64.ofInt_toInt]

theorem wrap_tdiv (m n : Int64) : wrap (m.toInt.tdiv n.toInt) = .int (m / n) := by
  -- the smallest number by minus one leaves the range, and both wrap it around
  have hsame : Int64.ofInt (m.toInt.tdiv n.toInt) = m / n := by
    rw [← Int64.toInt_inj, Int64.toInt_ofInt, Int64.toInt_div]
  rw [wrap, hsame]

theorem wrap_tmod (m n : Int64) : wrap (m.toInt.tmod n.toInt) = .int (m % n) := by
  rw [← Int64.toInt_mod, wrap_toInt]

theorem toInt_eq_zero {n : Int64} : n.toInt = 0 ↔ n = 0 := by
  rw [← Int64.toInt_inj]
  rfl

section

variable (pool : Pool) (frame : Frame)

/-- The machine computes a unary operation. -/
theorem execute_unary {op : UnaryOp} {s t : Ty} (hop : unaryType? op s = some t) {v : Value}
    (hv : v.HasTy s) :
    (frame.push v).execute pool (unaryInstr op) = (.go ∘ frame.push) <$> unaryValue op v := by
  cases op with
  | negate =>
    cases hv <;> cases hop
    rename_i n
    -- the two sides compute to numbers, one of them through whole numbers without bounds
    show Except.ok (Effect.go (frame.push (.int (-n)))) = .ok (.go (frame.push (wrap (-n.toInt))))
    rw [wrap_neg]
  | not =>
    cases hv <;> cases hop
    rfl

/-- The machine computes an operation on two integers that cannot fail. -/
theorem execute_arithmetic {f : Int → Int → Value} {g : Int64 → Int64 → Value} (instr : Instr)
    (hinstr : ∀ frame : Frame, frame.execute pool instr =
      .go <$> frame.withInts fun m n => .ok (g m n))
    (hg : ∀ m n, f m.toInt n.toInt = g m n) {a b : Value} (ha : a.HasTy .int)
    (hb : b.HasTy .int) :
    ((frame.push a).push b).execute pool instr = (.go ∘ frame.push) <$> arithmetic f a b := by
  obtain ⟨m, rfl⟩ := ha.int_inv
  obtain ⟨n, rfl⟩ := hb.int_inv
  rw [hinstr]
  show Except.ok (Effect.go (frame.push (g m n))) = .ok (.go (frame.push (f m.toInt n.toInt)))
  rw [hg]

/-- The machine computes a division, and fails where the divisor is zero. -/
theorem execute_division {f : Int → Int → Value} {g : Int64 → Int64 → Value} (instr : Instr)
    (hinstr : ∀ frame : Frame, frame.execute pool instr = .go <$> frame.withInts fun m n =>
      if n = 0 then .error .divisionByZero else .ok (g m n))
    (hg : ∀ m n, f m.toInt n.toInt = g m n) {a b : Value} (ha : a.HasTy .int)
    (hb : b.HasTy .int) :
    ((frame.push a).push b).execute pool instr = (.go ∘ frame.push) <$> division f a b := by
  obtain ⟨m, rfl⟩ := ha.int_inv
  obtain ⟨n, rfl⟩ := hb.int_inv
  rw [hinstr]
  show Effect.go <$> ((if n = 0 then Except.error RuntimeFault.divisionByZero
      else Except.ok (g m n)) >>= fun value => pure (frame.push value)) =
    (Effect.go ∘ frame.push) <$> (if n.toInt = 0 then Except.error RuntimeFault.divisionByZero
      else Except.ok (f m.toInt n.toInt))
  simp only [toInt_eq_zero, hg]
  split <;> rfl

/-- The instruction of a binary operation computes what the operation means. -/
theorem execute_binary {op : BinaryOp} {l r t : Ty} (hop : binaryType? op l r = some t)
    {instr : Instr} (hinstr : binaryInstr? op t = some instr) {a b : Value} (ha : a.HasTy l)
    (hb : b.HasTy r) :
    ((frame.push a).push b).execute pool instr =
      (.go ∘ frame.push) <$> binaryValue op (some t) a b := by
  -- these operators are typed for numbers only
  have hints : ∀ {s : Ty}, (if l = .int ∧ r = .int then some s else none) = some t →
      a.HasTy .int ∧ b.HasTy .int := by
    intro s hs
    split at hs
    · rename_i hint
      exact ⟨hint.1 ▸ ha, hint.2 ▸ hb⟩
    · cases hs
  cases op with
  | and | or => cases hinstr
  | add =>
    simp only [binaryType?] at hop
    split at hop
    · rename_i hint
      obtain ⟨rfl, rfl⟩ := hint
      cases hop
      cases hinstr
      rw [binaryValue, if_neg (by decide)]
      exact execute_arithmetic pool frame .add (fun _ => rfl) wrap_add ha hb
    · split at hop
      · cases hop
        cases hinstr
        rfl
      · cases hop
  | sub =>
    cases hinstr
    exact execute_arithmetic pool frame .sub (fun _ => rfl) wrap_sub (hints hop).1 (hints hop).2
  | mul =>
    cases hinstr
    exact execute_arithmetic pool frame .mul (fun _ => rfl) wrap_mul (hints hop).1 (hints hop).2
  | div =>
    cases hinstr
    exact execute_division pool frame .div (fun _ => rfl) wrap_tdiv (hints hop).1 (hints hop).2
  | mod =>
    cases hinstr
    exact execute_division pool frame .mod (fun _ => rfl) wrap_tmod (hints hop).1 (hints hop).2
  | eq | ne =>
    cases hinstr
    rfl
  | lt =>
    cases hinstr
    obtain ⟨hl, hr⟩ := hints hop
    refine execute_arithmetic pool frame .lt (fun _ => rfl) (fun m n => ?_) hl hr
    simp only [Int64.lt_iff_toInt_lt]
  | le =>
    cases hinstr
    obtain ⟨hl, hr⟩ := hints hop
    refine execute_arithmetic pool frame .le (fun _ => rfl) (fun m n => ?_) hl hr
    simp only [Int64.le_iff_toInt_le]
  | gt =>
    cases hinstr
    obtain ⟨hl, hr⟩ := hints hop
    refine execute_arithmetic pool frame .gt (fun _ => rfl) (fun m n => ?_) hl hr
    simp only [Int64.lt_iff_toInt_lt]
  | ge =>
    cases hinstr
    obtain ⟨hl, hr⟩ := hints hop
    refine execute_arithmetic pool frame .ge (fun _ => rfl) (fun m n => ?_) hl hr
    simp only [Int64.le_iff_toInt_le]

/-- The machine finds the element of an array. -/
theorem execute_index {t : Ty} {target position : Value} (htarget : target.HasTy (.array t))
    (hposition : position.HasTy .int) :
    ((frame.push target).push position).execute pool .index =
      (.go ∘ frame.push) <$> elementOf target position := by
  obtain ⟨n, rfl⟩ := hposition.int_inv
  obtain ⟨items, rfl, -⟩ := htarget.array_inv
  rw [elementOf_array]
  show Effect.go <$> frame.push <$> Frame.elementAt items n = _
  cases Frame.elementAt items n <;> rfl

theorem execute_length {s : Ty} {target : Value} (htarget : target.HasTy s)
    (hs : s = .string ∨ ∃ element, s = .array element) :
    (frame.push target).execute pool .length = (.go ∘ frame.push) <$> lengthOf target := by
  have hwrap : ∀ n : Nat, wrap n = .int (Int64.ofNat n) := fun n => by
    rw [wrap, Int64.ofInt_eq_ofNat]
  rcases hs with rfl | ⟨element, rfl⟩
  · obtain ⟨text, rfl⟩ := htarget.string_inv
    rw [lengthOf, hwrap]
    rfl
  · obtain ⟨items, rfl, -⟩ := htarget.array_inv
    rw [lengthOf, hwrap]
    rfl

end

end StackScript.Machine

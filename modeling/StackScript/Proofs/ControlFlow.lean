import StackScript.Proofs.StackDiscipline

/-!
# Where control goes

Control at a place of a code goes on to one of the places that its instruction names, whatever the
values. It lasts within bounds for so many steps when every way of that length stays between them
(`Lasts`). In generated code control that lasts behind a statement lasts from its start on, and what
is behind a statement that always exits does not matter (`stmtCode_leads`). So control never leaves
the code of a method (`methodCode_lasts`), nor that of a block that always exits
(`exits_lasts`). Types do not come into it: this holds of all code that is made, typed or not.
-/

namespace StackScript.Code

open StackScript.Machine StackScript.Source StackScript.Syntax StackScript.Typing

/-! ## Lasting within bounds -/

/-- Every way of control from the place on stays, for so many steps, at places from `low` up to
but not including `high`. -/
def Lasts (code : Array Instr) (low high : Nat) : Nat → Nat → Prop
  | 0, _ => True
  | steps + 1, place => low ≤ place ∧ place < high ∧
      ∀ instr, code[place]? = some instr →
        ∀ next ∈ instr.nexts place, Lasts code low high steps next

section

variable {code : Array Instr} {low high : Nat}

theorem Lasts.step {instr : Instr} {steps place : Nat} (hat : code[place]? = some instr)
    (hlow : low ≤ place) (hhigh : place < high)
    (hnext : ∀ next ∈ instr.nexts place, Lasts code low high steps next) :
    Lasts code low high (steps + 1) place := by
  refine ⟨hlow, hhigh, ?_⟩
  intro other hother
  cases hat.symm.trans hother
  exact hnext

/-- What lasts for some steps lasts for fewer. -/
theorem Lasts.less {steps place : Nat} (h : Lasts code low high (steps + 1) place) :
    Lasts code low high steps place := by
  induction steps generalizing place with
  | zero => trivial
  | succ steps ih =>
    obtain ⟨hlow, hhigh, hnext⟩ := h
    exact ⟨hlow, hhigh, fun instr hat next hmem => ih (hnext instr hat next hmem)⟩

/-- Control that lasts at the one place, provided it can get there at all, lasts from the other
place on. -/
def Leads (code : Array Instr) (low high : Nat) (falls : Prop) (place after : Nat) : Prop :=
  ∀ steps, (falls → Lasts code low high steps after) → Lasts code low high steps place

namespace Leads

variable {falls more : Prop} {place between after : Nat}

theorem refl (place : Nat) : Leads code low high True place place := fun _ h => h trivial

theorem trans (h : Leads code low high falls place between)
    (h' : Leads code low high more between after) :
    Leads code low high (falls ∧ more) place after :=
  fun steps hafter => h steps fun hfalls => h' steps fun hmore => hafter ⟨hfalls, hmore⟩

theorem mono (h : Leads code low high falls place after) (hfalls : falls → more) :
    Leads code low high more place after := fun steps hafter => h steps fun hf => hafter (hfalls hf)

/-- Two pieces that control goes through, one after the other. -/
theorem through (h : Leads code low high True place between)
    (h' : Leads code low high more between after) : Leads code low high more place after :=
  (h.trans h').mono And.right

/-- An instruction leads to the places where it goes on. -/
theorem instr {instr : Instr} (hat : code[place]? = some instr) (hlow : low ≤ place)
    (hhigh : place < high)
    (hnext : ∀ next ∈ instr.nexts place, Leads code low high falls next after) :
    Leads code low high falls place after := by
  intro steps hafter
  cases steps with
  | zero => trivial
  | succ steps =>
    apply Lasts.step hat hlow hhigh
    intro next hmem
    exact hnext next hmem steps fun hfalls => (hafter hfalls).less

theorem plain {instr : Instr} (hat : code[place]? = some instr) (hplain : instr.isPlain = true)
    (hlow : low ≤ place) (hhigh : place < high) : Leads code low high True place (place + 1) := by
  apply Leads.instr hat hlow hhigh
  intro next hmem
  rw [Instr.nexts_of_isPlain hplain, List.mem_singleton] at hmem
  rw [hmem]
  exact refl (place + 1)

theorem jump {target : Nat} (hat : code[place]? = some (.jump (placeNumber target)))
    (htarget : target < UInt32.size) (hlow : low ≤ place) (hhigh : place < high) :
    Leads code low high True place target := by
  apply Leads.instr hat hlow hhigh
  intro next hmem
  rw [Instr.nexts_jump, toNat_placeNumber htarget, List.mem_singleton] at hmem
  rw [hmem]
  exact refl target

theorem jumpIfFalse {target : Nat} (hat : code[place]? = some (.jumpIfFalse (placeNumber target)))
    (htarget : target < UInt32.size) (hlow : low ≤ place) (hhigh : place < high)
    (hstay : Leads code low high falls (place + 1) after)
    (hleave : Leads code low high falls target after) : Leads code low high falls place after := by
  apply Leads.instr hat hlow hhigh
  intro next hmem
  rw [Instr.nexts_jumpIfFalse, toNat_placeNumber htarget, List.mem_cons, List.mem_singleton] at hmem
  rcases hmem with rfl | rfl
  · exact hstay
  · exact hleave

/-- Nothing is behind an instruction that does not go on. -/
theorem ended {instr : Instr} (hat : code[place]? = some instr) (hnexts : instr.nexts place = [])
    (hlow : low ≤ place) (hhigh : place < high) (after : Nat) :
    Leads code low high False place after := by
  apply Leads.instr hat hlow hhigh
  intro next hmem
  rw [hnexts] at hmem
  cases hmem

end Leads

/-- The piece of code stands at the place, and within the bounds. -/
structure Lies (code : Array Instr) (low high place : Nat) (piece : List Instr) : Prop where
  stands : StandsAt code place piece
  low : low ≤ place
  high : place + piece.length ≤ high

namespace Lies

variable {place : Nat} {first rest : List Instr} {instr : Instr}

theorem left (h : Lies code low high place (first ++ rest)) : Lies code low high place first := by
  refine ⟨h.stands.left, h.low, ?_⟩
  have hhigh := h.high
  rw [List.length_append] at hhigh
  omega

theorem right (h : Lies code low high place (first ++ rest)) :
    Lies code low high (place + first.length) rest := by
  refine ⟨h.stands.right, ?_, ?_⟩
  · have hlow := h.low
    omega
  · have hhigh := h.high
    rw [List.length_append] at hhigh
    omega

theorem head (h : Lies code low high place (instr :: rest)) :
    code[place]? = some instr ∧ low ≤ place ∧ place < high := by
  have hhigh := h.high
  rw [List.length_cons] at hhigh
  exact ⟨h.stands.head, h.low, by omega⟩

theorem tail (h : Lies code low high place (instr :: rest)) :
    Lies code low high (place + 1) rest := by
  have h : Lies code low high place ([instr] ++ rest) := h
  exact h.right

/-- A place up to the end of a piece can be counted when all of the code can. -/
theorem countable (h : Lies code low high place first) (hfirst : first ≠ [])
    (hsize : code.size < UInt32.size) ⦃target : Nat⦄ (htarget : target ≤ place + first.length) :
    target < UInt32.size :=
  Nat.lt_of_le_of_lt (Nat.le_trans htarget (h.stands.end_le hfirst)) hsize

end Lies

end

/-! ## Expressions -/

section

variable {code : Array Instr} {low high place : Nat} {left right : List Instr}

theorem plain_leads {instr : Instr} {rest : List Instr}
    (h : Lies code low high place (instr :: rest)) (hplain : instr.isPlain = true) :
    Leads code low high True place (place + 1) :=
  .plain h.head.1 hplain h.head.2.1 h.head.2.2

theorem andCode_leads (hsize : code.size < UInt32.size)
    (h : Lies code low high place (andCode place left right))
    (hleft : Lies code low high place left →
      Leads code low high True place (place + left.length))
    (hright : Lies code low high (place + left.length + 1) right →
      Leads code low high True (place + left.length + 1)
        (place + left.length + 1 + right.length)) :
    Leads code low high True place (place + (andCode place left right).length) := by
  have hcount := h.countable (by simp [andCode]) hsize
  have hend : place + (andCode place left right).length =
      place + left.length + 1 + right.length + 1 + 1 := by
    simp only [andCode, List.length_append, List.length_cons, List.length_nil]
    omega
  have hfalse : place + left.length + right.length + 2 =
      place + left.length + 1 + right.length + 1 := by omega
  have hstop : place + left.length + right.length + 3 =
      place + left.length + 1 + right.length + 1 + 1 := by omega
  simp only [andCode, List.append_assoc, List.cons_append, List.nil_append, hfalse, hstop] at h
  rw [hend] at hcount ⊢
  obtain ⟨htest, htestlow, htesthigh⟩ := h.right.head
  obtain ⟨hjump, hjumplow, hjumphigh⟩ := h.right.tail.right.head
  refine (hleft h.left).through (.jumpIfFalse htest (hcount (by omega)) htestlow htesthigh ?_ ?_)
  · exact (hright h.right.tail.left).through
      (.jump hjump (hcount (Nat.le_refl _)) hjumplow hjumphigh)
  · exact plain_leads h.right.tail.right.tail rfl

theorem orCode_leads (hsize : code.size < UInt32.size)
    (h : Lies code low high place (orCode place left right))
    (hleft : Lies code low high place left →
      Leads code low high True place (place + left.length))
    (hright : Lies code low high (place + left.length + 3) right →
      Leads code low high True (place + left.length + 3)
        (place + left.length + 3 + right.length)) :
    Leads code low high True place (place + (orCode place left right).length) := by
  have hcount := h.countable (by simp [orCode]) hsize
  have hend : place + (orCode place left right).length =
      place + left.length + 3 + right.length := by
    simp only [orCode, List.length_append, List.length_cons, List.length_nil]
    omega
  have hstop : place + left.length + right.length + 3 =
      place + left.length + 3 + right.length := by omega
  simp only [orCode, List.append_assoc, List.cons_append, List.nil_append, hstop] at h
  rw [hend] at hcount ⊢
  obtain ⟨htest, htestlow, htesthigh⟩ := h.right.head
  obtain ⟨hjump, hjumplow, hjumphigh⟩ := h.right.tail.tail.head
  refine (hleft h.left).through (.jumpIfFalse htest (hcount (by omega)) htestlow htesthigh ?_
    (hright h.right.tail.tail.tail))
  exact (plain_leads h.right.tail rfl).through
    (.jump hjump (hcount (Nat.le_refl _)) hjumplow hjumphigh)

/-- An operation that computes both sides first, and then takes one instruction. -/
theorem strictCode_leads {instr : Instr} (h : Lies code low high place (left ++ right ++ [instr]))
    (hplain : instr.isPlain = true)
    (hleft : Lies code low high place left →
      Leads code low high True place (place + left.length))
    (hright : Lies code low high (place + left.length) right →
      Leads code low high True (place + left.length) (place + left.length + right.length)) :
    Leads code low high True place (place + (left ++ right ++ [instr]).length) := by
  simp only [List.length_append, List.length_singleton, ← Nat.add_assoc]
  rw [List.append_assoc] at h
  exact ((hleft h.left).through (hright h.right.left)).through (plain_leads h.right.right hplain)

theorem binaryCode_leads (hsize : code.size < UInt32.size) {op : BinaryOp} {type : Ty}
    (h : Lies code low high place (binaryCode op type place left right))
    (hleft : Lies code low high place left →
      Leads code low high True place (place + left.length))
    (hright : Lies code low high (rightPlace op place left) right →
      Leads code low high True (rightPlace op place left)
        (rightPlace op place left + right.length)) :
    Leads code low high True place (place + (binaryCode op type place left right).length) := by
  by_cases hand : op = .and
  · subst hand
    exact andCode_leads hsize h hleft hright
  · by_cases hor : op = .or
    · subst hor
      exact orCode_leads hsize h hleft hright
    · obtain ⟨instr, hinstr, hplace, hcode⟩ := binaryCode_strict hand hor type
      rw [hplace] at hright
      rw [hcode] at h ⊢
      exact strictCode_leads h (binaryInstr?_effect hinstr).1 hleft hright

theorem isPlain_unaryInstr (op : UnaryOp) : (unaryInstr op).isPlain = true := by
  cases op <;> rfl

variable {file : String} {slots : Slots}

mutual

/-- Control goes through the code of an expression. -/
theorem exprCode_leads (hsize : code.size < UInt32.size) : ∀ (e : Expr) {place : Nat}
    {made : List Instr}, exprCode file slots place e = .ok made → Lies code low high place made →
      Leads code low high True place (place + made.length)
  | .int value note, place, _, hcode, h => by
    simp only [exprCode, bind_eq_ok, pure_eq_ok] at hcode
    obtain ⟨_, -, rfl⟩ := hcode
    exact plain_leads h rfl
  | .bool value note, place, _, hcode, h => by
    simp only [exprCode, bind_eq_ok, pure_eq_ok] at hcode
    obtain ⟨_, -, rfl⟩ := hcode
    exact plain_leads h rfl
  | .string value note, place, _, hcode, h => by
    simp only [exprCode, bind_eq_ok, pure_eq_ok] at hcode
    obtain ⟨_, -, rfl⟩ := hcode
    exact plain_leads h rfl
  | .var name note, place, _, hcode, h => by
    simp only [exprCode, bind_eq_ok, loadCode] at hcode
    obtain ⟨_, -, hload⟩ := hcode
    split at hload
    · cases hload
      exact plain_leads h rfl
    · cases hload
  | .call receiver method args target note, place, _, hcode, h => by
    simp only [exprCode, bind_eq_ok, pure_eq_ok] at hcode
    obtain ⟨_, -, cls, -, first, hfirst, rfl⟩ := hcode
    rw [List.length_append, List.length_singleton, ← Nat.add_assoc]
    obtain ⟨hcall, hlow, hhigh⟩ := h.right.head
    refine (argsCode_leads hsize args hfirst h.left).through (.instr hcall hlow hhigh ?_)
    intro next hmem
    rw [List.mem_singleton.mp hmem]
    exact .refl _
  | .index array position note, place, _, hcode, h => by
    simp only [exprCode, bind_eq_ok, pure_eq_ok] at hcode
    obtain ⟨_, -, first, hfirst, second, hsecond, rfl⟩ := hcode
    exact strictCode_leads h rfl (exprCode_leads hsize array hfirst)
      (exprCode_leads hsize position hsecond)
  | .length value note, place, _, hcode, h => by
    simp only [exprCode, bind_eq_ok, pure_eq_ok] at hcode
    obtain ⟨_, -, first, hfirst, rfl⟩ := hcode
    rw [List.length_append, List.length_singleton, ← Nat.add_assoc]
    exact (exprCode_leads hsize value hfirst h.left).through (plain_leads h.right rfl)
  | .unary op operand note, place, _, hcode, h => by
    simp only [exprCode, bind_eq_ok, pure_eq_ok] at hcode
    obtain ⟨_, -, first, hfirst, rfl⟩ := hcode
    rw [List.length_append, List.length_singleton, ← Nat.add_assoc]
    exact (exprCode_leads hsize operand hfirst h.left).through
      (plain_leads h.right (isPlain_unaryInstr op))
  | .binary op left right note, place, _, hcode, h => by
    simp only [exprCode, bind_eq_ok, pure_eq_ok] at hcode
    obtain ⟨type, -, first, hfirst, second, hsecond, rfl⟩ := hcode
    exact binaryCode_leads hsize h (exprCode_leads hsize left hfirst)
      (exprCode_leads hsize right hsecond)

theorem argsCode_leads (hsize : code.size < UInt32.size) : ∀ (es : List Expr) {place : Nat}
    {made : List Instr}, argsCode file slots place es = .ok made → Lies code low high place made →
      Leads code low high True place (place + made.length)
  | [], place, _, hcode, _ => by
    cases hcode
    exact .refl place
  | e :: es, place, _, hcode, h => by
    simp only [argsCode, bind_eq_ok, pure_eq_ok] at hcode
    obtain ⟨first, hfirst, rest, hrest, rfl⟩ := hcode
    rw [List.length_append, ← Nat.add_assoc]
    exact (exprCode_leads hsize e hfirst h.left).through (argsCode_leads hsize es hrest h.right)

end

end

/-! ## Statements -/

section

variable {code : Array Instr} {low high place : Nat} {test body rest : List Instr}

/-- A loop leads on behind it, if its condition and its body lead to their ends. -/
theorem loopCode_leads (hsize : code.size < UInt32.size) {falls : Prop}
    (h : Lies code low high place (test
      ++ [.jumpIfFalse (placeNumber (place + test.length + 1 + body.length + 1))] ++ body
      ++ [.jump (placeNumber place)]))
    (htest : Lies code low high place test →
      Leads code low high True place (place + test.length))
    (hbody : Lies code low high (place + test.length + 1) body →
      Leads code low high falls (place + test.length + 1)
        (place + test.length + 1 + body.length)) :
    Leads code low high True place (place + test.length + 1 + body.length + 1) := by
  have hcount := h.countable (by simp) hsize
  simp only [List.append_assoc, List.cons_append, List.nil_append] at h
  simp only [List.length_append, List.length_cons, List.length_nil] at hcount
  obtain ⟨hjif, hjiflow, hjifhigh⟩ := h.right.head
  obtain ⟨hjump, hjumplow, hjumphigh⟩ := h.right.tail.right.head
  intro steps hafter
  -- the way back is shorter by the jump
  induction steps with
  | zero => trivial
  | succ steps ih =>
    have hafter := hafter trivial
    have hback := ih fun _ => hafter.less
    refine htest h.left _ fun _ => Lasts.step hjif hjiflow hjifhigh ?_
    intro next hmem
    rw [Instr.nexts_jumpIfFalse, toNat_placeNumber (hcount (by omega)), List.mem_cons,
      List.mem_singleton] at hmem
    rcases hmem with rfl | rfl
    · refine hbody h.right.tail.left steps fun _ => ?_
      refine Lasts.less (Lasts.step hjump hjumplow hjumphigh ?_)
      intro next hmem
      rw [Instr.nexts_jump, toNat_placeNumber (hcount (by omega)), List.mem_singleton] at hmem
      rw [hmem]
      exact hback
    · exact hafter.less

/-- A branch and those after it lead on behind the last one, if the branch or one of the others
does. -/
theorem branchCode_leads (hsize : code.size < UInt32.size) {falls others : Prop}
    (h : Lies code low high place (test
      ++ [.jumpIfFalse (placeNumber (place + test.length + 1 + body.length + 1))] ++ body
      ++ [.jump (placeNumber (place + test.length + 1 + body.length + 1 + rest.length))] ++ rest))
    (htest : Lies code low high place test →
      Leads code low high True place (place + test.length))
    (hbody : Lies code low high (place + test.length + 1) body →
      Leads code low high falls (place + test.length + 1)
        (place + test.length + 1 + body.length))
    (hrest : Lies code low high (place + test.length + 1 + body.length + 1) rest →
      Leads code low high others (place + test.length + 1 + body.length + 1)
        (place + test.length + 1 + body.length + 1 + rest.length)) :
    Leads code low high (falls ∨ others) place
      (place + test.length + 1 + body.length + 1 + rest.length) := by
  have hcount := h.countable (by simp) hsize
  simp only [List.append_assoc, List.cons_append, List.nil_append] at h
  simp only [List.length_append, List.length_cons, List.length_nil] at hcount
  obtain ⟨hjif, hjiflow, hjifhigh⟩ := h.right.head
  obtain ⟨hjump, hjumplow, hjumphigh⟩ := h.right.tail.right.head
  refine (htest h.left).through (.jumpIfFalse hjif (hcount (by omega)) hjiflow hjifhigh ?_ ?_)
  · refine ((hbody h.right.tail.left).trans
      (.jump hjump (hcount (by omega)) hjumplow hjumphigh)).mono ?_
    exact fun hfalls => .inl hfalls.1
  · exact (hrest h.right.tail.right.tail).mono .inr

variable {file : String} {slots : Slots} {value : Expr} {made : List Instr}

/-- The code of a value, with what is done with it behind. -/
theorem valueCode_leads (hsize : code.size < UInt32.size) {falls : Prop} {last : List Instr}
    (hvalue : exprCode file slots place value = .ok made)
    (h : Lies code low high place (made ++ last))
    (hlast : Lies code low high (place + made.length) last →
      Leads code low high falls (place + made.length) (place + made.length + last.length)) :
    Leads code low high falls place (place + (made ++ last).length) := by
  rw [List.length_append, ← Nat.add_assoc]
  exact (exprCode_leads hsize value hvalue h.left).through (hlast h.right)

/-- Control passes one plain instruction, or none. -/
theorem optional_leads {next : List Instr} (h : Lies code low high place next)
    (hnext : next = [] ∨ ∃ instr, next = [instr] ∧ instr.isPlain = true) :
    Leads code low high True place (place + next.length) := by
  rcases hnext with rfl | ⟨instr, rfl, hplain⟩
  · exact .refl place
  · exact plain_leads h hplain

/-- Control ends at an instruction that does not go on. -/
theorem ended_leads {instr : Instr} (h : Lies code low high place [instr])
    (hnexts : ∀ place, instr.nexts place = []) (after : Nat) :
    Leads code low high False place after :=
  .ended h.head.1 (hnexts place) h.head.2.1 h.head.2.2 after

mutual

/-- Control that lasts behind a statement lasts from its start on; a statement that always exits
does not lead behind its end. -/
theorem stmtCode_leads (hsize : code.size < UInt32.size) : ∀ (stmt : Stmt) {slots : Slots}
    {place : Nat} {emitted : Emitted}, stmtCode file slots place stmt = .ok emitted →
      Lies code low high place emitted.code →
      Leads code low high (stmt.exits = false) place (place + emitted.code.length)
  | .expr value span, slots, place, _, hcode, h => by
    simp only [stmtCode, bind_eq_ok, pure_eq_ok] at hcode
    obtain ⟨type, -, made, hvalue, rfl⟩ := hcode
    refine (valueCode_leads hsize hvalue h fun hdrop => optional_leads hdrop ?_).mono fun _ => rfl
    cases type.isVoid with
    | true => exact .inl rfl
    | false => exact .inr ⟨.pop, rfl, rfl⟩
  | .assign target value span, slots, place, _, hcode, h => by
    simp only [stmtCode, bind_eq_ok, pure_eq_ok] at hcode
    obtain ⟨made, hvalue, rfl⟩ := hcode
    refine (valueCode_leads hsize hvalue h fun hstore => optional_leads hstore ?_).mono fun _ => rfl
    cases slotOf? (addSlot slots target.name) target.name with
    | none => exact .inl rfl
    | some slot => exact .inr ⟨.store slot, rfl, rfl⟩
  | .cond chain span, slots, place, _, hcode, h => by
    simp only [stmtCode, bind_eq_ok, pure_eq_ok] at hcode
    obtain ⟨emitted, hchain, rfl⟩ := hcode
    rw [code_markLine] at h ⊢
    exact chainCode_leads hsize chain hchain h
  | .loop condition body span, slots, place, _, hcode, h => by
    simp only [stmtCode, bind_eq_ok, pure_eq_ok] at hcode
    obtain ⟨test, htest, inner, hinner, rfl⟩ := hcode
    simp only [code_markLine, code_append, code_plain] at h ⊢
    have hlead := loopCode_leads hsize h (exprCode_leads hsize condition htest)
      (blockCode_leads hsize body hinner)
    simp only [List.length_append, List.length_singleton, ← Nat.add_assoc]
    exact hlead.mono fun _ => rfl
  | .ret (some value) span, slots, place, _, hcode, h => by
    simp only [stmtCode, bind_eq_ok, pure_eq_ok] at hcode
    obtain ⟨made, hvalue, rfl⟩ := hcode
    exact (valueCode_leads hsize hvalue h fun hret => ended_leads hret (fun _ => rfl) _).mono
      False.elim
  | .ret none span, slots, place, _, hcode, h => by
    cases hcode
    exact (ended_leads h (fun _ => rfl) _).mono False.elim
  | .puts value span, slots, place, _, hcode, h => by
    simp only [stmtCode, bind_eq_ok, pure_eq_ok] at hcode
    obtain ⟨made, hvalue, rfl⟩ := hcode
    exact (valueCode_leads hsize hvalue h fun hputs => plain_leads hputs rfl).mono fun _ => rfl
  | .raise value span, slots, place, _, hcode, h => by
    simp only [stmtCode, bind_eq_ok, pure_eq_ok] at hcode
    obtain ⟨made, hvalue, rfl⟩ := hcode
    exact (valueCode_leads hsize hvalue h fun hraise => ended_leads hraise (fun _ => rfl) _).mono
      False.elim

theorem blockCode_leads (hsize : code.size < UInt32.size) : ∀ (block : Block) {slots : Slots}
    {place : Nat} {emitted : Emitted}, blockCode file slots place block = .ok emitted →
      Lies code low high place emitted.code →
      Leads code low high (block.exits = false) place (place + emitted.code.length)
  | .mk stmts span, slots, place, _, hcode, h => by
    rw [blockCode] at hcode
    exact stmtsCode_leads hsize stmts hcode h

theorem stmtsCode_leads (hsize : code.size < UInt32.size) : ∀ (stmts : List Stmt) {slots : Slots}
    {place : Nat} {emitted : Emitted}, stmtsCode file slots place stmts = .ok emitted →
      Lies code low high place emitted.code →
      Leads code low high (anyExits stmts = false) place (place + emitted.code.length)
  | [], slots, place, _, hcode, _ => by
    cases hcode
    exact (Leads.refl place).mono fun _ => rfl
  | stmt :: stmts, slots, place, _, hcode, h => by
    simp only [stmtsCode, bind_eq_ok, pure_eq_ok] at hcode
    obtain ⟨first, hfirst, others, hothers, rfl⟩ := hcode
    simp only [code_append] at h ⊢
    rw [List.length_append, ← Nat.add_assoc]
    refine ((stmtCode_leads hsize stmt hfirst h.left).trans
      (stmtsCode_leads hsize stmts hothers h.right)).mono ?_
    rintro ⟨hstmt, hstmts⟩
    rw [anyExits, hstmt, hstmts]
    rfl

theorem chainCode_leads (hsize : code.size < UInt32.size) : ∀ (chain : Chain) {slots : Slots}
    {place : Nat} {emitted : Emitted}, chainCode file slots place chain = .ok emitted →
      Lies code low high place emitted.code →
      Leads code low high (chain.exits = false) place (place + emitted.code.length)
  | .done, slots, place, _, hcode, _ => by
    cases hcode
    exact (Leads.refl place).mono fun _ => rfl
  | .otherwise body, slots, place, _, hcode, h => by
    rw [chainCode] at hcode
    exact blockCode_leads hsize body hcode h
  | .branch condition body rest, slots, place, _, hcode, h => by
    simp only [chainCode, bind_eq_ok, pure_eq_ok] at hcode
    obtain ⟨test, htest, taken, htaken, others, hothers, rfl⟩ := hcode
    simp only [code_append, code_plain] at h ⊢
    have hlead := branchCode_leads hsize h (exprCode_leads hsize condition htest)
      (blockCode_leads hsize body htaken) (chainCode_leads hsize rest hothers)
    simp only [List.length_append, List.length_singleton, ← Nat.add_assoc]
    refine hlead.mono ?_
    rw [Chain.exits]
    rintro (hbody | hrest)
    · rw [hbody, Bool.false_and]
    · rw [hrest, Bool.and_false]

end

/-- The body leads behind its end only if no statement of it always exits, and if no bare expression
at its end is the value that its method owes. -/
theorem bodyCode_leads (hsize : code.size < UInt32.size) {ret : Ty} {stmts : List Stmt}
    {slots : Slots} {place : Nat} {emitted : Emitted}
    (hcode : bodyCode file ret slots place stmts = .ok emitted)
    (h : Lies code low high place emitted.code) :
    Leads code low high
      (anyExits stmts = false ∧
        (ret.isVoid = true ∨ (stmts.getLast?.map isExpr).getD false = false))
      place (place + emitted.code.length) := by
  induction stmts generalizing slots place emitted with
  | nil =>
    cases hcode
    exact (Leads.refl place).mono fun _ => ⟨rfl, .inr rfl⟩
  | cons stmt rest ih =>
    rcases isLast_cases stmt rest with hlast | ⟨value, span, rfl, rfl⟩
    · rw [bodyCode_cons hlast] at hcode
      simp only [bind_eq_ok, pure_eq_ok] at hcode
      obtain ⟨first, hfirst, others, hothers, rfl⟩ := hcode
      simp only [code_append] at h ⊢
      rw [List.length_append, ← Nat.add_assoc]
      refine ((stmtCode_leads hsize stmt hfirst h.left).trans (ih hothers h.right)).mono ?_
      rintro ⟨hstmt, hrest, hgives⟩
      refine ⟨by rw [anyExits, hstmt, hrest]; rfl, ?_⟩
      rcases hgives with hvoid | hvalue
      · exact .inl hvoid
      · right
        cases rest with
        | nil =>
          -- a bare expression would not have been taken for a statement here
          cases hexpr : isExpr stmt with
          | false => simpa using hexpr
          | true => exact absurd rfl (hlast hexpr)
        | cons next rest => rwa [List.getLast?_cons_cons]
    · rw [bodyCode] at hcode
      split at hcode
      · rename_i hvoid
        refine (stmtCode_leads hsize _ hcode h).mono fun hstmt => ⟨?_, .inl hvoid⟩
        rw [anyExits, hstmt]
        rfl
      · simp only [bind_eq_ok, pure_eq_ok] at hcode
        obtain ⟨made, hvalue, rfl⟩ := hcode
        exact (valueCode_leads hsize hvalue h fun hret => ended_leads hret (fun _ => rfl) _).mono
          False.elim

end

/-! ## Methods and blocks -/

/-- Control never leaves the code of a method, once it is at its start. -/
theorem methodCode_lasts {file : String} {m : Method} {code : MethodCode}
    (hcode : methodCode file m = .ok code) (hsize : code.code.size < UInt32.size) (steps : Nat) :
    Lasts code.code 0 code.code.size steps 0 := by
  obtain ⟨params, ret, body, last, -, -, hbody, hlast, rfl⟩ := methodCode_eq_ok hcode
  simp only [List.size_toArray] at hsize ⊢
  have hlies : Lies (body.code ++ last).toArray 0 (body.code ++ last).length 0
      (body.code ++ last) :=
    ⟨by simpa using standsAt_toArray (body.code ++ last) [], Nat.le_refl 0, by simp⟩
  refine bodyCode_leads (by simpa using hsize) hbody hlies.left steps ?_
  have hend := endCode_eq_ok hlast
  intro hfalls
  unfold endCode at hlast
  split at hlast
  · -- a method that owes no value has a return behind its body
    rename_i hvoid
    rw [if_pos hvoid] at hend
    subst hend
    exact ended_leads hlies.right (fun _ => rfl) 0 steps False.elim
  · rename_i hvoid
    split at hlast
    · rename_i hgives
      obtain ⟨hexits, hfalls⟩ := hfalls
      have hvalue := hfalls.resolve_left hvoid
      have hmk : m.body = .mk m.body.stmts m.body.span := by cases m.body; rfl
      rw [hmk, endsWithExpr_mk, Block.exits, hvalue, hexits] at hgives
      cases hgives
    · cases hlast

mutual

/-- The blocks in a statement. -/
def stmtBlocks : Stmt → List Block
  | .expr _ _ | .assign _ _ _ | .ret _ _ | .puts _ _ | .raise _ _ => []
  | .cond chain _ => chainBlocks chain
  | .loop _ body _ => blockBlocks body

/-- A block and the blocks in it. -/
def blockBlocks : Block → List Block
  | .mk stmts span => .mk stmts span :: stmtsBlocks stmts

/-- The blocks in statements. -/
def stmtsBlocks : List Stmt → List Block
  | [] => []
  | stmt :: stmts => stmtBlocks stmt ++ stmtsBlocks stmts

/-- The blocks in the branches of a conditional. -/
def chainBlocks : Chain → List Block
  | .done => []
  | .otherwise body => blockBlocks body
  | .branch _ body rest => blockBlocks body ++ chainBlocks rest

end

/-- The block has code that was made for the place and stands there, as a block in a body or as the
body of a method that returns `ret`. -/
def HasCodeAt (file : String) (code : Array Instr) (ret : Ty) (block : Block) (place : Nat)
    (made : List Instr) : Prop :=
  StandsAt code place made ∧ ∃ slots emitted, emitted.code = made ∧
    (blockCode file slots place block = .ok emitted ∨
      bodyCode file ret slots place block.stmts = .ok emitted)

section

variable {file : String} {code : Array Instr} {ret : Ty}

mutual

/-- Every block in a statement has code where the statement has. -/
theorem hasCode_stmtBlocks : ∀ (stmt : Stmt) {slots : Slots} {place : Nat} {emitted : Emitted},
    stmtCode file slots place stmt = .ok emitted → StandsAt code place emitted.code →
      ∀ block ∈ stmtBlocks stmt, ∃ p made, HasCodeAt file code ret block p made
  | .expr _ _, _, _, _, _, _ | .assign _ _ _, _, _, _, _, _ | .ret _ _, _, _, _, _, _
  | .puts _ _, _, _, _, _, _ | .raise _ _, _, _, _, _, _ => List.forall_mem_nil _
  | .cond chain span, _, _, _, hcode, hat => by
    simp only [stmtCode, bind_eq_ok, pure_eq_ok] at hcode
    obtain ⟨emitted, hchain, rfl⟩ := hcode
    exact hasCode_chainBlocks chain hchain hat
  | .loop condition body span, _, place, _, hcode, hat => by
    simp only [stmtCode, bind_eq_ok, pure_eq_ok] at hcode
    obtain ⟨test, -, inner, hinner, rfl⟩ := hcode
    simp only [code_markLine, code_append, code_plain] at hat
    have hbody := hat.left.right
    rw [List.length_append, List.length_singleton, ← Nat.add_assoc] at hbody
    exact hasCode_blockBlocks body hinner hbody

theorem hasCode_blockBlocks : ∀ (block : Block) {slots : Slots} {place : Nat} {emitted : Emitted},
    blockCode file slots place block = .ok emitted → StandsAt code place emitted.code →
      ∀ inner ∈ blockBlocks block, ∃ p made, HasCodeAt file code ret inner p made
  | .mk stmts span, _, _, _, hcode, hat =>
    List.forall_mem_cons.mpr ⟨⟨_, _, hat, _, _, rfl, .inl hcode⟩,
      hasCode_stmtsBlocks stmts (by rwa [blockCode] at hcode) hat⟩

theorem hasCode_stmtsBlocks : ∀ (stmts : List Stmt) {slots : Slots} {place : Nat}
    {emitted : Emitted}, stmtsCode file slots place stmts = .ok emitted →
      StandsAt code place emitted.code →
      ∀ block ∈ stmtsBlocks stmts, ∃ p made, HasCodeAt file code ret block p made
  | [], _, _, _, _, _ => List.forall_mem_nil _
  | stmt :: stmts, _, _, _, hcode, hat => by
    simp only [stmtsCode, bind_eq_ok, pure_eq_ok] at hcode
    obtain ⟨first, hfirst, others, hothers, rfl⟩ := hcode
    simp only [code_append] at hat
    exact List.forall_mem_append.mpr
      ⟨hasCode_stmtBlocks stmt hfirst hat.left, hasCode_stmtsBlocks stmts hothers hat.right⟩

theorem hasCode_chainBlocks : ∀ (chain : Chain) {slots : Slots} {place : Nat} {emitted : Emitted},
    chainCode file slots place chain = .ok emitted → StandsAt code place emitted.code →
      ∀ block ∈ chainBlocks chain, ∃ p made, HasCodeAt file code ret block p made
  | .done, _, _, _, _, _ => List.forall_mem_nil _
  | .otherwise body, _, _, _, hcode, hat => by
    rw [chainCode] at hcode
    exact hasCode_blockBlocks body hcode hat
  | .branch condition body rest, _, place, _, hcode, hat => by
    simp only [chainCode, bind_eq_ok, pure_eq_ok] at hcode
    obtain ⟨test, -, taken, htaken, others, hothers, rfl⟩ := hcode
    simp only [code_append, code_plain] at hat
    have hbody := hat.left.left.right
    have hrest := hat.right
    simp only [List.length_append, List.length_singleton, ← Nat.add_assoc] at hbody hrest
    exact List.forall_mem_append.mpr
      ⟨hasCode_blockBlocks body htaken hbody, hasCode_chainBlocks rest hothers hrest⟩

end

theorem hasCode_bodyBlocks {stmts : List Stmt} {slots : Slots} {place : Nat} {emitted : Emitted}
    (hcode : bodyCode file ret slots place stmts = .ok emitted)
    (hat : StandsAt code place emitted.code) :
    ∀ block ∈ stmtsBlocks stmts, ∃ p made, HasCodeAt file code ret block p made := by
  induction stmts generalizing slots place emitted with
  | nil => exact List.forall_mem_nil _
  | cons stmt rest ih =>
    rcases isLast_cases stmt rest with hlast | ⟨value, span, rfl, rfl⟩
    · rw [bodyCode_cons hlast] at hcode
      simp only [bind_eq_ok, pure_eq_ok] at hcode
      obtain ⟨first, hfirst, others, hothers, rfl⟩ := hcode
      simp only [code_append] at hat
      exact List.forall_mem_append.mpr
        ⟨hasCode_stmtBlocks stmt hfirst hat.left, ih hothers hat.right⟩
    · exact List.forall_mem_nil _

/-- Every block of a method has code in the code of the method. -/
theorem hasCode_of_methodCode {m : Method} {code : MethodCode}
    (hcode : methodCode file m = .ok code) :
    ∀ block ∈ blockBlocks m.body,
      ∃ place made, HasCodeAt file code.code code.ret block place made := by
  obtain ⟨params, ret, body, last, -, -, hbody, -, rfl⟩ := methodCode_eq_ok hcode
  have hat := standsAt_toArray body.code last
  cases hm : m.body with
  | mk stmts span =>
    rw [hm] at hbody
    exact List.forall_mem_cons.mpr
      ⟨⟨_, _, hat, _, _, rfl, .inr hbody⟩, hasCode_bodyBlocks hbody hat⟩

/-- Control never leaves the code of a block that always exits, once it is at its start. -/
theorem exits_lasts (hsize : code.size < UInt32.size) {block : Block} {place : Nat}
    {made : List Instr} (h : HasCodeAt file code ret block place made) (hexits : block.exits = true)
    (steps : Nat) : Lasts code place (place + made.length) steps place := by
  obtain ⟨hat, slots, emitted, rfl, hblock | hbody⟩ := h
  · refine blockCode_leads hsize block hblock ⟨hat, Nat.le_refl _, Nat.le_refl _⟩ steps ?_
    rw [hexits]
    exact fun hfalls => nomatch hfalls
  · refine bodyCode_leads hsize hbody ⟨hat, Nat.le_refl _, Nat.le_refl _⟩ steps ?_
    cases block with
    | mk stmts span =>
      rintro ⟨hfalls, -⟩
      rw [Block.exits] at hexits
      rw [Block.stmts, hexits] at hfalls
      cases hfalls

end

end StackScript.Code

import StackScript.Proofs.ControlFlow

/-!
# Frames stay in their code

The code of a method names only slots that its frames have (`methodCode_slots`), and control never
leaves it (`methodCode_lasts`). So a frame at work on the code of any method, whatever types are
written into the method, whatever its arguments and whatever its calls bring back, never jumps out
of the code, names no slot that is not there, and does not come to the end of the code
(`control_stays_in_code`).
-/

namespace StackScript.Code

open StackScript.Source StackScript.Syntax StackScript.Typing

/-! ## Slots -/

/-- The slot that an instruction names. -/
def Instr.slot? : Instr → Option UInt16
  | load slot | store slot => some slot
  | _ => none

/-- All slots that the code names are below the bound. -/
def SlotsBelow (bound : Nat) (code : List Instr) : Prop :=
  ∀ instr ∈ code, ∀ slot, instr.slot? = some slot → slot.toNat < bound

/-- A name has one of the slots that there are. -/
theorem toNat_of_slotOf? {slots : Slots} {name : String} {slot : UInt16}
    (h : slotOf? slots name = some slot) : slot.toNat < slots.length := by
  obtain ⟨i, hi, rfl⟩ := Option.map_eq_some_iff.mp h
  refine Nat.lt_of_le_of_lt (Nat.mod_le i _) ?_
  exact (List.idxOf?_eq_some_iff.mp hi).choose

namespace SlotsBelow

variable {bound more : Nat} {xs ys : List Instr} {instr : Instr}

theorem append (hx : SlotsBelow bound xs) (hy : SlotsBelow bound ys) :
    SlotsBelow bound (xs ++ ys) := List.forall_mem_append.mpr ⟨hx, hy⟩

theorem nil (bound : Nat) : SlotsBelow bound [] := List.forall_mem_nil _

theorem cons (h : instr.slot? = none) (hx : SlotsBelow bound xs) :
    SlotsBelow bound (instr :: xs) := by
  refine List.forall_mem_cons.mpr ⟨?_, hx⟩
  intro slot hslot
  rw [h] at hslot
  cases hslot

theorem single (bound : Nat) (h : instr.slot? = none) : SlotsBelow bound [instr] :=
  cons h (nil bound)

/-- More slots hold all of them, too. -/
theorem mono (h : SlotsBelow bound xs) (hle : bound ≤ more) : SlotsBelow more xs :=
  fun instr hinstr slot hslot => Nat.lt_of_lt_of_le (h instr hinstr slot hslot) hle

/-- An instruction that names the slot of a name. -/
theorem named {slots : Slots} {name : String} {slot : UInt16} (h : slotOf? slots name = some slot)
    (hinstr : instr.slot? = some slot) : SlotsBelow slots.length [instr] := by
  intro other hother found hfound
  rw [List.mem_singleton.mp hother, hinstr] at hfound
  cases hfound
  exact toNat_of_slotOf? h

end SlotsBelow

section

variable {bound : Nat} {file : String}

theorem slot?_of_binaryInstr? {op : BinaryOp} {type : Ty} {instr : Instr}
    (h : binaryInstr? op type = some instr) : instr.slot? = none := by
  cases op <;> simp only [binaryInstr?, Option.some.injEq, reduceCtorEq] at h <;> subst h
  case add => split <;> rfl
  all_goals rfl

/-- An operator uses no slots besides those of its operands. -/
theorem binaryCode_slots {left right : List Instr} (hleft : SlotsBelow bound left)
    (hright : SlotsBelow bound right) (op : BinaryOp) (type : Ty) (place : Nat) :
    SlotsBelow bound (binaryCode op type place left right) := by
  by_cases hand : op = .and
  · subst hand
    exact ((hleft.append (.single bound rfl)).append hright).append (.cons rfl (.single bound rfl))
  · by_cases hor : op = .or
    · subst hor
      exact (hleft.append (.cons rfl (.cons rfl (.single bound rfl)))).append hright
    · obtain ⟨instr, hinstr, -, hcode⟩ := Machine.binaryCode_strict hand hor type
      rw [hcode]
      exact (hleft.append hright).append (.single bound (slot?_of_binaryInstr? hinstr))

mutual

/-- The code of an expression uses slots of names that are known before it. -/
theorem exprCode_slots : ∀ (e : Expr) {slots : Slots} {place : Nat} {made : List Instr},
    exprCode file slots place e = .ok made → SlotsBelow slots.length made
  | .int .., _, _, _, hcode => by
    simp only [exprCode, bind_eq_ok, pure_eq_ok] at hcode
    obtain ⟨_, -, rfl⟩ := hcode
    exact .single _ rfl
  | .bool .., _, _, _, hcode => by
    simp only [exprCode, bind_eq_ok, pure_eq_ok] at hcode
    obtain ⟨_, -, rfl⟩ := hcode
    exact .single _ rfl
  | .string .., _, _, _, hcode => by
    simp only [exprCode, bind_eq_ok, pure_eq_ok] at hcode
    obtain ⟨_, -, rfl⟩ := hcode
    exact .single _ rfl
  | .var name _, _, _, _, hcode => by
    simp only [exprCode, bind_eq_ok, loadCode] at hcode
    obtain ⟨_, -, hload⟩ := hcode
    split at hload
    · rename_i slot hslot
      cases hload
      exact .named hslot rfl
    · cases hload
  | .call receiver method args target note, _, _, _, hcode => by
    simp only [exprCode, bind_eq_ok, pure_eq_ok] at hcode
    obtain ⟨_, -, _, -, first, hfirst, rfl⟩ := hcode
    exact (argsCode_slots args hfirst).append (.single _ rfl)
  | .index array position note, _, _, _, hcode => by
    simp only [exprCode, bind_eq_ok, pure_eq_ok] at hcode
    obtain ⟨_, -, first, hfirst, second, hsecond, rfl⟩ := hcode
    exact ((exprCode_slots array hfirst).append (exprCode_slots position hsecond)).append
      (.single _ rfl)
  | .length value note, _, _, _, hcode => by
    simp only [exprCode, bind_eq_ok, pure_eq_ok] at hcode
    obtain ⟨_, -, first, hfirst, rfl⟩ := hcode
    exact (exprCode_slots value hfirst).append (.single _ rfl)
  | .unary op operand note, _, _, _, hcode => by
    simp only [exprCode, bind_eq_ok, pure_eq_ok] at hcode
    obtain ⟨_, -, first, hfirst, rfl⟩ := hcode
    exact (exprCode_slots operand hfirst).append (.single _ (by cases op <;> rfl))
  | .binary op left right note, _, _, _, hcode => by
    simp only [exprCode, bind_eq_ok, pure_eq_ok] at hcode
    obtain ⟨_, -, first, hfirst, second, hsecond, rfl⟩ := hcode
    exact binaryCode_slots (exprCode_slots left hfirst) (exprCode_slots right hsecond) op _ _

theorem argsCode_slots : ∀ (es : List Expr) {slots : Slots} {place : Nat} {made : List Instr},
    argsCode file slots place es = .ok made → SlotsBelow slots.length made
  | [], _, _, _, hcode => by
    cases hcode
    exact .nil _
  | e :: es, _, _, _, hcode => by
    simp only [argsCode, bind_eq_ok, pure_eq_ok] at hcode
    obtain ⟨first, hfirst, rest, hrest, rfl⟩ := hcode
    exact (exprCode_slots e hfirst).append (argsCode_slots es hrest)

end

/-- Slots are only ever added by what comes next. -/
theorem length_le_addSlots (slots : Slots) (names : List String) :
    slots.length ≤ (addSlots slots names).length := prefix_addSlots.length_le

mutual

/-- The code of a statement uses slots of names that are known after it. -/
theorem stmtCode_slots : ∀ (stmt : Stmt) {slots : Slots} {place : Nat} {emitted : Emitted},
    stmtCode file slots place stmt = .ok emitted → SlotsBelow emitted.slots.length emitted.code
  | .expr value span, _, _, _, hcode => by
    simp only [stmtCode, bind_eq_ok, pure_eq_ok] at hcode
    obtain ⟨type, -, made, hvalue, rfl⟩ := hcode
    refine (exprCode_slots value hvalue).append ?_
    split
    · exact .nil _
    · exact .single _ rfl
  | .assign target value span, slots, _, _, hcode => by
    simp only [stmtCode, bind_eq_ok, pure_eq_ok] at hcode
    obtain ⟨made, hvalue, rfl⟩ := hcode
    refine ((exprCode_slots value hvalue).mono prefix_addSlot.length_le).append ?_
    cases hslot : slotOf? (addSlot slots target.name) target.name with
    | none => exact .nil _
    | some slot => exact .named hslot rfl
  | .cond chain span, _, _, _, hcode => by
    simp only [stmtCode, bind_eq_ok, pure_eq_ok] at hcode
    obtain ⟨emitted, hchain, rfl⟩ := hcode
    rw [code_markLine, slots_markLine]
    exact chainCode_slots chain hchain
  | .loop condition body span, slots, _, _, hcode => by
    simp only [stmtCode, bind_eq_ok, pure_eq_ok] at hcode
    obtain ⟨test, htest, inner, hinner, rfl⟩ := hcode
    have hle := length_le_addSlots slots (blockNames body)
    rw [← slots_blockCode body hinner] at hle
    exact ((((exprCode_slots condition htest).mono hle).append (.single _ rfl)).append
      (blockCode_slots body hinner)).append (.single _ rfl)
  | .ret (some value) span, _, _, _, hcode => by
    simp only [stmtCode, bind_eq_ok, pure_eq_ok] at hcode
    obtain ⟨made, hvalue, rfl⟩ := hcode
    exact (exprCode_slots value hvalue).append (.single _ rfl)
  | .ret none span, _, _, _, hcode => by
    cases hcode
    exact .single _ rfl
  | .puts value span, _, _, _, hcode => by
    simp only [stmtCode, bind_eq_ok, pure_eq_ok] at hcode
    obtain ⟨made, hvalue, rfl⟩ := hcode
    exact (exprCode_slots value hvalue).append (.single _ rfl)
  | .raise value span, _, _, _, hcode => by
    simp only [stmtCode, bind_eq_ok, pure_eq_ok] at hcode
    obtain ⟨made, hvalue, rfl⟩ := hcode
    exact (exprCode_slots value hvalue).append (.single _ rfl)

theorem blockCode_slots : ∀ (block : Block) {slots : Slots} {place : Nat} {emitted : Emitted},
    blockCode file slots place block = .ok emitted → SlotsBelow emitted.slots.length emitted.code
  | .mk stmts span, _, _, _, hcode => by
    rw [blockCode] at hcode
    exact stmtsCode_slots stmts hcode

theorem stmtsCode_slots : ∀ (stmts : List Stmt) {slots : Slots} {place : Nat} {emitted : Emitted},
    stmtsCode file slots place stmts = .ok emitted → SlotsBelow emitted.slots.length emitted.code
  | [], _, _, _, hcode => by
    cases hcode
    exact .nil _
  | stmt :: stmts, _, _, _, hcode => by
    simp only [stmtsCode, bind_eq_ok, pure_eq_ok] at hcode
    obtain ⟨first, hfirst, others, hothers, rfl⟩ := hcode
    have hle := length_le_addSlots first.slots (stmtsNames stmts)
    rw [← slots_stmtsCode stmts hothers] at hle
    exact ((stmtCode_slots stmt hfirst).mono hle).append (stmtsCode_slots stmts hothers)

theorem chainCode_slots : ∀ (chain : Chain) {slots : Slots} {place : Nat} {emitted : Emitted},
    chainCode file slots place chain = .ok emitted → SlotsBelow emitted.slots.length emitted.code
  | .done, _, _, _, hcode => by
    cases hcode
    exact .nil _
  | .otherwise body, _, _, _, hcode => by
    rw [chainCode] at hcode
    exact blockCode_slots body hcode
  | .branch condition body rest, slots, _, _, hcode => by
    simp only [chainCode, bind_eq_ok, pure_eq_ok] at hcode
    obtain ⟨test, htest, taken, htaken, others, hothers, rfl⟩ := hcode
    have hbody := length_le_addSlots slots (blockNames body)
    rw [← slots_blockCode body htaken] at hbody
    have hrest := length_le_addSlots taken.slots (chainNames rest)
    rw [← slots_chainCode rest hothers] at hrest
    exact (((((exprCode_slots condition htest).mono (Nat.le_trans hbody hrest)).append
      (.single _ rfl)).append ((blockCode_slots body htaken).mono hrest)).append
      (.single _ rfl)).append (chainCode_slots rest hothers)

end

/-- So does the code of a body. -/
theorem bodyCode_slots {ret : Ty} {stmts : List Stmt} {slots : Slots} {place : Nat}
    {emitted : Emitted} (hcode : bodyCode file ret slots place stmts = .ok emitted) :
    SlotsBelow emitted.slots.length emitted.code := by
  induction stmts generalizing slots place emitted with
  | nil =>
    cases hcode
    exact .nil _
  | cons stmt rest ih =>
    rcases isLast_cases stmt rest with hlast | ⟨value, span, rfl, rfl⟩
    · rw [bodyCode_cons hlast] at hcode
      simp only [bind_eq_ok, pure_eq_ok] at hcode
      obtain ⟨first, hfirst, others, hothers, rfl⟩ := hcode
      have hle := length_le_addSlots first.slots (stmtsNames rest)
      rw [← slots_bodyCode rest hothers] at hle
      exact ((stmtCode_slots stmt hfirst).mono hle).append (ih hothers)
    · rw [bodyCode] at hcode
      split at hcode
      · exact stmtCode_slots _ hcode
      · simp only [bind_eq_ok, pure_eq_ok] at hcode
        obtain ⟨made, hvalue, rfl⟩ := hcode
        exact (exprCode_slots value hvalue).append (.single _ rfl)

/-- The code of a method names only slots that its frames have. -/
theorem methodCode_slots {m : Method} {code : MethodCode} (hcode : methodCode file m = .ok code)
    (hlocals : (methodNames m).length < UInt16.size) :
    SlotsBelow code.locals.toNat code.code.toList := by
  obtain ⟨params, ret, body, last, -, -, hbody, hlast, rfl⟩ := methodCode_eq_ok hcode
  have hslots := slots_methodBody hbody
  have hcount : (UInt16.ofNat body.slots.length).toNat = body.slots.length := by
    rw [hslots]
    exact UInt16.toNat_ofNat_of_lt' hlocals
  rw [hcount]
  refine (bodyCode_slots hbody).append ?_
  rw [endCode_eq_ok hlast]
  split
  · exact .single _ rfl
  · exact .nil _

end

end StackScript.Code

namespace StackScript.Machine

open StackScript.Code StackScript.Syntax

/-! ## Frames -/

/-- The fault says that the code was left: by a jump, by a slot that is not there, or at the end. -/
def RuntimeFault.leavesCode : RuntimeFault → Bool
  | invalidCode _ _ (.badSlot _) | invalidCode _ _ (.badJump _) | invalidCode _ _ .noReturn => true
  | _ => false

/-- What comes out is as stated, and the code was not left. -/
abbrev Stays {α : Type} (result : α → Prop) (x : Except RuntimeFault α) : Prop :=
  Ends RuntimeFault.leavesCode result x

/-- The frame is at the same place of the same code, with as many slots. -/
structure Frame.Holds (frame after : Frame) : Prop where
  method : after.method = frame.method
  place : after.place = frame.place
  slots : after.locals.size = frame.locals.size

namespace Frame.Holds

variable {a b c : Frame}

theorem trans (hab : a.Holds b) (hbc : b.Holds c) : a.Holds c :=
  ⟨hbc.method.trans hab.method, hbc.place.trans hab.place, hbc.slots.trans hab.slots⟩

theorem push (h : a.Holds b) (value : Value) : a.Holds (b.push value) :=
  h.trans ⟨rfl, rfl, rfl⟩

end Frame.Holds

section

variable (frame : Frame)

/-- Taking a value leaves a frame where it is. -/
theorem pop_holds : Stays (fun r => frame.Holds r.2) frame.pop := by
  unfold Frame.pop
  split
  · exact .value ⟨rfl, rfl, rfl⟩
  · exact .fault rfl

theorem asInt_in_code (value : Value) : Stays (fun _ => True) value.asInt := by
  cases value with
  | int n => exact .value trivial
  | _ => exact .fault rfl

theorem asBool_in_code (value : Value) : Stays (fun _ => True) value.asBool := by
  cases value with
  | bool b => exact .value trivial
  | _ => exact .fault rfl

theorem popInt_holds : Stays (fun r => frame.Holds r.2) frame.popInt :=
  (pop_holds frame).bind fun r hr => (asInt_in_code r.1).bind fun _ _ => .value hr

theorem popBool_holds : Stays (fun r => frame.Holds r.2) frame.popBool :=
  (pop_holds frame).bind fun r hr => (asBool_in_code r.1).bind fun _ _ => .value hr

theorem withInt_holds {f : Int64 → Except RuntimeFault Value}
    (hf : ∀ n, Stays (fun _ => True) (f n)) : Stays frame.Holds (frame.withInt f) :=
  (popInt_holds frame).bind fun r hr => (hf r.1).bind fun value _ => .value (hr.push value)

theorem withInts_holds {f : Int64 → Int64 → Except RuntimeFault Value}
    (hf : ∀ a b, Stays (fun _ => True) (f a b)) : Stays frame.Holds (frame.withInts f) :=
  (popInt_holds frame).bind fun r hr => (popInt_holds r.2).bind fun l hl =>
    (hf l.1 r.1).bind fun value _ => .value ((hr.trans hl).push value)

theorem withValues_holds (f : Value → Value → Value) : Stays frame.Holds (frame.withValues f) :=
  (pop_holds frame).bind fun _ hr => (pop_holds _).bind fun _ hl => .value ((hr.trans hl).push _)

/-- A slot that there is can be read. -/
theorem load_holds {slot : UInt16} (hslot : slot.toNat < frame.locals.size) :
    Stays frame.Holds (frame.load slot) := by
  unfold Frame.load
  split
  · rename_i value _
    exact .value (Frame.Holds.push ⟨rfl, rfl, rfl⟩ value)
  · rename_i hnone
    exact absurd hslot (Nat.not_lt.mpr (Array.getElem?_eq_none_iff.mp hnone))

/-- A slot that there is can be written. -/
theorem store_holds {slot : UInt16} (hslot : slot.toNat < frame.locals.size) :
    Stays frame.Holds (frame.store slot) := by
  refine (pop_holds frame).bind fun r hr => ?_
  dsimp only
  rw [if_pos (hr.slots ▸ hslot)]
  exact .value ⟨hr.method, hr.place, Array.size_setIfInBounds.trans hr.slots⟩

theorem index_holds : Stays frame.Holds frame.index := by
  refine (popInt_holds frame).bind fun r hr => (pop_holds r.2).bind fun t ht => ?_
  dsimp only
  split
  · unfold Frame.elementAt
    split
    · exact .value ((hr.trans ht).push _)
    · exact .fault rfl
  · exact .fault rfl

theorem length_holds : Stays frame.Holds frame.length := by
  refine (pop_holds frame).bind fun t ht => ?_
  dsimp only
  split
  · exact .value (ht.push _)
  · exact .value (ht.push _)
  · exact .fault rfl

theorem quotient_in_code (a b : Int64) : Stays (fun _ => True) (quotient a b) := by
  unfold quotient
  split
  · exact .fault rfl
  · exact .value trivial

theorem remainder_in_code (a b : Int64) : Stays (fun _ => True) (remainder a b) := by
  unfold remainder
  split
  · exact .fault rfl
  · exact .value trivial

/-- The frame goes on, and holds its place. -/
def Effect.Holds (frame : Frame) : Effect → Prop
  | .go after | .print _ after => frame.Holds after
  | .call _ _ _ _ | .done _ => False

/-- An instruction that goes on with the next one holds the place that the frame was given. -/
theorem execute_holds (pool : Pool) {instr : Instr} (hplain : instr.isPlain = true)
    (hslot : ∀ slot, instr.slot? = some slot → slot.toNat < frame.locals.size) :
    Stays (Effect.Holds frame) (frame.execute pool instr) := by
  cases instr with
  | jump | jumpIfFalse | call | raise | ret | retVoid => cases hplain
  | pushInt | pushBool | pushStr => exact .value ⟨rfl, rfl, rfl⟩
  | load slot => exact (load_holds frame (hslot slot rfl)).map fun _ h => h
  | store slot => exact (store_holds frame (hslot slot rfl)).map fun _ h => h
  | pop => exact (pop_holds frame).bind fun _ h => .value h
  | neg => exact (withInt_holds frame fun _ => .value trivial).map fun _ h => h
  | not => exact (popBool_holds frame).bind fun _ h => .value (h.push _)
  | add | sub | mul | lt | le | gt | ge =>
    exact (withInts_holds frame fun _ _ => .value trivial).map fun _ h => h
  | div => exact (withInts_holds frame quotient_in_code).map fun _ h => h
  | mod => exact (withInts_holds frame remainder_in_code).map fun _ h => h
  | concat | eq | ne => exact (withValues_holds frame _).map fun _ h => h
  | index => exact (index_holds frame).map fun _ h => h
  | length => exact (length_holds frame).map fun _ h => h
  | puts => exact (pop_holds frame).bind fun _ h => .value h

/-- The frame is at one of the places of the same code, with as many slots. -/
structure Frame.GoesTo (frame : Frame) (places : List Nat) (after : Frame) : Prop where
  method : after.method = frame.method
  place : after.place ∈ places
  slots : after.locals.size = frame.locals.size

/-- A frame that goes on, or that waits for a call, is at one of the places. -/
def Effect.GoesTo (frame : Frame) (places : List Nat) : Effect → Prop
  | .go after | .print _ after | .call _ _ _ after => frame.GoesTo places after
  | .done _ => True

/-- A jump to a place in the code goes there. -/
theorem goTo_in_code {place : UInt32} (hplace : place.toNat ≤ frame.method.code.size) :
    Stays (frame.GoesTo [place.toNat]) (frame.goTo place) := by
  unfold Frame.goTo
  rw [if_pos hplace]
  exact .value ⟨rfl, List.mem_singleton_self _, rfl⟩

/-- A call goes on at the place that the frame was given. -/
theorem call_in_code (pool : Pool) (cls method : String) (argc : UInt16) :
    Stays (Effect.GoesTo frame [frame.place]) (frame.call pool cls method argc) := by
  unfold Frame.call
  dsimp only
  split
  · split
    · exact .value ⟨rfl, List.mem_singleton_self _, rfl⟩
    · exact .fault rfl
  · exact .fault rfl

variable {frame}

/-- An instruction whose slot is there and whose places are in the code, or just behind it, leads
to one of its places. -/
theorem execute_in_code (pool : Pool) {instr : Instr}
    (hslot : ∀ slot, instr.slot? = some slot → slot.toNat < frame.locals.size)
    (hplaces : ∀ next ∈ instr.nexts frame.place, next ≤ frame.method.code.size) :
    Stays (Effect.GoesTo frame (instr.nexts frame.place)) (frame.moveOn.execute pool instr) := by
  by_cases hplain : instr.isPlain = true
  · have hholds := execute_holds frame.moveOn pool hplain hslot
    have hgoes : ∀ after, frame.moveOn.Holds after →
        frame.GoesTo (instr.nexts frame.place) after := by
      intro after hafter
      refine ⟨hafter.method, ?_, hafter.slots⟩
      rw [Instr.nexts_of_isPlain hplain, hafter.place]
      exact List.mem_singleton_self _
    refine ⟨?_, hholds.error⟩
    intro effect heffect
    have heffectHolds := hholds.ok effect heffect
    cases effect with
    | go after => exact hgoes after heffectHolds
    | print line after => exact hgoes after heffectHolds
    | call => cases heffectHolds
    | done => trivial
  · cases instr with
    | jump target =>
      have htarget := hplaces target.toNat (by simp)
      exact (goTo_in_code frame.moveOn htarget).map fun _ h => ⟨h.method, h.place, h.slots⟩
    | jumpIfFalse target =>
      have htarget := hplaces target.toNat (by simp)
      refine (popBool_holds frame.moveOn).bind fun r hr => ?_
      dsimp only
      split
      · exact .value ⟨hr.method, by rw [hr.place]; exact List.mem_cons_self, hr.slots⟩
      · rw [← hr.method] at htarget
        refine (goTo_in_code r.2 htarget).map fun after h => ?_
        exact ⟨h.method.trans hr.method, List.mem_cons_of_mem _ h.place, h.slots.trans hr.slots⟩
    | call cls method argc =>
      refine ⟨?_, (call_in_code frame.moveOn pool cls method argc).error⟩
      intro effect heffect
      have hgoes := (call_in_code frame.moveOn pool cls method argc).ok effect heffect
      cases effect with
      | done => trivial
      | _ => exact ⟨hgoes.method, hgoes.place, hgoes.slots⟩
    | raise => exact (pop_holds frame.moveOn).bind fun _ _ => .fault rfl
    | ret => exact (pop_holds frame.moveOn).bind fun _ _ => .value trivial
    | retVoid => exact .value trivial
    | _ => exact absurd rfl hplain

end

/-! ## Runs of a frame -/

/-- One frame is what another one is after an instruction, or after a call and whatever it brought
back. -/
inductive Frame.Continues (frame : Frame) : Frame → Prop
  | go {pool : Pool} {after : Frame} (h : frame.step pool = .ok (.go after)) : Continues frame after
  | print {pool : Pool} {line : String} {after : Frame}
    (h : frame.step pool = .ok (.print line after)) : Continues frame after
  | back {pool : Pool} {target : LoadedUnit} {method : String} {args : List Value} {after : Frame}
    (h : frame.step pool = .ok (.call target method args after)) (result : Value) :
    Continues frame (after.receive result)

/-- The frame is at a place from which control lasts within the bounds, and has all slots that its
code names. -/
structure Frame.Lasting (low high : Nat) (frame : Frame) : Prop where
  lasts : ∀ steps, Lasts frame.method.code low high steps frame.place
  slots : SlotsBelow frame.locals.size frame.method.code.toList

variable {low high : Nat} {frame : Frame}

theorem Frame.Lasting.place (h : frame.Lasting low high) : low ≤ frame.place ∧ frame.place < high :=
  ⟨(h.lasts 1).1, (h.lasts 1).2.1⟩

/-- A step of a frame that lasts within the code does not leave the code. -/
theorem Frame.Lasting.step (h : frame.Lasting low high) (hhigh : high ≤ frame.method.code.size)
    (pool : Pool) : ∃ instr, frame.method.code[frame.place]? = some instr ∧
      Stays (Effect.GoesTo frame (instr.nexts frame.place)) (frame.step pool) := by
  have hplace : frame.place < frame.method.code.size := Nat.lt_of_lt_of_le h.place.2 hhigh
  have hinstr := Array.getElem?_eq_getElem hplace
  refine ⟨_, hinstr, ?_⟩
  unfold Frame.step
  rw [hinstr]
  apply execute_in_code pool
  · exact h.slots _ (Array.getElem_mem_toList hplace)
  · -- a place where control lasts for one step is in the code
    intro next hmem
    have hnext := (h.lasts 2).2.2 _ hinstr next hmem
    exact Nat.le_of_lt (Nat.lt_of_lt_of_le hnext.2.1 hhigh)

/-- A frame that goes to one of the places that follow stays in the code. -/
theorem Frame.GoesTo.lasting {after : Frame} {instr : Instr} (h : frame.Lasting low high)
    (hinstr : frame.method.code[frame.place]? = some instr)
    (hgoes : frame.GoesTo (instr.nexts frame.place) after) : after.Lasting low high where
  lasts steps := by
    rw [hgoes.method]
    exact (h.lasts (steps + 1)).2.2 instr hinstr _ hgoes.place
  slots := by
    rw [hgoes.method, hgoes.slots]
    exact h.slots

/-- What a call brings back leaves a frame where it is. -/
theorem receive_holds (frame : Frame) (result : Value) : frame.Holds (frame.receive result) := by
  unfold Frame.receive
  split
  · exact ⟨rfl, rfl, rfl⟩
  · exact ⟨rfl, rfl, rfl⟩

/-- What a frame does keeps it within the bounds. -/
theorem Frame.Continues.lasting {after : Frame} (hstep : frame.Continues after)
    (h : frame.Lasting low high) (hhigh : high ≤ frame.method.code.size) :
    after.Lasting low high ∧ after.method = frame.method := by
  cases hstep with
  | @go pool _ hgo =>
    obtain ⟨instr, hinstr, hstays⟩ := h.step hhigh pool
    have hgoes := hstays.ok _ hgo
    exact ⟨hgoes.lasting h hinstr, hgoes.method⟩
  | @print pool _ _ hprint =>
    obtain ⟨instr, hinstr, hstays⟩ := h.step hhigh pool
    have hgoes := hstays.ok _ hprint
    exact ⟨hgoes.lasting h hinstr, hgoes.method⟩
  | @back pool target method args made hcall result =>
    obtain ⟨instr, hinstr, hstays⟩ := h.step hhigh pool
    have hholds := receive_holds made result
    have hgoes : frame.GoesTo (instr.nexts frame.place) (made.receive result) := by
      have hcalls := hstays.ok _ hcall
      exact ⟨hholds.method.trans hcalls.method, hholds.place ▸ hcalls.place,
        hholds.slots.trans hcalls.slots⟩
    exact ⟨hgoes.lasting h hinstr, hgoes.method⟩

/-- A frame stays within the bounds for as long as it is at work. -/
theorem Frame.Lasting.run (h : frame.Lasting low high) (hhigh : high ≤ frame.method.code.size)
    {later : Frame} (hreach : Relation.ReflTransGen Frame.Continues frame later) :
    later.Lasting low high ∧ later.method = frame.method := by
  induction hreach with
  | refl => exact ⟨h, rfl⟩
  | tail _ hstep ih =>
    obtain ⟨hlasting, hmethod⟩ := ih
    obtain ⟨hnext, hsame⟩ := hstep.lasting hlasting (hmethod ▸ hhigh)
    exact ⟨hnext, hsame.trans hmethod⟩

/-! ## Methods -/

/-- A frame has the slots that its code names, whatever its arguments. -/
theorem le_size_startLocals (method : MethodCode) (args : List Value) :
    method.locals.toNat ≤ (startLocals method args).size := by
  rw [startLocals, List.size_toArray, List.length_append, List.length_replicate]
  omega

/-- A frame at work on the code of a method, made from whatever tree, started with whatever
arguments and whatever its calls bring back, is always at an instruction of the code; it makes no
jump out of the code, names no slot that is not there, and does not come to the end of the code
without a value. And every block of the method has code of its own there; if the block always exits,
a frame that has come to the start of that code never goes on behind it. -/
theorem control_stays_in_code {file : String} {m : Method} {code : MethodCode}
    (hcode : methodCode file m = .ok code) (hlocals : (methodNames m).length < UInt16.size)
    (hsize : code.code.size < UInt32.size) :
    (∀ (unit : LoadedUnit) (args : List Value) (frame : Frame),
      Relation.ReflTransGen Frame.Continues ⟨unit, code, startLocals code args, [], 0⟩ frame →
        frame.place < code.code.size ∧
          ∀ pool fault, frame.step pool = .error fault → fault.leavesCode = false) ∧
    ∀ block ∈ blockBlocks m.body, ∃ place made,
      HasCodeAt file code.code code.ret block place made ∧ (block.exits = true →
        ∀ frame later : Frame, frame.method = code → code.locals.toNat ≤ frame.locals.size →
          frame.place = place → Relation.ReflTransGen Frame.Continues frame later →
            place ≤ later.place ∧ later.place < place + made.length) := by
  have hslots := methodCode_slots hcode hlocals
  constructor
  · intro unit args frame hreach
    have hstart : Frame.Lasting 0 code.code.size ⟨unit, code, startLocals code args, [], 0⟩ :=
      ⟨methodCode_lasts hcode hsize, hslots.mono (le_size_startLocals code args)⟩
    obtain ⟨hlasting, hmethod⟩ := hstart.run (Nat.le_refl _) hreach
    refine ⟨hlasting.place.2, ?_⟩
    intro pool
    have hhigh : code.code.size ≤ frame.method.code.size := by rw [hmethod]
    obtain ⟨instr, -, hstays⟩ := hlasting.step hhigh pool
    exact hstays.error
  · intro block hblock
    obtain ⟨place, made, hmade⟩ := hasCode_of_methodCode hcode block hblock
    refine ⟨place, made, hmade, ?_⟩
    rintro hexits frame later rfl hframe rfl hreach
    have hstart : Frame.Lasting frame.place (frame.place + made.length) frame :=
      ⟨exits_lasts hsize hmade hexits, hslots.mono hframe⟩
    -- a block that exits is not empty, so its code ends within that of the method
    have hnonempty : made ≠ [] := by
      rintro rfl
      exact Nat.lt_irrefl _ hstart.place.2
    exact (hstart.run (hmade.1.end_le hnonempty) hreach).1.place

/-- A method `sign(n: int)` of one statement, `if n < 0` with a block that returns `-1` and one that
returns `1`. Behind the first block there is a jump to the end of the code. -/
def signMethod : Method where
  name := ⟨"sign", default⟩
  isStatic := false
  params := [⟨⟨"n", default⟩, ⟨"int", 0, default⟩, default⟩]
  ret := none
  body := .mk
    [.cond
      (.branch
        (.binary .lt (.var ⟨"n", default⟩ ⟨default, some .int⟩) (.int 0 ⟨default, some .int⟩)
          ⟨default, some .boolean⟩)
        (.mk [.ret (some (.int (-1) ⟨default, some .int⟩)) default] default)
        (.otherwise (.mk [.ret (some (.int 1 ⟨default, some .int⟩)) default] default)))
      default]
    default
  span := default
  retType := some .int

theorem control_stays_in_signMethod : ∃ code, methodCode "Sign" signMethod = .ok code ∧
    code.code.toList = [.load 0, .pushInt 0, .lt, .jumpIfFalse 7, .pushInt (-1), .ret, .jump 9,
      .pushInt 1, .ret] ∧
    (∀ (unit : LoadedUnit) (args : List Value) (frame : Frame),
      Relation.ReflTransGen Frame.Continues ⟨unit, code, startLocals code args, [], 0⟩ frame →
        frame.place < 9) ∧
    signMethod.body.exits = true ∧ ∃ place made,
      HasCodeAt "Sign" code.code .int signMethod.body place made ∧
        ∀ frame later : Frame, frame.method = code → 1 ≤ frame.locals.size → frame.place = place →
          Relation.ReflTransGen Frame.Continues frame later →
            place ≤ later.place ∧ later.place < place + made.length := by
  have hcode : methodCode "Sign" signMethod = .ok ⟨"sign", [.int], .int, 1,
      #[.load 0, .pushInt 0, .lt, .jumpIfFalse 7, .pushInt (-1), .ret, .jump 9, .pushInt 1, .ret],
      [⟨0, 0⟩, ⟨4, 0⟩, ⟨7, 0⟩]⟩ := by rfl
  obtain ⟨hframes, hblocks⟩ := control_stays_in_code hcode (by decide) (by decide)
  obtain ⟨place, made, hmade, hstays⟩ := hblocks signMethod.body List.mem_cons_self
  exact ⟨_, hcode, rfl, fun unit args frame hreach => (hframes unit args frame hreach).1, rfl,
    place, made, hmade, hstays rfl⟩

end StackScript.Machine

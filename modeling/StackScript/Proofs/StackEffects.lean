import StackScript.Proofs.Calling
import StackScript.Proofs.StackDepths
import Mathlib.Logic.Relation

/-!
# Machines on a chart

What a chart says of a code is what happens to the machine that runs it. An instruction takes and
leaves as many values as its table says (`execute_moves`); so a frame whose stack is as deep as the
chart says stays so with every step (`Frame.step_keeps`), whatever its calls bring back
(`Frame.Advances.keeps`), and never lacks an operand.
-/

namespace StackScript.Machine

open StackScript.Code StackScript.Syntax

/-- An instruction did not find on the stack what it takes. -/
def RuntimeFault.lacksOperand : RuntimeFault → Bool
  | invalidCode _ _ .underflow => true
  | _ => false

/-- What comes out is as stated, and nothing was missing on the stack. -/
abbrev Finds {α : Type} (result : α → Prop) (x : Except RuntimeFault α) : Prop :=
  Ends RuntimeFault.lacksOperand result x

/-! ## Operations on frames -/

/-- The frame has taken so many values from its stack and left so many on it. -/
structure Frame.Moves (frame after : Frame) (taken left : Nat) : Prop where
  inPlace : frame.InPlace after
  place : after.place = frame.place
  stack : after.stack.length + taken = frame.stack.length + left

/-- What two moves take and leave adds up. -/
theorem Frame.Moves.trans {a b c : Frame} {taken more left others : Nat}
    (hab : a.Moves b taken left) (hbc : b.Moves c more others) :
    a.Moves c (taken + more) (left + others) where
  inPlace := hab.inPlace.trans hbc.inPlace
  place := hbc.place.trans hab.place
  stack := by
    have hfirst := hab.stack
    have hsecond := hbc.stack
    omega

section

variable {frame : Frame}

theorem push_moves (frame : Frame) (value : Value) : frame.Moves (frame.push value) 0 1 :=
  ⟨push_stays frame value, rfl, rfl⟩

/-- A value is taken from a stack that has one. -/
theorem pop_moves (h : 1 ≤ frame.stack.length) :
    Finds (fun r => frame.Moves r.2 1 0) frame.pop := by
  unfold Frame.pop
  split
  · rename_i value rest hstack
    apply Ends.value
    refine ⟨⟨rfl, rfl⟩, rfl, ?_⟩
    rw [hstack, List.length_cons]
  · rename_i hstack
    rw [hstack] at h
    cases h

/-- A second value can be taken when there were two. -/
theorem Frame.Moves.second {r : Frame} (hr : frame.Moves r 1 0) (h : 2 ≤ frame.stack.length) :
    1 ≤ r.stack.length := by
  have hstack := hr.stack
  omega

theorem asInt_finds (value : Value) : Finds (fun _ => True) value.asInt := by
  cases value with
  | int n => exact .value trivial
  | _ => exact .fault rfl

theorem asBool_finds (value : Value) : Finds (fun _ => True) value.asBool := by
  cases value with
  | bool b => exact .value trivial
  | _ => exact .fault rfl

/-- One value is taken, whether it is an integer or the wrong one. -/
theorem popInt_moves (h : 1 ≤ frame.stack.length) :
    Finds (fun r => frame.Moves r.2 1 0) frame.popInt :=
  (pop_moves h).bind fun r hr => (asInt_finds r.1).bind fun _ _ => .value hr

theorem popBool_moves (h : 1 ≤ frame.stack.length) :
    Finds (fun r => frame.Moves r.2 1 0) frame.popBool :=
  (pop_moves h).bind fun r hr => (asBool_finds r.1).bind fun _ _ => .value hr

/-- An operation on an integer takes one value and leaves one. -/
theorem withInt_moves (h : 1 ≤ frame.stack.length) {f : Int64 → Except RuntimeFault Value}
    (hf : ∀ n, Finds (fun _ => True) (f n)) :
    Finds (fun after => frame.Moves after 1 1) (frame.withInt f) := by
  refine (popInt_moves h).bind fun r hr => (hf r.1).bind fun value _ => ?_
  exact .value (hr.trans (push_moves r.2 value))

/-- An operation on two integers takes two values and leaves one. -/
theorem withInts_moves (h : 2 ≤ frame.stack.length)
    {f : Int64 → Int64 → Except RuntimeFault Value} (hf : ∀ a b, Finds (fun _ => True) (f a b)) :
    Finds (fun after => frame.Moves after 2 1) (frame.withInts f) := by
  refine (popInt_moves (Nat.le_of_succ_le h)).bind fun r hr => ?_
  refine (popInt_moves (hr.second h)).bind fun l hl => (hf l.1 r.1).bind fun value _ => ?_
  exact .value ((hr.trans hl).trans (push_moves l.2 value))

theorem withValues_moves (h : 2 ≤ frame.stack.length) (f : Value → Value → Value) :
    Finds (fun after => frame.Moves after 2 1) (frame.withValues f) := by
  refine (pop_moves (Nat.le_of_succ_le h)).bind fun r hr => ?_
  refine (pop_moves (hr.second h)).bind fun l hl => ?_
  exact .value ((hr.trans hl).trans (push_moves l.2 _))

/-- A local that is read goes on top of the stack. -/
theorem load_moves (slot : UInt16) :
    Finds (fun after => frame.Moves after 0 1) (frame.load slot) := by
  unfold Frame.load
  split
  · exact .value (push_moves ..)
  · exact .fault rfl

/-- A local that is written takes the top of the stack. -/
theorem store_moves (h : 1 ≤ frame.stack.length) (slot : UInt16) :
    Finds (fun after => frame.Moves after 1 0) (frame.store slot) := by
  refine (pop_moves h).bind fun r hr => ?_
  dsimp only
  split
  · exact .value ⟨⟨hr.inPlace.unit, hr.inPlace.method⟩, hr.place, hr.stack⟩
  · exact .fault rfl

/-- A jump leaves the stack alone. -/
theorem goTo_finds (frame : Frame) (place : UInt32) :
    Finds (fun after => after = { frame with place := place.toNat }) (frame.goTo place) := by
  unfold Frame.goTo
  split
  · exact .value rfl
  · exact .fault rfl

theorem elementAt_finds (items : List Value) (position : Int64) :
    Finds (fun _ => True) (Frame.elementAt items position) := by
  unfold Frame.elementAt
  split
  · exact .value trivial
  · exact .fault rfl

/-- An element takes the place of its array and its position. -/
theorem index_moves (h : 2 ≤ frame.stack.length) :
    Finds (fun after => frame.Moves after 2 1) frame.index := by
  refine (popInt_moves (Nat.le_of_succ_le h)).bind fun r hr => ?_
  refine (pop_moves (hr.second h)).bind fun t ht => ?_
  dsimp only
  split
  · exact (elementAt_finds _ _).map fun value _ => (hr.trans ht).trans (push_moves t.2 value)
  · exact .fault rfl

/-- A length takes the place of what has it. -/
theorem length_moves (h : 1 ≤ frame.stack.length) :
    Finds (fun after => frame.Moves after 1 1) frame.length := by
  refine (pop_moves h).bind fun t ht => ?_
  dsimp only
  split
  · exact .value (ht.trans (push_moves ..))
  · exact .value (ht.trans (push_moves ..))
  · exact .fault rfl

theorem quotient_finds (a b : Int64) : Finds (fun _ => True) (quotient a b) := by
  unfold quotient
  split
  · exact .fault rfl
  · exact .value trivial

theorem remainder_finds (a b : Int64) : Finds (fun _ => True) (remainder a b) := by
  unfold remainder
  split
  · exact .fault rfl
  · exact .value trivial

/-! ## Instructions -/

/-- The frame goes on, having taken so many values and left so many. -/
def Effect.Moves (frame : Frame) (taken left : Nat) : Effect → Prop
  | .go after | .print _ after => frame.Moves after taken left
  | .call _ _ _ _ | .done _ => False

/-- An instruction that goes on with the next one takes and leaves what its table says. -/
theorem execute_moves (pool : Pool) {instr : Instr} (hplain : instr.isPlain = true)
    (h : instr.pops ≤ frame.stack.length) :
    Finds (Effect.Moves frame instr.pops (instr.pushes 0)) (frame.execute pool instr) := by
  cases instr with
  | jump | jumpIfFalse | call | raise | ret | retVoid => cases hplain
  | pushInt | pushBool | pushStr => exact .value (push_moves ..)
  | load slot => exact (load_moves slot).map fun _ hafter => hafter
  | store slot => exact (store_moves h slot).map fun _ hafter => hafter
  | pop => exact (pop_moves h).bind fun _ hr => .value hr
  | neg => exact (withInt_moves h fun _ => .value trivial).map fun _ hafter => hafter
  | not => exact (popBool_moves h).bind fun _ hr => .value (hr.trans (push_moves ..))
  | add | sub | mul | lt | le | gt | ge =>
    exact (withInts_moves h fun _ _ => .value trivial).map fun _ hafter => hafter
  | div => exact (withInts_moves h quotient_finds).map fun _ hafter => hafter
  | mod => exact (withInts_moves h remainder_finds).map fun _ hafter => hafter
  | concat | eq | ne => exact (withValues_moves h _).map fun _ hafter => hafter
  | index => exact (index_moves h).map fun _ hafter => hafter
  | length => exact (length_moves h).map fun _ hafter => hafter
  | puts => exact (pop_moves h).bind fun _ hr => .value hr

/-- A call takes its arguments from the stack. -/
theorem call_finds (pool : Pool) (cls method : String) {argc : UInt16}
    (h : argc.toNat ≤ frame.stack.length) :
    Finds (fun effect => ∃ target args after, effect = .call target method args after ∧
      args.length = argc.toNat ∧ frame.Moves after argc.toNat 0)
      (frame.call pool cls method argc) := by
  have hargs : (frame.stack.take argc.toNat).length = argc.toNat := by
    rw [List.length_take]
    omega
  unfold Frame.call
  simp only [hargs, if_true]
  split
  · apply Ends.value
    refine ⟨_, _, _, rfl, by rw [List.length_reverse, hargs], ⟨rfl, rfl⟩, rfl, ?_⟩
    rw [List.length_drop]
    omega
  · exact .fault rfl

end

/-! ## Steps -/

/-- The frame goes on as deep as the chart says of its new place, or will be so once the call for
which the chart was made has given what it gives. -/
def Effect.KeepsTo (calls : List Expr) (chart : Chart) (frame : Frame) : Effect → Prop
  | .go after | .print _ after =>
    frame.InPlace after ∧ after.stack.length = (chart after.place).depth
  | .call _ method args after =>
    frame.InPlace after ∧
      after.stack.length + (chart frame.place).given = (chart after.place).depth ∧
      ∃ e ∈ calls, (chart frame.place).call = some e ∧ ∃ cls, IsCallTo cls method args.length e
  | .done _ => True

section

variable {calls : List Expr} {chart : Chart} {frame : Frame}

/-- The frame with its place behind the instruction it is at. -/
abbrev Frame.moveOn (frame : Frame) : Frame := { frame with place := frame.place + 1 }

/-- An instruction that is on the chart finds what it takes on a stack of the depth charted, and
leaves the depth that is charted where it goes on. -/
theorem Charted.execute (pool : Pool) {instr : Instr}
    (h : Charted calls chart frame.place instr)
    (hdepth : frame.stack.length = (chart frame.place).depth) :
    Finds (Effect.KeepsTo calls chart frame) (frame.moveOn.execute pool instr) := by
  have hpops : instr.pops ≤ frame.moveOn.stack.length := hdepth ▸ h.operands
  by_cases hplain : instr.isPlain = true
  · -- the next place is the only one
    have hnext := h.nexts (frame.place + 1) (by simp [Instr.nexts_of_isPlain hplain])
    rw [Instr.pushes_of_isPlain hplain] at hnext
    have hkeeps : ∀ after, frame.moveOn.Moves after instr.pops (instr.pushes 0) →
        frame.InPlace after ∧ after.stack.length = (chart after.place).depth := by
      intro after hafter
      have hstack := hafter.stack
      refine ⟨⟨hafter.inPlace.unit, hafter.inPlace.method⟩, ?_⟩
      rw [hafter.place]
      simp only at hstack ⊢
      omega
    have hmoves := execute_moves pool hplain hpops
    refine ⟨?_, hmoves.error⟩
    intro effect heffect
    have heffectMoves := hmoves.ok effect heffect
    cases effect with
    | go after => exact hkeeps after heffectMoves
    | print line after => exact hkeeps after heffectMoves
    | call => cases heffectMoves
    | done => cases heffectMoves
  · cases instr with
    -- the target is the only next place, and as deep
    | jump target =>
      have hnext := h.nexts target.toNat (by simp)
      refine (goTo_finds _ target).map ?_
      rintro after rfl
      refine ⟨⟨rfl, rfl⟩, ?_⟩
      simp only [Instr.pops_jump, Instr.pushes_jump] at hnext ⊢
      omega
    | jumpIfFalse target =>
      have hstay := h.nexts (frame.place + 1) (by simp)
      have hleave := h.nexts target.toNat (by simp)
      simp only [Instr.pops_jumpIfFalse, Instr.pushes_jumpIfFalse] at hstay hleave
      refine (popBool_moves hpops).bind fun r hr => ?_
      have hstack := hr.stack
      dsimp only at hstack ⊢
      split
      · apply Ends.value
        refine ⟨⟨hr.inPlace.unit, hr.inPlace.method⟩, ?_⟩
        rw [hr.place]
        simp only
        omega
      · refine (goTo_finds _ target).map ?_
        rintro after rfl
        refine ⟨⟨hr.inPlace.unit, hr.inPlace.method⟩, ?_⟩
        simp only
        omega
    -- the result comes later; until then the frame stands behind the call without it
    | call cls method argc =>
      have hnext := h.nexts (frame.place + 1) (by simp)
      obtain ⟨e, he, hpoint, hto⟩ := h.call cls method argc rfl
      have hfinds := call_finds pool cls method hpops
      refine ⟨?_, hfinds.error⟩
      intro effect heffect
      obtain ⟨target, args, after, rfl, hargs, hafter⟩ := hfinds.ok effect heffect
      have hstack := hafter.stack
      simp only [Instr.pops_call, Instr.pushes_call] at hnext hstack
      refine ⟨⟨hafter.inPlace.unit, hafter.inPlace.method⟩, ?_, e, he, hpoint, cls, hargs ▸ hto⟩
      rw [hafter.place]
      simp only
      omega
    | raise => exact (pop_moves hpops).bind fun _ _ => .fault rfl
    | ret => exact (pop_moves hpops).bind fun _ _ => .value trivial
    | retVoid => exact .value trivial
    | _ => exact absurd rfl hplain

/-- A frame at work on charted code, as deep as the chart says, keeps to the chart with a step and
does not lack an operand. -/
theorem Frame.step_keeps (pool : Pool)
    (hcode : ∀ place instr, frame.method.code[place]? = some instr →
      Charted calls chart place instr)
    (hdepth : frame.stack.length = (chart frame.place).depth) :
    Finds (Effect.KeepsTo calls chart frame) (frame.step pool) := by
  unfold Frame.step
  split
  · rename_i instr hinstr
    exact Charted.execute pool (hcode _ instr hinstr) hdepth
  · split
    · exact .value trivial
    · exact .fault rfl

/-- One frame is what another is after an instruction, or after a call and what it brought back:
a value unless the type written into the call is `void`. -/
inductive Frame.Advances (pool : Pool) (chart : Chart) (frame : Frame) : Frame → Prop
  | go {after : Frame} (h : frame.step pool = .ok (.go after)) : Advances pool chart frame after
  | print {line : String} {after : Frame} (h : frame.step pool = .ok (.print line after)) :
    Advances pool chart frame after
  | back {target : LoadedUnit} {method : String} {args : List Value} {after : Frame}
    (h : frame.step pool = .ok (.call target method args after)) (result : Value)
    (hresult : (chart frame.place).given = if result.isVoid then 0 else 1) :
    Advances pool chart frame (after.receive result)

/-- What a call brings back goes on the stack, unless it is no value. -/
theorem length_receive (frame : Frame) (result : Value) :
    (frame.receive result).stack.length =
      frame.stack.length + if result.isVoid then 0 else 1 := by
  unfold Frame.receive
  split
  · rfl
  · rfl

theorem receive_stays (frame : Frame) (result : Value) :
    frame.InPlace (frame.receive result) ∧ (frame.receive result).place = frame.place := by
  unfold Frame.receive
  split
  · exact ⟨.refl frame, rfl⟩
  · exact ⟨push_stays frame result, rfl⟩

/-- Whatever a frame does next, and whatever a call brings back, its stack is as deep as charted. -/
theorem Frame.Advances.keeps {pool : Pool} {after : Frame} (h : frame.Advances pool chart after)
    (hcode : ∀ place instr, frame.method.code[place]? = some instr →
      Charted calls chart place instr)
    (hdepth : frame.stack.length = (chart frame.place).depth) :
    frame.InPlace after ∧ after.stack.length = (chart after.place).depth := by
  have hstep := Frame.step_keeps pool hcode hdepth
  cases h with
  | go h => exact hstep.ok _ h
  | print h => exact hstep.ok _ h
  | back h result hresult =>
    obtain ⟨hstays, hkept, -⟩ := hstep.ok _ h
    obtain ⟨hplace, hsame⟩ := receive_stays _ result
    refine ⟨hstays.trans hplace, ?_⟩
    rw [length_receive, hsame, ← hkept, hresult]

/-- On its way through charted code a frame is always as deep as the chart says. -/
theorem Frame.keeps_to_chart {pool : Pool} {start : Frame}
    (hcode : ∀ place instr, start.method.code[place]? = some instr →
      Charted calls chart place instr)
    (hstart : start.stack.length = (chart start.place).depth)
    (h : Relation.ReflTransGen (Frame.Advances pool chart) start frame) :
    start.InPlace frame ∧ frame.stack.length = (chart frame.place).depth := by
  induction h with
  | refl => exact ⟨.refl start, hstart⟩
  | tail _ hstep ih =>
    obtain ⟨hstays, hdepth⟩ := ih
    rw [← hstays.method] at hcode
    obtain ⟨hnext, hkept⟩ := hstep.keeps hcode hdepth
    exact ⟨hstays.trans hnext, hkept⟩

end

end StackScript.Machine

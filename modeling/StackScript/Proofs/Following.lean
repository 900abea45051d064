import StackScript.Proofs.Values

/-!
# Machines that follow an evaluation

A machine follows an evaluation when it prints the same and comes, after some steps, to where the
evaluation ends: at a goal that belongs to the result, at the same fault, at an instruction that
reads a local without a value, or to no end within as many steps as loops were given rounds. Since
following is closed under sequencing (`Follows.bind`), only single instructions are left to look at.
-/

namespace StackScript.Machine

open StackScript.Code StackScript.Meaning

/-! ## Many steps -/

/-- The machine after so many steps; one that has finished stays so. -/
def Status.after (pool : Pool) : Nat → Status → Status
  | 0, status => status
  | _ + 1, .finished last => .finished last
  | steps + 1, .working state => (state.step pool).after pool steps

/-- The next instruction reads a local without a value. -/
def State.ReadsUnassigned (state : State) : Prop :=
  ∃ slot : UInt16, state.frame.method.code[state.frame.place]? = some (.load slot) ∧
    state.frame.locals[slot.toNat]? = some .void

section

variable {pool : Pool}

theorem after_finished (steps : Nat) (finished : Finished) :
    (Status.finished finished).after pool steps = .finished finished := by
  cases steps <;> rfl

/-- So many steps and then more are so many steps together. -/
theorem after_add (m n : Nat) (status : Status) :
    status.after pool (m + n) = (status.after pool m).after pool n := by
  induction m generalizing status with
  | zero => rw [Nat.zero_add, Status.after]
  | succ m ih =>
    rw [Nat.succ_add]
    cases status with
    | working state => exact ih (state.step pool)
    | finished finished => rw [after_finished, after_finished, after_finished]

/-- The machine comes to the status after some steps. -/
def Reaches (pool : Pool) (status later : Status) : Prop :=
  ∃ steps, status.after pool steps = later

/-- The machine is still at work after so many steps. -/
def Works (pool : Pool) (steps : Nat) (status : Status) : Prop :=
  ∃ state, status.after pool steps = .working state

theorem Reaches.refl (status : Status) : Reaches pool status status := ⟨0, rfl⟩

theorem Reaches.trans {a b c : Status} (hab : Reaches pool a b) (hbc : Reaches pool b c) :
    Reaches pool a c := by
  obtain ⟨m, rfl⟩ := hab
  obtain ⟨n, rfl⟩ := hbc
  exact ⟨m + n, after_add m n a⟩

theorem Reaches.step (state : State) : Reaches pool (.working state) (state.step pool) := ⟨1, rfl⟩

/-- A machine that works for so many steps works for fewer. -/
theorem Works.mono {m n : Nat} {status : Status} (h : Works pool n status) (hle : m ≤ n) :
    Works pool m status := by
  obtain ⟨state, hstate⟩ := h
  obtain ⟨rest, rfl⟩ := Nat.exists_eq_add_of_le hle
  rw [after_add] at hstate
  -- a machine that had finished before would have stayed so
  cases hbefore : status.after pool m with
  | working before => exact ⟨before, hbefore⟩
  | finished finished =>
    rw [hbefore, after_finished] at hstate
    cases hstate

/-- A machine that works for so many steps from where it gets to works for as many from where it
is. -/
theorem Works.of_reaches {n : Nat} {status later : Status} (h : Works pool n later)
    (hreaches : Reaches pool status later) : Works pool n status := by
  obtain ⟨m, rfl⟩ := hreaches
  obtain ⟨state, hstate⟩ := h
  rw [← after_add] at hstate
  exact Works.mono ⟨state, hstate⟩ (Nat.le_add_left n m)

theorem Works.step {n : Nat} {state : State} (h : Works pool n (state.step pool)) :
    Works pool (n + 1) (.working state) := h

/-- A machine that comes to an end does so when it is given enough steps. -/
theorem run_of_reaches {state : State} {finished : Finished}
    (h : Reaches pool (.working state) (.finished finished)) :
    ∃ enough, ∀ fuel, enough ≤ fuel → run pool fuel state = some finished := by
  obtain ⟨steps, hsteps⟩ := h
  refine ⟨steps, fun fuel hle => ?_⟩
  induction steps generalizing state fuel with
  | zero => cases hsteps
  | succ steps ih =>
    -- at least one step is left to take, so there is fuel for it
    obtain ⟨rest, rfl⟩ := Nat.exists_eq_add_of_le' (Nat.le_trans (Nat.succ_pos steps) hle)
    rw [Status.after] at hsteps
    rw [run]
    cases hnext : state.step pool with
    | working next =>
      rw [hnext] at hsteps
      exact ih hsteps rest (Nat.le_of_succ_le_succ hle)
    | finished last =>
      rw [hnext, after_finished] at hsteps
      cases hsteps
      rfl

/-- The end of a run is where the machine is after as many steps. -/
theorem after_of_run {fuel : Nat} {state : State} {finished : Finished}
    (h : run pool fuel state = some finished) :
    (Status.working state).after pool fuel = .finished finished := by
  induction fuel generalizing state with
  | zero => cases h
  | succ fuel ih =>
    rw [run] at h
    rw [Status.after]
    cases hnext : state.step pool with
    | working next =>
      rw [hnext] at h
      exact ih h
    | finished last =>
      rw [hnext] at h
      cases h
      exact after_finished ..

/-! ## Following -/

/-- From a status with `out` printed the machine does what the evaluation does. -/
def Follows {α : Type} (pool : Pool) (allowed : RuntimeFault → Prop) (rounds : Nat)
    (status : Status) (out : String) (doing : Doing α) (goal : α → String → Status → Prop) :
    Prop :=
  match doing.ending with
  | .done a => ∃ later, Reaches pool status later ∧ goal a (out ++ doing.out) later
  | .failed fault =>
    allowed fault ∧ Reaches pool status (.finished ⟨.error fault, out ++ doing.out⟩)
  | .unassigned => ∃ state, Reaches pool status (.working state) ∧ state.ReadsUnassigned
  | .unfinished => Works pool rounds status

namespace Follows

variable {α β : Type} {allowed : RuntimeFault → Prop} {rounds : Nat} {status : Status}
  {out : String}

theorem pure {a : α} {goal : α → String → Status → Prop} (h : goal a out status) :
    Follows pool allowed rounds status out (pure a) goal :=
  ⟨status, .refl status, by
    rwa [show out ++ (Pure.pure a : Doing α).out = out from String.append_empty]⟩

theorem fail {fault : RuntimeFault} {goal : α → String → Status → Prop} (h : allowed fault) :
    Follows pool allowed rounds (.finished ⟨.error fault, out⟩) out (.fail fault) goal := by
  refine ⟨h, ?_⟩
  rw [show out ++ (Doing.fail fault : Doing α).out = out from String.append_empty]
  exact .refl _

/-- What follows a doing from a later status follows it from one that reaches it. -/
theorem of_reaches {later : Status} {doing : Doing α} {goal : α → String → Status → Prop}
    (h : Follows pool allowed rounds later out doing goal)
    (hreaches : Reaches pool status later) :
    Follows pool allowed rounds status out doing goal := by
  unfold Follows at *
  split at h
  · obtain ⟨last, hlast, hgoal⟩ := h
    exact ⟨last, hreaches.trans hlast, hgoal⟩
  · exact ⟨h.1, hreaches.trans h.2⟩
  · obtain ⟨state, hstate, hreads⟩ := h
    exact ⟨state, hreaches.trans hstate, hreads⟩
  · exact h.of_reaches hreaches

/-- What follows a doing for so many rounds follows it for fewer. -/
theorem mono {fewer : Nat} {doing : Doing α} {goal : α → String → Status → Prop}
    (h : Follows pool allowed rounds status out doing goal) (hle : fewer ≤ rounds) :
    Follows pool allowed fewer status out doing goal := by
  unfold Follows at *
  split at h
  · exact h
  · exact h
  · exact h
  · exact h.mono hle

/-- From each goal the machine may go on to another one. -/
theorem extend {doing : Doing α} {goal other : α → String → Status → Prop}
    (h : Follows pool allowed rounds status out doing goal)
    (hextend : ∀ a out later, goal a out later →
      ∃ last, Reaches pool later last ∧ other a out last) :
    Follows pool allowed rounds status out doing other := by
  unfold Follows at *
  split at h
  · obtain ⟨later, hlater, hgoal⟩ := h
    obtain ⟨last, hlast, hother⟩ := hextend _ _ _ hgoal
    exact ⟨last, hlater.trans hlast, hother⟩
  · exact h
  · exact h
  · exact h

/-- A goal is only come to by the result that the evaluation ends with. -/
theorem ended {doing : Doing α} {goal : α → String → Status → Prop}
    (h : Follows pool allowed rounds status out doing goal) :
    Follows pool allowed rounds status out doing
      fun a out later => doing.ending = .done a ∧ goal a out later := by
  unfold Follows at *
  split at h
  · rename_i a hending
    obtain ⟨later, hlater, hgoal⟩ := h
    exact ⟨later, hlater, hending, hgoal⟩
  · exact h
  · exact h
  · exact h

theorem imp {doing : Doing α} {goal other : α → String → Status → Prop}
    (h : Follows pool allowed rounds status out doing goal)
    (himp : ∀ a out later, goal a out later → other a out later) :
    Follows pool allowed rounds status out doing other :=
  h.extend fun a out later hgoal => ⟨later, .refl later, himp a out later hgoal⟩

/-- A machine that follows one evaluation, and the next one from each goal, follows both. -/
theorem bind {doing : Doing α} {next : α → Doing β} {between : α → String → Status → Prop}
    {goal : β → String → Status → Prop}
    (h : Follows pool allowed rounds status out doing between)
    (hnext : ∀ a out later, between a out later →
      Follows pool allowed rounds later out (next a) goal) :
    Follows pool allowed rounds status out (doing >>= next) goal := by
  obtain ⟨printed, ending⟩ := doing
  -- only a result goes on to the next evaluation; any other end is the end of both
  cases ending with
  | done a =>
    obtain ⟨later, hlater, hbetween⟩ := h
    have hrest := (hnext a _ later hbetween).of_reaches hlater
    show Follows pool allowed rounds status out ⟨printed ++ (next a).out, (next a).ending⟩ goal
    unfold Follows at *
    rw [← String.append_assoc]
    exact hrest
  | failed fault => exact h
  | unassigned => exact h
  | unfinished => exact h

/-- After a first step, loops have one round less left. -/
theorem step {state : State} {doing : Doing α} {goal : α → String → Status → Prop}
    (h : Follows pool allowed rounds (state.step pool) out doing goal) :
    Follows pool allowed (rounds + 1) (.working state) out doing goal := by
  unfold Follows at *
  split at h
  · obtain ⟨last, hlast, hgoal⟩ := h
    exact ⟨last, (Reaches.step state).trans hlast, hgoal⟩
  · exact ⟨h.1, (Reaches.step state).trans h.2⟩
  · obtain ⟨later, hlater, hreads⟩ := h
    exact ⟨later, (Reaches.step state).trans hlater, hreads⟩
  · exact h.step

end Follows

end

/-! ## Places in code -/

/-- The piece of code stands at the place. -/
def StandsAt (code : Array Instr) (place : Nat) (piece : List Instr) : Prop :=
  piece <+: code.toList.drop place

namespace StandsAt

variable {code : Array Instr} {place : Nat} {first rest : List Instr} {instr : Instr}

theorem left (h : StandsAt code place (first ++ rest)) : StandsAt code place first :=
  (List.prefix_append first rest).trans h

theorem right (h : StandsAt code place (first ++ rest)) :
    StandsAt code (place + first.length) rest := by
  obtain ⟨after, hafter⟩ := h
  refine ⟨after, ?_⟩
  rw [← List.drop_drop, ← hafter, List.append_assoc, List.drop_left]

theorem head (h : StandsAt code place (instr :: rest)) : code[place]? = some instr := by
  obtain ⟨after, hafter⟩ := h
  have hget : (code.toList.drop place)[0]? = some instr := by
    rw [← hafter]
    rfl
  rwa [List.getElem?_drop, Nat.add_zero, Array.getElem?_toList] at hget

theorem tail (h : StandsAt code place (instr :: rest)) : StandsAt code (place + 1) rest :=
  right (show StandsAt code place ([instr] ++ rest) from h)

/-- A piece of code that has an instruction ends within the code. -/
theorem end_le (h : StandsAt code place first) (hfirst : first ≠ []) :
    place + first.length ≤ code.size := by
  have hle : first.length ≤ code.size - place := by
    simpa using h.length_le
  have hpos := List.length_pos_iff.mpr hfirst
  omega

end StandsAt

theorem standsAt_toArray (piece rest : List Instr) : StandsAt (piece ++ rest).toArray 0 piece :=
  List.prefix_append piece rest

theorem toNat_placeNumber {place : Nat} (h : place < UInt32.size) :
    (placeNumber place).toNat = place :=
  UInt32.toNat_ofNat_of_lt' h

/-! ## Instructions of a method -/

/-- A method at work, with the frames that wait for it. -/
structure Desk where
  unit : LoadedUnit
  method : MethodCode
  callers : Callers

namespace Desk

/-- The frame of the method. -/
def frame (desk : Desk) (locals : Array Value) (stack : List Value) (place : Nat) : Frame :=
  ⟨desk.unit, desk.method, locals, stack, place⟩

/-- The machine with the method at work. -/
def status (desk : Desk) (locals : Array Value) (stack : List Value) (place : Nat) (out : String) :
    Status :=
  .working ⟨desk.frame locals stack place, desk.callers, out⟩

/-- The machine after an instruction. -/
def afterEffect (desk : Desk) (out : String) : Except RuntimeFault Effect → Status
  | .error fault => .finished ⟨.error fault, out⟩
  | .ok (.go frame) => .working ⟨frame, desk.callers, out⟩
  | .ok (.print line frame) => .working ⟨frame, desk.callers, out ++ line ++ "\n"⟩
  | .ok (.call target method args frame) => afterCall frame desk.callers out target method args
  | .ok (.done value) => afterReturn desk.callers out value

variable {pool : Pool} {allowed : RuntimeFault → Prop} {rounds : Nat} {desk : Desk}
  {locals : Array Value} {stack : List Value} {place : Nat} {out : String} {instr : Instr}

/-- A step of a machine at a desk executes the instruction that stands at its place. -/
theorem step_eq (h : desk.method.code[place]? = some instr) :
    State.step pool ⟨desk.frame locals stack place, desk.callers, out⟩ =
      desk.afterEffect out ((desk.frame locals stack (place + 1)).execute pool instr) := by
  -- the place has gone on by the time the instruction is looked at
  have hstep : Frame.step pool (desk.frame locals stack place)
      = (desk.frame locals stack (place + 1)).execute pool instr := by
    unfold Frame.step
    rw [show (desk.frame locals stack place).method.code[(desk.frame locals stack place).place]?
      = some instr from h]
    rfl
  simp only [State.step, hstep]
  rcases (desk.frame locals stack (place + 1)).execute pool instr with fault | effect
  · rfl
  · cases effect <;> rfl

/-- The machine comes to what the next instruction makes of it. -/
theorem reaches_effect (h : desk.method.code[place]? = some instr)
    {effect : Except RuntimeFault Effect}
    (heffect : (desk.frame locals stack (place + 1)).execute pool instr = effect) :
    Reaches pool (desk.status locals stack place out) (desk.afterEffect out effect) := by
  rw [← heffect, ← step_eq h]
  exact .step _

theorem goTo_eq (hsize : desk.method.code.size < UInt32.size) {dest : Nat}
    (hdest : dest ≤ desk.method.code.size) :
    (desk.frame locals stack place).goTo (placeNumber dest)
      = .ok (desk.frame locals stack dest) := by
  unfold Frame.goTo
  rw [toNat_placeNumber (Nat.lt_of_le_of_lt hdest hsize)]
  exact if_pos hdest

/-- A jump goes to its place in one step. -/
theorem step_jump (hsize : desk.method.code.size < UInt32.size) {dest : Nat}
    (h : desk.method.code[place]? = some (.jump (placeNumber dest)))
    (hdest : dest ≤ desk.method.code.size) :
    State.step pool ⟨desk.frame locals stack place, desk.callers, out⟩
      = desk.status locals stack dest out := by
  rw [step_eq h, Frame.execute, goTo_eq hsize hdest]
  rfl

/-- A jump reaches its target with everything else as it is. -/
theorem reaches_jump (hsize : desk.method.code.size < UInt32.size) {dest : Nat}
    (h : desk.method.code[place]? = some (.jump (placeNumber dest)))
    (hdest : dest ≤ desk.method.code.size) :
    Reaches pool (desk.status locals stack place out) (desk.status locals stack dest out) := by
  rw [← step_jump hsize h hdest]
  exact .step _

/-- A test of a condition goes on with the next instruction, or jumps. -/
theorem reaches_test (hsize : desk.method.code.size < UInt32.size) {dest : Nat}
    (h : desk.method.code[place]? = some (.jumpIfFalse (placeNumber dest)))
    (hdest : dest ≤ desk.method.code.size) (b : Bool) :
    Reaches pool (desk.status locals (.bool b :: stack) place out)
      (desk.status locals stack (if b then place + 1 else dest) out) := by
  cases b with
  | true => exact reaches_effect h rfl
  | false =>
    -- a condition that fails takes the jump, which stays within the code
    have hexecute : (desk.frame locals (.bool false :: stack) (place + 1)).execute pool
        (.jumpIfFalse (placeNumber dest)) = .ok (.go (desk.frame locals stack dest)) := by
      show Effect.go <$> (desk.frame locals stack (place + 1)).goTo (placeNumber dest) = _
      rw [goTo_eq hsize hdest]
      rfl
    exact reaches_effect h hexecute

/-- The machine has a value of the type on its stack; what it has there for no value is left
open. -/
def Holds (desk : Desk) (t : Ty) (locals : Array Value) (stack : List Value) (place : Nat)
    (value : Value) (out : String) (later : Status) : Prop :=
  value.HasTy t ∧ ∃ after, later = desk.status locals after place out ∧
    (t ≠ .void → after = value :: stack)

/-- A value that is not void is held on top of the stack. -/
theorem Holds.eq {t : Ty} {value : Value} {later : Status}
    (h : desk.Holds t locals stack place value out later) (ht : t ≠ .void) :
    later = desk.status locals (value :: stack) place out := by
  obtain ⟨-, after, rfl, hafter⟩ := h
  rw [hafter ht]

theorem holds {t : Ty} {value : Value} (h : value.HasTy t) :
    desk.Holds t locals stack place value out (desk.status locals (value :: stack) place out) :=
  ⟨h, _, rfl, fun _ => rfl⟩

/-- A value that is needed is on the stack for what comes next. -/
theorem follows_operand {α : Type} {status : Status} {printed : String} {doing : Doing Value}
    {t : Ty} {next : Value → Doing α} {goal : α → String → Status → Prop}
    (h : Follows pool allowed rounds status printed doing (desk.Holds t locals stack place))
    (ht : t ≠ .void)
    (hnext : ∀ value out, value.HasTy t → Follows pool allowed rounds
      (desk.status locals (value :: stack) place out) out (next value) goal) :
    Follows pool allowed rounds status printed (doing >>= next) goal := by
  refine h.bind fun value out later hlater => ?_
  rw [hlater.eq ht]
  exact hnext value out hlater.1

/-- The result of a call is received. -/
theorem holds_receive {t : Ty} {value : Value} (h : value.HasTy t) :
    desk.Holds t locals stack place value out
      (.working ⟨(desk.frame locals stack place).receive value, desk.callers, out⟩) := by
  unfold Frame.receive
  split
  · -- a call without a value puts nothing on the stack, and nothing is said of the stack then
    rename_i hvoid
    refine ⟨h, stack, rfl, fun ht => ?_⟩
    rw [h.isVoid_of_ne ht] at hvoid
    cases hvoid
  · exact holds h

/-- An instruction that computes what an operation means. -/
theorem follows_compute {operands : List Value} {x : Except RuntimeFault Value} {t : Ty}
    (h : desk.method.code[place]? = some instr)
    (hexecute : (desk.frame locals operands (place + 1)).execute pool instr =
      (.go ∘ (desk.frame locals stack (place + 1)).push) <$> x)
    (hx : Yields allowed x t) :
    Follows pool allowed rounds (desk.status locals operands place out) out (.ofExcept x)
      (desk.Holds t locals stack (place + 1)) := by
  cases x with
  | ok value =>
    exact Follows.of_reaches (Follows.pure (holds (hx.value value rfl)))
      (reaches_effect h hexecute)
  | error fault =>
    exact Follows.of_reaches (Follows.fail (hx.fault fault rfl)) (reaches_effect h hexecute)

end Desk

end StackScript.Machine

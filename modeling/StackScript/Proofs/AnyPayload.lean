import StackScript.Proofs.Activations

/-!
# Machines that run any payload

The code that a machine runs need not be made by the compiler: jumps, slots, numbers of operands,
signatures and links may be anything. The machine by numbers stands beside the machine that has the
code at hand; with every step each of its frames is at a place of the code of a method of its class
or just behind it, and has as many slots as the method asks for (`Activation.Shows`). So it never
breaks down, and does the same (`invoke_never_breaks`).
-/

namespace StackScript.Machine

open StackScript.Code

/-! ## What a step of a frame keeps -/

/-- The frame is at work on the same code with as many slots, at a place of the code or just behind
it. -/
structure Frame.Stands (frame after : Frame) : Prop where
  inPlace : frame.InPlace after
  place : after.place ≤ after.method.code.size
  slots : after.locals.size = frame.locals.size

/-- The frame that goes on, or waits for a call, stands. -/
def Effect.Stands (frame : Frame) : Effect → Prop
  | .go after | .print _ after | .call _ _ _ after => frame.Stands after
  | .done _ => True

theorem Frame.Stands.receive {frame after : Frame} (h : frame.Stands after) (result : Value) :
    frame.Stands (after.receive result) := by
  obtain ⟨hstays, hplace⟩ := receive_stays after result
  refine ⟨h.inPlace.trans hstays, ?_, ?_⟩
  · rw [hplace, hstays.method]
    exact h.place
  · rw [(receive_holds after result).slots]
    exact h.slots

section

variable {frame : Frame} {pool : Pool} {effect : Effect}

/-- A store or load that goes through finds its slot. -/
theorem slot_lt_of_execute {instr : Instr} (h : frame.execute pool instr = .ok effect)
    {slot : UInt16} (hslot : instr.slot? = some slot) : slot.toNat < frame.locals.size := by
  cases instr with
  | load other =>
    cases hslot
    by_contra hout
    have hnone : frame.locals[slot.toNat]? = none :=
      Array.getElem?_eq_none_iff.mpr (Nat.le_of_not_lt hout)
    rw [Frame.execute, Frame.load, hnone] at h
    cases h
  | store other =>
    cases hslot
    by_contra hout
    rw [Frame.execute, Frame.store, Frame.pop] at h
    cases hstack : frame.stack with
    | nil =>
      rw [hstack] at h
      cases h
    | cons value rest =>
      simp only [hstack, ok_bind, if_neg hout] at h
      cases h
  | _ => cases hslot

/-- A jump that goes through is to a place of the code, or just behind it. -/
theorem stands_of_goTo {after : Frame} {place : UInt32} (h : frame.goTo place = .ok after) :
    frame.Stands after := by
  unfold Frame.goTo at h
  split at h
  · rename_i hplace
    cases h
    exact ⟨⟨rfl, rfl⟩, hplace, rfl⟩
  · cases h

theorem stands_of_call {cls method : String} {argc : UInt16}
    (hplace : frame.place ≤ frame.method.code.size)
    (h : frame.call pool cls method argc = .ok effect) : effect.Stands frame := by
  unfold Frame.call at h
  dsimp only at h
  split at h
  · split at h
    · cases h
      exact ⟨⟨rfl, rfl⟩, hplace, rfl⟩
    · cases h
  · cases h

/-- Whatever the instruction is. -/
theorem stands_of_execute {instr : Instr} (hplace : frame.place ≤ frame.method.code.size)
    (h : frame.execute pool instr = .ok effect) : effect.Stands frame := by
  by_cases hplain : instr.isPlain = true
  · -- such an instruction holds its place, and the unit and the slots stay
    have hholds := (execute_holds frame pool hplain fun _ => slot_lt_of_execute h).ok effect h
    have hstays := (execute_stays pool frame instr fun cls method argc hcall => by
      rw [hcall] at hplain
      cases hplain).ok effect h
    have hstands : ∀ after, frame.Holds after → frame.InPlace after → frame.Stands after := by
      intro after hafter hin
      refine ⟨hin, ?_, hafter.slots⟩
      rw [hafter.place, hafter.method]
      exact hplace
    cases effect with
    | go after => exact hstands after hholds hstays
    | print line after => exact hstands after hholds hstays
    | call => cases hholds
    | done => trivial
  · -- the others jump, call or end the frame
    cases instr with
    | jump target =>
      obtain ⟨after, hafter, rfl⟩ := map_eq_ok.mp h
      exact stands_of_goTo hafter
    | jumpIfFalse target =>
      simp only [Frame.execute, bind_eq_ok] at h
      obtain ⟨⟨b, popped⟩, hpop, hnext⟩ := h
      have hin := (popBool_stays frame).ok _ hpop
      have hheld := (popBool_holds frame).ok _ hpop
      split at hnext
      · cases hnext
        refine ⟨hin, ?_, hheld.slots⟩
        rw [hheld.place, hheld.method]
        exact hplace
      · obtain ⟨after, hafter, rfl⟩ := map_eq_ok.mp hnext
        have hstands := stands_of_goTo hafter
        exact ⟨hin.trans hstands.inPlace, hstands.place, hstands.slots.trans hheld.slots⟩
    | call cls method argc => exact stands_of_call hplace h
    | raise =>
      simp only [Frame.execute, bind_eq_ok] at h
      obtain ⟨_, -, hraised⟩ := h
      cases hraised
    | ret =>
      simp only [Frame.execute, bind_eq_ok] at h
      obtain ⟨_, -, hdone⟩ := h
      cases hdone
      trivial
    | retVoid =>
      cases h
      trivial
    | _ => exact absurd rfl hplain

/-- A step leaves the frame at a place of its code, or just behind it. -/
theorem stands_of_step (h : frame.step pool = .ok effect) : effect.Stands frame := by
  unfold Frame.step at h
  split at h
  · rename_i instr hinstr
    have hplace : frame.place < frame.method.code.size :=
      (Array.getElem?_eq_some_iff.mp hinstr).choose
    have hstands : effect.Stands frame.moveOn := stands_of_execute hplace h
    cases effect with
    | done => trivial
    | _ => exact ⟨⟨hstands.inPlace.unit, hstands.inPlace.method⟩, hstands.place, hstands.slots⟩
  · split at h
    · cases h
      trivial
    · cases h

end

/-! ## The machine by numbers -/

/-- The machine by numbers: the frame at work with those that wait behind it, the latest one first,
or the end. -/
inductive Activity where
  | working (frames : List Activation) (out : String)
  | finished (finished : Finished)

namespace Activity

/-- One step; a machine that has finished stays so. -/
def step (pool : Pool) : Activity → Unbroken Activity
  | .finished last => .ok (.finished last)
  | .working [] out => .ok (.finished ⟨.ok .void, out⟩)
  | .working (a :: callers) out => do
    match ← a.step pool with
    | .error fault => pure (.finished ⟨.error fault, out⟩)
    | .ok (.go a) => pure (.working (a :: callers) out)
    | .ok (.print line a) => pure (.working (a :: callers) (out ++ line ++ "\n"))
    | .ok (.call target method args a) =>
      if maxDepth ≤ callers.length + 1 then
        pure (.finished ⟨.error (.stackOverflow target.name method), out⟩)
      else
        match ← enterGuarded target method args with
        | .error fault => pure (.finished ⟨.error fault, out⟩)
        | .ok (.value value) => pure (.working (a.receive value :: callers) out)
        | .ok (.activation b) => pure (.working (b :: a :: callers) out)
    | .ok (.done value) =>
      match callers with
      | [] => pure (.finished ⟨.ok value, out⟩)
      | caller :: rest => pure (.working (caller.receive value :: rest) out)

/-- The machine after so many steps. -/
def after (pool : Pool) : Nat → Activity → Unbroken Activity
  | 0, activity => .ok activity
  | steps + 1, activity => do (← activity.step pool).after pool steps

/-- The machine when a method of a unit has been called. -/
def start (unit : LoadedUnit) (method : String) (args : List Value) : Unbroken Activity := do
  match ← enterGuarded unit method args with
  | .error fault => pure (.finished ⟨.error fault, ""⟩)
  | .ok (.value value) => pure (.finished ⟨.ok value, ""⟩)
  | .ok (.activation a) => pure (.working [a] "")

/-- The result, if the machine has come to its end. -/
def finished? : Activity → Option Finished
  | .working _ _ => none
  | .finished last => some last

end Activity

/-! ## Side by side -/

/-- The frame by number is the one with its code at hand, which is at a place of its code or just
behind it and has the slots that its method asks for. -/
structure Activation.Shows (a : Activation) (f : Frame) : Prop where
  code : a.code = .ok f.method
  frame : f = a.frame f.method
  place : f.place ≤ f.method.code.size
  slots : f.locals.size = max f.method.locals.toNat f.method.params.length

section

variable {a : Activation} {f after : Frame} {pool : Pool}

theorem Activation.Shows.stands (h : a.Shows f) (hstands : f.Stands after) :
    (after.numbered a.number).Shows after where
  code := by
    have hunit : after.unit = a.unit := by
      rw [hstands.inPlace.unit, h.frame]
      rfl
    rw [hstands.inPlace.method, ← h.code]
    unfold Activation.code Frame.numbered
    rw [hunit]
  frame := rfl
  place := hstands.place
  slots := by
    rw [hstands.slots, hstands.inPlace.method]
    exact h.slots

theorem Activation.Shows.receive (h : a.Shows f) (result : Value) :
    (a.receive result).Shows (f.receive result) := by
  have hstands : f.Stands (f.receive result) := by
    apply Frame.Stands.receive
    exact ⟨⟨rfl, rfl⟩, h.place, rfl⟩
  have hsame : a.receive result = (f.receive result).numbered a.number := by
    rw [← Activation.receive_numbered, h.frame]
    rfl
  rw [hsame]
  exact h.stands hstands

/-- The frames do the same, and the machine by numbers does not break down. -/
theorem Activation.Shows.step (h : a.Shows f) :
    a.step pool = .ok (Effect.numbered a.number <$> f.step pool) := by
  rw [h.frame]
  exact Activation.step_eq pool h.code

/-- What becomes of a call by number is what becomes of it. -/
def Begun.Shows : Except RuntimeFault Begun → Except RuntimeFault Entered → Prop
  | .error fault, .error other => fault = other
  | .ok (.value given), .ok (.value other) => given = other
  | .ok (.activation a), .ok (.frame f) => a.Shows f
  | _, _ => False

/-- The method of the number that was found is the method of the name. -/
theorem method?_of_findIdx? {file : ClassFile} {method : String} {number : Nat}
    (h : file.methods.findIdx? (·.name = method) = some number) :
    ∃ code, file.methods[number]? = some code ∧ file.method? method = some code := by
  obtain ⟨hlt, hname, hbefore⟩ := List.findIdx?_eq_some_iff_getElem.mp h
  refine ⟨file.methods[number], List.getElem?_eq_getElem hlt, ?_⟩
  refine List.find?_eq_some_iff_getElem.mpr ⟨hname, number, hlt, rfl, ?_⟩
  intro j hj
  simpa using hbefore j hj

/-- Calling a method by number does not break the machine down. -/
theorem enterGuarded_shows (unit : LoadedUnit) (method : String) (args : List Value) :
    ∃ begun, enterGuarded unit method args = .ok begun ∧
      Begun.Shows begun (enter unit method args) := by
  unfold enterGuarded enter
  cases hbody : unit.body with
  | native cls =>
    dsimp only
    rw [cls.callGuarded_eq, ok_bind]
    refine ⟨_, rfl, ?_⟩
    cases cls.call method args with
    | error fault => exact rfl
    | ok value => exact rfl
  | compiled file =>
    dsimp only
    cases hnumber : file.methods.findIdx? (·.name = method) with
    | none =>
      have hnone : file.method? method = none := by
        apply List.find?_eq_none.mpr
        intro code hcode
        simpa using List.findIdx?_eq_none_iff.mp hnumber code hcode
      rw [hnone]
      exact ⟨_, rfl, rfl⟩
    | some number =>
      obtain ⟨code, hcode, hfound⟩ := method?_of_findIdx? hnumber
      simp only [hcode, hfound]
      by_cases hlength : args.length = code.params.length
      · rw [if_pos hlength, if_pos hlength.symm]
        refine ⟨_, rfl, ?_⟩
        -- the frame starts at the first place, with all slots that the method asks for
        constructor
        · unfold Activation.code
          simp only [hbody, hcode]
        · rw [startLocals_eq hlength]
          rfl
        · exact Nat.zero_le _
        · rw [startLocals_eq hlength]
          exact size_resized ..
      · rw [if_neg hlength, if_neg fun h => hlength h.symm]
        exact ⟨_, rfl, rfl⟩

end

/-- The machine by numbers is in the same state: the same has been printed, and every frame by
number is the one with its code at hand; there are no more frames than are allowed. -/
def Activity.Shows : Activity → Status → Prop
  | .working frames out, .working state =>
    out = state.out ∧ state.callers.count < maxDepth ∧
      List.Forall₂ Activation.Shows frames (state.frame :: state.callers.frames)
  | .finished last, .finished other => last = other
  | _, _ => False

theorem pop?_cases (callers : Callers) :
    callers.frames = [] ∧ callers.pop? = none ∨
      ∃ frame rest, callers.frames = frame :: rest.frames ∧ callers.pop? = some (frame, rest) ∧
        rest.count ≤ callers.count := by
  unfold Callers.pop?
  split
  · rename_i hframes
    exact .inl ⟨hframes, rfl⟩
  · rename_i frame rest hframes
    exact .inr ⟨frame, _, hframes, rfl, Nat.sub_le _ _⟩

section

variable {pool : Pool}

/-- A value that comes back keeps the machines side by side. -/
theorem shows_afterReturn {frames : List Activation} {callers : Callers}
    (hdepth : callers.count < maxDepth)
    (hframes : List.Forall₂ Activation.Shows frames callers.frames) (out : String)
    (value : Value) :
    Activity.Shows
      (match frames with
        | [] => .finished ⟨.ok value, out⟩
        | caller :: rest => .working (caller.receive value :: rest) out)
      (afterReturn callers out value) := by
  unfold afterReturn
  rcases pop?_cases callers with ⟨hnil, hpop⟩ | ⟨frame, rest, hcons, hpop, hcount⟩
  · rw [hnil] at hframes
    cases hframes
    rw [hpop]
    exact rfl
  · rw [hcons] at hframes
    cases hframes with
    | cons hfirst hrest =>
      rw [hpop]
      exact ⟨rfl, Nat.lt_of_le_of_lt hcount hdepth, .cons (hfirst.receive value) hrest⟩

/-- A call keeps the machines side by side, whatever it is on. -/
theorem shows_afterCall {a : Activation} {f : Frame} {frames : List Activation}
    {callers : Callers} (hfirst : a.Shows f) (hdepth : callers.count < maxDepth)
    (hframes : List.Forall₂ Activation.Shows frames callers.frames) (out : String)
    (target : LoadedUnit) (method : String) (args : List Value) :
    ∃ next, (if maxDepth ≤ frames.length + 1 then
        pure (.finished ⟨.error (.stackOverflow target.name method), out⟩)
      else do
        match ← enterGuarded target method args with
        | .error fault => pure (.finished ⟨.error fault, out⟩)
        | .ok (.value value) => pure (.working (a.receive value :: frames) out)
        | .ok (.activation b) => pure (.working (b :: a :: frames) out) : Unbroken Activity) =
        .ok next ∧ next.Shows (afterCall f callers out target method args) := by
  have hlength : frames.length = callers.count := hframes.length_eq.trans callers.count_eq.symm
  unfold afterCall
  by_cases hroom : callers.count + 1 < maxDepth
  · rw [if_pos hroom, if_neg (by omega)]
    obtain ⟨begun, hbegun, hshows⟩ := enterGuarded_shows target method args
    rw [hbegun, ok_bind]
    cases hentered : enter target method args with
    | error fault =>
      rw [hentered] at hshows
      match begun, hshows with
      | .error _, rfl => exact ⟨_, rfl, rfl⟩
    | ok entered =>
      rw [hentered] at hshows
      cases entered with
      | value value =>
        match begun, hshows with
        | .ok (.value _), rfl =>
          exact ⟨_, rfl, rfl, hdepth, .cons (hfirst.receive value) hframes⟩
      | frame callee =>
        match begun, hshows with
        | .ok (.activation b), hb =>
          exact ⟨_, rfl, rfl, hroom, .cons hb (.cons hfirst hframes)⟩
  · rw [if_neg hroom, if_pos (by omega)]
    exact ⟨_, rfl, rfl⟩

variable (pool)

/-- One step keeps the two machines side by side. -/
theorem Activity.Shows.step {activity : Activity} {status : Status} (h : activity.Shows status) :
    ∃ next, activity.step pool = .ok next ∧ next.Shows (status.after pool 1) := by
  match activity, status, h with
  | .finished last, .finished _, rfl => exact ⟨_, rfl, rfl⟩
  | .working frames out, .working ⟨frame, callers, _⟩, ⟨rfl, hdepth, hframes⟩ =>
    cases hframes with
    | @cons a _ others _ hfirst hrest =>
      simp only [Activity.step, hfirst.step, ok_bind, Status.after, State.step]
      cases hstep : frame.step pool with
      | error fault => exact ⟨_, rfl, rfl⟩
      | ok effect =>
        have hstands := stands_of_step hstep
        cases effect with
        | go next => exact ⟨_, rfl, rfl, hdepth, .cons (hfirst.stands hstands) hrest⟩
        | print line next => exact ⟨_, rfl, rfl, hdepth, .cons (hfirst.stands hstands) hrest⟩
        | call target method args next =>
          exact shows_afterCall (hfirst.stands hstands) hdepth hrest _ target method args
        | done value =>
          have hback := shows_afterReturn hdepth hrest out value
          cases others with
          | nil => exact ⟨_, rfl, hback⟩
          | cons caller rest => exact ⟨_, rfl, hback⟩

/-- Any number of steps keeps them so. -/
theorem Activity.Shows.after {activity : Activity} {status : Status} (h : activity.Shows status)
    (steps : Nat) :
    ∃ next, activity.after pool steps = .ok next ∧ next.Shows (status.after pool steps) := by
  induction steps generalizing activity status with
  | zero => exact ⟨activity, rfl, h⟩
  | succ steps ih =>
    obtain ⟨next, hnext, hshows⟩ := h.step pool
    obtain ⟨last, hlast, hlater⟩ := ih hshows
    refine ⟨last, ?_, ?_⟩
    · rw [Activity.after, hnext]
      exact hlast
    · rw [Nat.add_comm, after_add]
      exact hlater

end

/-! ## Any payload -/

/-- The frame is at work on a method that its class has, its next instruction is one of the code or
the place behind it, and it has exactly the slots that the method asks for. -/
structure Activation.Safe (a : Activation) : Prop where
  compiled : ∃ file code, a.unit.body = .compiled file ∧ file.methods[a.number]? = some code ∧
    a.place ≤ code.code.size ∧
    a.locals.size = max code.locals.toNat code.params.length

/-- All frames are safe, and there is one and no more than are allowed. -/
def Activity.Safe : Activity → Prop
  | .working frames _ => 0 < frames.length ∧ frames.length ≤ maxDepth ∧ ∀ a ∈ frames, a.Safe
  | .finished _ => True

theorem Activation.Shows.safe {a : Activation} {f : Frame} (h : a.Shows f) : a.Safe := by
  obtain ⟨hcode, hframe, hplace, hslots⟩ := h
  rw [hframe] at hplace hslots
  unfold Activation.code at hcode
  split at hcode
  · cases hcode
  · rename_i file hbody
    split at hcode
    · cases hcode
    · rename_i code hfound
      cases hcode
      exact ⟨file, f.method, hbody, hfound, hplace, hslots⟩

theorem Activity.Shows.safe {activity : Activity} {status : Status} (h : activity.Shows status) :
    activity.Safe := by
  match activity, status, h with
  | .finished last, .finished _, _ => trivial
  | .working frames out, .working state, ⟨_, hdepth, hframes⟩ =>
    have hlength := hframes.length_eq
    rw [List.length_cons, ← state.callers.count_eq] at hlength
    have hboth := hframes.imp fun a f hshows => And.intro hshows.safe hshows
    exact ⟨by omega, by omega, ((List.forall₂_and_left _ _).mp hboth).1⟩

theorem count_nobody : 0 = ([] : List Frame).length := rfl

/-- No frames wait. -/
def Callers.nobody : Callers := ⟨[], 0, count_nobody⟩

/-- The status of a machine when a method of a unit has been called. -/
def Status.start (unit : LoadedUnit) (method : String) (args : List Value) : Status :=
  match enter unit method args with
  | .error fault => .finished ⟨.error fault, ""⟩
  | .ok (.value value) => .finished ⟨.ok value, ""⟩
  | .ok (.frame callee) => .working ⟨callee, .nobody, ""⟩

/-- The result, if the machine has come to its end. -/
def Status.finished? : Status → Option Finished
  | .working _ => none
  | .finished last => some last

/-- A run ends when the machine has come to its end within as many steps. -/
theorem run_eq_finished? (pool : Pool) (fuel : Nat) (state : State) :
    run pool fuel state = ((Status.working state).after pool fuel).finished? := by
  induction fuel generalizing state with
  | zero => rfl
  | succ fuel ih =>
    rw [run, Status.after]
    cases state.step pool with
    | working next => exact ih next
    | finished last =>
      rw [after_finished]
      rfl

theorem invoke_eq_finished? (pool : Pool) (fuel : Nat) (unit : LoadedUnit) (method : String)
    (args : List Value) :
    invoke pool fuel unit method args =
      ((Status.start unit method args).after pool fuel).finished? := by
  unfold invoke Status.start
  cases enter unit method args with
  | error fault =>
    rw [after_finished]
    rfl
  | ok entered =>
    cases entered with
    | value value =>
      rw [after_finished]
      rfl
    | frame frame => exact run_eq_finished? pool fuel { frame }

theorem Activity.Shows.finished? {activity : Activity} {status : Status}
    (h : activity.Shows status) : activity.finished? = status.finished? := by
  match activity, status, h with
  | .finished last, .finished _, rfl => rfl
  | .working _ _, .working _, _ => rfl

/-- A call by number starts the two machines side by side. -/
theorem start_shows (unit : LoadedUnit) (method : String) (args : List Value) :
    ∃ start, Activity.start unit method args = .ok start ∧
      start.Shows (Status.start unit method args) := by
  obtain ⟨begun, hbegun, hshows⟩ := enterGuarded_shows unit method args
  unfold Activity.start Status.start
  rw [hbegun, ok_bind]
  cases hentered : enter unit method args with
  | error fault =>
    rw [hentered] at hshows
    match begun, hshows with
    | .error _, rfl => exact ⟨_, rfl, rfl⟩
  | ok entered =>
    rw [hentered] at hshows
    cases entered with
    | value value =>
      match begun, hshows with
      | .ok (.value _), rfl => exact ⟨_, rfl, rfl⟩
    | frame frame =>
      match begun, hshows with
      | .ok (.activation a), ha =>
        exact ⟨_, rfl, rfl, Nat.zero_lt_succ _, .cons ha .nil⟩

/-- Whatever the class files and links of the units are, whatever method is called with whatever
arguments: after any number of steps the machine by numbers has not broken down, so each frame found
its code, no access by number was out of range and each native method was run with as many arguments
as it has parameters, beyond which it reads none; all its frames are safe; and it is in the same
state as the machine that has the code at hand, which therefore gives a value, fails with a fault of
its own or is still at work. -/
theorem invoke_never_breaks (pool : Pool) (unit : LoadedUnit) (method : String)
    (args : List Value) :
    (∀ steps, ∃ start activity, Activity.start unit method args = .ok start ∧
      start.after pool steps = .ok activity ∧ activity.Safe ∧
      activity.Shows ((Status.start unit method args).after pool steps) ∧
      invoke pool steps unit method args = activity.finished?) ∧
    ∀ (cls : NativeClass) (m : NativeMethod) (given more : List Value), m ∈ cls.methods →
      given.length = m.sig.params.length → m.run (given ++ more) = m.run given := by
  constructor
  · intro steps
    obtain ⟨start, hstart, hbegins⟩ := start_shows unit method args
    obtain ⟨activity, hactivity, hshows⟩ := hbegins.after pool steps
    refine ⟨start, activity, hstart, hactivity, hshows.safe, hshows, ?_⟩
    rw [invoke_eq_finished?, hshows.finished?]
  · intro cls m given more hm hgiven
    exact run_append hm hgiven more

/-- A unit whose method stores to a slot that it does not have, and whose code jumps behind its
end. -/
def wildUnit : LoadedUnit :=
  .compiled
    { magic := ClassFile.rightMagic
      target := .latest
      name := "Wild"
      sourceFile := "wild"
      references := []
      methods := [
        { name := "go", params := [.int], ret := .int, locals := 0,
          code := #[.load 0, .jumpIfFalse 7, .pushInt 1, .store 9], lines := [] }]
      extensions := [] }

/-- Both are faults of the machine's own, and it does not break down. -/
theorem wildUnit_never_breaks :
    invoke {} 5 wildUnit "go" [.bool true] =
        some ⟨.error (.invalidCode "Wild" "go" (.badSlot 9)), ""⟩ ∧
      invoke {} 5 wildUnit "go" [.bool false] =
        some ⟨.error (.invalidCode "Wild" "go" (.badJump 7)), ""⟩ ∧
      ∃ start activity, Activity.start wildUnit "go" [.bool true] = .ok start ∧
        start.after {} 2 = .ok activity ∧ activity.Safe := by
  obtain ⟨start, activity, hstart, hactivity, hsafe, -, -⟩ :=
    (invoke_never_breaks {} wildUnit "go" [.bool true]).1 2
  exact ⟨by rfl, by rfl, start, activity, hstart, hactivity, hsafe⟩

end StackScript.Machine

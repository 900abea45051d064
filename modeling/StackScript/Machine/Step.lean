import StackScript.Machine.Unit

/-!
# The machine

A machine runs the code of one method in a frame with a stack and local slots of its own, while the
frames of its callers wait. `Frame.step` executes one instruction and says what is to happen next;
`State.step` does that for the whole machine; `run` repeats it.
-/

namespace StackScript.Machine

open StackScript.Code

/-- How many frames there may be at once. -/
def maxDepth : Nat := 10000

/-! ## Frames -/

/-- A method at work. -/
structure Frame where
  unit : LoadedUnit
  method : MethodCode
  locals : Array Value
  /-- The operands, the last one pushed first. -/
  stack : List Value
  /-- The place of the next instruction. -/
  place : Nat

namespace Frame

/-- A failure that is due to the code of the frame. -/
def bad (frame : Frame) (defect : BadCode) : RuntimeFault :=
  .invalidCode frame.unit.name frame.method.name defect

/-- The frame with a value pushed. -/
def push (frame : Frame) (value : Value) : Frame := { frame with stack := value :: frame.stack }

/-- Takes the value on top of the stack. -/
def pop (frame : Frame) : Except RuntimeFault (Value × Frame) :=
  match frame.stack with
  | value :: rest => .ok (value, { frame with stack := rest })
  | [] => .error (frame.bad .underflow)

/-- Takes the integer on top of the stack. -/
def popInt (frame : Frame) : Except RuntimeFault (Int64 × Frame) := do
  let (value, frame) ← frame.pop
  let n ← value.asInt
  pure (n, frame)

/-- Takes the boolean on top of the stack. -/
def popBool (frame : Frame) : Except RuntimeFault (Bool × Frame) := do
  let (value, frame) ← frame.pop
  let b ← value.asBool
  pure (b, frame)

/-- The frame with the result of a call pushed, if there is one. -/
def receive (frame : Frame) (result : Value) : Frame :=
  if result.isVoid then frame else frame.push result

/-- The frame with its next instruction at a place, which may be just past the last one. -/
def goTo (frame : Frame) (place : UInt32) : Except RuntimeFault Frame :=
  if place.toNat ≤ frame.method.code.size then .ok { frame with place := place.toNat }
  else .error (frame.bad (.badJump place.toNat))

/-- The frame after a local was pushed. -/
def load (frame : Frame) (slot : UInt16) : Except RuntimeFault Frame :=
  match frame.locals[slot.toNat]? with
  | some value => .ok (frame.push value)
  | none => .error (frame.bad (.badSlot slot.toNat))

/-- The frame after a value was popped into a local. -/
def store (frame : Frame) (slot : UInt16) : Except RuntimeFault Frame := do
  let (value, frame) ← frame.pop
  if slot.toNat < frame.locals.size then
    let ⟨unit, method, locals, stack, place⟩ := frame
    pure ⟨unit, method, locals.setIfInBounds slot.toNat value, stack, place⟩
  else throw (frame.bad (.badSlot slot.toNat))

/-- The frame after an operation on the integer on top. -/
def withInt (frame : Frame) (f : Int64 → Except RuntimeFault Value) :
    Except RuntimeFault Frame := do
  let (n, frame) ← frame.popInt
  let value ← f n
  pure (frame.push value)

/-- The frame after an operation on the two integers on top, the right one being the topmost. -/
def withInts (frame : Frame) (f : Int64 → Int64 → Except RuntimeFault Value) :
    Except RuntimeFault Frame := do
  let (right, frame) ← frame.popInt
  let (left, frame) ← frame.popInt
  let value ← f left right
  pure (frame.push value)

/-- The frame after an operation on the two values on top, the right one being the topmost. -/
def withValues (frame : Frame) (f : Value → Value → Value) : Except RuntimeFault Frame := do
  let (right, frame) ← frame.pop
  let (left, frame) ← frame.pop
  pure (frame.push (f left right))

/-- The element at a position. -/
def elementAt (items : List Value) (position : Int64) : Except RuntimeFault Value :=
  match if 0 ≤ position.toInt then items[position.toInt.toNat]? else none with
  | some item => .ok item
  | none => .error (.indexOutOfBounds position items.length)

/-- The frame after an element was taken from an array. -/
def index (frame : Frame) : Except RuntimeFault Frame := do
  let (position, frame) ← frame.popInt
  let (target, frame) ← frame.pop
  match target with
  | .array items => frame.push <$> elementAt items position
  | other => throw (.typeMismatch "array" other.kind)

/-- The frame after the length of an array or a string was taken. -/
def length (frame : Frame) : Except RuntimeFault Frame := do
  let (target, frame) ← frame.pop
  match target with
  | .array items => pure (frame.push (.int (Int64.ofNat items.length)))
  | .string s => pure (frame.push (.int (Int64.ofNat s.length)))
  | other => throw (.typeMismatch "array or String" other.kind)

end Frame

/-- A quotient rounded towards zero, wrapped to 64 bits. -/
def quotient (left right : Int64) : Except RuntimeFault Value :=
  if right = 0 then .error .divisionByZero else .ok (.int (left / right))

/-- The remainder that goes with the quotient rounded towards zero. -/
def remainder (left right : Int64) : Except RuntimeFault Value :=
  if right = 0 then .error .divisionByZero else .ok (.int (left % right))

/-! ## Steps of a frame -/

/-- What is to happen after an instruction. -/
inductive Effect where
  /-- The frame goes on. -/
  | go (frame : Frame)
  /-- The frame goes on after a line was printed. -/
  | print (line : String) (frame : Frame)
  /-- The frame waits for a call. -/
  | call (target : LoadedUnit) (method : String) (args : List Value) (frame : Frame)
  /-- The frame is done. -/
  | done (result : Value)

/-- Makes ready a call with arguments from the stack: a call on the own class stays in the unit, any
other goes through the links. -/
def Frame.call (pool : Pool) (frame : Frame) (cls method : String) (argc : UInt16) :
    Except RuntimeFault Effect :=
  let args := frame.stack.take argc.toNat
  if args.length = argc.toNat then
    let frame := { frame with stack := frame.stack.drop argc.toNat }
    match if cls = frame.unit.name then some frame.unit else pool.linked? frame.unit cls with
    | some target => .ok (.call target method args.reverse frame)
    | none => .error (.unlinked cls)
  else .error (frame.bad .underflow)

/-- Executes an instruction in a frame whose place is already behind it. -/
def Frame.execute (pool : Pool) (frame : Frame) : Instr → Except RuntimeFault Effect
  | .pushInt value => .ok (.go (frame.push (.int value)))
  | .pushBool value => .ok (.go (frame.push (.bool value)))
  | .pushStr value => .ok (.go (frame.push (.string value)))
  | .load slot => .go <$> frame.load slot
  | .store slot => .go <$> frame.store slot
  | .pop => do let (_, frame) ← frame.pop; pure (.go frame)
  | .neg => .go <$> frame.withInt fun n => .ok (.int (-n))
  | .not => do let (b, frame) ← frame.popBool; pure (.go (frame.push (.bool !b)))
  | .add => .go <$> frame.withInts fun a b => .ok (.int (a + b))
  | .sub => .go <$> frame.withInts fun a b => .ok (.int (a - b))
  | .mul => .go <$> frame.withInts fun a b => .ok (.int (a * b))
  | .div => .go <$> frame.withInts quotient
  | .mod => .go <$> frame.withInts remainder
  | .concat => .go <$> frame.withValues fun a b => .string (a.text ++ b.text)
  | .eq => .go <$> frame.withValues fun a b => .bool (a.same b)
  | .ne => .go <$> frame.withValues fun a b => .bool !(a.same b)
  | .lt => .go <$> frame.withInts fun a b => .ok (.bool (a < b))
  | .le => .go <$> frame.withInts fun a b => .ok (.bool (a ≤ b))
  | .gt => .go <$> frame.withInts fun a b => .ok (.bool (b < a))
  | .ge => .go <$> frame.withInts fun a b => .ok (.bool (b ≤ a))
  | .index => .go <$> frame.index
  | .length => .go <$> frame.length
  | .jump place => .go <$> frame.goTo place
  | .jumpIfFalse place => do
    let (b, frame) ← frame.popBool
    if b then pure (.go frame) else .go <$> frame.goTo place
  | .call cls method argc => frame.call pool cls method argc
  | .puts => do let (value, frame) ← frame.pop; pure (.print value.text frame)
  | .raise => do let (value, _) ← frame.pop; throw (.raised value.text)
  | .ret => do let (value, _) ← frame.pop; pure (.done value)
  | .retVoid => .ok (.done .void)

/-- Executes the next instruction of a frame; the end of the code is a return of no value, if the
method owes none. -/
def Frame.step (pool : Pool) (frame : Frame) : Except RuntimeFault Effect :=
  match frame.method.code[frame.place]? with
  | some instr => { frame with place := frame.place + 1 }.execute pool instr
  | none =>
    if frame.method.ret.isVoid then .ok (.done .void) else .error (frame.bad .noReturn)

/-! ## Entering methods -/

/-- What becomes of a call. -/
inductive Entered where
  /-- A native method has given its value at once. -/
  | value (value : Value)
  /-- A compiled method starts. -/
  | frame (frame : Frame)

/-- The local slots of a method at its start: the arguments, and no value in all others. -/
def startLocals (method : MethodCode) (args : List Value) : Array Value :=
  (args ++ List.replicate (method.locals.toNat - args.length) Value.void).toArray

/-- Calls a method of a unit. -/
def enter (unit : LoadedUnit) (method : String) (args : List Value) :
    Except RuntimeFault Entered :=
  match unit.body with
  | .native cls => .value <$> cls.call method args
  | .compiled file =>
    match file.method? method with
    | none => .error (.undefinedMethod file.name method)
    | some code =>
      if args.length = code.params.length then
        .ok (.frame ⟨unit, code, startLocals code args, [], 0⟩)
      else .error (.wrongArity file.name method code.params.length args.length)

/-! ## Steps of the machine -/

/-- Frames that wait for their calls, the latest one first, with their number. -/
structure Callers where
  frames : List Frame := []
  count : Nat := 0
  count_eq : count = frames.length := by simp

namespace Callers

/-- One more frame waits. -/
def push (callers : Callers) (frame : Frame) : Callers where
  frames := frame :: callers.frames
  count := callers.count + 1
  count_eq := by simp [callers.count_eq]

/-- The frame that waits for the present call, and those that wait for it. -/
def pop? (callers : Callers) : Option (Frame × Callers) :=
  match h : callers.frames with
  | [] => none
  | frame :: rest => some (frame, ⟨rest, callers.count - 1, by simp [callers.count_eq, h]⟩)

end Callers

/-- A machine at work. -/
structure State where
  frame : Frame
  callers : Callers := {}
  /-- What was printed so far. -/
  out : String := ""

/-- The result of an invocation, and what it printed. -/
structure Finished where
  result : Except RuntimeFault Value
  out : String

/-- A machine after a step. -/
inductive Status where
  | working (state : State)
  | finished (finished : Finished)

/-- The machine after a value came back from a call or from the frame at work. -/
def afterReturn (callers : Callers) (out : String) (value : Value) : Status :=
  match callers.pop? with
  | some (caller, rest) => .working ⟨caller.receive value, rest, out⟩
  | none => .finished ⟨.ok value, out⟩

/-- The machine after a call was made ready by `frame`. -/
def afterCall (frame : Frame) (callers : Callers) (out : String) (target : LoadedUnit)
    (method : String) (args : List Value) : Status :=
  if callers.count + 1 < maxDepth then
    match enter target method args with
    | .error fault => .finished ⟨.error fault, out⟩
    | .ok (.value value) => .working ⟨frame.receive value, callers, out⟩
    | .ok (.frame callee) => .working ⟨callee, callers.push frame, out⟩
  else .finished ⟨.error (.stackOverflow target.name method), out⟩

/-- One step of the machine. -/
def State.step (pool : Pool) (state : State) : Status :=
  let ⟨frame, callers, out⟩ := state
  match frame.step pool with
  | .error fault => .finished ⟨.error fault, out⟩
  | .ok (.go frame) => .working ⟨frame, callers, out⟩
  | .ok (.print line frame) => .working ⟨frame, callers, out ++ line ++ "\n"⟩
  | .ok (.call target method args frame) => afterCall frame callers out target method args
  | .ok (.done value) => afterReturn callers out value

/-- At most `fuel` steps; nothing if the machine is still at work after them. -/
def run (pool : Pool) : Nat → State → Option Finished
  | 0, _ => none
  | fuel + 1, state =>
    match state.step pool with
    | .working state => run pool fuel state
    | .finished finished => some finished

/-- Invokes a method of a unit for at most `fuel` steps. -/
def invoke (pool : Pool) (fuel : Nat) (unit : LoadedUnit) (method : String) (args : List Value) :
    Option Finished :=
  match enter unit method args with
  | .error fault => some ⟨.error fault, ""⟩
  | .ok (.value value) => some ⟨.ok value, ""⟩
  | .ok (.frame frame) => run pool fuel { frame }

/-- More steps than any machine can be given time for. -/
def plenty : Nat := 1000000000000000000

end StackScript.Machine

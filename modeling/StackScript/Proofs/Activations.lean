import StackScript.Proofs.SlotNumbers
import Mathlib.Data.List.GetD

/-!
# A machine by numbers

A machine that keeps less in its frames and can break down. A frame knows its method by its number
in the class, and looks the code up with every step; a class without code or a number that the class
does not have breaks the machine down, and so does every access by number that is out of range, be
it to a local, to the operands of a call or to the arguments of a native method. Steps are the same
otherwise: as long as the code of a frame can be looked up, nothing breaks down, and the frame does
what it does with its code at hand (`Activation.step_eq`).
-/

namespace StackScript.Machine

open StackScript.Code

/-! ## Breaking down -/

/-- What breaks a machine down, instead of ending in a fault. -/
inductive Breakdown where
  /-- A frame is at work on a native class, which has no code. -/
  | nativeCode (cls : String)
  /-- A frame is at work on a method that its class does not have. -/
  | missingMethod (cls : String) (number : Nat)
  /-- An access by number beyond the length. -/
  | outOfBounds (number length : Nat)
  /-- A native method is run with another number of arguments than it has parameters. -/
  | badArguments (method : String) (expected found : Nat)
  deriving DecidableEq, Repr

/-- What a step gives unless it breaks down. -/
abbrev Unbroken (α : Type) := Except Breakdown α

/-- A step behind one that succeeded. -/
theorem ok_bind {ε α β : Type} (a : α) (f : α → Except ε β) : (Except.ok a >>= f) = f a := rfl

theorem map_eq_ok {ε α β : Type} {x : Except ε α} {f : α → β} {b : β} :
    f <$> x = .ok b ↔ ∃ a, x = .ok a ∧ f a = b := by
  cases x with
  | error e => simp [Functor.map, Except.map]
  | ok a => simp [Functor.map, Except.map]

/-- Replaces an item by number. -/
def replaceAt (items : Array Value) (number : Nat) (item : Value) : Unbroken (Array Value) :=
  if number < items.size then .ok (items.setIfInBounds number item)
  else .error (.outOfBounds number items.size)

/-- Splits the topmost operands off, in the order in which they were pushed. -/
def splitOff (stack : List Value) (count : Nat) : Unbroken (List Value × List Value) :=
  if count ≤ stack.length then .ok ((stack.take count).reverse, stack.drop count)
  else .error (.outOfBounds count stack.length)

/-- As many items as wanted: those behind are cut off, and missing ones have no value. -/
def resized (items : List Value) (size : Nat) : Array Value :=
  ((items ++ List.replicate (size - items.length) Value.void).take size).toArray

/-! ## Native classes -/

/-- Runs a native method, which reads its arguments by number. -/
def NativeMethod.runGuarded (m : NativeMethod) (args : List Value) :
    Unbroken (Except RuntimeFault Value) :=
  if args.length = m.sig.params.length then .ok (m.run args)
  else .error (.badArguments m.sig.name m.sig.params.length args.length)

/-- Calls a method of a native class. -/
def NativeClass.callGuarded (cls : NativeClass) (method : String) (args : List Value) :
    Unbroken (Except RuntimeFault Value) :=
  match cls.methods.find? (·.sig.name = method) with
  | none => .ok (.error (.undefinedMethod cls.name method))
  | some m =>
    if args.length = m.sig.params.length then m.runGuarded args
    else .ok (.error (.wrongArity cls.name method m.sig.params.length args.length))

/-- A call checks the number of arguments before the method is run. -/
theorem NativeClass.callGuarded_eq (cls : NativeClass) (method : String) (args : List Value) :
    cls.callGuarded method args = .ok (cls.call method args) := by
  unfold callGuarded call
  cases cls.methods.find? (·.sig.name = method) with
  | none => rfl
  | some m =>
    dsimp only
    split
    · rename_i hlength
      exact if_pos hlength
    · rfl

theorem argument_append {args : List Value} {n : Nat} (h : n < args.length) (more : List Value) :
    argument (args ++ more) n = argument args n := by
  unfold argument
  rw [List.getD_append _ _ _ _ h]

/-- A native method reads no argument beyond those that it has parameters for. -/
theorem run_append {cls : NativeClass} {m : NativeMethod} (h : m ∈ cls.methods)
    {args : List Value} (hargs : args.length = m.sig.params.length) (more : List Value) :
    m.run (args ++ more) = m.run args := by
  have hstring : ∀ name ret f, args.length = 1 →
      (onString name ret f).run (args ++ more) = (onString name ret f).run args := by
    intro name ret f hone
    unfold onString
    dsimp only
    rw [argument_append (by omega)]
  have hint : ∀ name ret f, args.length = 1 →
      (onInt name ret f).run (args ++ more) = (onInt name ret f).run args := by
    intro name ret f hone
    unfold onInt
    dsimp only
    rw [argument_append (by omega)]
  have hints : ∀ name ret f, args.length = 2 →
      (onInts name ret f).run (args ++ more) = (onInts name ret f).run args := by
    intro name ret f htwo
    unfold onInts
    dsimp only
    rw [argument_append (by omega), argument_append (by omega)]
  -- each native method is made by one of these three, with the number of parameters that it reads
  cases cls with
  | integer =>
    simp only [NativeClass.methods, List.mem_cons, List.not_mem_nil, or_false] at h
    rcases h with rfl | rfl
    · exact hstring _ _ _ hargs
    · exact hint _ _ _ hargs
  | math =>
    simp only [NativeClass.methods, List.mem_cons, List.not_mem_nil, or_false] at h
    rcases h with rfl | rfl | rfl | rfl
    · exact hints _ _ _ hargs
    · exact hints _ _ _ hargs
    · exact hint _ _ _ hargs
    · exact hints _ _ _ hargs
  | text =>
    simp only [NativeClass.methods, List.mem_cons, List.not_mem_nil, or_false] at h
    rcases h with rfl | rfl | rfl | rfl <;> exact hstring _ _ _ hargs

/-! ## Frames by number -/

/-- A method at work, known by its number in the class. -/
structure Activation where
  unit : LoadedUnit
  number : Nat
  locals : Array Value
  stack : List Value
  place : Nat

namespace Activation

/-- The code of the method. -/
def code (a : Activation) : Unbroken MethodCode :=
  match a.unit.body with
  | .native cls => .error (.nativeCode cls.name)
  | .compiled file =>
    match file.methods[a.number]? with
    | none => .error (.missingMethod file.name a.number)
    | some code => .ok code

/-- The frame with its code at hand. -/
def frame (a : Activation) (code : MethodCode) : Frame := ⟨a.unit, code, a.locals, a.stack, a.place⟩

/-- The frame with the result of a call pushed, if there is one. -/
def receive (a : Activation) (result : Value) : Activation :=
  if result.isVoid then a else { a with stack := result :: a.stack }

end Activation

/-- The frame, with its method known by number. -/
def Frame.numbered (f : Frame) (number : Nat) : Activation :=
  ⟨f.unit, number, f.locals, f.stack, f.place⟩

/-- What is to happen after an instruction. -/
inductive Request where
  | go (a : Activation)
  | print (line : String) (a : Activation)
  | call (target : LoadedUnit) (method : String) (args : List Value) (a : Activation)
  | done (result : Value)

/-- The frame that goes on or waits is known by the number of its method. -/
def Effect.numbered (number : Nat) : Effect → Request
  | .go f => .go (f.numbered number)
  | .print line f => .print line (f.numbered number)
  | .call target method args f => .call target method args (f.numbered number)
  | .done result => .done result

namespace Activation

/-- Executes an instruction in a frame whose place is already behind it. A store and a call reach
for locals and operands by number; no other instruction does. -/
def execute (pool : Pool) (a : Activation) (code : MethodCode) :
    Instr → Unbroken (Except RuntimeFault Request)
  | .store slot =>
    match a.stack with
    | [] => .ok (.error ((a.frame code).bad .underflow))
    | value :: rest =>
      if a.locals.size ≤ slot.toNat then
        .ok (.error ((a.frame code).bad (.badSlot slot.toNat)))
      else do
        let locals ← replaceAt a.locals slot.toNat value
        pure (.ok (.go { a with locals := locals, stack := rest }))
  | .call cls method argc =>
    if a.stack.length < argc.toNat then .ok (.error ((a.frame code).bad .underflow))
    else do
      let (args, rest) ← splitOff a.stack argc.toNat
      match if cls = a.unit.name then some a.unit else pool.linked? a.unit cls with
      | none => pure (.error (.unlinked cls))
      | some target => pure (.ok (.call target method args { a with stack := rest }))
  | instr => .ok (Effect.numbered a.number <$> (a.frame code).execute pool instr)

/-- Executes the next instruction of a frame, which is looked up in the code of its method. -/
def step (pool : Pool) (a : Activation) : Unbroken (Except RuntimeFault Request) := do
  let code ← a.code
  match code.code[a.place]? with
  | some instr => execute pool { a with place := a.place + 1 } code instr
  | none =>
    if code.ret.isVoid then pure (.ok (.done .void))
    else pure (.error ((a.frame code).bad .noReturn))

end Activation

/-! ## The same steps -/

section

variable {a : Activation} {code : MethodCode} (pool : Pool)

theorem Activation.receive_numbered (f : Frame) (number : Nat) (result : Value) :
    (f.numbered number).receive result = (f.receive result).numbered number := by
  unfold Activation.receive Frame.receive
  split
  · rfl
  · rfl

/-- A slot that was found to be there can be replaced. -/
theorem Activation.execute_store (slot : UInt16) :
    a.execute pool code (.store slot) =
      .ok (Effect.numbered a.number <$> (a.frame code).execute pool (.store slot)) := by
  obtain ⟨unit, number, locals, stack, place⟩ := a
  cases stack with
  | nil => rfl
  | cons value rest =>
    simp only [execute, Frame.execute, Frame.store, Frame.pop, frame]
    by_cases hslot : slot.toNat < locals.size
    · rw [if_neg (Nat.not_le.mpr hslot), replaceAt, if_pos hslot]
      simp only [ok_bind, if_pos hslot]
      rfl
    · rw [if_pos (Nat.le_of_not_lt hslot)]
      simp only [ok_bind, if_neg hslot]
      rfl

/-- As many operands as were found to be there can be split off. -/
theorem Activation.execute_call (cls method : String) (argc : UInt16) :
    a.execute pool code (.call cls method argc) =
      .ok (Effect.numbered a.number <$> (a.frame code).execute pool (.call cls method argc)) := by
  obtain ⟨unit, number, locals, stack, place⟩ := a
  simp only [execute, Frame.execute, Frame.call, frame, List.length_take]
  -- the frame takes the operands first and counts them then, the machine by numbers counts first
  by_cases hargs : stack.length < argc.toNat
  · have hfew : ¬ min argc.toNat stack.length = argc.toNat := by
      omega
    rw [if_pos hargs, if_neg hfew]
    rfl
  · have henough : min argc.toNat stack.length = argc.toNat := by
      omega
    rw [if_neg hargs, if_pos henough, splitOff, if_pos (Nat.le_of_not_lt hargs), ok_bind]
    by_cases hown : cls = unit.name
    · simp only [hown, if_true]
      rfl
    · simp only [hown, if_false]
      cases pool.linked? unit cls with
      | none => rfl
      | some target => rfl

/-- No instruction breaks the machine down. -/
theorem Activation.execute_eq (instr : Instr) :
    a.execute pool code instr =
      .ok (Effect.numbered a.number <$> (a.frame code).execute pool instr) := by
  cases instr with
  | store slot => exact execute_store pool slot
  | call cls method argc => exact execute_call pool cls method argc
  | _ => rfl

/-- A frame whose code can be looked up does what it does with its code at hand. -/
theorem Activation.step_eq (hcode : a.code = .ok code) :
    a.step pool = .ok (Effect.numbered a.number <$> (a.frame code).step pool) := by
  unfold step Frame.step
  rw [hcode, ok_bind]
  have hat : (a.frame code).method.code[(a.frame code).place]? = code.code[a.place]? := rfl
  rw [hat]
  cases code.code[a.place]? with
  | some instr => exact execute_eq pool instr
  | none =>
    have hret : (a.frame code).method.ret = code.ret := rfl
    dsimp only
    rw [hret]
    split
    · rfl
    · rfl

end

/-! ## Entering methods -/

/-- What becomes of a call. -/
inductive Begun where
  | value (value : Value)
  | activation (a : Activation)

/-- Calls a method of a unit. A class file is searched for the number of the method, and the method
of that number is taken. -/
def enterGuarded (unit : LoadedUnit) (method : String) (args : List Value) :
    Unbroken (Except RuntimeFault Begun) :=
  match unit.body with
  | .native cls => do
    let answer ← cls.callGuarded method args
    pure (Begun.value <$> answer)
  | .compiled file =>
    match file.methods.findIdx? (·.name = method) with
    | none => .ok (.error (.undefinedMethod file.name method))
    | some number =>
      match file.methods[number]? with
      | none => .error (.outOfBounds number file.methods.length)
      | some code =>
        if code.params.length = args.length then
          let size := max code.locals.toNat code.params.length
          .ok (.ok (.activation ⟨unit, number, resized args size, [], 0⟩))
        else .ok (.error (.wrongArity file.name method code.params.length args.length))

/-- A method starts with its arguments in its slots, cut to no fewer than it has parameters. -/
theorem startLocals_eq {code : MethodCode} {args : List Value}
    (h : args.length = code.params.length) :
    startLocals code args = resized args (max code.locals.toNat code.params.length) := by
  unfold startLocals resized
  have hcount : max code.locals.toNat code.params.length - args.length =
      code.locals.toNat - args.length := by
    omega
  rw [hcount, List.take_of_length_le]
  rw [List.length_append, List.length_replicate]
  omega

theorem size_resized (items : List Value) (size : Nat) : (resized items size).size = size := by
  rw [resized, List.size_toArray, List.length_take, List.length_append, List.length_replicate]
  omega

end StackScript.Machine

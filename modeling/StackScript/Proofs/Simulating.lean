import StackScript.Proofs.Locals

/-!
# Code follows the tree it was made from

The code of a typed expression, statement or method, run at its place, follows what the tree means
(`exprCode_follows`, `stmtCode_follows`, `method_follows`). What calls do is a premise here: it is
about the calls that the code makes and about one depth of callers.
-/

namespace StackScript.Machine

open StackScript.Code StackScript.Meaning StackScript.Source StackScript.Syntax StackScript.Typing

/-- The faults of operations, of `raise` and of calls that are too deep are among those allowed. -/
structure Admits (allowed : RuntimeFault → Prop) : Prop where
  raised : ∀ text, allowed (.raised text)
  zero : allowed .divisionByZero
  bounds : ∀ n length, allowed (.indexOutOfBounds n length)
  overflow : ∀ cls method, allowed (.stackOverflow cls method)

/-- The locals in scope are among those of the whole method, whose slots hold the store. -/
structure InScope (Γ : Context) (slots : Slots) (Θ : Context) (all : Slots) (store : Store)
    (locals : Array Value) : Prop where
  context : Γ.Within Θ
  slots : slots <+: all
  length : all.length ≤ 65535
  held : Matches Θ all store locals

/-- The unit that a call goes to. -/
def Desk.target? (desk : Desk) (pool : Pool) (cls : String) : Option LoadedUnit :=
  if cls = desk.unit.name then some desk.unit else pool.linked? desk.unit cls

/-- What the code of a method relies on: its places can be counted, and its calls follow what calls
mean. -/
structure Footing (pool : Pool) (allowed : RuntimeFault → Prop) (rounds : Nat) (desk : Desk)
    (offers : Offering) (call : Calls) : Prop where
  admits : Admits allowed
  size : desk.method.code.size < UInt32.size
  calls : ∀ {cls sig args}, offers cls sig → Value.HaveTys args sig.params →
    Instr.call cls sig.name (UInt16.ofNat args.length) ∈ desk.method.code.toList →
      args.length ≤ 65535 ∧ ∃ target, desk.target? pool cls = some target ∧
        ∀ frame out, Follows pool allowed rounds
          (afterCall frame desk.callers out target sig.name args) out (call cls sig.name args)
          fun value out later => value.HasTy sig.ret ∧
            later = .working ⟨frame.receive value, desk.callers, out⟩

section

variable {pool : Pool} {allowed : RuntimeFault → Prop} {rounds : Nat} {desk : Desk}
  {offers : Offering} {call : Calls} {Θ : Context} {all : Slots} {file : String}

/-! ## Expressions -/

theorem getElem?_after_two {code : Array Instr} {place : Nat} {first second : List Instr}
    {instr : Instr} (h : StandsAt code place (first ++ second ++ [instr])) :
    code[place + first.length + second.length]? = some instr := by
  rw [Nat.add_assoc, ← List.length_append]
  exact h.right.head

theorem end_after_two (place : Nat) (first second : List Instr) (instr : Instr) :
    place + (first ++ second ++ [instr]).length = place + first.length + second.length + 1 := by
  rw [List.length_append, List.length_append, List.length_singleton, Nat.add_assoc, Nat.add_assoc,
    Nat.add_assoc]

theorem end_after_one (place : Nat) (first : List Instr) (instr : Instr) :
    place + (first ++ [instr]).length = place + first.length + 1 := by
  rw [List.length_append, List.length_singleton, Nat.add_assoc]

theorem operands_of_boolean {l r t : Ty}
    (h : (if l = .boolean ∧ r = .boolean then some Ty.boolean else none) = some t) :
    l = .boolean ∧ r = .boolean ∧ t = .boolean := by
  split at h
  · rename_i hboolean
    cases h
    exact ⟨hboolean.1, hboolean.2, rfl⟩
  · cases h

/-- Operations that need both sides have one instruction, after the code of the sides. -/
theorem binaryCode_strict {op : BinaryOp} (hand : op ≠ .and) (hor : op ≠ .or) (type : Ty) :
    ∃ instr, binaryInstr? op type = some instr ∧
      (∀ place left, rightPlace op place left = place + left.length) ∧
      ∀ place left right, binaryCode op type place left right = left ++ right ++ [instr] := by
  cases op with
  | and => exact absurd rfl hand
  | or => exact absurd rfl hor
  | _ => exact ⟨_, rfl, fun _ _ => rfl, fun _ _ _ => rfl⟩

theorem evalExpr_strict {op : BinaryOp} (hand : op ≠ .and) (hor : op ≠ .or) (store : Store)
    (left right : Expr) (note : Note) :
    evalExpr call store (.binary op left right note) =
      evalExpr call store left >>= fun first => evalExpr call store right >>= fun second =>
        .ofExcept (binaryValue op note.type first second) := by
  cases op with
  | and => exact absurd rfl hand
  | or => exact absurd rfl hor
  | _ => rfl

/-- The instruction of a call whose arguments are on the stack. -/
theorem execute_call {cls method : String} {values : List Value} {target : LoadedUnit}
    (hlength : values.length ≤ 65535) (htarget : desk.target? pool cls = some target)
    {locals : Array Value} {stack : List Value} {place : Nat} :
    (desk.frame locals (values.reverse ++ stack) place).execute pool
      (.call cls method (UInt16.ofNat values.length)) =
        .ok (.call target method values (desk.frame locals stack place)) := by
  -- the arguments can be counted, so the call takes exactly those off the stack
  have hcount : (UInt16.ofNat values.length).toNat = values.reverse.length := by
    rw [List.length_reverse]
    exact toNat_ofNat_of_le hlength
  have hargs : (values.reverse ++ stack).take values.reverse.length = values.reverse :=
    List.take_left
  have hrest : (values.reverse ++ stack).drop values.reverse.length = stack := List.drop_left
  unfold Desk.target? at htarget
  rw [Frame.execute, Frame.call, hcount]
  by_cases hown : cls = desk.unit.name
  · rw [if_pos hown] at htarget
    cases htarget
    subst hown
    simp only [Desk.frame, hargs, hrest, if_true, List.reverse_reverse]
  · rw [if_neg hown] at htarget
    simp only [Desk.frame, hargs, hrest, if_true, if_neg hown, htarget, List.reverse_reverse]

/-- The code of a local puts its value on the stack, or reads it while it has none. -/
theorem loadCode_follows {Γ : Context} {slots : Slots} {store : Store} {locals : Array Value}
    (hscope : InScope Γ slots Θ all store locals) {name : Ident} (note : Note) {t : Ty}
    (h : Γ.lookup name.name = some t) {code : List Instr}
    (hcode : loadCode file slots name = .ok code) {place : Nat} {stack : List Value}
    {out : String} (hat : StandsAt desk.method.code place code) :
    Follows pool allowed rounds (desk.status locals stack place out) out
      (evalExpr call store (.var name note))
      (desk.Holds t locals stack (place + code.length)) := by
  unfold loadCode at hcode
  split at hcode
  · rename_i slot hslot
    cases hcode
    have hlocal := hscope.held.load hscope.slots hscope.length hslot
    rw [evalExpr]
    -- a name without a value has a slot that holds none, and the evaluation stops at it
    cases hvalue : store.lookup name.name with
    | none =>
      rw [hvalue] at hlocal
      exact ⟨_, .refl _, slot, hat.head, hlocal⟩
    | some value =>
      rw [hvalue] at hlocal
      obtain ⟨s, hs, hvs⟩ := hscope.held.typed hvalue
      obtain rfl : t = s := Option.some.inj ((hscope.context _ _ h).symm.trans hs)
      have hexecute : (desk.frame locals stack (place + 1)).execute pool (.load slot)
          = .ok (.go ((desk.frame locals stack (place + 1)).push value)) := by
        show Effect.go <$> Frame.load _ slot = _
        unfold Frame.load
        rw [show (desk.frame locals stack (place + 1)).locals[slot.toNat]? = some value from hlocal]
        rfl
      exact (Follows.pure (Desk.holds hvs)).of_reaches (Desk.reaches_effect hat.head hexecute)
  · cases hcode

section

variable {first second : List Instr} {store : Store} {locals : Array Value} {stack : List Value}
  {place : Nat} {out : String} {note : Note}

/-- The code of a call has what the call returns on the stack, after the code of the arguments. -/
theorem callCode_follows (hfoot : Footing pool allowed rounds desk offers call)
    {receiver : Option Ident} {method : Ident} {args : List Expr} {cls : String} {params : List Ty}
    {t : Ty} (hoffer : offers cls ⟨method.name, params, t⟩) (hcount : args.length = params.length)
    (hat : StandsAt desk.method.code place
      (first ++ [.call cls method.name (UInt16.ofNat args.length)]))
    (hargs : Follows pool allowed rounds (desk.status locals stack place out) out
      (evalArgs call store args) fun values out later => Value.HaveTys values params ∧
        later = desk.status locals (values.reverse ++ stack) (place + first.length) out) :
    Follows pool allowed rounds (desk.status locals stack place out) out
      (evalExpr call store (.call receiver method args (some cls) note))
      (desk.Holds t locals stack (place
        + (first ++ [Instr.call cls method.name (UInt16.ofNat args.length)]).length)) := by
  rw [evalExpr, end_after_one]
  refine hargs.bind ?_
  rintro values out later ⟨hvalues, rfl⟩
  have hlast := hat.right.head
  -- the count in the instruction is that of the parameters, as there are as many arguments
  rw [hcount.trans hvalues.length.symm] at hlast
  obtain ⟨hlength, target, htarget, hcall⟩ :=
    hfoot.calls hoffer hvalues (Array.mem_toList_iff.mpr (Array.mem_of_getElem? hlast))
  refine ((hcall _ out).imp ?_).of_reaches
    (Desk.reaches_effect hlast (execute_call hlength htarget))
  rintro value out later ⟨hvalue, rfl⟩
  exact Desk.holds_receive hvalue

/-- The code of an operation that needs both sides computes it from their values. -/
theorem strictCode_follows (hadmits : Admits allowed) {op : BinaryOp} (hand : op ≠ .and)
    (hor : op ≠ .or) {left right : Expr} {l r t : Ty} (hnote : note.type = some t)
    (hop : binaryType? op l r = some t) {instr : Instr} (hinstr : binaryInstr? op t = some instr)
    (hat : StandsAt desk.method.code place (first ++ second ++ [instr])) (hl : l ≠ .void)
    (hleft : Follows pool allowed rounds (desk.status locals stack place out) out
      (evalExpr call store left) (desk.Holds l locals stack (place + first.length)))
    (hr : r ≠ .void)
    (hright : ∀ value out, Follows pool allowed rounds
      (desk.status locals (value :: stack) (place + first.length) out) out
      (evalExpr call store right)
      (desk.Holds r locals (value :: stack) (place + first.length + second.length))) :
    Follows pool allowed rounds (desk.status locals stack place out) out
      (evalExpr call store (.binary op left right note))
      (desk.Holds t locals stack (place + (first ++ second ++ [instr]).length)) := by
  rw [evalExpr_strict hand hor, end_after_two, hnote]
  refine Desk.follows_operand hleft hl fun a out ha => ?_
  refine Desk.follows_operand (hright a out) hr fun b out hb => ?_
  exact Desk.follows_compute (getElem?_after_two hat)
    (execute_binary pool (desk.frame locals stack _) hop hinstr ha hb)
    (binaryValue_yields hop hadmits.zero ha hb)

variable (hsize : desk.method.code.size < UInt32.size) {left right : Expr}

include hsize

/-- The code of `&&` looks at its right side only if the left one is true. -/
theorem andCode_follows (hat : StandsAt desk.method.code place (andCode place first second))
    (hleft : Follows pool allowed rounds (desk.status locals stack place out) out
      (evalExpr call store left) (desk.Holds .boolean locals stack (place + first.length)))
    (hright : ∀ out, Follows pool allowed rounds
      (desk.status locals stack (place + first.length + 1) out) out (evalExpr call store right)
      (desk.Holds .boolean locals stack (place + first.length + 1 + second.length))) :
    Follows pool allowed rounds (desk.status locals stack place out) out
      (evalExpr call store (.binary .and left right note))
      (desk.Holds .boolean locals stack (place + (andCode place first second).length)) := by
  have hcount : place + (andCode place first second).length
      = place + first.length + 1 + second.length + 2 := by
    simp only [andCode, List.length_append, List.length_cons, List.length_nil]
    omega
  have hend := hat.end_le (by simp [andCode])
  have hlast := hat.right
  rw [hcount] at hend ⊢
  rw [List.length_append, ← Nat.add_assoc, end_after_one] at hlast
  rw [evalExpr]
  refine Desk.follows_operand hleft nofun fun a out ha => ?_
  obtain ⟨b, rfl⟩ := ha.bool_inv
  refine Follows.of_reaches ?_
    (Desk.reaches_test hsize hat.left.left.right.head (by omega) b)
  cases b with
  | false =>
    have hpush := hlast.tail.head
    -- the jump goes behind the right side, to where a `false` is pushed
    rw [show place + first.length + 1 + second.length + 1
      = place + first.length + second.length + 2 by omega] at hpush
    rw [show place + first.length + 1 + second.length + 2
      = place + first.length + second.length + 2 + 1 by omega]
    exact (Follows.pure (Desk.holds .bool)).of_reaches (Desk.reaches_effect hpush rfl)
  | true =>
    refine Desk.follows_operand (hright out) nofun fun c out hc => ?_
    obtain ⟨d, rfl⟩ := hc.bool_inv
    refine Follows.of_reaches ?_ (Desk.reaches_jump hsize hlast.head (by omega))
    -- the value of the right side is the result, and the push of `false` is jumped over
    rw [show place + first.length + second.length + 3
      = place + first.length + 1 + second.length + 2 by omega]
    exact Follows.pure (Desk.holds .bool)

/-- The code of `||` looks at its right side only if the left one is false. -/
theorem orCode_follows (hat : StandsAt desk.method.code place (orCode place first second))
    (hleft : Follows pool allowed rounds (desk.status locals stack place out) out
      (evalExpr call store left) (desk.Holds .boolean locals stack (place + first.length)))
    (hright : ∀ out, Follows pool allowed rounds
      (desk.status locals stack (place + first.length + 3) out) out (evalExpr call store right)
      (desk.Holds .boolean locals stack (place + first.length + 3 + second.length))) :
    Follows pool allowed rounds (desk.status locals stack place out) out
      (evalExpr call store (.binary .or left right note))
      (desk.Holds .boolean locals stack (place + (orCode place first second).length)) := by
  have hcount : place + (orCode place first second).length
      = place + first.length + 3 + second.length := by
    simp only [orCode, List.length_append, List.length_cons, List.length_nil]
    omega
  have hend := hat.end_le (by simp [orCode])
  have hafter := hat.left.right
  rw [hcount] at hend ⊢
  rw [evalExpr]
  refine Desk.follows_operand hleft nofun fun a out ha => ?_
  obtain ⟨b, rfl⟩ := ha.bool_inv
  refine Follows.of_reaches ?_ (Desk.reaches_test hsize hafter.head (by omega) b)
  cases b with
  | true =>
    refine Follows.of_reaches ?_ (Desk.reaches_effect hafter.tail.head rfl)
    refine Follows.of_reaches ?_ (Desk.reaches_jump hsize hafter.tail.tail.head (by omega))
    -- a `true` is pushed before the right side, which is jumped over
    rw [show place + first.length + second.length + 3
      = place + first.length + 3 + second.length by omega]
    exact Follows.pure (Desk.holds .bool)
  | false =>
    refine Desk.follows_operand (hright out) nofun fun c out hc => ?_
    obtain ⟨d, rfl⟩ := hc.bool_inv
    exact Follows.pure (Desk.holds .bool)

end

mutual

/-- The code of an expression follows the expression. -/
theorem exprCode_follows (hfoot : Footing pool allowed rounds desk offers call) {Γ : Context}
    {slots : Slots} {store : Store} {locals : Array Value}
    (hscope : InScope Γ slots Θ all store locals) :
    ∀ (e : Expr) {t : Ty} {place : Nat} {code : List Instr} {stack : List Value} {out : String},
      HasTy offers Γ e t → exprCode file slots place e = .ok code →
      StandsAt desk.method.code place code →
      Follows pool allowed rounds (desk.status locals stack place out) out
        (evalExpr call store e) (desk.Holds t locals stack (place + code.length))
  | .int value note, t, place, code, stack, out, h, hcode, hat => by
    simp only [exprCode, bind_eq_ok, pure_eq_ok] at hcode
    obtain ⟨_, -, rfl⟩ := hcode
    cases h
    exact (Follows.pure (Desk.holds .int)).of_reaches (Desk.reaches_effect hat.head rfl)
  | .bool value note, t, place, code, stack, out, h, hcode, hat => by
    simp only [exprCode, bind_eq_ok, pure_eq_ok] at hcode
    obtain ⟨_, -, rfl⟩ := hcode
    cases h
    exact (Follows.pure (Desk.holds .bool)).of_reaches (Desk.reaches_effect hat.head rfl)
  | .string value note, t, place, code, stack, out, h, hcode, hat => by
    simp only [exprCode, bind_eq_ok, pure_eq_ok] at hcode
    obtain ⟨_, -, rfl⟩ := hcode
    cases h
    exact (Follows.pure (Desk.holds .string)).of_reaches (Desk.reaches_effect hat.head rfl)
  | .var name note, t, place, code, stack, out, h, hcode, hat => by
    simp only [exprCode, bind_eq_ok] at hcode
    obtain ⟨_, -, hload⟩ := hcode
    cases h with
    | var _ hname => exact loadCode_follows hscope note hname hload hat
  | .call receiver method args target note, t, place, code, stack, out, h, hcode, hat => by
    cases h with
    | @call _ _ _ cls _ params _ _ hoffer hargs =>
      simp only [exprCode, bind_eq_ok, pure_eq_ok] at hcode
      obtain ⟨_, -, _, hcls, first, hfirst, rfl⟩ := hcode
      cases hcls
      exact callCode_follows hfoot hoffer hargs.length hat
        (argsCode_follows hfoot hscope args hargs hfirst hat.left)
  | .index array position note, t, place, code, stack, out, h, hcode, hat => by
    simp only [exprCode, bind_eq_ok, pure_eq_ok] at hcode
    obtain ⟨_, -, first, hfirst, second, hsecond, rfl⟩ := hcode
    cases h with
    | index _ harray hposition =>
      rw [evalExpr, end_after_two]
      refine Desk.follows_operand
        (exprCode_follows hfoot hscope array harray hfirst hat.left.left) nofun
        fun target out htarget => ?_
      refine Desk.follows_operand
        (exprCode_follows hfoot hscope position hposition hsecond hat.left.right) nofun
        fun n out hn => ?_
      exact Desk.follows_compute (getElem?_after_two hat)
        (execute_index pool (desk.frame locals stack _) htarget hn)
        (elementOf_yields htarget hn hfoot.admits.bounds)
  | .length value note, t, place, code, stack, out, h, hcode, hat => by
    simp only [exprCode, bind_eq_ok, pure_eq_ok] at hcode
    obtain ⟨_, -, first, hfirst, rfl⟩ := hcode
    cases h with
    | @length _ _ s _ hvalue hs =>
      have hvoid : s ≠ .void := by
        rcases hs with rfl | ⟨element, rfl⟩ <;> nofun
      rw [evalExpr, end_after_one]
      refine Desk.follows_operand
        (exprCode_follows hfoot hscope value hvalue hfirst hat.left) hvoid
        fun target out htarget => ?_
      exact Desk.follows_compute hat.right.head
        (execute_length pool (desk.frame locals stack _) htarget hs) (lengthOf_yields htarget hs)
  | .unary op operand note, t, place, code, stack, out, h, hcode, hat => by
    simp only [exprCode, bind_eq_ok, pure_eq_ok] at hcode
    obtain ⟨_, -, first, hfirst, rfl⟩ := hcode
    cases h with
    | @unary _ _ _ s _ _ hoperand hop =>
      have hvoid : s ≠ .void := by
        rintro rfl
        cases op <;> cases hop
      rw [evalExpr, end_after_one]
      refine Desk.follows_operand
        (exprCode_follows hfoot hscope operand hoperand hfirst hat.left) hvoid
        fun value out hvalue => ?_
      exact Desk.follows_compute hat.right.head
        (execute_unary pool (desk.frame locals stack _) hop hvalue) (unaryValue_yields hop hvalue)
  | .binary op left right note, t, place, code, stack, out, h, hcode, hat => by
    simp only [exprCode, bind_eq_ok, pure_eq_ok] at hcode
    obtain ⟨type, htype, first, hfirst, second, hsecond, rfl⟩ := hcode
    cases (typeOf_eq_ok htype).1.symm.trans h.note
    cases h with
    | @binary _ _ _ _ l r _ hnote hleft hright hl hr hop =>
      -- two operators may jump over their right operand; the others take both operands off the
      -- stack
      by_cases hand : op = .and
      · subst hand
        obtain ⟨rfl, rfl, rfl⟩ := operands_of_boolean hop
        exact andCode_follows hfoot.size hat
          (exprCode_follows hfoot hscope left hleft hfirst hat.left.left.left)
          fun out => exprCode_follows hfoot hscope right hright hsecond
            (end_after_one place first _ ▸ hat.left.right)
      · by_cases hor : op = .or
        · subst hor
          obtain ⟨rfl, rfl, rfl⟩ := operands_of_boolean hop
          exact orCode_follows hfoot.size hat
            (exprCode_follows hfoot hscope left hleft hfirst hat.left.left)
            fun out => exprCode_follows hfoot hscope right hright hsecond (by
              have hstands := hat.right
              rwa [List.length_append, ← Nat.add_assoc] at hstands)
        · obtain ⟨instr, hinstr, hplace, hbinary⟩ := binaryCode_strict hand hor t
          rw [hplace] at hsecond
          rw [hbinary] at hat ⊢
          exact strictCode_follows hfoot.admits hand hor hnote hop hinstr hat hl
            (exprCode_follows hfoot hscope left hleft hfirst hat.left.left) hr
            fun value out => exprCode_follows hfoot hscope right hright hsecond hat.left.right

/-- The code of arguments leaves their values on the stack, the last one on top. -/
theorem argsCode_follows (hfoot : Footing pool allowed rounds desk offers call) {Γ : Context}
    {slots : Slots} {store : Store} {locals : Array Value}
    (hscope : InScope Γ slots Θ all store locals) :
    ∀ (es : List Expr) {ts : List Ty} {place : Nat} {code : List Instr} {stack : List Value}
      {out : String}, HaveTys offers Γ es ts → argsCode file slots place es = .ok code →
      StandsAt desk.method.code place code →
      Follows pool allowed rounds (desk.status locals stack place out) out
        (evalArgs call store es) fun values out later => Value.HaveTys values ts ∧
          later = desk.status locals (values.reverse ++ stack) (place + code.length) out
  | [], ts, place, code, stack, out, h, hcode, hat => by
    cases hcode
    cases h
    exact Follows.pure ⟨.nil, rfl⟩
  | e :: es, ts, place, code, stack, out, h, hcode, hat => by
    simp only [argsCode, bind_eq_ok, pure_eq_ok] at hcode
    obtain ⟨first, hfirst, rest, hrest, rfl⟩ := hcode
    cases h with
    | cons he ht hes =>
      rw [evalArgs]
      refine Desk.follows_operand
        (exprCode_follows hfoot hscope e he hfirst hat.left) ht fun value out hvalue => ?_
      refine (argsCode_follows hfoot hscope es hes hrest hat.right).bind ?_
      rintro values out later ⟨hvalues, rfl⟩
      refine Follows.pure ⟨.cons hvalue hvalues, ?_⟩
      rw [List.reverse_cons, List.append_assoc, List.singleton_append, List.length_append,
        Nat.add_assoc]

end

/-! ## Statements -/

/-- Where the machine is after a statement that ends at `place`: there, with the store in the slots,
or back where the method returns to. -/
def Desk.Flows (desk : Desk) (ret : Ty) (Θ : Context) (all : Slots) (place : Nat) :
    Flow → String → Status → Prop
  | .next store, out, later => ∃ locals stack, Matches Θ all store locals ∧
    later = desk.status locals stack place out
  | .returned value, out, later =>
    value.HasTy ret ∧ later = afterReturn desk.callers out value

/-- The code from `start` to `stop` does what is done to a store. -/
def Desk.Does (desk : Desk) (pool : Pool) (allowed : RuntimeFault → Prop) (rounds : Nat) (ret : Ty)
    (Θ : Context) (all : Slots) (start stop : Nat) (doing : Store → Doing Flow) : Prop :=
  ∀ ⦃store locals⦄ stack out, Matches Θ all store locals →
    Follows pool allowed rounds (desk.status locals stack start out) out (doing store)
      (desk.Flows ret Θ all stop)

/-- The code from `start` to `stop` puts the truth of a condition on the stack. -/
def Desk.Tests (desk : Desk) (pool : Pool) (allowed : RuntimeFault → Prop) (rounds : Nat)
    (Θ : Context) (all : Slots) (start stop : Nat) (test : Store → Doing Bool) : Prop :=
  ∀ ⦃store locals⦄ stack out, Matches Θ all store locals →
    Follows pool allowed rounds (desk.status locals stack start out) out (test store)
      fun b out later => later = desk.status locals (.bool b :: stack) stop out

variable {ret : Ty} {start mid stop : Nat}

theorem Desk.Does.goOn {first next : Store → Doing Flow}
    (hfirst : desk.Does pool allowed rounds ret Θ all start mid first)
    (hnext : desk.Does pool allowed rounds ret Θ all mid stop next) :
    desk.Does pool allowed rounds ret Θ all start stop fun store => first store >>= goOn next := by
  intro store locals stack out hmatch
  refine (hfirst stack out hmatch).bind fun flow out later hlater => ?_
  cases flow with
  | next store =>
    obtain ⟨locals, stack, hmatch, rfl⟩ := hlater
    exact hnext stack out hmatch
  | returned value => exact Follows.pure hlater

theorem Desk.Does.skip :
    desk.Does pool allowed rounds ret Θ all start start fun store => pure (.next store) :=
  fun _ _ stack _ hmatch => Follows.pure ⟨_, stack, hmatch, rfl⟩

theorem Desk.Does.mono {doing : Store → Doing Flow} {fewer : Nat}
    (h : desk.Does pool allowed rounds ret Θ all start stop doing) (hle : fewer ≤ rounds) :
    desk.Does pool allowed fewer ret Θ all start stop doing :=
  fun _ _ stack out hmatch => (h stack out hmatch).mono hle

/-- What is done may end with a jump. -/
theorem Desk.Does.jump {doing : Store → Doing Flow}
    (h : desk.Does pool allowed rounds ret Θ all start mid doing)
    (hsize : desk.method.code.size < UInt32.size)
    (hjump : desk.method.code[mid]? = some (.jump (placeNumber stop)))
    (hstop : stop ≤ desk.method.code.size) :
    desk.Does pool allowed rounds ret Θ all start stop doing := by
  intro store locals stack out hmatch
  refine (h stack out hmatch).extend fun flow out later hlater => ?_
  cases flow with
  | next store =>
    obtain ⟨locals, stack, hmatch, rfl⟩ := hlater
    exact ⟨_, Desk.reaches_jump hsize hjump hstop, locals, stack, hmatch, rfl⟩
  | returned value => exact ⟨later, .refl later, hlater⟩

/-- A test, a jump behind what is done if it holds, and what is done if it does not. -/
theorem Desk.Does.test {test : Store → Doing Bool} {holds fails : Store → Doing Flow}
    {other : Nat} (htest : desk.Tests pool allowed rounds Θ all start mid test)
    (hsize : desk.method.code.size < UInt32.size)
    (hjump : desk.method.code[mid]? = some (.jumpIfFalse (placeNumber other)))
    (hother : other ≤ desk.method.code.size)
    (hholds : desk.Does pool allowed rounds ret Θ all (mid + 1) stop holds)
    (hfails : desk.Does pool allowed rounds ret Θ all other stop fails) :
    desk.Does pool allowed rounds ret Θ all start stop fun store =>
      test store >>= fun b => if b then holds store else fails store := by
  intro store locals stack out hmatch
  refine (htest stack out hmatch).bind ?_
  rintro b out later rfl
  refine Follows.of_reaches ?_ (Desk.reaches_test hsize hjump hother b)
  cases b with
  | true => exact hholds stack out hmatch
  | false => exact hfails stack out hmatch

/-- The code of a loop follows the loop. Each round takes a step of its own, the jump back, so that
a loop that uses up its rounds keeps the machine at work for as many steps. -/
theorem Desk.Does.loop {test : Store → Doing Bool} {body : Store → Doing Flow} {back : Nat}
    (htest : desk.Tests pool allowed rounds Θ all start mid test)
    (hsize : desk.method.code.size < UInt32.size)
    (hexit : desk.method.code[mid]? = some (.jumpIfFalse (placeNumber stop)))
    (hstop : stop ≤ desk.method.code.size)
    (hbody : desk.Does pool allowed rounds ret Θ all (mid + 1) back body)
    (hback : desk.method.code[back]? = some (.jump (placeNumber start)))
    (hstart : start ≤ desk.method.code.size) :
    ∀ n ≤ rounds, desk.Does pool allowed n ret Θ all start stop (repeatWhile test body n)
  | 0, _ => fun _ _ _ _ _ => ⟨_, rfl⟩
  | n + 1, hn => by
    -- the induction is on the rounds, and one of the steps of a round is the jump back
    have hrest := Desk.Does.loop htest hsize hexit hstop hbody hback hstart n (by omega)
    have hagain : desk.Does pool allowed (n + 1) ret Θ all back stop (repeatWhile test body n) := by
      intro store locals stack out hmatch
      refine Follows.step ?_
      rw [Desk.step_jump hsize hback hstart]
      exact hrest stack out hmatch
    exact .test (fun _ _ stack out hmatch => (htest stack out hmatch).mono hn) hsize hexit hstop
      ((hbody.mono hn).goOn hagain) .skip

section

variable (hsize : desk.method.code.size < UInt32.size) {place : Nat} {test body rest : List Instr}
  {condition : Store → Doing Bool} {taken others : Store → Doing Flow}

include hsize

/-- The code of a loop follows the loop. -/
theorem loopCode_follows
    (hat : StandsAt desk.method.code place (test
      ++ [.jumpIfFalse (placeNumber (place + test.length + 1 + body.length + 1))] ++ body
      ++ [.jump (placeNumber place)]))
    (htest : desk.Tests pool allowed rounds Θ all place (place + test.length) condition)
    (hbody : desk.Does pool allowed rounds ret Θ all (place + test.length + 1)
      (place + test.length + 1 + body.length) taken) :
    desk.Does pool allowed rounds ret Θ all place
      (place + (test
        ++ [Instr.jumpIfFalse (placeNumber (place + test.length + 1 + body.length + 1))]
        ++ body ++ [Instr.jump (placeNumber place)]).length)
      (repeatWhile condition taken rounds) := by
  have hback := hat.right.head
  have hstop := hat.end_le (by simp)
  rw [List.length_append, ← Nat.add_assoc, end_after_one] at hback
  rw [end_after_one, List.length_append, ← Nat.add_assoc, end_after_one] at hstop ⊢
  exact .loop htest hsize hat.left.left.right.head hstop hbody hback (by omega) rounds
    (Nat.le_refl rounds)

/-- The code of a branch follows the branch and those after it. -/
theorem branchCode_follows
    (hat : StandsAt desk.method.code place (test
      ++ [.jumpIfFalse (placeNumber (place + test.length + 1 + body.length + 1))] ++ body
      ++ [.jump (placeNumber (place + test.length + 1 + body.length + 1 + rest.length))] ++ rest))
    (htest : desk.Tests pool allowed rounds Θ all place (place + test.length) condition)
    (hbody : desk.Does pool allowed rounds ret Θ all (place + test.length + 1)
      (place + test.length + 1 + body.length) taken)
    (hrest : desk.Does pool allowed rounds ret Θ all (place + test.length + 1 + body.length + 1)
      (place + test.length + 1 + body.length + 1 + rest.length) others) :
    desk.Does pool allowed rounds ret Θ all place
      (place + (test
        ++ [Instr.jumpIfFalse (placeNumber (place + test.length + 1 + body.length + 1))] ++ body
        ++ [Instr.jump (placeNumber (place + test.length + 1 + body.length + 1 + rest.length))]
        ++ rest).length)
      fun store => condition store >>= fun b => if b then taken store else others store := by
  have hjump := hat.left.right.head
  have hnext := hat.left.end_le (by simp)
  have hstop := hat.end_le (by simp)
  rw [List.length_append, ← Nat.add_assoc, end_after_one] at hjump
  rw [end_after_one, List.length_append, ← Nat.add_assoc, end_after_one] at hnext
  rw [List.length_append, ← Nat.add_assoc, end_after_one, List.length_append, ← Nat.add_assoc,
    end_after_one] at hstop ⊢
  exact .test htest hsize hat.left.left.left.right.head hnext (hbody.jump hsize hjump hstop) hrest

end

theorem testCode_follows (hfoot : Footing pool allowed rounds desk offers call) {Γ : Context}
    {slots : Slots} (hΓ : Γ.Within Θ) (hslots : slots <+: all) (hlength : all.length ≤ 65535)
    {condition : Expr} (h : HasTy offers Γ condition .boolean) {place : Nat} {code : List Instr}
    (hcode : exprCode file slots place condition = .ok code)
    (hat : StandsAt desk.method.code place code) :
    desk.Tests pool allowed rounds Θ all place (place + code.length)
      (evalTest call · condition) := by
  intro store locals stack out hmatch
  refine Desk.follows_operand
    (exprCode_follows hfoot ⟨hΓ, hslots, hlength, hmatch⟩ condition h hcode hat) nofun
    fun value out hvalue => ?_
  obtain ⟨b, rfl⟩ := hvalue.bool_inv
  exact Follows.pure rfl

theorem execute_store {locals : Array Value} {stack : List Value} {place : Nat} {value : Value}
    {slot : UInt16} (hslot : slot.toNat < locals.size) :
    (desk.frame locals (value :: stack) place).execute pool (.store slot) =
      .ok (.go (desk.frame (locals.setIfInBounds slot.toNat value) stack place)) := by
  show Effect.go <$> (if slot.toNat < locals.size then _ else _) = _
  rw [if_pos hslot]
  rfl

/-- Code that computes a value and then one instruction that takes it. -/
theorem valueCode_follows (hfoot : Footing pool allowed rounds desk offers call) {Γ : Context}
    {slots : Slots} {store : Store} {locals : Array Value}
    (hscope : InScope Γ slots Θ all store locals) {value : Expr} {t : Ty}
    (h : HasTy offers Γ value t) (ht : t ≠ .void) {place : Nat} {code : List Instr} {instr : Instr}
    (hcode : exprCode file slots place value = .ok code)
    (hat : StandsAt desk.method.code place (code ++ [instr])) {stack : List Value} {out : String}
    {next : Value → Doing Flow} {goal : Flow → String → Status → Prop}
    (hnext : ∀ v out, v.HasTy t → Follows pool allowed rounds
      (desk.afterEffect out ((desk.frame locals (v :: stack) (place + code.length + 1)).execute
        pool instr)) out (next v) goal) :
    Follows pool allowed rounds (desk.status locals stack place out) out
      (evalExpr call store value >>= next) goal := by
  refine Desk.follows_operand
    (exprCode_follows hfoot hscope value h hcode hat.left) ht fun v out hv => ?_
  exact (hnext v out hv).of_reaches (Desk.reaches_effect hat.right.head rfl)

/-- The code of a bare expression computes its value and drops it. -/
theorem dropCode_follows (hfoot : Footing pool allowed rounds desk offers call) {Γ : Context}
    {slots : Slots} (hΓ : Γ.Within Θ) (hslots : slots <+: all) (hlength : all.length ≤ 65535)
    {value : Expr} {t : Ty} (h : HasTy offers Γ value t) {place : Nat} {code : List Instr}
    (hcode : exprCode file slots place value = .ok code)
    (hat : StandsAt desk.method.code place (code ++ if t.isVoid then [] else [.pop]))
    (span : Span) :
    desk.Does pool allowed rounds ret Θ all place
      (place + (code ++ if t.isVoid then [] else [Instr.pop]).length)
      (doStmt call rounds (.expr value span)) := by
  intro store locals stack out hmatch
  have hscope : InScope Γ slots Θ all store locals := ⟨hΓ, hslots, hlength, hmatch⟩
  rw [doStmt]
  by_cases hvoid : t = .void
  · -- what an expression of `void` leaves on the stack is not popped; nothing looks at it
    subst hvoid
    refine (exprCode_follows hfoot hscope value h hcode hat.left).bind ?_
    rintro v out later ⟨-, after, rfl, -⟩
    refine Follows.pure ⟨locals, after, hmatch, ?_⟩
    rw [if_pos (Ty.isVoid_iff.mpr rfl), List.append_nil]
  · have hdropped : (if t.isVoid = true then [] else [Instr.pop]) = [.pop] :=
      if_neg fun h => hvoid (Ty.isVoid_iff.mp h)
    rw [hdropped] at hat ⊢
    rw [end_after_one]
    exact valueCode_follows hfoot hscope h hvoid hcode hat
      fun v out hv => Follows.pure ⟨locals, stack, hmatch, rfl⟩

/-- The code of an assignment computes the value and stores it in the slot of the local. -/
theorem storeCode_follows (hfoot : Footing pool allowed rounds desk offers call)
    (hall : all.Nodup) (hlength : all.length ≤ 65535) {Γ : Context} {slots : Slots}
    (hΓ : Γ.Within Θ) {target : Ident} (hslots : addSlot slots target.name <+: all) {value : Expr}
    {t : Ty} (h : HasTy offers Γ value t) (ht : t ≠ .void) (hlocal : Θ.lookup target.name = some t)
    {place : Nat} {code : List Instr} (hcode : exprCode file slots place value = .ok code)
    {slot : UInt16} (hslot : slotOf? (addSlot slots target.name) target.name = some slot)
    (hat : StandsAt desk.method.code place (code ++ [.store slot])) (span : Span) :
    desk.Does pool allowed rounds ret Θ all place (place + (code ++ [Instr.store slot]).length)
      (doStmt call rounds (.assign target value span)) := by
  intro store locals stack out hmatch
  rw [doStmt, end_after_one]
  have hscope : InScope Γ slots Θ all store locals :=
    ⟨hΓ, prefix_addSlot.trans hslots, hlength, hmatch⟩
  have hget := getElem?_of_slotOf? hslots hlength hslot
  have hbound := (Array.getElem?_eq_some_iff.mp (hmatch.held hget)).1
  refine valueCode_follows hfoot hscope h ht hcode hat fun v out hv => ?_
  rw [execute_store hbound]
  exact Follows.pure ⟨_, stack, hmatch.assign hall hget hlocal hv, rfl⟩

mutual

/-- The code of a statement follows the statement. -/
theorem stmtCode_follows (hfoot : Footing pool allowed rounds desk offers call)
    (hall : all.Nodup) (hlength : all.length ≤ 65535) :
    ∀ (stmt : Stmt) {Γ Δ : Context} {slots : Slots} {place : Nat} {emitted : Emitted},
      StmtHasTy offers ret Γ stmt Δ → Δ.Within Θ →
      stmtCode file slots place stmt = .ok emitted → emitted.slots <+: all →
      StandsAt desk.method.code place emitted.code →
      desk.Does pool allowed rounds ret Θ all place (place + emitted.code.length)
        (doStmt call rounds stmt)
  | .expr value span, Γ, Δ, slots, place, emitted, h, hΔ, hcode, hslots, hat => by
    simp only [stmtCode, bind_eq_ok, pure_eq_ok] at hcode
    obtain ⟨type, htype, code, hvalue, rfl⟩ := hcode
    cases h with
    | expr htyped =>
      cases (typeOf_eq_ok htype).1.symm.trans htyped.note
      exact dropCode_follows hfoot hΔ hslots hlength htyped hvalue hat span
  | .assign target value span, Γ, Δ, slots, place, emitted, h, hΔ, hcode, hslots, hat => by
    simp only [stmtCode, bind_eq_ok, pure_eq_ok] at hcode
    obtain ⟨code, hvalue, rfl⟩ := hcode
    -- old or new, the local has the type of the value by the end of the method
    obtain ⟨t, htyped, ht, hΓ, hlocal⟩ : ∃ t, HasTy offers Γ value t ∧ t ≠ .void ∧ Γ.Within Θ ∧
        Θ.lookup target.name = some t := by
      have hwithin := h.within.trans hΔ
      cases h with
      | assign htyped ht hlocal => exact ⟨_, htyped, ht, hwithin, hΔ _ _ hlocal⟩
      | declare htyped ht hlocal => exact ⟨_, htyped, ht, hwithin, hΔ _ _ List.lookup_cons_self⟩
    obtain ⟨slot, hslot⟩ := slotOf?_of_mem (mem_addSlot.mpr (.inr (Eq.refl target.name)))
    rw [hslot] at hat ⊢
    exact storeCode_follows hfoot hall hlength hΓ hslots htyped ht hlocal hvalue hslot hat span
  | .cond chain span, Γ, Δ, slots, place, emitted, h, hΔ, hcode, hslots, hat => by
    simp only [stmtCode, bind_eq_ok, pure_eq_ok] at hcode
    obtain ⟨inner, hinner, rfl⟩ := hcode
    cases h with
    | cond hchain =>
      intro store locals stack out hmatch
      rw [doStmt]
      exact chainCode_follows hfoot hall hlength chain hchain hΔ hinner hslots hat stack out hmatch
  | .loop condition body span, Γ, Δ, slots, place, emitted, h, hΔ, hcode, hslots, hat => by
    simp only [stmtCode, bind_eq_ok, pure_eq_ok] at hcode
    obtain ⟨test, htest, inner, hinner, rfl⟩ := hcode
    cases h with
    | loop hcondition hbody =>
      have hbodyat := hat.left.right
      rw [code_plain, end_after_one] at hbodyat
      -- the condition is read with the slots from before the body, which stay as they are
      have hstarts : slots <+: inner.slots := prefix_of_slots (slots_blockCode body hinner)
      have htestfollows := testCode_follows hfoot (hbody.within.trans hΔ)
        (hstarts.trans hslots) hlength hcondition htest hat.left.left.left
      have hbodyfollows := blockCode_follows hfoot hall hlength body hbody hΔ hinner hslots hbodyat
      intro store locals stack out hmatch
      rw [doStmt]
      exact loopCode_follows hfoot.size hat htestfollows hbodyfollows stack out hmatch
  | .ret (some value) span, Γ, Δ, slots, place, emitted, h, hΔ, hcode, hslots, hat => by
    simp only [stmtCode, bind_eq_ok, pure_eq_ok] at hcode
    obtain ⟨code, hvalue, rfl⟩ := hcode
    cases h with
    | ret htyped hret =>
      intro store locals stack out hmatch
      rw [doStmt]
      exact valueCode_follows hfoot ⟨hΔ, hslots, hlength, hmatch⟩ htyped hret hvalue hat
        fun v out hv => Follows.pure ⟨hv, rfl⟩
  | .ret none span, Γ, Δ, slots, place, emitted, h, hΔ, hcode, hslots, hat => by
    cases hcode
    cases h with
    | retVoid hret =>
      intro store locals stack out hmatch
      rw [doStmt]
      subst hret
      exact (Follows.pure ⟨.void, rfl⟩).of_reaches (Desk.reaches_effect hat.head rfl)
  | .puts value span, Γ, Δ, slots, place, emitted, h, hΔ, hcode, hslots, hat => by
    simp only [stmtCode, bind_eq_ok, pure_eq_ok] at hcode
    obtain ⟨code, hvalue, rfl⟩ := hcode
    cases h with
    | puts htyped ht =>
      intro store locals stack out hmatch
      rw [doStmt]
      refine valueCode_follows hfoot ⟨hΔ, hslots, hlength, hmatch⟩ htyped ht hvalue hat
        fun v out hv => ?_
      refine ⟨_, .refl _, locals, stack, hmatch, ?_⟩
      rw [code_markLine, code_plain, end_after_one, ← String.append_assoc]
      rfl
  | .raise value span, Γ, Δ, slots, place, emitted, h, hΔ, hcode, hslots, hat => by
    simp only [stmtCode, bind_eq_ok, pure_eq_ok] at hcode
    obtain ⟨code, hvalue, rfl⟩ := hcode
    cases h with
    | raise htyped ht =>
      intro store locals stack out hmatch
      rw [doStmt]
      refine valueCode_follows hfoot ⟨hΔ, hslots, hlength, hmatch⟩ htyped ht hvalue hat
        fun v out hv => ?_
      exact Follows.fail (hfoot.admits.raised _)

theorem blockCode_follows (hfoot : Footing pool allowed rounds desk offers call)
    (hall : all.Nodup) (hlength : all.length ≤ 65535) :
    ∀ (block : Block) {Γ Δ : Context} {slots : Slots} {place : Nat} {emitted : Emitted},
      BlockHasTy offers ret Γ block Δ → Δ.Within Θ →
      blockCode file slots place block = .ok emitted → emitted.slots <+: all →
      StandsAt desk.method.code place emitted.code →
      desk.Does pool allowed rounds ret Θ all place (place + emitted.code.length)
        (doBlock call rounds block)
  | .mk stmts span, Γ, Δ, slots, place, emitted, h, hΔ, hcode, hslots, hat => by
    cases h with
    | mk hstmts =>
      intro store locals stack out hmatch
      rw [doBlock]
      exact stmtsCode_follows hfoot hall hlength stmts hstmts hΔ hcode hslots hat stack out hmatch

theorem stmtsCode_follows (hfoot : Footing pool allowed rounds desk offers call)
    (hall : all.Nodup) (hlength : all.length ≤ 65535) :
    ∀ (stmts : List Stmt) {Γ Δ : Context} {slots : Slots} {place : Nat} {emitted : Emitted},
      StmtsHaveTy offers ret Γ stmts Δ → Δ.Within Θ →
      stmtsCode file slots place stmts = .ok emitted → emitted.slots <+: all →
      StandsAt desk.method.code place emitted.code →
      desk.Does pool allowed rounds ret Θ all place (place + emitted.code.length)
        (doStmts call rounds stmts)
  | [], Γ, Δ, slots, place, emitted, h, hΔ, hcode, hslots, hat => by
    cases hcode
    exact .skip
  | stmt :: rest, Γ, Δ, slots, place, emitted, h, hΔ, hcode, hslots, hat => by
    simp only [stmtsCode, bind_eq_ok, pure_eq_ok] at hcode
    obtain ⟨first, hfirst, others, hothers, rfl⟩ := hcode
    cases h with
    | cons hstmt hrest =>
      have hstarts : first.slots <+: others.slots :=
        prefix_of_slots (slots_stmtsCode rest hothers)
      have hfollows := stmtCode_follows hfoot hall hlength stmt hstmt (hrest.within.trans hΔ) hfirst
        (hstarts.trans hslots) hat.left
      have hothersfollow :=
        stmtsCode_follows hfoot hall hlength rest hrest hΔ hothers hslots hat.right
      intro store locals stack out hmatch
      rw [doStmts, code_append, List.length_append, ← Nat.add_assoc]
      exact hfollows.goOn hothersfollow stack out hmatch

theorem chainCode_follows (hfoot : Footing pool allowed rounds desk offers call)
    (hall : all.Nodup) (hlength : all.length ≤ 65535) :
    ∀ (chain : Chain) {Γ Δ : Context} {slots : Slots} {place : Nat} {emitted : Emitted},
      ChainHasTy offers ret Γ chain Δ → Δ.Within Θ →
      chainCode file slots place chain = .ok emitted → emitted.slots <+: all →
      StandsAt desk.method.code place emitted.code →
      desk.Does pool allowed rounds ret Θ all place (place + emitted.code.length)
        (doChain call rounds chain)
  | .done, Γ, Δ, slots, place, emitted, h, hΔ, hcode, hslots, hat => by
    cases hcode
    exact .skip
  | .otherwise body, Γ, Δ, slots, place, emitted, h, hΔ, hcode, hslots, hat => by
    cases h with
    | otherwise hbody =>
      exact blockCode_follows hfoot hall hlength body hbody hΔ hcode hslots hat
  | .branch condition body rest, Γ, Δ, slots, place, emitted, h, hΔ, hcode, hslots, hat => by
    simp only [chainCode, bind_eq_ok, pure_eq_ok] at hcode
    obtain ⟨test, htest, taken, htaken, others, hothers, rfl⟩ := hcode
    cases h with
    | branch hcondition hbody hrest =>
      have htakenat := hat.left.left.right
      have hothersat := hat.right
      rw [code_plain, end_after_one] at htakenat
      rw [code_append, code_append, code_plain, code_plain, end_after_one, List.length_append,
        ← Nat.add_assoc, end_after_one] at hothersat
      have htaken' : slots <+: taken.slots := prefix_of_slots (slots_blockCode body htaken)
      have hothers' : taken.slots <+: all :=
        (prefix_of_slots (slots_chainCode rest hothers)).trans hslots
      have hΔ' := hrest.within.trans hΔ
      have htestfollows := testCode_follows hfoot (hbody.within.trans hΔ')
        (htaken'.trans hothers') hlength hcondition htest hat.left.left.left.left
      have hbodyfollows :=
        blockCode_follows hfoot hall hlength body hbody hΔ' htaken hothers' htakenat
      have hrestfollows :=
        chainCode_follows hfoot hall hlength rest hrest hΔ hothers hslots hothersat
      intro store locals stack out hmatch
      rw [doChain]
      exact branchCode_follows hfoot.size hat htestfollows hbodyfollows hrestfollows stack out
        hmatch

end

end

end StackScript.Machine

import StackScript.Proofs.Emitting

/-!
# Calls in generated code

Every call instruction in the code of a typed method goes to a method that its class offers, with
as many arguments as the method has parameters (`methodCode_calls`).
-/

namespace StackScript.Code

open StackScript.Source StackScript.Syntax StackScript.Typing

/-- A call goes to a method on offer with one argument for each parameter. -/
def CallOffered (offers : Offering) : Instr → Prop
  | .call cls method argc =>
    ∃ sig, offers cls sig ∧ sig.name = method ∧ argc = UInt16.ofNat sig.params.length
  | _ => True

theorem toNat_ofNat_of_le {n : Nat} (h : n ≤ 65535) : (UInt16.ofNat n).toNat = n :=
  UInt16.toNat_ofNat_of_lt' (Nat.lt_succ_of_le h)

/-- All calls in the code go to methods on offer. -/
def CallsOffered (offers : Offering) (code : List Instr) : Prop :=
  ∀ instr ∈ code, CallOffered offers instr

section

variable {offers : Offering}

/-- Codes with their calls on offer may be put one after the other. -/
theorem CallsOffered.append {xs ys : List Instr} (hx : CallsOffered offers xs)
    (hy : CallsOffered offers ys) : CallsOffered offers (xs ++ ys) :=
  List.forall_mem_append.mpr ⟨hx, hy⟩

theorem CallsOffered.nil : CallsOffered offers [] := fun _ h => nomatch h

theorem CallsOffered.cons {instr : Instr} {code : List Instr} (hi : CallOffered offers instr)
    (hcode : CallsOffered offers code) : CallsOffered offers (instr :: code) :=
  List.forall_mem_cons.mpr ⟨hi, hcode⟩

theorem CallsOffered.single {instr : Instr} (hi : CallOffered offers instr) :
    CallsOffered offers [instr] := .cons hi .nil

/-! ## Expressions -/

/-- A unary operation is no call. -/
theorem unaryInstr_offered (op : UnaryOp) : CallOffered offers (unaryInstr op) := by
  cases op <;> trivial

/-- An operator adds no call to those of its operands. -/
theorem binaryCode_offered {left right : List Instr} (hl : CallsOffered offers left)
    (hr : CallsOffered offers right) (op : BinaryOp) (type : Ty) (place : Nat) :
    CallsOffered offers (binaryCode op type place left right) := by
  -- what an operator adds to the code of its operands is jumps and plain instructions
  have hplain : ∀ instr, binaryInstr? op type = some instr → CallOffered offers instr := by
    intro instr h
    cases op <;> simp only [binaryInstr?, Option.some.injEq, reduceCtorEq] at h <;> subst h
    case add => split <;> trivial
    all_goals trivial
  have htail : CallsOffered offers (binaryInstr? op type).toList :=
    fun instr h => hplain instr (by simpa using h)
  cases op with
  | and =>
    exact ((hl.append (.single (by trivial))).append hr).append
      (.cons (by trivial) (.single (by trivial)))
  | or =>
    exact (hl.append (.cons (by trivial) (.cons (by trivial) (.single (by trivial))))).append hr
  | _ => exact (hl.append hr).append htail

variable {Γ : Context} {slots : Slots} {file : String}

mutual

/-- The code of a typed expression calls what typing found: the method is on offer, and there are as
many arguments as parameters. -/
theorem exprCode_calls : ∀ (e : Expr) {t : Ty} {place : Nat} {code : List Instr},
    HasTy offers Γ e t → exprCode file slots place e = .ok code → CallsOffered offers code
  | .int .., _, _, _, _, hcode => by
    simp only [exprCode, bind_eq_ok, pure_eq_ok] at hcode
    obtain ⟨_, -, rfl⟩ := hcode
    exact .single trivial
  | .bool .., _, _, _, _, hcode => by
    simp only [exprCode, bind_eq_ok, pure_eq_ok] at hcode
    obtain ⟨_, -, rfl⟩ := hcode
    exact .single trivial
  | .string .., _, _, _, _, hcode => by
    simp only [exprCode, bind_eq_ok, pure_eq_ok] at hcode
    obtain ⟨_, -, rfl⟩ := hcode
    exact .single trivial
  | .var name _, _, _, _, _, hcode => by
    simp only [exprCode, bind_eq_ok, loadCode] at hcode
    obtain ⟨_, -, hload⟩ := hcode
    split at hload
    · cases hload
      exact .single trivial
    · cases hload
  | .call receiver method args target note, _, _, _, h, hcode => by
    simp only [exprCode, bind_eq_ok, pure_eq_ok] at hcode
    obtain ⟨_, -, cls, hcls, first, hfirst, rfl⟩ := hcode
    cases h with
    | call _ hoffer hargs =>
      -- the class that typing resolved is the one on offer, and the code goes by it
      cases hcls
      refine (argsCode_calls args hargs hfirst).append (.single ⟨_, hoffer, rfl, ?_⟩)
      rw [hargs.length]
  | .index array position note, _, _, _, h, hcode => by
    simp only [exprCode, bind_eq_ok, pure_eq_ok] at hcode
    obtain ⟨_, -, first, hfirst, second, hsecond, rfl⟩ := hcode
    cases h with
    | index _ harray hposition =>
      exact ((exprCode_calls array harray hfirst).append
        (exprCode_calls position hposition hsecond)).append (.single (by trivial))
  | .length value note, _, _, _, h, hcode => by
    simp only [exprCode, bind_eq_ok, pure_eq_ok] at hcode
    obtain ⟨_, -, first, hfirst, rfl⟩ := hcode
    cases h with
    | length _ hvalue _ => exact (exprCode_calls value hvalue hfirst).append (.single (by trivial))
  | .unary op operand note, _, _, _, h, hcode => by
    simp only [exprCode, bind_eq_ok, pure_eq_ok] at hcode
    obtain ⟨_, -, first, hfirst, rfl⟩ := hcode
    cases h with
    | unary _ hoperand _ =>
      exact (exprCode_calls operand hoperand hfirst).append (.single (unaryInstr_offered op))
  | .binary op left right note, _, _, _, h, hcode => by
    simp only [exprCode, bind_eq_ok, pure_eq_ok] at hcode
    obtain ⟨_, -, first, hfirst, second, hsecond, rfl⟩ := hcode
    cases h with
    | binary _ hleft hright _ _ _ =>
      exact binaryCode_offered (exprCode_calls left hleft hfirst)
        (exprCode_calls right hright hsecond) op _ _

/-- So does the code of its arguments. -/
theorem argsCode_calls : ∀ (es : List Expr) {ts : List Ty} {place : Nat} {code : List Instr},
    HaveTys offers Γ es ts → argsCode file slots place es = .ok code → CallsOffered offers code
  | [], _, _, _, _, hcode => by
    cases hcode
    exact .nil
  | e :: es, _, _, _, h, hcode => by
    simp only [argsCode, bind_eq_ok, pure_eq_ok] at hcode
    obtain ⟨first, hfirst, rest, hrest, rfl⟩ := hcode
    cases h with
    | cons he _ hes => exact (exprCode_calls e he hfirst).append (argsCode_calls es hes hrest)

end

end

/-! ## Statements -/

section

variable {offers : Offering} {ret : Ty} {file : String}

@[simp] theorem code_append (a b : Emitted) : (a ++ b).code = a.code ++ b.code := rfl

@[simp] theorem slots_append (a b : Emitted) : (a ++ b).slots = b.slots := rfl

@[simp] theorem lines_append (a b : Emitted) : (a ++ b).lines = a.lines ++ b.lines := rfl

@[simp] theorem code_markLine (emitted : Emitted) (place : Nat) (span : Span) :
    (emitted.markLine place span).code = emitted.code := rfl

@[simp] theorem slots_markLine (emitted : Emitted) (place : Nat) (span : Span) :
    (emitted.markLine place span).slots = emitted.slots := rfl

@[simp] theorem lines_markLine (emitted : Emitted) (place : Nat) (span : Span) :
    (emitted.markLine place span).lines = lineMark place span :: emitted.lines := rfl

@[simp] theorem code_plain (code : List Instr) (slots : Slots) :
    (Emitted.plain code slots).code = code := rfl

@[simp] theorem slots_plain (code : List Instr) (slots : Slots) :
    (Emitted.plain code slots).slots = slots := rfl

@[simp] theorem lines_plain (code : List Instr) (slots : Slots) :
    (Emitted.plain code slots).lines = [] := rfl

mutual

/-- The code of a typed statement calls methods on offer only: besides that of its expressions, it
is made of jumps and plain instructions. -/
theorem stmtCode_calls : ∀ (stmt : Stmt) {Γ Δ : Context} {slots : Slots} {place : Nat}
    {emitted : Emitted}, StmtHasTy offers ret Γ stmt Δ →
      stmtCode file slots place stmt = .ok emitted → CallsOffered offers emitted.code
  | .expr value span, _, _, _, _, _, h, hcode => by
    simp only [stmtCode, bind_eq_ok, pure_eq_ok] at hcode
    obtain ⟨type, -, code, hvalue, rfl⟩ := hcode
    cases h with
    | expr htyped =>
      refine (exprCode_calls value htyped hvalue).append ?_
      split
      · exact .nil
      · exact .single trivial
  | .assign target value span, _, _, slots, _, _, h, hcode => by
    simp only [stmtCode, bind_eq_ok, pure_eq_ok] at hcode
    obtain ⟨code, hvalue, rfl⟩ := hcode
    have hstore : CallsOffered offers
        ((slotOf? (addSlot slots target.name) target.name).map Instr.store).toList := by
      cases slotOf? (addSlot slots target.name) target.name with
      | none => exact .nil
      | some slot => exact .single trivial
    cases h with
    | assign htyped _ _ => exact (exprCode_calls value htyped hvalue).append hstore
    | declare htyped _ _ => exact (exprCode_calls value htyped hvalue).append hstore
  | .cond chain span, _, _, _, _, _, h, hcode => by
    simp only [stmtCode, bind_eq_ok, pure_eq_ok] at hcode
    obtain ⟨emitted, hchain, rfl⟩ := hcode
    cases h with
    | cond htyped =>
      rw [code_markLine]
      exact chainCode_calls chain htyped hchain
  | .loop condition body span, _, _, _, _, _, h, hcode => by
    simp only [stmtCode, bind_eq_ok, pure_eq_ok] at hcode
    obtain ⟨test, htest, inner, hinner, rfl⟩ := hcode
    cases h with
    | loop hcondition hbody =>
      -- the jumps around the test and the body are no calls
      exact (((exprCode_calls condition hcondition htest).append (.single (by trivial))).append
        (blockCode_calls body hbody hinner)).append (.single (by trivial))
  | .ret (some value) span, _, _, _, _, _, h, hcode => by
    simp only [stmtCode, bind_eq_ok, pure_eq_ok] at hcode
    obtain ⟨code, hvalue, rfl⟩ := hcode
    cases h with
    | ret htyped _ => exact (exprCode_calls value htyped hvalue).append (.single (by trivial))
  | .ret none span, _, _, _, _, _, _, hcode => by
    cases hcode
    exact .single trivial
  | .puts value span, _, _, _, _, _, h, hcode => by
    simp only [stmtCode, bind_eq_ok, pure_eq_ok] at hcode
    obtain ⟨code, hvalue, rfl⟩ := hcode
    cases h with
    | puts htyped _ => exact (exprCode_calls value htyped hvalue).append (.single (by trivial))
  | .raise value span, _, _, _, _, _, h, hcode => by
    simp only [stmtCode, bind_eq_ok, pure_eq_ok] at hcode
    obtain ⟨code, hvalue, rfl⟩ := hcode
    cases h with
    | raise htyped _ => exact (exprCode_calls value htyped hvalue).append (.single (by trivial))

/-- The code of a block, whose locals go out of scope after it. -/
theorem blockCode_calls : ∀ (block : Block) {Γ Δ : Context} {slots : Slots} {place : Nat}
    {emitted : Emitted}, BlockHasTy offers ret Γ block Δ →
      blockCode file slots place block = .ok emitted → CallsOffered offers emitted.code
  | .mk stmts span, _, _, _, _, _, h, hcode => by
    rw [blockCode] at hcode
    cases h with
    | mk hstmts => exact stmtsCode_calls stmts hstmts hcode

theorem stmtsCode_calls : ∀ (stmts : List Stmt) {Γ Δ : Context} {slots : Slots} {place : Nat}
    {emitted : Emitted}, StmtsHaveTy offers ret Γ stmts Δ →
      stmtsCode file slots place stmts = .ok emitted → CallsOffered offers emitted.code
  | [], _, _, _, _, _, _, hcode => by
    cases hcode
    exact .nil
  | stmt :: rest, _, _, _, _, _, h, hcode => by
    simp only [stmtsCode, bind_eq_ok, pure_eq_ok] at hcode
    obtain ⟨first, hfirst, others, hothers, rfl⟩ := hcode
    cases h with
    | cons hstmt hrest =>
      exact (stmtCode_calls stmt hstmt hfirst).append (stmtsCode_calls rest hrest hothers)

/-- The code of all branches of a conditional. -/
theorem chainCode_calls : ∀ (chain : Chain) {Γ Δ : Context} {slots : Slots} {place : Nat}
    {emitted : Emitted}, ChainHasTy offers ret Γ chain Δ →
      chainCode file slots place chain = .ok emitted → CallsOffered offers emitted.code
  | .done, _, _, _, _, _, _, hcode => by
    cases hcode
    exact .nil
  | .otherwise body, _, _, _, _, _, h, hcode => by
    rw [chainCode] at hcode
    cases h with
    | otherwise hbody => exact blockCode_calls body hbody hcode
  | .branch condition body rest, _, _, _, _, _, h, hcode => by
    simp only [chainCode, bind_eq_ok, pure_eq_ok] at hcode
    obtain ⟨test, htest, taken, htaken, others, hothers, rfl⟩ := hcode
    cases h with
    | branch hcondition hbody hrest =>
      exact ((((exprCode_calls condition hcondition htest).append (.single (by trivial))).append
        (blockCode_calls body hbody htaken)).append (.single (by trivial))).append
        (chainCode_calls rest hrest hothers)

end

/-- The code of a body, which may end in the value that the method returns. -/
theorem bodyCode_calls {stmts : List Stmt} {Γ Δ : Context} (h : BodyHasTy offers ret Γ stmts Δ)
    {slots : Slots} {place : Nat} {emitted : Emitted}
    (hcode : bodyCode file ret slots place stmts = .ok emitted) :
    CallsOffered offers emitted.code := by
  induction h generalizing slots place emitted with
  | nil =>
    cases hcode
    exact .nil
  | @value Γ value span t hvalue _ =>
    rw [bodyCode] at hcode
    split at hcode
    · have hstmt : StmtHasTy offers ret Γ (.expr value span) Γ := .expr hvalue
      exact stmtCode_calls _ hstmt hcode
    · simp only [bind_eq_ok, pure_eq_ok] at hcode
      obtain ⟨code, hemitted, rfl⟩ := hcode
      exact (exprCode_calls _ hvalue hemitted).append (.single (by trivial))
  | cons hlast hstmt _ ih =>
    rw [bodyCode_cons hlast] at hcode
    simp only [bind_eq_ok, pure_eq_ok] at hcode
    obtain ⟨first, hfirst, others, hothers, rfl⟩ := hcode
    exact (stmtCode_calls _ hstmt hfirst).append (ih hothers)

end

/-! ## Methods -/

/-- The parts of a method's code, each made without a fault. -/
theorem methodCode_eq_ok {file : String} {m : Method} {code : MethodCode}
    (h : methodCode file m = .ok code) :
    ∃ params ret body last, paramTypes file m.params = .ok params ∧
      returnType file m = .ok ret ∧
      bodyCode file ret ((m.params.map (·.name.name)).foldl addSlot []) 0 m.body.stmts = .ok body ∧
      endCode file m ret = .ok last ∧
      code = ⟨m.name.name, params, ret, UInt16.ofNat body.slots.length,
        (body.code ++ last).toArray, body.lines⟩ := by
  simp only [methodCode, bind_eq_ok, pure_eq_ok] at h
  obtain ⟨params, hparams, ret, hret, body, hbody, last, hlast, rfl⟩ := h
  exact ⟨params, ret, body, last, hparams, hret, hbody, hlast, rfl⟩

/-- Code is made for methods that have a return type. -/
theorem returnType_eq_ok {file : String} {m : Method} {ret : Ty}
    (h : returnType file m = .ok ret) : m.retType = some ret := by
  unfold returnType at h
  split at h
  · rename_i hfilter
    cases h
    exact (Option.filter_eq_some_iff.mp hfilter).1
  · cases h

/-- What is added behind a body is at most a return, which calls nothing. -/
theorem endCode_eq_ok {file : String} {m : Method} {ret : Ty} {last : List Instr}
    (h : endCode file m ret = .ok last) :
    last = if ret.isVoid then [.retVoid] else [] := by
  unfold endCode at h
  split at h
  · cases h
    rw [if_pos ‹_›]
  · split at h
    · cases h
      rw [if_neg ‹_›]
    · cases h

/-- The code of a typed method has its signature, and its calls go to methods on offer. -/
theorem methodCode_calls {offers : Offering} {file : String} {m : Method} {sig : MethodSig}
    (h : MethodHasSig offers m sig) {code : MethodCode} (hcode : methodCode file m = .ok code) :
    code.signature = sig ∧ CallsOffered offers code.code.toList := by
  obtain ⟨params, ret, body, last, hparams, hret, hbody, hlast, rfl⟩ := methodCode_eq_ok hcode
  obtain ⟨Δ, htyped⟩ := h.body
  -- parameters and return type of the code are read off the typed method
  cases hparams.symm.trans (paramTypes_ok h.params)
  cases (returnType_eq_ok hret).symm.trans h.ret
  refine ⟨by rw [MethodCode.signature, h.name], ?_⟩
  simp only
  refine (bodyCode_calls htyped hbody).append ?_
  rw [endCode_eq_ok hlast]
  split
  · exact .single trivial
  · exact .nil

end StackScript.Code

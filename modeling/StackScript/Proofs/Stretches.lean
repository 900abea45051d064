import StackScript.Proofs.CallSites
import StackScript.Proofs.Following

/-!
# The stretches of statements

How many instructions a tree takes can be read off the tree, whatever the slots and the place
(`length_exprCode`, `length_stmtCode`). So it is known where the instructions of each statement of a
method stand: its stretch, from the place of its first instruction up to the place behind its last
one. The line table has the start of every stretch, in the order of the source
(`lines_methodCode`), and in each stretch stands what was emitted for its statement
(`hasCode_methodStretches`).
-/

namespace StackScript.Code

open StackScript.Machine StackScript.Source StackScript.Syntax StackScript.Typing

/-! ## Statements of a tree -/

mutual

/-- A statement and the statements in it, in source order. -/
def innerStmts : Stmt → List Stmt
  | .cond chain span => .cond chain span :: chainStmts chain
  | .loop condition body span => .loop condition body span :: blockStmts body
  | stmt => [stmt]

/-- The statements of a block and those in them. -/
def blockStmts : Block → List Stmt
  | .mk stmts _ => allStmts stmts

/-- Statements and those in them. -/
def allStmts : List Stmt → List Stmt
  | [] => []
  | stmt :: rest => innerStmts stmt ++ allStmts rest

/-- The statements of the branches of a conditional. -/
def chainStmts : Chain → List Stmt
  | .done => []
  | .otherwise body => blockStmts body
  | .branch _ body rest => blockStmts body ++ chainStmts rest

end

/-- The line that a statement starts on, as marks give it. -/
def startLine (stmt : Stmt) : UInt32 := UInt32.ofNat stmt.span.start.line

/-! ## Sizes -/

/-- Number of instructions that an operator adds to those of its operands. -/
def operatorSize : BinaryOp → Nat
  | .and | .or => 3
  | _ => 1

mutual

/-- Number of instructions of an expression. -/
def exprSize : Expr → Nat
  | .int _ _ | .bool _ _ | .string _ _ | .var _ _ => 1
  | .call _ _ args _ _ => argsSize args + 1
  | .index array position _ => exprSize array + exprSize position + 1
  | .length value _ => exprSize value + 1
  | .unary _ operand _ => exprSize operand + 1
  | .binary op left right _ => exprSize left + exprSize right + operatorSize op

/-- Number of instructions of arguments. -/
def argsSize : List Expr → Nat
  | [] => 0
  | arg :: args => exprSize arg + argsSize args

end

mutual

/-- Number of instructions of a statement. -/
def stmtSize : Stmt → Nat
  | .expr value _ => exprSize value + if value.type.any Ty.isVoid then 0 else 1
  | .assign _ value _ | .ret (some value) _ | .puts value _ | .raise value _ => exprSize value + 1
  | .ret none _ => 1
  | .cond chain _ => chainSize chain
  | .loop condition body _ => exprSize condition + 1 + blockSize body + 1

/-- Number of instructions of a block. -/
def blockSize : Block → Nat
  | .mk stmts _ => stmtsSize stmts

/-- Number of instructions of statements. -/
def stmtsSize : List Stmt → Nat
  | [] => 0
  | stmt :: stmts => stmtSize stmt + stmtsSize stmts

/-- Number of instructions of the branches of a conditional. -/
def chainSize : Chain → Nat
  | .done => 0
  | .otherwise body => blockSize body
  | .branch condition body rest =>
    exprSize condition + 1 + blockSize body + 1 + chainSize rest

end

/-- The code of an operator has as many instructions whatever the types and places are. -/
theorem length_binaryCode (op : BinaryOp) (type : Ty) (place : Nat) (left right : List Instr) :
    (binaryCode op type place left right).length
      = left.length + right.length + operatorSize op := by
  cases op with
  | and =>
    simp only [binaryCode, andCode, List.length_append, List.length_cons, List.length_nil,
      operatorSize]
    omega
  | or =>
    simp only [binaryCode, orCode, List.length_append, List.length_cons, List.length_nil,
      operatorSize]
    omega
  | _ => simp [binaryCode, binaryInstr?, operatorSize, Nat.add_assoc]

section

variable {file : String} {slots : Slots}

mutual

/-- An expression takes as many instructions as its size says. -/
theorem length_exprCode : ∀ (e : Expr) {place : Nat} {code : List Instr},
    exprCode file slots place e = .ok code → code.length = exprSize e
  | .int .., _, _, hcode => by
    simp only [exprCode, bind_eq_ok, pure_eq_ok] at hcode
    obtain ⟨_, -, rfl⟩ := hcode
    rfl
  | .bool .., _, _, hcode => by
    simp only [exprCode, bind_eq_ok, pure_eq_ok] at hcode
    obtain ⟨_, -, rfl⟩ := hcode
    rfl
  | .string .., _, _, hcode => by
    simp only [exprCode, bind_eq_ok, pure_eq_ok] at hcode
    obtain ⟨_, -, rfl⟩ := hcode
    rfl
  | .var name _, _, _, hcode => by
    simp only [exprCode, bind_eq_ok, loadCode] at hcode
    obtain ⟨_, -, hload⟩ := hcode
    split at hload
    · cases hload
      rfl
    · cases hload
  | .call receiver method args target note, _, _, hcode => by
    simp only [exprCode, bind_eq_ok, pure_eq_ok] at hcode
    obtain ⟨_, -, cls, -, inner, hinner, rfl⟩ := hcode
    rw [List.length_append, length_argsCode args hinner]
    rfl
  | .index array position _, _, _, hcode => by
    simp only [exprCode, bind_eq_ok, pure_eq_ok] at hcode
    obtain ⟨_, -, first, hfirst, second, hsecond, rfl⟩ := hcode
    rw [List.length_append, List.length_append, length_exprCode array hfirst,
      length_exprCode position hsecond]
    rfl
  | .length value _, _, _, hcode => by
    simp only [exprCode, bind_eq_ok, pure_eq_ok] at hcode
    obtain ⟨_, -, first, hfirst, rfl⟩ := hcode
    rw [List.length_append, length_exprCode value hfirst]
    rfl
  | .unary op operand _, _, _, hcode => by
    simp only [exprCode, bind_eq_ok, pure_eq_ok] at hcode
    obtain ⟨_, -, first, hfirst, rfl⟩ := hcode
    rw [List.length_append, length_exprCode operand hfirst]
    rfl
  | .binary op left right _, _, _, hcode => by
    simp only [exprCode, bind_eq_ok, pure_eq_ok] at hcode
    obtain ⟨_, -, first, hfirst, second, hsecond, rfl⟩ := hcode
    rw [length_binaryCode, length_exprCode left hfirst, length_exprCode right hsecond, exprSize]

theorem length_argsCode : ∀ (args : List Expr) {place : Nat} {code : List Instr},
    argsCode file slots place args = .ok code → code.length = argsSize args
  | [], _, _, hcode => by
    cases hcode
    rfl
  | arg :: args, _, _, hcode => by
    simp only [argsCode, bind_eq_ok, pure_eq_ok] at hcode
    obtain ⟨first, hfirst, rest, hrest, rfl⟩ := hcode
    rw [List.length_append, length_exprCode arg hfirst, length_argsCode args hrest, argsSize]

end

end

section

variable {file : String}

mutual

/-- A statement takes as many instructions as its size says. -/
theorem length_stmtCode : ∀ (stmt : Stmt) {slots : Slots} {place : Nat} {emitted : Emitted},
    stmtCode file slots place stmt = .ok emitted → emitted.code.length = stmtSize stmt
  | .expr value _, _, _, _, hcode => by
    simp only [stmtCode, bind_eq_ok, pure_eq_ok] at hcode
    obtain ⟨type, htype, code, hvalue, rfl⟩ := hcode
    rw [code_markLine, code_plain, List.length_append, length_exprCode value hvalue, stmtSize,
      (typeOf_eq_ok htype).1, Option.any_some]
    split <;> rfl
  | .assign target value _, slots, _, _, hcode => by
    simp only [stmtCode, bind_eq_ok, pure_eq_ok] at hcode
    obtain ⟨code, hvalue, rfl⟩ := hcode
    -- the target has got a slot by now, and so there is an instruction that stores into it
    have hmem : target.name ∈ addSlot slots target.name := mem_addSlot.mpr (.inr rfl)
    obtain ⟨slot, hslot⟩ := slotOf?_of_mem hmem
    rw [code_markLine, code_plain, hslot, List.length_append, length_exprCode value hvalue]
    rfl
  | .cond chain _, _, _, _, hcode => by
    simp only [stmtCode, bind_eq_ok, pure_eq_ok] at hcode
    obtain ⟨emitted, hchain, rfl⟩ := hcode
    rw [code_markLine, length_chainCode chain hchain, stmtSize]
  | .loop condition body _, _, _, _, hcode => by
    simp only [stmtCode, bind_eq_ok, pure_eq_ok] at hcode
    obtain ⟨test, htest, inner, hinner, rfl⟩ := hcode
    simp only [code_markLine, code_append, code_plain, List.length_append, List.length_singleton]
    rw [length_exprCode condition htest, length_blockCode body hinner, stmtSize]
  | .ret (some value) _, _, _, _, hcode => by
    simp only [stmtCode, bind_eq_ok, pure_eq_ok] at hcode
    obtain ⟨code, hvalue, rfl⟩ := hcode
    rw [code_markLine, code_plain, List.length_append, length_exprCode value hvalue]
    rfl
  | .ret none _, _, _, _, hcode => by
    cases hcode
    rfl
  | .puts value _, _, _, _, hcode => by
    simp only [stmtCode, bind_eq_ok, pure_eq_ok] at hcode
    obtain ⟨code, hvalue, rfl⟩ := hcode
    rw [code_markLine, code_plain, List.length_append, length_exprCode value hvalue]
    rfl
  | .raise value _, _, _, _, hcode => by
    simp only [stmtCode, bind_eq_ok, pure_eq_ok] at hcode
    obtain ⟨code, hvalue, rfl⟩ := hcode
    rw [code_markLine, code_plain, List.length_append, length_exprCode value hvalue]
    rfl

theorem length_blockCode : ∀ (block : Block) {slots : Slots} {place : Nat} {emitted : Emitted},
    blockCode file slots place block = .ok emitted → emitted.code.length = blockSize block
  | .mk stmts _, _, _, _, hcode => by
    rw [blockCode] at hcode
    rw [length_stmtsCode stmts hcode, blockSize]

theorem length_stmtsCode : ∀ (stmts : List Stmt) {slots : Slots} {place : Nat}
    {emitted : Emitted}, stmtsCode file slots place stmts = .ok emitted →
      emitted.code.length = stmtsSize stmts
  | [], _, _, _, hcode => by
    cases hcode
    rfl
  | stmt :: stmts, _, _, _, hcode => by
    simp only [stmtsCode, bind_eq_ok, pure_eq_ok] at hcode
    obtain ⟨first, hfirst, rest, hrest, rfl⟩ := hcode
    rw [code_append, List.length_append, length_stmtCode stmt hfirst, length_stmtsCode stmts hrest,
      stmtsSize]

theorem length_chainCode : ∀ (chain : Chain) {slots : Slots} {place : Nat} {emitted : Emitted},
    chainCode file slots place chain = .ok emitted → emitted.code.length = chainSize chain
  | .done, _, _, _, hcode => by
    cases hcode
    rfl
  | .otherwise body, _, _, _, hcode => by
    rw [chainCode] at hcode
    rw [length_blockCode body hcode, chainSize]
  | .branch condition body rest, _, _, _, hcode => by
    simp only [chainCode, bind_eq_ok, pure_eq_ok] at hcode
    obtain ⟨test, htest, taken, htaken, others, hothers, rfl⟩ := hcode
    simp only [code_append, code_plain, List.length_append, List.length_singleton]
    rw [length_exprCode condition htest, length_blockCode body htaken,
      length_chainCode rest hothers, chainSize]

end

end

/-! ## Stretches -/

/-- A statement and where its instructions stand. -/
structure Stretch where
  stmt : Stmt
  /-- The place of its first instruction. -/
  first : Nat
  /-- The place behind its last instruction. -/
  behind : Nat

namespace Stretch

/-- The instruction at `place` is one of those of the statement. -/
def Has (s : Stretch) (place : Nat) : Prop := s.first ≤ place ∧ place < s.behind

/-- All instructions of `s` are among those of `t`. -/
def Within (s t : Stretch) : Prop := t.first ≤ s.first ∧ s.behind ≤ t.behind

/-- The mark of the statement in the line table. -/
def mark (s : Stretch) : LineMark := ⟨placeNumber s.first, startLine s.stmt⟩

end Stretch

mutual

/-- The stretches of a statement at `place` and of the statements in it, in source order. -/
def stmtStretches (place : Nat) : Stmt → List Stretch
  | .cond chain span =>
    ⟨.cond chain span, place, place + stmtSize (.cond chain span)⟩ :: chainStretches place chain
  | .loop condition body span =>
    ⟨.loop condition body span, place, place + stmtSize (.loop condition body span)⟩
      :: blockStretches (place + exprSize condition + 1) body
  | stmt => [⟨stmt, place, place + stmtSize stmt⟩]

/-- The stretches of the statements of a block at `place` and of those in them. -/
def blockStretches (place : Nat) : Block → List Stretch
  | .mk stmts _ => stmtsStretches place stmts

/-- The stretches of statements at `place` and of those in them. -/
def stmtsStretches (place : Nat) : List Stmt → List Stretch
  | [] => []
  | stmt :: stmts => stmtStretches place stmt ++ stmtsStretches (place + stmtSize stmt) stmts

/-- The stretches of the statements in the branches of a conditional at `place`. -/
def chainStretches (place : Nat) : Chain → List Stretch
  | .done => []
  | .otherwise body => blockStretches place body
  | .branch condition body rest =>
    blockStretches (place + exprSize condition + 1) body
      ++ chainStretches (place + exprSize condition + 1 + blockSize body + 1) rest

end

/-- The stretches of the statements of a body whose method returns `ret`. -/
def bodyStretches (ret : Ty) (place : Nat) : List Stmt → List Stretch
  | [] => []
  | [.expr value span] =>
    if ret.isVoid then stmtStretches place (.expr value span)
    else [⟨.expr value span, place, place + exprSize value + 1⟩]
  | stmt :: stmts => stmtStretches place stmt ++ bodyStretches ret (place + stmtSize stmt) stmts

/-- The stretches of the statements of a method that returns `ret`. -/
def methodStretches (ret : Ty) (m : Method) : List Stretch := bodyStretches ret 0 m.body.stmts

/-- The stretches of a body begin with those of its first statement, unless it is the last one. -/
theorem bodyStretches_cons {ret : Ty} {stmt : Stmt} {rest : List Stmt}
    (h : isExpr stmt = true → rest ≠ []) (place : Nat) :
    bodyStretches ret place (stmt :: rest)
      = stmtStretches place stmt ++ bodyStretches ret (place + stmtSize stmt) rest := by
  cases rest with
  | nil =>
    cases stmt with
    | expr value span => exact absurd rfl (h rfl)
    | _ => rfl
  | cons next rest =>
    cases stmt <;> rfl

/-! ## Every statement has a stretch -/

mutual

/-- A statement has one stretch for each statement in it, in their order. -/
theorem stmts_stmtStretches : ∀ (stmt : Stmt) (place : Nat),
    (stmtStretches place stmt).map Stretch.stmt = innerStmts stmt
  | .cond chain _, place => by
    rw [stmtStretches, innerStmts, List.map_cons, stmts_chainStretches chain]
  | .loop _ body _, place => by
    rw [stmtStretches, innerStmts, List.map_cons, stmts_blockStretches body]
  | .expr _ _, _ | .assign _ _ _, _ | .ret _ _, _ | .puts _ _, _ | .raise _ _, _ => rfl

theorem stmts_blockStretches : ∀ (block : Block) (place : Nat),
    (blockStretches place block).map Stretch.stmt = blockStmts block
  | .mk stmts _, place => by rw [blockStretches, blockStmts, stmts_stmtsStretches stmts]

theorem stmts_stmtsStretches : ∀ (stmts : List Stmt) (place : Nat),
    (stmtsStretches place stmts).map Stretch.stmt = allStmts stmts
  | [], _ => rfl
  | stmt :: stmts, place => by
    rw [stmtsStretches, allStmts, List.map_append, stmts_stmtStretches stmt,
      stmts_stmtsStretches stmts]

theorem stmts_chainStretches : ∀ (chain : Chain) (place : Nat),
    (chainStretches place chain).map Stretch.stmt = chainStmts chain
  | .done, _ => rfl
  | .otherwise body, place => by rw [chainStretches, chainStmts, stmts_blockStretches body]
  | .branch _ body rest, place => by
    rw [chainStretches, chainStmts, List.map_append, stmts_blockStretches body,
      stmts_chainStretches rest]

end

/-- A body has one stretch for each statement in it, in their order. -/
theorem stmts_bodyStretches (ret : Ty) (stmts : List Stmt) (place : Nat) :
    (bodyStretches ret place stmts).map Stretch.stmt = allStmts stmts := by
  induction stmts generalizing place with
  | nil => rfl
  | cons stmt rest ih =>
    rcases isLast_cases stmt rest with hlast | ⟨value, span, rfl, rfl⟩
    · rw [bodyStretches_cons hlast, allStmts, List.map_append, stmts_stmtStretches, ih]
    · rw [bodyStretches]
      split <;> rfl

/-! ## The line table marks every stretch -/

section

variable {file : String}

mutual

/-- The marks of a statement's code are those of its stretches. -/
theorem marks_stmtCode : ∀ (stmt : Stmt) {slots : Slots} {place : Nat} {emitted : Emitted},
    stmtCode file slots place stmt = .ok emitted →
      emitted.lines = (stmtStretches place stmt).map Stretch.mark
  | .expr value _, _, _, _, hcode => by
    simp only [stmtCode, bind_eq_ok, pure_eq_ok] at hcode
    obtain ⟨_, -, _, -, rfl⟩ := hcode
    rfl
  | .assign target value _, _, _, _, hcode => by
    simp only [stmtCode, bind_eq_ok, pure_eq_ok] at hcode
    obtain ⟨_, -, rfl⟩ := hcode
    rfl
  | .cond chain span, _, place, _, hcode => by
    simp only [stmtCode, bind_eq_ok, pure_eq_ok] at hcode
    obtain ⟨emitted, hchain, rfl⟩ := hcode
    rw [lines_markLine, marks_chainCode chain hchain, stmtStretches, List.map_cons]
    rfl
  | .loop condition body span, _, place, _, hcode => by
    simp only [stmtCode, bind_eq_ok, pure_eq_ok] at hcode
    obtain ⟨test, htest, inner, hinner, rfl⟩ := hcode
    simp only [lines_markLine, lines_append, lines_plain, List.nil_append, List.append_nil]
    rw [marks_blockCode body hinner, length_exprCode condition htest, stmtStretches, List.map_cons]
    rfl
  | .ret (some value) _, _, _, _, hcode => by
    simp only [stmtCode, bind_eq_ok, pure_eq_ok] at hcode
    obtain ⟨_, -, rfl⟩ := hcode
    rfl
  | .ret none _, _, _, _, hcode => by
    cases hcode
    rfl
  | .puts value _, _, _, _, hcode => by
    simp only [stmtCode, bind_eq_ok, pure_eq_ok] at hcode
    obtain ⟨_, -, rfl⟩ := hcode
    rfl
  | .raise value _, _, _, _, hcode => by
    simp only [stmtCode, bind_eq_ok, pure_eq_ok] at hcode
    obtain ⟨_, -, rfl⟩ := hcode
    rfl

theorem marks_blockCode : ∀ (block : Block) {slots : Slots} {place : Nat} {emitted : Emitted},
    blockCode file slots place block = .ok emitted →
      emitted.lines = (blockStretches place block).map Stretch.mark
  | .mk stmts _, _, _, _, hcode => by
    rw [blockCode] at hcode
    rw [marks_stmtsCode stmts hcode, blockStretches]

theorem marks_stmtsCode : ∀ (stmts : List Stmt) {slots : Slots} {place : Nat}
    {emitted : Emitted}, stmtsCode file slots place stmts = .ok emitted →
      emitted.lines = (stmtsStretches place stmts).map Stretch.mark
  | [], _, _, _, hcode => by
    cases hcode
    rfl
  | stmt :: stmts, _, _, _, hcode => by
    simp only [stmtsCode, bind_eq_ok, pure_eq_ok] at hcode
    obtain ⟨first, hfirst, rest, hrest, rfl⟩ := hcode
    rw [lines_append, marks_stmtCode stmt hfirst, marks_stmtsCode stmts hrest,
      length_stmtCode stmt hfirst, stmtsStretches, List.map_append]

theorem marks_chainCode : ∀ (chain : Chain) {slots : Slots} {place : Nat} {emitted : Emitted},
    chainCode file slots place chain = .ok emitted →
      emitted.lines = (chainStretches place chain).map Stretch.mark
  | .done, _, _, _, hcode => by
    cases hcode
    rfl
  | .otherwise body, _, _, _, hcode => by
    rw [chainCode] at hcode
    rw [marks_blockCode body hcode, chainStretches]
  | .branch condition body rest, _, _, _, hcode => by
    simp only [chainCode, bind_eq_ok, pure_eq_ok] at hcode
    obtain ⟨test, htest, taken, htaken, others, hothers, rfl⟩ := hcode
    simp only [lines_append, lines_plain, List.nil_append, List.append_nil]
    rw [marks_blockCode body htaken, marks_chainCode rest hothers, length_exprCode condition htest,
      length_blockCode body htaken, chainStretches, List.map_append]

end

/-- A body marks the start of each of its stretches, in their order. -/
theorem marks_bodyCode {ret : Ty} {stmts : List Stmt} {slots : Slots} {place : Nat}
    {emitted : Emitted} (hcode : bodyCode file ret slots place stmts = .ok emitted) :
    emitted.lines = (bodyStretches ret place stmts).map Stretch.mark := by
  induction stmts generalizing slots place emitted with
  | nil =>
    cases hcode
    rfl
  | cons stmt rest ih =>
    rcases isLast_cases stmt rest with hlast | ⟨value, span, rfl, rfl⟩
    · rw [bodyCode_cons hlast] at hcode
      simp only [bind_eq_ok, pure_eq_ok] at hcode
      obtain ⟨first, hfirst, others, hothers, rfl⟩ := hcode
      rw [lines_append, marks_stmtCode stmt hfirst, ih hothers, length_stmtCode stmt hfirst,
        bodyStretches_cons hlast, List.map_append]
    · rw [bodyCode] at hcode
      rw [bodyStretches]
      split at hcode
      · rename_i hvoid
        rw [marks_stmtCode _ hcode, if_pos hvoid]
      · rename_i hvoid
        simp only [bind_eq_ok, pure_eq_ok] at hcode
        obtain ⟨_, -, rfl⟩ := hcode
        rw [if_neg hvoid]
        rfl

/-- The marks of a body are for its statements, in source order. -/
theorem lines_bodyCode {ret : Ty} {stmts : List Stmt} {slots : Slots} {place : Nat}
    {emitted : Emitted} (hcode : bodyCode file ret slots place stmts = .ok emitted) :
    emitted.lines.map LineMark.line = (allStmts stmts).map startLine := by
  rw [marks_bodyCode hcode, ← stmts_bodyStretches ret stmts place, List.map_map, List.map_map]
  rfl

/-! ## In a stretch stands the code of its statement -/

/-- What stands in the stretch was emitted for its statement, as a statement or as the last one of
the body of a method that returns `ret`. -/
def Stretch.HasCode (file : String) (code : Array Instr) (ret : Ty) (s : Stretch) : Prop :=
  ∃ slots emitted,
    (stmtCode file slots s.first s.stmt = .ok emitted ∨
      bodyCode file ret slots s.first [s.stmt] = .ok emitted) ∧
    StandsAt code s.first emitted.code ∧ s.behind = s.first + emitted.code.length

variable {code : Array Instr} {ret : Ty}

/-- A statement that has no others in it has its own code in its stretch. -/
theorem hasCode_single {stmt : Stmt} {slots : Slots} {place : Nat} {emitted : Emitted}
    (hcode : stmtCode file slots place stmt = .ok emitted)
    (hat : StandsAt code place emitted.code) :
    Stretch.HasCode file code ret ⟨stmt, place, place + stmtSize stmt⟩ :=
  ⟨slots, emitted, .inl hcode, hat, by rw [length_stmtCode stmt hcode]⟩

mutual

theorem hasCode_stmtStretches : ∀ (stmt : Stmt) {slots : Slots} {place : Nat} {emitted : Emitted},
    stmtCode file slots place stmt = .ok emitted → StandsAt code place emitted.code →
      ∀ s ∈ stmtStretches place stmt, s.HasCode file code ret
  | .expr _ _, _, _, _, hcode, hat | .assign _ _ _, _, _, _, hcode, hat
  | .ret _ _, _, _, _, hcode, hat | .puts _ _, _, _, _, hcode, hat
  | .raise _ _, _, _, _, hcode, hat => List.forall_mem_singleton.mpr (hasCode_single hcode hat)
  | .cond chain span, _, _, _, hcode, hat => by
    refine List.forall_mem_cons.mpr ⟨hasCode_single hcode hat, ?_⟩
    simp only [stmtCode, bind_eq_ok, pure_eq_ok] at hcode
    obtain ⟨emitted, hchain, rfl⟩ := hcode
    exact hasCode_chainStretches chain hchain hat
  | .loop condition body span, _, place, _, hcode, hat => by
    refine List.forall_mem_cons.mpr ⟨hasCode_single hcode hat, ?_⟩
    simp only [stmtCode, bind_eq_ok, pure_eq_ok] at hcode
    obtain ⟨test, htest, inner, hinner, rfl⟩ := hcode
    rw [← length_exprCode condition htest]
    -- the body stands behind the test and the jump over it
    simp only [code_markLine, code_append, code_plain] at hat
    have hbody := hat.left.right
    rw [List.length_append, List.length_singleton, ← Nat.add_assoc] at hbody
    exact hasCode_blockStretches body hinner hbody

theorem hasCode_blockStretches : ∀ (block : Block) {slots : Slots} {place : Nat}
    {emitted : Emitted}, blockCode file slots place block = .ok emitted →
      StandsAt code place emitted.code →
      ∀ s ∈ blockStretches place block, s.HasCode file code ret
  | .mk stmts _, _, _, _, hcode, hat => by
    rw [blockCode] at hcode
    exact hasCode_stmtsStretches stmts hcode hat

theorem hasCode_stmtsStretches : ∀ (stmts : List Stmt) {slots : Slots} {place : Nat}
    {emitted : Emitted}, stmtsCode file slots place stmts = .ok emitted →
      StandsAt code place emitted.code →
      ∀ s ∈ stmtsStretches place stmts, s.HasCode file code ret
  | [], _, _, _, _, _ => List.forall_mem_nil _
  | stmt :: stmts, _, _, _, hcode, hat => by
    simp only [stmtsCode, bind_eq_ok, pure_eq_ok] at hcode
    obtain ⟨first, hfirst, others, hothers, rfl⟩ := hcode
    rw [code_append] at hat
    have hrest := hasCode_stmtsStretches stmts hothers hat.right
    rw [length_stmtCode stmt hfirst] at hrest
    exact List.forall_mem_append.mpr ⟨hasCode_stmtStretches stmt hfirst hat.left, hrest⟩

theorem hasCode_chainStretches : ∀ (chain : Chain) {slots : Slots} {place : Nat}
    {emitted : Emitted}, chainCode file slots place chain = .ok emitted →
      StandsAt code place emitted.code →
      ∀ s ∈ chainStretches place chain, s.HasCode file code ret
  | .done, _, _, _, _, _ => List.forall_mem_nil _
  | .otherwise body, _, _, _, hcode, hat => by
    rw [chainCode] at hcode
    exact hasCode_blockStretches body hcode hat
  | .branch condition body rest, _, place, _, hcode, hat => by
    simp only [chainCode, bind_eq_ok, pure_eq_ok] at hcode
    obtain ⟨test, htest, taken, htaken, others, hothers, rfl⟩ := hcode
    simp only [code_append, code_plain] at hat
    have hbody := hat.left.left.right
    have hrest := hat.right
    simp only [List.length_append, List.length_singleton, ← Nat.add_assoc] at hbody hrest
    rw [chainStretches, List.forall_mem_append, ← length_exprCode condition htest,
      ← length_blockCode body htaken]
    exact ⟨hasCode_blockStretches body htaken hbody, hasCode_chainStretches rest hothers hrest⟩

end

/-- In each stretch of a body stands the code of its statement. -/
theorem hasCode_bodyStretches {stmts : List Stmt} {slots : Slots} {place : Nat} {emitted : Emitted}
    (hcode : bodyCode file ret slots place stmts = .ok emitted)
    (hat : StandsAt code place emitted.code) :
    ∀ s ∈ bodyStretches ret place stmts, s.HasCode file code ret := by
  induction stmts generalizing slots place emitted with
  | nil => exact List.forall_mem_nil _
  | cons stmt rest ih =>
    rcases isLast_cases stmt rest with hlast | ⟨value, span, rfl, rfl⟩
    · rw [bodyCode_cons hlast] at hcode
      simp only [bind_eq_ok, pure_eq_ok] at hcode
      obtain ⟨first, hfirst, others, hothers, rfl⟩ := hcode
      rw [code_append] at hat
      have hrest := ih hothers hat.right
      rw [length_stmtCode stmt hfirst] at hrest
      rw [bodyStretches_cons hlast]
      exact List.forall_mem_append.mpr ⟨hasCode_stmtStretches stmt hfirst hat.left, hrest⟩
    · have hwhole := hcode
      rw [bodyCode] at hcode
      rw [bodyStretches]
      split at hcode
      · rename_i hvoid
        rw [if_pos hvoid]
        exact hasCode_stmtStretches _ hcode hat
      · rename_i hvoid
        simp only [bind_eq_ok, pure_eq_ok] at hcode
        obtain ⟨made, hvalue, rfl⟩ := hcode
        rw [if_neg hvoid]
        refine List.forall_mem_singleton.mpr ⟨slots, _, .inr hwhole, hat, ?_⟩
        rw [code_markLine, code_plain, List.length_append, length_exprCode value hvalue]
        rfl

end

/-! ## Methods -/

section

variable {file : String} {m : Method} {code : MethodCode}

/-- The line table of a method marks its stretches. -/
theorem lines_methodCode (h : methodCode file m = .ok code) :
    code.lines = (methodStretches code.ret m).map Stretch.mark := by
  obtain ⟨params, ret, body, last, -, -, hbody, -, rfl⟩ := methodCode_eq_ok h
  exact marks_bodyCode hbody

/-- In each stretch of a method stands what was emitted for its statement. -/
theorem hasCode_methodStretches (h : methodCode file m = .ok code) :
    ∀ s ∈ methodStretches code.ret m, s.HasCode file code.code code.ret := by
  obtain ⟨params, ret, body, last, -, -, hbody, -, rfl⟩ := methodCode_eq_ok h
  exact hasCode_bodyStretches hbody (standsAt_toArray body.code last)

/-- Every statement of a method has a stretch, in source order. -/
theorem stmts_methodStretches (ret : Ty) (m : Method) :
    (methodStretches ret m).map Stretch.stmt = blockStmts m.body := by
  rw [methodStretches, stmts_bodyStretches]
  cases m.body
  rfl

end

end StackScript.Code

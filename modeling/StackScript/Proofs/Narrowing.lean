import StackScript.Proofs.SlotNumbers
import StackScript.Proofs.LineLookup

/-!
# Numbers of 16 and 32 bits

In an instruction a slot and a count of arguments have 16 bits, and a place has 32. They are
narrowed to that without a check when code is made. The numbers that are meant can be read off the
tree of a method: `wideCode` is the code with these. What is made is its narrowing, for methods of
any size (`code_methodCode`). So the code says what is meant exactly when every number fits
(`narrowing_is_exact`), and code is made when one does not, too: a call with any number of arguments
has code, and from 65536 arguments on it is not the code of that call (`spread_is_narrowed`).
-/

namespace StackScript.Code

open StackScript.Machine StackScript.Source StackScript.Syntax StackScript.Typing

/-! ## Instructions with the numbers that are meant -/

/-- An instruction whose numbers are not narrowed. -/
inductive WideInstr where
  /-- An instruction without a slot, a place or a count of arguments. -/
  | plain (instr : Instr)
  | load (slot : Nat)
  | store (slot : Nat)
  | jump (place : Nat)
  | jumpIfFalse (place : Nat)
  | call (cls method : String) (args : Nat)
  deriving DecidableEq, Repr

namespace WideInstr

/-- The instruction with its numbers narrowed. -/
def narrow : WideInstr → Instr
  | plain instr => instr
  | load slot => .load (UInt16.ofNat slot)
  | store slot => .store (UInt16.ofNat slot)
  | jump place => .jump (placeNumber place)
  | jumpIfFalse place => .jumpIfFalse (placeNumber place)
  | call cls method args => .call cls method (UInt16.ofNat args)

/-- The numbers of the instruction can be written with the bits that there are for them. -/
def Fits : WideInstr → Prop
  | plain _ => True
  | load slot | store slot => slot < UInt16.size
  | jump place | jumpIfFalse place => place < UInt32.size
  | call _ _ args => args < UInt16.size

/-- The second instruction is the first one, with the same numbers. -/
inductive Kept : WideInstr → Instr → Prop where
  | plain (instr : Instr) : Kept (.plain instr) instr
  | load (slot : UInt16) : Kept (.load slot.toNat) (.load slot)
  | store (slot : UInt16) : Kept (.store slot.toNat) (.store slot)
  | jump (place : UInt32) : Kept (.jump place.toNat) (.jump place)
  | jumpIfFalse (place : UInt32) : Kept (.jumpIfFalse place.toNat) (.jumpIfFalse place)
  | call (cls method : String) (argc : UInt16) :
    Kept (.call cls method argc.toNat) (.call cls method argc)

/-- An instruction keeps numbers that fit. -/
theorem Fits.kept {w : WideInstr} (h : w.Fits) : w.Kept w.narrow := by
  cases w with
  | plain instr => exact .plain instr
  | load slot =>
    have hkept := Kept.load (UInt16.ofNat slot)
    rwa [UInt16.toNat_ofNat_of_lt' h] at hkept
  | store slot =>
    have hkept := Kept.store (UInt16.ofNat slot)
    rwa [UInt16.toNat_ofNat_of_lt' h] at hkept
  | jump place =>
    have hkept := Kept.jump (placeNumber place)
    rwa [toNat_placeNumber h] at hkept
  | jumpIfFalse place =>
    have hkept := Kept.jumpIfFalse (placeNumber place)
    rwa [toNat_placeNumber h] at hkept
  | call cls method args =>
    have hkept := Kept.call cls method (UInt16.ofNat args)
    rwa [UInt16.toNat_ofNat_of_lt' h] at hkept

/-- Numbers that are kept are numbers that fit. -/
theorem Kept.fits {w : WideInstr} {instr : Instr} (h : w.Kept instr) : w.Fits := by
  cases h with
  | plain => trivial
  | load slot | store slot => exact UInt16.toNat_lt_size slot
  | jump place | jumpIfFalse place => exact UInt32.toNat_lt_size place
  | call cls method argc => exact UInt16.toNat_lt_size argc

theorem kept_narrow_iff {w : WideInstr} : w.Kept w.narrow ↔ w.Fits := ⟨Kept.fits, Fits.kept⟩

/-- Narrowed code keeps its numbers when all of them fit. -/
theorem forall₂_kept_narrow {code : List WideInstr} :
    List.Forall₂ Kept code (code.map narrow) ↔ ∀ w ∈ code, w.Fits := by
  rw [List.forall₂_map_right_iff, List.forall₂_same]
  exact forall₂_congr fun _ _ => kept_narrow_iff

end WideInstr

/-! ## Code as it is meant -/

/-- Where the right side of an operation starts whose left side ends before `middle`. -/
def rightStart : BinaryOp → Nat → Nat
  | .and, middle => middle + 1
  | .or, middle => middle + 3
  | _, middle => middle

/-- The code of a binary operation from that of its sides. The right one starts at `start`, and
what follows the operation stands at `behind`. -/
def binaryWide (op : BinaryOp) (type : Option Ty) (start behind : Nat)
    (left right : List WideInstr) : List WideInstr :=
  match op with
  -- a left side that is false goes on at the last instruction
  | .and =>
    left ++ [.jumpIfFalse (behind - 1)] ++ right ++ [.jump behind, .plain (.pushBool false)]
  | .or => left ++ [.jumpIfFalse start, .plain (.pushBool true), .jump behind] ++ right
  | op => left ++ right ++ ((type.bind (binaryInstr? op)).map .plain).toList

mutual

/-- The code of an expression at `place`, each name being in the slot of its position in `all`. -/
def exprWide (all : Slots) (place : Nat) : Expr → List WideInstr
  | .int value _ => [.plain (.pushInt value)]
  | .bool value _ => [.plain (.pushBool value)]
  | .string value _ => [.plain (.pushStr value)]
  | .var name _ => [.load (all.idxOf name.name)]
  | .call _ method args target _ =>
    argsWide all place args ++ (target.map fun cls => .call cls method.name args.length).toList
  | .index array position _ =>
    exprWide all place array ++ exprWide all (place + exprSize array) position ++ [.plain .index]
  | .length value _ => exprWide all place value ++ [.plain .length]
  | .unary op operand _ => exprWide all place operand ++ [.plain (unaryInstr op)]
  | .binary op left right note =>
    binaryWide op note.type (rightStart op (place + exprSize left))
      (place + exprSize (.binary op left right note)) (exprWide all place left)
      (exprWide all (rightStart op (place + exprSize left)) right)

/-- The code of arguments at `place`, one after the other. -/
def argsWide (all : Slots) (place : Nat) : List Expr → List WideInstr
  | [] => []
  | arg :: args => exprWide all place arg ++ argsWide all (place + exprSize arg) args

end

mutual

/-- The code of a statement at `place`. -/
def stmtWide (all : Slots) (place : Nat) : Stmt → List WideInstr
  | .expr value _ =>
    exprWide all place value ++ if value.type.any Ty.isVoid then [] else [.plain .pop]
  | .assign target value _ => exprWide all place value ++ [.store (all.idxOf target.name)]
  | .cond chain _ => chainWide all place chain
  | .loop condition body span =>
    exprWide all place condition ++ [.jumpIfFalse (place + stmtSize (.loop condition body span))]
      ++ blockWide all (place + exprSize condition + 1) body ++ [.jump place]
  | .ret (some value) _ => exprWide all place value ++ [.plain .ret]
  | .ret none _ => [.plain .retVoid]
  | .puts value _ => exprWide all place value ++ [.plain .puts]
  | .raise value _ => exprWide all place value ++ [.plain .raise]

/-- The code of a block at `place`. -/
def blockWide (all : Slots) (place : Nat) : Block → List WideInstr
  | .mk stmts _ => stmtsWide all place stmts

/-- The code of statements at `place`, one after the other. -/
def stmtsWide (all : Slots) (place : Nat) : List Stmt → List WideInstr
  | [] => []
  | stmt :: rest => stmtWide all place stmt ++ stmtsWide all (place + stmtSize stmt) rest

/-- The code of the branches of a conditional at `place`: one that is not taken goes on at the next
one, and one that is taken goes on behind the last one. -/
def chainWide (all : Slots) (place : Nat) : Chain → List WideInstr
  | .done => []
  | .otherwise body => blockWide all place body
  | .branch condition body rest =>
    exprWide all place condition
      ++ [.jumpIfFalse (place + exprSize condition + 1 + blockSize body + 1)]
      ++ blockWide all (place + exprSize condition + 1) body
      ++ [.jump (place + chainSize (.branch condition body rest))]
      ++ chainWide all (place + exprSize condition + 1 + blockSize body + 1) rest

end

/-- The code of a body whose method returns `ret`. -/
def bodyWide (all : Slots) (ret : Ty) (place : Nat) : List Stmt → List WideInstr
  | [] => []
  | [.expr value span] =>
    if ret.isVoid then stmtWide all place (.expr value span)
    else exprWide all place value ++ [.plain .ret]
  | stmt :: rest => stmtWide all place stmt ++ bodyWide all ret (place + stmtSize stmt) rest

/-- The code of a method that returns `ret`, with the numbers that are meant. -/
def wideCode (ret : Ty) (m : Method) : List WideInstr :=
  bodyWide (methodNames m) ret 0 m.body.stmts ++ if ret.isVoid then [.plain .retVoid] else []

theorem bodyWide_cons {all : Slots} {ret : Ty} {stmt : Stmt} {rest : List Stmt}
    (h : isExpr stmt = true → rest ≠ []) (place : Nat) :
    bodyWide all ret place (stmt :: rest)
      = stmtWide all place stmt ++ bodyWide all ret (place + stmtSize stmt) rest := by
  cases rest with
  | nil =>
    cases stmt with
    | expr value span => exact absurd rfl (h rfl)
    | _ => rfl
  | cons next rest =>
    cases stmt <;> rfl

/-! ## Code is made by narrowing -/

/-- Code is the narrowing of the code that is meant. -/
def Narrows (wide : List WideInstr) (made : List Instr) : Prop := made = wide.map WideInstr.narrow

namespace Narrows

variable {wide others : List WideInstr} {made more : List Instr}

theorem append (h : Narrows wide made) (hmore : Narrows others more) :
    Narrows (wide ++ others) (made ++ more) := by
  rw [Narrows, List.map_append, ← h, ← hmore]

/-- One instruction after others. -/
theorem snoc (h : Narrows wide made) (w : WideInstr) : Narrows (wide ++ [w]) (made ++ [w.narrow]) :=
  h.append rfl

end Narrows

/-- The slot of a name is its position, narrowed. -/
theorem slot_eq_of_slotOf? {slots all : Slots} (hstarts : slots <+: all) {name : String}
    {slot : UInt16} (h : slotOf? slots name = some slot) :
    slot = UInt16.ofNat (all.idxOf name) := by
  obtain ⟨i, hi, rfl⟩ := Option.map_eq_some_iff.mp (slotOf?_mono hstarts h)
  rw [List.idxOf_eq_getD_idxOf?, hi, Option.getD_some]

theorem rightPlace_eq (op : BinaryOp) (place : Nat) (left : List Instr) :
    rightPlace op place left = rightStart op (place + left.length) := by
  cases op <;> rfl

theorem binaryCode_narrows {left right : List WideInstr} {first second : List Instr}
    (hleft : Narrows left first) (hright : Narrows right second) (op : BinaryOp) (type : Ty)
    (place : Nat) :
    Narrows
      (binaryWide op (some type) (rightStart op (place + first.length))
        (place + (first.length + second.length + operatorSize op)) left right)
      (binaryCode op type place first second) := by
  by_cases hand : op = .and
  · subst hand
    -- the last instruction of the operation is the one that pushes false
    have hfalse : place + (first.length + second.length + operatorSize .and) - 1
        = place + first.length + second.length + 2 := by
      rw [operatorSize]
      omega
    rw [binaryWide, binaryCode, andCode, hfalse, operatorSize, ← Nat.add_assoc, ← Nat.add_assoc]
    exact ((hleft.snoc _).append hright).append rfl
  · by_cases hor : op = .or
    · subst hor
      rw [binaryWide, binaryCode, orCode, operatorSize, ← Nat.add_assoc, ← Nat.add_assoc]
      exact (hleft.append rfl).append hright
    · -- other operations have one instruction behind their sides
      obtain ⟨instr, hinstr, -, hcode⟩ := binaryCode_strict hand hor type
      have hwide : ∀ start behind, binaryWide op (some type) start behind left right
          = left ++ right ++ [.plain instr] := by
        intro start behind
        rw [binaryWide, Option.bind_some, hinstr]
        · rfl
        · exact hand
        · exact hor
      rw [hcode, hwide]
      exact (hleft.append hright).snoc (.plain instr)

section

variable {all : Slots} {file : String}

mutual

/-- The code of an expression is made by narrowing. -/
theorem exprCode_narrows : ∀ (e : Expr) {slots : Slots} {place : Nat} {made : List Instr},
    exprCode file slots place e = .ok made → slots <+: all → Narrows (exprWide all place e) made
  | .int .., _, _, _, hcode, _ => by
    simp only [exprCode, bind_eq_ok, pure_eq_ok] at hcode
    obtain ⟨_, -, rfl⟩ := hcode
    rfl
  | .bool .., _, _, _, hcode, _ => by
    simp only [exprCode, bind_eq_ok, pure_eq_ok] at hcode
    obtain ⟨_, -, rfl⟩ := hcode
    rfl
  | .string .., _, _, _, hcode, _ => by
    simp only [exprCode, bind_eq_ok, pure_eq_ok] at hcode
    obtain ⟨_, -, rfl⟩ := hcode
    rfl
  | .var name note, _, _, _, hcode, hstarts => by
    simp only [exprCode, bind_eq_ok, loadCode] at hcode
    obtain ⟨_, -, hload⟩ := hcode
    split at hload
    · rename_i slot hslot
      cases hload
      rw [slot_eq_of_slotOf? hstarts hslot]
      rfl
    · cases hload
  | .call receiver method args target note, _, _, _, hcode, hstarts => by
    simp only [exprCode, bind_eq_ok, pure_eq_ok] at hcode
    obtain ⟨_, -, cls, htarget, first, hfirst, rfl⟩ := hcode
    -- only a call that was resolved has code
    have hsome : target = some cls := by
      unfold callTarget at htarget
      split at htarget
      · cases htarget
        rfl
      · cases htarget
    rw [hsome]
    exact (argsCode_narrows args hfirst hstarts).snoc (.call cls method.name args.length)
  | .index array position note, _, _, _, hcode, hstarts => by
    simp only [exprCode, bind_eq_ok, pure_eq_ok] at hcode
    obtain ⟨_, -, first, hfirst, second, hsecond, rfl⟩ := hcode
    rw [length_exprCode array hfirst] at hsecond
    exact ((exprCode_narrows array hfirst hstarts).append
      (exprCode_narrows position hsecond hstarts)).snoc (.plain .index)
  | .length value note, _, _, _, hcode, hstarts => by
    simp only [exprCode, bind_eq_ok, pure_eq_ok] at hcode
    obtain ⟨_, -, first, hfirst, rfl⟩ := hcode
    exact (exprCode_narrows value hfirst hstarts).snoc (.plain .length)
  | .unary op operand note, _, _, _, hcode, hstarts => by
    simp only [exprCode, bind_eq_ok, pure_eq_ok] at hcode
    obtain ⟨_, -, first, hfirst, rfl⟩ := hcode
    exact (exprCode_narrows operand hfirst hstarts).snoc (.plain (unaryInstr op))
  | .binary op left right note, _, place, _, hcode, hstarts => by
    simp only [exprCode, bind_eq_ok, pure_eq_ok] at hcode
    obtain ⟨type, htype, first, hfirst, second, hsecond, rfl⟩ := hcode
    have hnote : note.type = some type := (typeOf_eq_ok htype).1
    rw [rightPlace_eq, length_exprCode left hfirst] at hsecond
    have hparts := binaryCode_narrows (exprCode_narrows left hfirst hstarts)
      (exprCode_narrows right hsecond hstarts) op type place
    rw [length_exprCode left hfirst, length_exprCode right hsecond, ← hnote] at hparts
    exact hparts

theorem argsCode_narrows : ∀ (es : List Expr) {slots : Slots} {place : Nat} {made : List Instr},
    argsCode file slots place es = .ok made → slots <+: all → Narrows (argsWide all place es) made
  | [], _, _, _, hcode, _ => by
    cases hcode
    rfl
  | e :: es, _, _, _, hcode, hstarts => by
    simp only [argsCode, bind_eq_ok, pure_eq_ok] at hcode
    obtain ⟨first, hfirst, rest, hrest, rfl⟩ := hcode
    rw [length_exprCode e hfirst] at hrest
    exact (exprCode_narrows e hfirst hstarts).append (argsCode_narrows es hrest hstarts)

end

mutual

/-- The code of a statement is made by narrowing. -/
theorem stmtCode_narrows : ∀ (stmt : Stmt) {slots : Slots} {place : Nat} {emitted : Emitted},
    stmtCode file slots place stmt = .ok emitted → emitted.slots <+: all →
      Narrows (stmtWide all place stmt) emitted.code
  | .expr value span, _, _, _, hcode, hstarts => by
    simp only [stmtCode, bind_eq_ok, pure_eq_ok] at hcode
    obtain ⟨type, htype, made, hvalue, rfl⟩ := hcode
    rw [stmtWide, (typeOf_eq_ok htype).1, Option.any_some]
    apply (exprCode_narrows value hvalue hstarts).append
    split <;> rfl
  | .assign target value span, slots, _, _, hcode, hstarts => by
    simp only [stmtCode, bind_eq_ok, pure_eq_ok] at hcode
    obtain ⟨made, hvalue, rfl⟩ := hcode
    have hslots : addSlot slots target.name <+: all := hstarts
    obtain ⟨slot, hslot⟩ : ∃ slot, slotOf? (addSlot slots target.name) target.name = some slot :=
      slotOf?_of_mem (mem_addSlot.mpr (.inr rfl))
    rw [hslot, slot_eq_of_slotOf? hslots hslot]
    exact (exprCode_narrows value hvalue (prefix_addSlot.trans hslots)).snoc
      (.store (all.idxOf target.name))
  | .cond chain span, _, _, _, hcode, hstarts => by
    simp only [stmtCode, bind_eq_ok, pure_eq_ok] at hcode
    obtain ⟨emitted, hchain, rfl⟩ := hcode
    have hnarrows := chainCode_narrows chain hchain hstarts
    exact hnarrows
  | .loop condition body span, slots, place, _, hcode, hstarts => by
    simp only [stmtCode, bind_eq_ok, pure_eq_ok] at hcode
    obtain ⟨test, htest, inner, hinner, rfl⟩ := hcode
    have hinnerStarts : inner.slots <+: all := hstarts
    have htestStarts := (prefix_of_slots (slots_blockCode body hinner)).trans hinnerStarts
    have hlength := length_blockCode body hinner
    rw [length_exprCode condition htest] at hinner ⊢
    -- the test jumps behind the whole loop
    have hbehind : place + exprSize condition + 1 + inner.code.length + 1
        = place + stmtSize (.loop condition body span) := by
      rw [hlength, stmtSize]
      omega
    rw [hbehind]
    exact (((exprCode_narrows condition htest htestStarts).snoc _).append
      (blockCode_narrows body hinner hinnerStarts)).snoc (.jump place)
  | .ret (some value) span, _, _, _, hcode, hstarts => by
    simp only [stmtCode, bind_eq_ok, pure_eq_ok] at hcode
    obtain ⟨made, hvalue, rfl⟩ := hcode
    exact (exprCode_narrows value hvalue hstarts).snoc (.plain .ret)
  | .ret none span, _, _, _, hcode, _ => by
    cases hcode
    rfl
  | .puts value span, _, _, _, hcode, hstarts => by
    simp only [stmtCode, bind_eq_ok, pure_eq_ok] at hcode
    obtain ⟨made, hvalue, rfl⟩ := hcode
    exact (exprCode_narrows value hvalue hstarts).snoc (.plain .puts)
  | .raise value span, _, _, _, hcode, hstarts => by
    simp only [stmtCode, bind_eq_ok, pure_eq_ok] at hcode
    obtain ⟨made, hvalue, rfl⟩ := hcode
    exact (exprCode_narrows value hvalue hstarts).snoc (.plain .raise)

theorem blockCode_narrows : ∀ (block : Block) {slots : Slots} {place : Nat} {emitted : Emitted},
    blockCode file slots place block = .ok emitted → emitted.slots <+: all →
      Narrows (blockWide all place block) emitted.code
  | .mk stmts _, _, _, _, hcode, hstarts => stmtsCode_narrows stmts hcode hstarts

theorem stmtsCode_narrows : ∀ (stmts : List Stmt) {slots : Slots} {place : Nat}
    {emitted : Emitted}, stmtsCode file slots place stmts = .ok emitted → emitted.slots <+: all →
      Narrows (stmtsWide all place stmts) emitted.code
  | [], _, _, _, hcode, _ => by
    cases hcode
    rfl
  | stmt :: stmts, _, _, _, hcode, hstarts => by
    simp only [stmtsCode, bind_eq_ok, pure_eq_ok] at hcode
    obtain ⟨first, hfirst, others, hothers, rfl⟩ := hcode
    have hothersStarts : others.slots <+: all := hstarts
    have hfirstStarts := (prefix_of_slots (slots_stmtsCode stmts hothers)).trans hothersStarts
    rw [length_stmtCode stmt hfirst] at hothers
    exact (stmtCode_narrows stmt hfirst hfirstStarts).append
      (stmtsCode_narrows stmts hothers hothersStarts)

theorem chainCode_narrows : ∀ (chain : Chain) {slots : Slots} {place : Nat} {emitted : Emitted},
    chainCode file slots place chain = .ok emitted → emitted.slots <+: all →
      Narrows (chainWide all place chain) emitted.code
  | .done, _, _, _, hcode, _ => by
    cases hcode
    rfl
  | .otherwise body, _, _, _, hcode, hstarts => blockCode_narrows body hcode hstarts
  | .branch condition body rest, _, place, _, hcode, hstarts => by
    simp only [chainCode, bind_eq_ok, pure_eq_ok] at hcode
    obtain ⟨test, htest, taken, htaken, others, hothers, rfl⟩ := hcode
    have hothersStarts : others.slots <+: all := hstarts
    have htakenStarts := (prefix_of_slots (slots_chainCode rest hothers)).trans hothersStarts
    have htestStarts := (prefix_of_slots (slots_blockCode body htaken)).trans htakenStarts
    have hlength := length_blockCode body htaken
    have hrestLength := length_chainCode rest hothers
    rw [length_exprCode condition htest] at htaken hothers ⊢
    rw [hlength] at hothers ⊢
    -- a branch that was taken goes on behind the whole conditional
    have hbehind : place + exprSize condition + 1 + blockSize body + 1 + others.code.length
        = place + chainSize (.branch condition body rest) := by
      rw [hrestLength, chainSize]
      omega
    rw [hbehind]
    exact ((((exprCode_narrows condition htest htestStarts).snoc _).append
      (blockCode_narrows body htaken htakenStarts)).snoc _).append
        (chainCode_narrows rest hothers hothersStarts)

end

theorem bodyCode_narrows {ret : Ty} {stmts : List Stmt} {slots : Slots} {place : Nat}
    {emitted : Emitted} (hcode : bodyCode file ret slots place stmts = .ok emitted)
    (hstarts : emitted.slots <+: all) : Narrows (bodyWide all ret place stmts) emitted.code := by
  induction stmts generalizing slots place emitted with
  | nil =>
    cases hcode
    rfl
  | cons stmt rest ih =>
    rcases isLast_cases stmt rest with hlast | ⟨value, span, rfl, rfl⟩
    · rw [bodyCode_cons hlast] at hcode
      simp only [bind_eq_ok, pure_eq_ok] at hcode
      obtain ⟨first, hfirst, others, hothers, rfl⟩ := hcode
      have hothersStarts : others.slots <+: all := hstarts
      have hfirstStarts := (prefix_of_slots (slots_bodyCode rest hothers)).trans hothersStarts
      rw [length_stmtCode stmt hfirst] at hothers
      rw [bodyWide_cons hlast]
      exact (stmtCode_narrows stmt hfirst hfirstStarts).append (ih hothers hothersStarts)
    · -- a bare expression at the end is a statement or the value that is owed
      rw [bodyCode] at hcode
      rw [bodyWide]
      split at hcode
      · rename_i hvoid
        rw [if_pos hvoid]
        exact stmtCode_narrows _ hcode hstarts
      · rename_i hvoid
        simp only [bind_eq_ok, pure_eq_ok] at hcode
        obtain ⟨made, hvalue, rfl⟩ := hcode
        rw [if_neg hvoid]
        exact (exprCode_narrows value hvalue hstarts).snoc (.plain .ret)

end

section

variable {file : String} {m : Method} {code : MethodCode}

/-- The code of a method is made by narrowing. -/
theorem code_methodCode (hcode : methodCode file m = .ok code) :
    Narrows (wideCode code.ret m) code.code.toList := by
  obtain ⟨params, ret, body, last, -, -, hbody, hlast, rfl⟩ := methodCode_eq_ok hcode
  have hnarrows := bodyCode_narrows hbody (List.prefix_refl body.slots)
  rw [slots_methodBody hbody] at hnarrows
  apply hnarrows.append
  rw [endCode_eq_ok hlast]
  split <;> rfl

/-- The count of locals of a method is made by narrowing. -/
theorem locals_eq (hcode : methodCode file m = .ok code) :
    code.locals = UInt16.ofNat (methodNames m).length := by
  obtain ⟨params, ret, body, last, -, -, hbody, -, rfl⟩ := methodCode_eq_ok hcode
  rw [slots_methodBody hbody]

end

/-! ## When nothing is lost -/

/-- All numbers in the code of a method are those that are meant. -/
structure NumbersKept (m : Method) (code : MethodCode) : Prop where
  /-- A frame has a slot for each name. -/
  locals : code.locals.toNat = (methodNames m).length
  /-- Different names have different slots. -/
  distinct : ∀ name ∈ methodNames m, ∀ other ∈ methodNames m,
    methodSlot m name = methodSlot m other → name = other
  /-- Loads and stores name slots that a frame has. -/
  below : SlotsBelow code.locals.toNat code.code.toList
  /-- Slots are those of the names, counts are those of the arguments, and jumps lead where they are
  meant to. -/
  instrs : List.Forall₂ WideInstr.Kept (wideCode code.ret m) code.code.toList
  /-- The line table has the places where the statements start, and their lines. -/
  marks : List.Forall₂
    (fun s mark => mark.place.toNat = s.first ∧ mark.line.toNat = s.stmt.span.start.line)
    (methodStretches code.ret m) code.lines

/-- All numbers that the code of a method that returns `ret` is to have can be written. -/
structure NumbersFit (m : Method) (ret : Ty) : Prop where
  names : (methodNames m).length < UInt16.size
  instrs : ∀ w ∈ wideCode ret m, w.Fits
  marks : ∀ s ∈ methodStretches ret m,
    s.first < UInt32.size ∧ s.stmt.span.start.line < UInt32.size

theorem toNat_ofNat16_iff {n : Nat} : (UInt16.ofNat n).toNat = n ↔ n < UInt16.size :=
  ⟨fun h => h ▸ UInt16.toNat_lt_size _, UInt16.toNat_ofNat_of_lt'⟩

theorem toNat_ofNat32_iff {n : Nat} : (UInt32.ofNat n).toNat = n ↔ n < UInt32.size :=
  ⟨fun h => h ▸ UInt32.toNat_lt_size _, UInt32.toNat_ofNat_of_lt'⟩

section

variable {file : String} {m : Method} {code : MethodCode}

/-- Marks of stretches keep places and lines that fit. -/
theorem forall₂_marks {stretches : List Stretch} :
    List.Forall₂
      (fun s mark => mark.place.toNat = s.first ∧ mark.line.toNat = s.stmt.span.start.line)
      stretches (stretches.map Stretch.mark) ↔
    ∀ s ∈ stretches, s.first < UInt32.size ∧ s.stmt.span.start.line < UInt32.size := by
  rw [List.forall₂_map_right_iff, List.forall₂_same]
  exact forall₂_congr fun _ _ => and_congr toNat_ofNat32_iff toNat_ofNat32_iff

/-- The code of a method says what is meant exactly when all its numbers can be written. -/
theorem numbersKept_iff (hcode : methodCode file m = .ok code) :
    NumbersKept m code ↔ NumbersFit m code.ret := by
  have hinstrs := code_methodCode hcode
  have hmarks := lines_methodCode hcode
  have hlocals := locals_eq hcode
  constructor
  · intro h
    constructor
    case names => exact toNat_ofNat16_iff.mp (hlocals ▸ h.locals)
    case instrs => exact WideInstr.forall₂_kept_narrow.mp (hinstrs ▸ h.instrs)
    case marks => exact forall₂_marks.mp (hmarks ▸ h.marks)
  · intro h
    -- so many names have different positions, and these fit into slots
    have hlength : (methodNames m).length ≤ 65535 := Nat.le_of_lt_succ h.names
    refine ⟨?locals, ?distinct, methodCode_slots hcode h.names, ?instrs, ?marks⟩
    case locals =>
      rw [hlocals]
      exact toNat_ofNat16_iff.mpr h.names
    case distinct =>
      intro name hname other hother hsame
      exact slotIn_inj hlength hname hother hsame
    case instrs =>
      rw [hinstrs]
      exact WideInstr.forall₂_kept_narrow.mpr h.instrs
    case marks =>
      rw [hmarks]
      exact forall₂_marks.mpr h.marks

end

/-- **Narrowing is exact for numbers that fit, and only for those.** The code of a method, of
whatever size, is that which is meant, with its numbers narrowed. Every name has a slot of its own
that frames have, their count is that of the names, loads and stores go to the slots of their names,
calls have the counts of their arguments, and jumps and line marks have the places that they are
meant to have, exactly when all these numbers can be written. -/
theorem narrowing_is_exact {file : String} {m : Method} {code : MethodCode}
    (hcode : methodCode file m = .ok code) :
    (methodNames m).Nodup ∧
    (∀ name, name ∈ methodNames m ↔
      name ∈ m.params.map (·.name.name) ∨ name ∈ stmtsNames m.body.stmts) ∧
    code.locals = UInt16.ofNat (methodNames m).length ∧
    code.code.toList = (wideCode code.ret m).map WideInstr.narrow ∧
    code.lines = (methodStretches code.ret m).map Stretch.mark ∧
    (NumbersKept m code ↔ NumbersFit m code.ret) := by
  refine ⟨nodup_addSlots .nil, ?_, locals_eq hcode, code_methodCode hcode, lines_methodCode hcode,
    numbersKept_iff hcode⟩
  intro name
  rw [methodNames, addSlots, mem_foldl_addSlot, List.mem_append]
  simp

/-- Arguments `7, ..., 7`. -/
def sevens (count : Nat) : List Expr := List.replicate count (.int 7 ⟨default, some .int⟩)

/-- A statement `puts Wide.first(7, ..., 7)`. -/
def spreadStmt (count : Nat) : Stmt :=
  .puts (.call (some ⟨"Wide", default⟩) ⟨"first", default⟩ (sevens count) (some "Wide")
    ⟨default, some .int⟩) (spanOn 1)

/-- A method that consists of the statement. -/
def spreadMethod (count : Nat) : Method where
  name := ⟨"spread", default⟩
  isStatic := false
  params := []
  ret := none
  retType := some .void
  body := .mk [spreadStmt count] default
  span := default

/-- What is made for the method. -/
def spreadCode (count : Nat) : MethodCode where
  name := "spread"
  params := []
  ret := .void
  locals := 0
  code := (List.replicate count (Instr.pushInt 7)
    ++ [Instr.call "Wide" "first" (UInt16.ofNat count), .puts] ++ [Instr.retVoid]).toArray
  lines := [⟨0, 1⟩]

theorem argsCode_sevens (count place : Nat) :
    argsCode "Spread" [] place (sevens count) = .ok (List.replicate count (.pushInt 7)) := by
  induction count generalizing place with
  | zero => rfl
  | succ count ih =>
    rw [sevens, List.replicate_succ, argsCode]
    simp only [bind_eq_ok]
    exact ⟨_, rfl, _, ih _, rfl⟩

/-- Code is made for the method whatever the number of arguments is. -/
theorem methodCode_spreadMethod (count : Nat) :
    methodCode "Spread" (spreadMethod count) = .ok (spreadCode count) := by
  have hargs := argsCode_sevens count 0
  have hlength : (sevens count).length = count := List.length_replicate
  have hbody : bodyCode "Spread" .void [] 0 [spreadStmt count] = .ok
      ⟨List.replicate count (.pushInt 7) ++ [.call "Wide" "first" (UInt16.ofNat count), .puts],
        [⟨0, 1⟩], []⟩ := by
    simp only [spreadStmt, bodyCode, stmtCode, exprCode, hargs, hlength, bind_eq_ok, pure_eq_ok]
    refine ⟨_, ⟨_, ⟨_, rfl, _, rfl, _, rfl, rfl⟩, rfl⟩, _, rfl, ?_⟩
    apply congrArg fun code => Emitted.mk code [⟨0, 1⟩] []
    rw [code_markLine, code_plain, code_plain, List.append_nil, List.append_assoc]
    rfl
  simp only [methodCode, bind_eq_ok]
  exact ⟨_, rfl, _, rfl, _, hbody, _, rfl, rfl⟩

theorem argsWide_sevens (count place : Nat) :
    argsWide [] place (sevens count) = List.replicate count (.plain (.pushInt 7)) := by
  induction count generalizing place with
  | zero => rfl
  | succ count ih =>
    rw [sevens, List.replicate_succ, argsWide, ← sevens, ih]
    rfl

/-- All numbers of the method can be written when its arguments can be counted. -/
theorem numbersFit_spreadMethod (count : Nat) :
    NumbersFit (spreadMethod count) .void ↔ count < UInt16.size := by
  have hwide : wideCode .void (spreadMethod count) = List.replicate count (.plain (.pushInt 7))
      ++ [.call "Wide" "first" count, .plain .puts, .plain .retVoid] := by
    have hlength : (sevens count).length = count := List.length_replicate
    rw [← argsWide_sevens count 0]
    simp [wideCode, spreadMethod, Block.stmts, bodyWide, spreadStmt, stmtWide, exprWide, hlength,
      Ty.isVoid, methodNames, stmtsNames, stmtNames, addSlots]
  have hnames : methodNames (spreadMethod count) = [] := rfl
  have hstretches : methodStretches .void (spreadMethod count)
      = [⟨spreadStmt count, 0, 0 + stmtSize (spreadStmt count)⟩] := rfl
  constructor
  · intro h
    -- the only number that can be too large is that of the arguments
    have hcall : WideInstr.Fits (.call "Wide" "first" count) := by
      apply h.instrs
      rw [hwide]
      exact List.mem_append_right _ List.mem_cons_self
    exact hcall
  · intro h
    refine ⟨by rw [hnames]; decide, ?_, ?_⟩
    · rw [hwide, List.forall_mem_append]
      constructor
      · intro w hw
        rw [List.eq_of_mem_replicate hw]
        trivial
      · simp only [List.forall_mem_cons]
        exact ⟨h, trivial, trivial, List.forall_mem_nil _⟩
    · rw [hstretches, List.forall_mem_singleton]
      exact ⟨(by decide : 0 < UInt32.size), (by decide : 1 < UInt32.size)⟩

/-- With two arguments the call has the number two. -/
theorem spreadMethod_is_exact :
    methodCode "Spread" (spreadMethod 2) = .ok (spreadCode 2) ∧
      (spreadCode 2).code = #[.pushInt 7, .pushInt 7, .call "Wide" "first" 2, .puts, .retVoid] ∧
      NumbersKept (spreadMethod 2) (spreadCode 2) := by
  have hcode := methodCode_spreadMethod 2
  obtain ⟨-, -, -, -, -, hexact⟩ := narrowing_is_exact hcode
  exact ⟨hcode, rfl, hexact.mpr ((numbersFit_spreadMethod 2).mpr (by decide))⟩

/-- Any number of arguments is accepted, and the call has it modulo 65536. So its code says what is
meant for up to 65535 arguments and for no more. -/
theorem spread_is_narrowed (count : Nat) :
    methodCode "Spread" (spreadMethod count) = .ok (spreadCode count) ∧
      (NumbersKept (spreadMethod count) (spreadCode count) ↔ count < UInt16.size) := by
  have hcode := methodCode_spreadMethod count
  exact ⟨hcode, (numbersKept_iff hcode).trans (numbersFit_spreadMethod count)⟩

end StackScript.Code

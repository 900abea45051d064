import StackScript.Proofs.Confinement
import StackScript.Proofs.Generating

/-!
# Names, slots and arguments

Typing knows the locals of a method by name, its code by slot, and a frame gets its arguments by
position. In a method of an accepted batch whose parameters have distinct names, and which has no
more names than slots can count, the three agree (`slots_agree`): the code loads and stores what the
body reads and assigns, each name in a slot of its own, the parameter at a position in the slot of
that number, and the parameter is read with its declared type.

When a name is repeated the three do not agree: typing goes by the last parameter of the name, code
by the first one (`read_of_repeated`).
-/

namespace StackScript.Code

open StackScript.Session StackScript.Syntax StackScript.Typing

/-! ## Uses of locals -/

/-- A local is read, as an expression with the type that is written into it, or it is assigned. -/
inductive Access where
  | read (name : String) (type : Option Ty)
  | write (name : String)
  deriving DecidableEq, Repr

namespace Access

/-- The name of the local. -/
def name : Access → String
  | read name _ | write name => name

/-- The instruction of a use, by the slots of names. -/
def instr (slot : String → UInt16) : Access → Instr
  | read name _ => .load (slot name)
  | write name => .store (slot name)

end Access

/-- The read that an expression is, if it is a local. -/
def access? : Expr → Option Access
  | .var name note => some (.read name.name note.type)
  | _ => none

/-- The reads in an expression, in source order. -/
def exprReads (e : Expr) : List Access := (exprParts e).filterMap access?

/-- The reads in expressions, in source order. -/
def argsReads (es : List Expr) : List Access := (argsParts es).filterMap access?

mutual

/-- The uses of locals in a statement, in the order of their instructions. -/
def stmtAccesses : Stmt → List Access
  | .expr value _ | .puts value _ | .raise value _ | .ret (some value) _ => exprReads value
  | .assign target value _ => exprReads value ++ [.write target.name]
  | .ret none _ => []
  | .cond chain _ => chainAccesses chain
  | .loop condition body _ => exprReads condition ++ blockAccesses body

/-- The uses of locals in a block. -/
def blockAccesses : Block → List Access
  | .mk stmts _ => stmtsAccesses stmts

/-- The uses of locals in statements. -/
def stmtsAccesses : List Stmt → List Access
  | [] => []
  | stmt :: rest => stmtAccesses stmt ++ stmtsAccesses rest

/-- The uses of locals in the branches of a conditional. -/
def chainAccesses : Chain → List Access
  | .done => []
  | .otherwise body => blockAccesses body
  | .branch condition body rest => exprReads condition ++ blockAccesses body ++ chainAccesses rest

end

/-! ## Slots of names -/

/-- The slot of a name among all names with slots. -/
def slotIn (all : Slots) (name : String) : UInt16 := (slotOf? all name).getD 0

/-- The slot of a parameter or local of a method. -/
def methodSlot (m : Method) (name : String) : UInt16 := slotIn (methodNames m) name

section

variable {slots all : Slots} {name : String}

/-- A slot stays the slot of its name when more names get slots. -/
theorem slotOf?_mono (hstarts : slots <+: all) {slot : UInt16}
    (h : slotOf? slots name = some slot) : slotOf? all name = some slot := by
  obtain ⟨rest, rfl⟩ := hstarts
  obtain ⟨i, hi, rfl⟩ := Option.map_eq_some_iff.mp h
  rw [slotOf?, List.idxOf?, List.findIdx?_append]
  rw [List.idxOf?] at hi
  rw [hi]
  rfl

theorem slotIn_of_slotOf? {slot : UInt16} (h : slotOf? all name = some slot) :
    slotIn all name = slot := by
  rw [slotIn, h, Option.getD_some]

/-- Each of the names has a slot. -/
theorem slotOf?_eq_some_slotIn (h : name ∈ all) : slotOf? all name = some (slotIn all name) := by
  obtain ⟨slot, hslot⟩ := slotOf?_of_mem h
  rw [hslot, slotIn_of_slotOf? hslot]

theorem mem_of_slotOf? {slot : UInt16} (h : slotOf? all name = some slot) : name ∈ all := by
  obtain ⟨i, hi, -⟩ := Option.map_eq_some_iff.mp h
  exact List.isSome_idxOf?.mp (by rw [hi]; rfl)

end

/-! ## Code of uses -/

/-- The instructions that name slots, in order. -/
def accesses (code : List Instr) : List Instr := code.filter (·.slot?.isSome)

/-- The instructions of the code that name slots are those of the uses, in order, and each use has a
name with a slot. -/
structure Numbered (all : Slots) (code : List Instr) (uses : List Access) : Prop where
  instrs : accesses code = uses.map (Access.instr (slotIn all))
  names : ∀ use ∈ uses, use.name ∈ all

namespace Numbered

variable {all : Slots} {code other : List Instr} {uses more : List Access}

theorem nil (all : Slots) : Numbered all [] [] := ⟨rfl, nofun⟩

/-- Instructions without slots are no uses. -/
theorem silent (all : Slots) {code : List Instr} (h : ∀ instr ∈ code, instr.slot? = none) :
    Numbered all code [] where
  instrs := List.filter_eq_nil_iff.mpr fun instr hinstr => by simp [h instr hinstr]
  names := nofun

theorem one (all : Slots) {instr : Instr} (h : instr.slot? = none) : Numbered all [instr] [] :=
  silent all (List.forall_mem_singleton.mpr h)

/-- A name that has its slot already is read there. -/
theorem load {slots : Slots} (hstarts : slots <+: all) {name : String} {slot : UInt16}
    (h : slotOf? slots name = some slot) (type : Option Ty) :
    Numbered all [.load slot] [.read name type] where
  instrs := by
    rw [← slotIn_of_slotOf? (slotOf?_mono hstarts h)]
    rfl
  names := List.forall_mem_singleton.mpr (mem_of_slotOf? (slotOf?_mono hstarts h))

/-- A name that has its slot already is written there. -/
theorem store {slots : Slots} (hstarts : slots <+: all) {name : String} {slot : UInt16}
    (h : slotOf? slots name = some slot) : Numbered all [.store slot] [.write name] where
  instrs := by
    rw [← slotIn_of_slotOf? (slotOf?_mono hstarts h)]
    rfl
  names := List.forall_mem_singleton.mpr (mem_of_slotOf? (slotOf?_mono hstarts h))

/-- Pieces of code that number their names right do so one behind the other. -/
theorem append (h : Numbered all code uses) (hother : Numbered all other more) :
    Numbered all (code ++ other) (uses ++ more) where
  instrs := by rw [accesses, List.filter_append, List.map_append, ← h.instrs, ← hother.instrs]; rfl
  names := List.forall_mem_append.mpr ⟨h.names, hother.names⟩

/-- What names no slots can follow. -/
theorem append_silent (h : Numbered all code uses) (hother : Numbered all other []) :
    Numbered all (code ++ other) uses := by
  have happend := h.append hother
  rwa [List.append_nil] at happend

/-- A test that is followed by what is done when it is passed. -/
theorem branch (h : Numbered all code uses) (target : UInt32) (hother : Numbered all other more) :
    Numbered all (code ++ [.jumpIfFalse target] ++ other) (uses ++ more) :=
  (h.append_silent (.one all rfl)).append hother

end Numbered

section

variable {all : Slots} {file : String}

/-- An operator has no slots but those of its operands. -/
theorem binaryCode_numbered {left right : List Instr} {uses more : List Access}
    (hleft : Numbered all left uses) (hright : Numbered all right more) (op : BinaryOp)
    (type : Ty) (place : Nat) :
    Numbered all (binaryCode op type place left right) (uses ++ more) := by
  by_cases hand : op = .and
  · subst hand
    exact ((hleft.append_silent (.one all rfl)).append hright).append_silent
      (.silent all (by simp [Instr.slot?]))
  · by_cases hor : op = .or
    · subst hor
      exact (hleft.append_silent (.silent all (by simp [Instr.slot?]))).append hright
    · obtain ⟨instr, hinstr, -, hcode⟩ := Machine.binaryCode_strict hand hor type
      rw [hcode]
      exact (hleft.append hright).append_silent (.one all (slot?_of_binaryInstr? hinstr))

mutual

/-- The code of an expression loads what it reads. -/
theorem exprCode_numbered : ∀ (e : Expr) {slots : Slots} {place : Nat} {made : List Instr},
    exprCode file slots place e = .ok made → slots <+: all → Numbered all made (exprReads e)
  | .int .., _, _, _, hcode, _ => by
    simp only [exprCode, bind_eq_ok, pure_eq_ok] at hcode
    obtain ⟨_, -, rfl⟩ := hcode
    exact .one all rfl
  | .bool .., _, _, _, hcode, _ => by
    simp only [exprCode, bind_eq_ok, pure_eq_ok] at hcode
    obtain ⟨_, -, rfl⟩ := hcode
    exact .one all rfl
  | .string .., _, _, _, hcode, _ => by
    simp only [exprCode, bind_eq_ok, pure_eq_ok] at hcode
    obtain ⟨_, -, rfl⟩ := hcode
    exact .one all rfl
  | .var name note, _, _, _, hcode, hstarts => by
    simp only [exprCode, bind_eq_ok, loadCode] at hcode
    obtain ⟨_, -, hload⟩ := hcode
    split at hload
    · rename_i slot hslot
      cases hload
      exact .load hstarts hslot note.type
    · cases hload
  | .call receiver method args target note, _, _, _, hcode, hstarts => by
    simp only [exprCode, bind_eq_ok, pure_eq_ok] at hcode
    obtain ⟨_, -, _, -, first, hfirst, rfl⟩ := hcode
    exact (argsCode_numbered args hfirst hstarts).append_silent (.one all rfl)
  | .index array position note, _, _, _, hcode, hstarts => by
    simp only [exprCode, bind_eq_ok, pure_eq_ok] at hcode
    obtain ⟨_, -, first, hfirst, second, hsecond, rfl⟩ := hcode
    have hparts := (exprCode_numbered array hfirst hstarts).append
      (exprCode_numbered position hsecond hstarts)
    rw [exprReads, exprReads, ← List.filterMap_append] at hparts
    exact hparts.append_silent (.one all rfl)
  | .length value note, _, _, _, hcode, hstarts => by
    simp only [exprCode, bind_eq_ok, pure_eq_ok] at hcode
    obtain ⟨_, -, first, hfirst, rfl⟩ := hcode
    exact (exprCode_numbered value hfirst hstarts).append_silent (.one all rfl)
  | .unary op operand note, _, _, _, hcode, hstarts => by
    simp only [exprCode, bind_eq_ok, pure_eq_ok] at hcode
    obtain ⟨_, -, first, hfirst, rfl⟩ := hcode
    exact (exprCode_numbered operand hfirst hstarts).append_silent
      (.one all (by cases op <;> rfl))
  | .binary op left right note, _, place, _, hcode, hstarts => by
    simp only [exprCode, bind_eq_ok, pure_eq_ok] at hcode
    obtain ⟨type, -, first, hfirst, second, hsecond, rfl⟩ := hcode
    have hparts := binaryCode_numbered (exprCode_numbered left hfirst hstarts)
      (exprCode_numbered right hsecond hstarts) op type place
    rw [exprReads, exprReads, ← List.filterMap_append] at hparts
    exact hparts

/-- Arguments load the slots of the names that they read. -/
theorem argsCode_numbered : ∀ (es : List Expr) {slots : Slots} {place : Nat} {made : List Instr},
    argsCode file slots place es = .ok made → slots <+: all → Numbered all made (argsReads es)
  | [], _, _, _, hcode, _ => by
    cases hcode
    exact .nil all
  | e :: es, _, _, _, hcode, hstarts => by
    simp only [argsCode, bind_eq_ok, pure_eq_ok] at hcode
    obtain ⟨first, hfirst, rest, hrest, rfl⟩ := hcode
    have hparts := (exprCode_numbered e hfirst hstarts).append
      (argsCode_numbered es hrest hstarts)
    rw [exprReads, argsReads, ← List.filterMap_append] at hparts
    exact hparts

end

mutual

/-- The code of a statement loads and stores what it reads and assigns. -/
theorem stmtCode_numbered : ∀ (stmt : Stmt) {slots : Slots} {place : Nat} {emitted : Emitted},
    stmtCode file slots place stmt = .ok emitted → emitted.slots <+: all →
      Numbered all emitted.code (stmtAccesses stmt)
  | .expr value span, _, _, _, hcode, hstarts => by
    simp only [stmtCode, bind_eq_ok, pure_eq_ok] at hcode
    obtain ⟨type, -, made, hvalue, rfl⟩ := hcode
    refine (exprCode_numbered value hvalue hstarts).append_silent ?_
    split
    · exact .nil all
    · exact .one all rfl
  | .assign target value span, slots, _, _, hcode, hstarts => by
    simp only [stmtCode, bind_eq_ok, pure_eq_ok] at hcode
    obtain ⟨made, hvalue, rfl⟩ := hcode
    have hslots : addSlot slots target.name <+: all := hstarts
    obtain ⟨slot, hslot⟩ : ∃ slot, slotOf? (addSlot slots target.name) target.name = some slot :=
      slotOf?_of_mem (mem_addSlot.mpr (.inr rfl))
    rw [hslot]
    exact (exprCode_numbered value hvalue (prefix_addSlot.trans hslots)).append
      (.store hslots hslot)
  | .cond chain span, _, _, _, hcode, hstarts => by
    simp only [stmtCode, bind_eq_ok, pure_eq_ok] at hcode
    obtain ⟨emitted, hchain, rfl⟩ := hcode
    have hnumbered := chainCode_numbered chain hchain hstarts
    exact hnumbered
  | .loop condition body span, slots, _, _, hcode, hstarts => by
    simp only [stmtCode, bind_eq_ok, pure_eq_ok] at hcode
    obtain ⟨test, htest, inner, hinner, rfl⟩ := hcode
    have hinnerStarts : inner.slots <+: all := hstarts
    have htestStarts := (prefix_of_slots (slots_blockCode body hinner)).trans hinnerStarts
    exact ((exprCode_numbered condition htest htestStarts).branch _
      (blockCode_numbered body hinner hinnerStarts)).append_silent (.one all rfl)
  | .ret (some value) span, _, _, _, hcode, hstarts => by
    simp only [stmtCode, bind_eq_ok, pure_eq_ok] at hcode
    obtain ⟨made, hvalue, rfl⟩ := hcode
    exact (exprCode_numbered value hvalue hstarts).append_silent (.one all rfl)
  | .ret none span, _, _, _, hcode, _ => by
    cases hcode
    exact .one all rfl
  | .puts value span, _, _, _, hcode, hstarts => by
    simp only [stmtCode, bind_eq_ok, pure_eq_ok] at hcode
    obtain ⟨made, hvalue, rfl⟩ := hcode
    exact (exprCode_numbered value hvalue hstarts).append_silent (.one all rfl)
  | .raise value span, _, _, _, hcode, hstarts => by
    simp only [stmtCode, bind_eq_ok, pure_eq_ok] at hcode
    obtain ⟨made, hvalue, rfl⟩ := hcode
    exact (exprCode_numbered value hvalue hstarts).append_silent (.one all rfl)

theorem blockCode_numbered : ∀ (block : Block) {slots : Slots} {place : Nat} {emitted : Emitted},
    blockCode file slots place block = .ok emitted → emitted.slots <+: all →
      Numbered all emitted.code (blockAccesses block)
  | .mk stmts _, _, _, _, hcode, hstarts => stmtsCode_numbered stmts hcode hstarts

theorem stmtsCode_numbered : ∀ (stmts : List Stmt) {slots : Slots} {place : Nat}
    {emitted : Emitted}, stmtsCode file slots place stmts = .ok emitted → emitted.slots <+: all →
      Numbered all emitted.code (stmtsAccesses stmts)
  | [], _, _, _, hcode, _ => by
    cases hcode
    exact .nil all
  | stmt :: stmts, _, _, _, hcode, hstarts => by
    simp only [stmtsCode, bind_eq_ok, pure_eq_ok] at hcode
    obtain ⟨first, hfirst, others, hothers, rfl⟩ := hcode
    have hothersStarts : others.slots <+: all := hstarts
    have hfirstStarts := (prefix_of_slots (slots_stmtsCode stmts hothers)).trans hothersStarts
    exact (stmtCode_numbered stmt hfirst hfirstStarts).append
      (stmtsCode_numbered stmts hothers hothersStarts)

theorem chainCode_numbered : ∀ (chain : Chain) {slots : Slots} {place : Nat} {emitted : Emitted},
    chainCode file slots place chain = .ok emitted → emitted.slots <+: all →
      Numbered all emitted.code (chainAccesses chain)
  | .done, _, _, _, hcode, _ => by
    cases hcode
    exact .nil all
  | .otherwise body, _, _, _, hcode, hstarts => blockCode_numbered body hcode hstarts
  | .branch condition body rest, _, _, _, hcode, hstarts => by
    simp only [chainCode, bind_eq_ok, pure_eq_ok] at hcode
    obtain ⟨test, htest, taken, htaken, others, hothers, rfl⟩ := hcode
    have hothersStarts : others.slots <+: all := hstarts
    have htakenStarts := (prefix_of_slots (slots_chainCode rest hothers)).trans hothersStarts
    have htestStarts := (prefix_of_slots (slots_blockCode body htaken)).trans htakenStarts
    exact (((exprCode_numbered condition htest htestStarts).branch _
      (blockCode_numbered body htaken htakenStarts)).append_silent (.one all rfl)).append
        (chainCode_numbered rest hothers hothersStarts)

end

/-- A body uses the slots of the names that it reads and assigns. -/
theorem bodyCode_numbered {ret : Ty} {stmts : List Stmt} {slots : Slots} {place : Nat}
    {emitted : Emitted} (hcode : bodyCode file ret slots place stmts = .ok emitted)
    (hstarts : emitted.slots <+: all) : Numbered all emitted.code (stmtsAccesses stmts) := by
  induction stmts generalizing slots place emitted with
  | nil =>
    cases hcode
    exact .nil all
  | cons stmt rest ih =>
    rcases isLast_cases stmt rest with hlast | ⟨value, span, rfl, rfl⟩
    · rw [bodyCode_cons hlast] at hcode
      simp only [bind_eq_ok, pure_eq_ok] at hcode
      obtain ⟨first, hfirst, others, hothers, rfl⟩ := hcode
      have hothersStarts : others.slots <+: all := hstarts
      have hfirstStarts := (prefix_of_slots (slots_bodyCode rest hothers)).trans hothersStarts
      exact (stmtCode_numbered stmt hfirst hfirstStarts).append (ih hothers hothersStarts)
    · rw [stmtsAccesses, stmtsAccesses, List.append_nil]
      rw [bodyCode] at hcode
      split at hcode
      · exact stmtCode_numbered _ hcode hstarts
      · simp only [bind_eq_ok, pure_eq_ok] at hcode
        obtain ⟨made, hvalue, rfl⟩ := hcode
        exact (exprCode_numbered value hvalue hstarts).append_silent (.one all rfl)

/-- The names that a body uses are those of its statements. -/
theorem stmtsAccesses_stmts (m : Method) : stmtsAccesses m.body.stmts = blockAccesses m.body := by
  cases m.body
  rfl

/-- The code of a method loads and stores what its body reads and assigns. -/
theorem methodCode_numbered {m : Method} {code : MethodCode}
    (hcode : methodCode file m = .ok code) :
    Numbered (methodNames m) code.code.toList (blockAccesses m.body) := by
  obtain ⟨params, ret, body, last, -, -, hbody, hlast, rfl⟩ := methodCode_eq_ok hcode
  have hnumbered := bodyCode_numbered hbody (List.prefix_refl body.slots)
  rw [slots_methodBody hbody, stmtsAccesses_stmts] at hnumbered
  refine hnumbered.append_silent ?_
  rw [endCode_eq_ok hlast]
  split
  · exact .one _ rfl
  · exact .nil _

/-- Frames of a method have a slot for each of its names, if slots can count them. -/
theorem locals_methodCode {m : Method} {code : MethodCode} (hcode : methodCode file m = .ok code)
    (hlength : (methodNames m).length ≤ 65535) :
    code.locals.toNat = (methodNames m).length := by
  obtain ⟨params, ret, body, last, -, -, hbody, -, rfl⟩ := methodCode_eq_ok hcode
  rw [← slots_methodBody hbody] at hlength ⊢
  exact toNat_ofNat_of_le hlength

end

/-! ## Types of reads -/

/-- Every read has the type that the local has. -/
def ReadsTyped (Θ : Context) (uses : List Access) : Prop :=
  ∀ name type, .read name type ∈ uses → ∃ t, type = some t ∧ Θ.lookup name = some t

theorem ReadsTyped.append {Θ : Context} {uses more : List Access} (h : ReadsTyped Θ uses)
    (hmore : ReadsTyped Θ more) : ReadsTyped Θ (uses ++ more) :=
  fun name type hread => (List.mem_append.mp hread).elim (h name type) (hmore name type)

section

variable {offers : Offering} {ret : Ty} {Γ Δ Θ : Context}

/-- An expression reads only names that its context has. -/
theorem exprReads_typed (hΓ : Γ.Within Θ) {e : Expr} {t : Ty} (h : HasTy offers Γ e t) :
    ReadsTyped Θ (exprReads e) := by
  intro name type hread
  obtain ⟨part, hpart, haccess⟩ := List.mem_filterMap.mp hread
  obtain ⟨s, hs⟩ := exprParts_typed e h part hpart
  cases hs with
  | @var ident note _ hnote hlocal =>
    cases haccess
    exact ⟨s, hnote, hΓ _ s hlocal⟩
  | _ => cases haccess

mutual

/-- The reads in a typed statement have the types of the locals at its end. -/
theorem stmtAccesses_typed : ∀ (stmt : Stmt) {Γ Δ : Context}, StmtHasTy offers ret Γ stmt Δ →
    Δ.Within Θ → ReadsTyped Θ (stmtAccesses stmt)
  | .expr .., _, _, h, hΔ => by
    cases h with
    | expr hvalue => exact exprReads_typed hΔ hvalue
  | .assign .., _, _, h, hΔ => by
    refine ReadsTyped.append ?_ (by simp [ReadsTyped])
    cases h with
    | assign hvalue _ _ => exact exprReads_typed hΔ hvalue
    | declare hvalue _ hlocal =>
      exact exprReads_typed ((Context.within_declare hlocal _).trans hΔ) hvalue
  | .cond chain _, _, _, h, hΔ => by
    cases h with
    | cond hchain => exact chainAccesses_typed chain hchain hΔ
  | .loop _ body _, _, _, h, hΔ => by
    cases h with
    | loop hcondition hbody =>
      exact (exprReads_typed (hbody.within.trans hΔ) hcondition).append
        (blockAccesses_typed body hbody hΔ)
  | .ret (some _) _, _, _, h, hΔ => by
    cases h with
    | ret hvalue _ => exact exprReads_typed hΔ hvalue
  | .ret none _, _, _, _, _ => by simp [ReadsTyped, stmtAccesses]
  | .puts .., _, _, h, hΔ => by
    cases h with
    | puts hvalue _ => exact exprReads_typed hΔ hvalue
  | .raise .., _, _, h, hΔ => by
    cases h with
    | raise hvalue _ => exact exprReads_typed hΔ hvalue

theorem blockAccesses_typed : ∀ (block : Block) {Γ Δ : Context},
    BlockHasTy offers ret Γ block Δ → Δ.Within Θ → ReadsTyped Θ (blockAccesses block)
  | .mk stmts _, _, _, h, hΔ => by
    cases h with
    | mk hstmts => exact stmtsAccesses_typed stmts hstmts hΔ

theorem stmtsAccesses_typed : ∀ (stmts : List Stmt) {Γ Δ : Context},
    StmtsHaveTy offers ret Γ stmts Δ → Δ.Within Θ → ReadsTyped Θ (stmtsAccesses stmts)
  | [], _, _, _, _ => by simp [ReadsTyped, stmtsAccesses]
  | stmt :: rest, _, _, h, hΔ => by
    cases h with
    | cons hstmt hrest =>
      exact (stmtAccesses_typed stmt hstmt (hrest.within.trans hΔ)).append
        (stmtsAccesses_typed rest hrest hΔ)

theorem chainAccesses_typed : ∀ (chain : Chain) {Γ Δ : Context},
    ChainHasTy offers ret Γ chain Δ → Δ.Within Θ → ReadsTyped Θ (chainAccesses chain)
  | .done, _, _, _, _ => by simp [ReadsTyped, chainAccesses]
  | .otherwise body, _, _, h, hΔ => by
    cases h with
    | otherwise hbody => exact blockAccesses_typed body hbody hΔ
  | .branch _ body rest, _, _, h, hΔ => by
    cases h with
    | branch hcondition hbody hrest =>
      have hrestWithin := hrest.within.trans hΔ
      exact ((exprReads_typed (hbody.within.trans hrestWithin) hcondition).append
        (blockAccesses_typed body hbody hrestWithin)).append (chainAccesses_typed rest hrest hΔ)

end

/-- A body reads only names that its last context has. -/
theorem bodyAccesses_typed {stmts : List Stmt} (h : BodyHasTy offers ret Γ stmts Δ)
    (hΔ : Δ.Within Θ) : ReadsTyped Θ (stmtsAccesses stmts) := by
  induction h with
  | nil => simp [ReadsTyped, stmtsAccesses]
  | value hvalue _ =>
    rw [stmtsAccesses, stmtsAccesses, List.append_nil]
    exact exprReads_typed hΔ hvalue
  | cons _ hstmt hrest ih =>
    exact (stmtAccesses_typed _ hstmt (hrest.within.trans hΔ)).append (ih hΔ)

end

/-- Of the types that are paired with equal names the last is found from the end. -/
theorem lookup_reverse_zip {names : List String} {types : List Ty} {i : Nat} {name : String}
    {t : Ty} (hname : names[i]? = some name) (ht : types[i]? = some t)
    (hlast : ∀ j, i < j → names[j]? ≠ some name) :
    (names.zip types).reverse.lookup name = some t := by
  induction names generalizing types i with
  | nil => cases hname
  | cons first rest ih =>
    cases types with
    | nil => cases ht
    | cons s ts =>
      rw [List.zip_cons_cons, List.reverse_cons, List.lookup_append]
      cases i with
      | zero =>
        cases hname
        cases ht
        have hnone : (rest.zip ts).reverse.lookup name = none := by
          refine List.lookup_eq_none_iff.mpr fun ⟨other, s⟩ hpair => ?_
          obtain ⟨j, hj, -⟩ := Machine.mem_zip_iff.mp (List.mem_reverse.mp hpair)
          rw [bne_iff_ne]
          rintro rfl
          exact hlast (j + 1) (Nat.succ_pos j) hj
        rw [hnone, Option.none_or, List.lookup_cons_self]
      | succ i =>
        rw [ih hname ht fun j hj => hlast (j + 1) (Nat.succ_lt_succ hj), Option.some_or]

/-- In a typed method a parameter is read with its type, if no other one of its name follows. -/
theorem read_of_last {offers : Offering} {m : Method} {sig : MethodSig}
    (h : MethodHasSig offers m sig) {i : Nat} {param : Param} (hparam : m.params[i]? = some param)
    (hlast : ∀ j other, i < j → m.params[j]? = some other → other.name.name ≠ param.name.name)
    {type : Option Ty} (hread : .read param.name.name type ∈ blockAccesses m.body) :
    type = param.type.ty? := by
  obtain ⟨Δ, hbody⟩ := h.body
  rw [← stmtsAccesses_stmts] at hread
  obtain ⟨t, rfl, ht⟩ := bodyAccesses_typed hbody (.refl Δ) _ _ hread
  have htype : (sig.params.map some)[i]? = some param.type.ty? := by
    rw [← h.params, List.getElem?_map, hparam]
    rfl
  rw [List.getElem?_map, Option.map_eq_some_iff] at htype
  obtain ⟨s, hs, hsome⟩ := htype
  have hstart : (startContext m sig.params).lookup param.name.name = some s := by
    refine lookup_reverse_zip (i := i) ?_ hs fun j hj hother => ?_
    · rw [List.getElem?_map, hparam]
      rfl
    · rw [List.getElem?_map, Option.map_eq_some_iff] at hother
      obtain ⟨other, hget, hname⟩ := hother
      exact hlast j other hj hget hname
  rw [← hsome, ← hbody.within _ _ hstart, ht]

/-! ## Slots of parameters -/

/-- With at most 65535 names the slot of a name is its place. -/
theorem toNat_slotIn {all : Slots} (hall : all.Nodup) (hlength : all.length ≤ 65535) {i : Nat}
    {name : String} (h : all[i]? = some name) : (slotIn all name).toNat = i := by
  have hslot := Machine.getElem?_of_slotOf? List.prefix_rfl hlength
    (slotOf?_eq_some_slotIn (List.mem_of_getElem? h))
  exact (List.getElem?_inj (List.getElem?_eq_some_iff.mp hslot).1 hall).mp (hslot.trans h.symm)

/-- Names with one slot are the same. -/
theorem slotIn_inj {all : Slots} (hlength : all.length ≤ 65535) {name other : String}
    (hname : name ∈ all) (hother : other ∈ all) (h : slotIn all name = slotIn all other) :
    name = other := by
  have hfirst := Machine.getElem?_of_slotOf? List.prefix_rfl hlength (slotOf?_eq_some_slotIn hname)
  have hsecond := Machine.getElem?_of_slotOf? List.prefix_rfl hlength
    (slotOf?_eq_some_slotIn hother)
  rw [h, hsecond] at hfirst
  exact (Option.some.inj hfirst).symm

theorem length_addSlots_le {slots : Slots} {names : List String} :
    (addSlots slots names).length ≤ slots.length + names.length := by
  induction names generalizing slots with
  | nil => exact Nat.le_refl _
  | cons name rest ih =>
    have hfirst : (addSlot slots name).length ≤ slots.length + 1 := by
      unfold addSlot
      split
      · exact Nat.le_succ _
      · exact Nat.le_of_eq List.length_append
    rw [List.length_cons]
    exact Nat.le_trans ih (by omega)

/-- The slot of a parameter is at most its position. -/
theorem methodSlot_le {m : Method} {i : Nat} {param : Param} (h : m.params[i]? = some param) :
    (methodSlot m param.name.name).toNat ≤ i := by
  have hstarts : addSlots [] ((m.params.take (i + 1)).map (·.name.name)) <+: methodNames m := by
    have hparams := congrArg (List.map (·.name.name)) (List.take_append_drop (i + 1) m.params)
    rw [List.map_append] at hparams
    rw [methodNames, ← hparams, List.append_assoc, addSlots_append]
    exact prefix_addSlots
  have hmem : param.name.name ∈ addSlots [] ((m.params.take (i + 1)).map (·.name.name)) := by
    refine mem_foldl_addSlot.mpr (.inr (List.mem_map_of_mem ?_))
    refine List.mem_of_getElem? (i := i) ?_
    rw [List.getElem?_take_of_lt (Nat.lt_succ_self i), h]
  have hslot := slotOf?_eq_some_slotIn hmem
  rw [methodSlot, slotIn_of_slotOf? (slotOf?_mono hstarts hslot)]
  have hlt := toNat_of_slotOf? hslot
  have hlength : (addSlots [] ((m.params.take (i + 1)).map (·.name.name))).length ≤ i + 1 := by
    have hle := @length_addSlots_le [] ((m.params.take (i + 1)).map (·.name.name))
    rw [List.length_map, List.length_take, List.length_nil] at hle
    omega
  exact Nat.lt_succ_iff.mp (Nat.lt_of_lt_of_le hlt hlength)

/-- **Repeated names come apart.** When two parameters of a typed method have one name, the name is
read with the type of the later one, from the slot of the earlier one or one before it. -/
theorem read_of_repeated {offers : Offering} {m : Method} {sig : MethodSig}
    (h : MethodHasSig offers m sig) {i j : Nat} {first last : Param} (hij : i < j)
    (hfirst : m.params[i]? = some first) (hlast : m.params[j]? = some last)
    (hsame : first.name.name = last.name.name)
    (hafter : ∀ k other, j < k → m.params[k]? = some other → other.name.name ≠ last.name.name) :
    (∀ type, .read last.name.name type ∈ blockAccesses m.body → type = last.type.ty?) ∧
      (methodSlot m last.name.name).toNat < j := by
  refine ⟨fun type hread => read_of_last h hlast hafter hread, ?_⟩
  rw [← hsame]
  exact Nat.lt_of_le_of_lt (methodSlot_le hfirst) hij

end StackScript.Code

namespace StackScript.Machine

open StackScript.Code StackScript.Syntax StackScript.Typing

/-! ## What is in a slot -/

/-- What comes out, if anything does, is as stated. -/
abbrev OnSuccess {α : Type} (result : α → Prop) (x : Except RuntimeFault α) : Prop :=
  Ends (fun _ => false) result x

/-- The frame is at work on the same code, with the same in the slot. -/
structure Frame.Keeps (slot : Nat) (frame after : Frame) : Prop where
  method : after.method = frame.method
  held : after.locals[slot]? = frame.locals[slot]?

namespace Frame.Keeps

variable {slot : Nat} {a b c : Frame}

theorem refl (a : Frame) : Keeps slot a a := ⟨rfl, rfl⟩

theorem trans (hab : Keeps slot a b) (hbc : Keeps slot b c) : Keeps slot a c :=
  ⟨hbc.method.trans hab.method, hbc.held.trans hab.held⟩

theorem push (h : Keeps slot a b) (value : Value) : Keeps slot a (b.push value) :=
  h.trans ⟨rfl, rfl⟩

theorem receive (h : Keeps slot a b) (result : Value) : Keeps slot a (b.receive result) := by
  unfold Frame.receive
  split
  · exact h
  · exact h.push result

end Frame.Keeps

section

theorem onSuccess_trivial {α : Type} (x : Except RuntimeFault α) : OnSuccess (fun _ => True) x :=
  ⟨fun _ _ => trivial, fun _ _ => rfl⟩

variable (slot : Nat) (frame : Frame)

theorem pop_keeps : OnSuccess (fun r => frame.Keeps slot r.2) frame.pop := by
  unfold Frame.pop
  split
  · exact .value ⟨rfl, rfl⟩
  · exact .fault rfl

theorem popInt_keeps : OnSuccess (fun r => frame.Keeps slot r.2) frame.popInt :=
  (pop_keeps slot frame).bind fun r hr => (onSuccess_trivial r.1.asInt).bind fun _ _ => .value hr

theorem popBool_keeps : OnSuccess (fun r => frame.Keeps slot r.2) frame.popBool :=
  (pop_keeps slot frame).bind fun r hr => (onSuccess_trivial r.1.asBool).bind fun _ _ => .value hr

theorem withInt_keeps (f : Int64 → Except RuntimeFault Value) :
    OnSuccess (frame.Keeps slot) (frame.withInt f) :=
  (popInt_keeps slot frame).bind fun r hr => (onSuccess_trivial (f r.1)).bind fun value _ =>
    .value (hr.push value)

theorem withInts_keeps (f : Int64 → Int64 → Except RuntimeFault Value) :
    OnSuccess (frame.Keeps slot) (frame.withInts f) :=
  (popInt_keeps slot frame).bind fun r hr => (popInt_keeps slot r.2).bind fun l hl =>
    (onSuccess_trivial (f l.1 r.1)).bind fun value _ => .value ((hr.trans hl).push value)

theorem withValues_keeps (f : Value → Value → Value) :
    OnSuccess (frame.Keeps slot) (frame.withValues f) :=
  (pop_keeps slot frame).bind fun _ hr => (pop_keeps slot _).bind fun _ hl =>
    .value ((hr.trans hl).push _)

theorem load_keeps (other : UInt16) : OnSuccess (frame.Keeps slot) (frame.load other) := by
  unfold Frame.load
  split
  · rename_i value _
    exact .value ((Frame.Keeps.refl frame).push value)
  · exact .fault rfl

/-- Storing in another slot keeps a slot. -/
theorem store_keeps {other : UInt16} (h : other.toNat ≠ slot) :
    OnSuccess (frame.Keeps slot) (frame.store other) := by
  refine (pop_keeps slot frame).bind fun r hr => ?_
  dsimp only
  split
  · exact .value ⟨hr.method, (Array.getElem?_setIfInBounds_ne h).trans hr.held⟩
  · exact .fault rfl

theorem index_keeps : OnSuccess (frame.Keeps slot) frame.index := by
  refine (popInt_keeps slot frame).bind fun r hr => (pop_keeps slot r.2).bind fun t ht => ?_
  dsimp only
  split
  · exact (onSuccess_trivial _).map fun value _ => (hr.trans ht).push value
  · exact .fault rfl

theorem length_keeps : OnSuccess (frame.Keeps slot) frame.length := by
  refine (pop_keeps slot frame).bind fun t ht => ?_
  dsimp only
  split
  · exact .value (ht.push _)
  · exact .value (ht.push _)
  · exact .fault rfl

theorem goTo_keeps (place : UInt32) : OnSuccess (frame.Keeps slot) (frame.goTo place) := by
  unfold Frame.goTo
  split
  · exact .value ⟨rfl, rfl⟩
  · exact .fault rfl

/-- A frame that goes on, or that waits for a call, keeps what is in the slot. -/
def Effect.Keeps (slot : Nat) (frame : Frame) : Effect → Prop
  | .go after | .print _ after | .call _ _ _ after => frame.Keeps slot after
  | .done _ => True

/-- A call keeps the slots of the frame that waits for it. -/
theorem call_keeps (pool : Pool) (cls method : String) (argc : UInt16) :
    OnSuccess (Effect.Keeps slot frame) (frame.call pool cls method argc) := by
  unfold Frame.call
  dsimp only
  split
  · split
    · exact .value ⟨rfl, rfl⟩
    · exact .fault rfl
  · exact .fault rfl

/-- Only a store to the slot changes what is in it. -/
theorem execute_keeps_slot (pool : Pool) {instr : Instr}
    (hstore : ∀ other, instr = .store other → other.toNat ≠ slot) :
    OnSuccess (Effect.Keeps slot frame) (frame.execute pool instr) := by
  cases instr with
  | pushInt | pushBool | pushStr => exact .value ⟨rfl, rfl⟩
  | load other => exact (load_keeps slot frame other).map fun _ h => h
  | store other => exact (store_keeps slot frame (hstore other rfl)).map fun _ h => h
  | pop => exact (pop_keeps slot frame).bind fun _ h => .value h
  | neg => exact (withInt_keeps slot frame _).map fun _ h => h
  | not => exact (popBool_keeps slot frame).bind fun _ h => .value (h.push _)
  | add | sub | mul | div | mod | lt | le | gt | ge =>
    exact (withInts_keeps slot frame _).map fun _ h => h
  | concat | eq | ne => exact (withValues_keeps slot frame _).map fun _ h => h
  | index => exact (index_keeps slot frame).map fun _ h => h
  | length => exact (length_keeps slot frame).map fun _ h => h
  | jump place => exact (goTo_keeps slot frame place).map fun _ h => h
  | jumpIfFalse place =>
    refine (popBool_keeps slot frame).bind fun r hr => ?_
    dsimp only
    split
    · exact .value hr
    · exact (goTo_keeps slot r.2 place).map fun _ h => hr.trans h
  | call cls method argc => exact call_keeps slot frame pool cls method argc
  | puts => exact (pop_keeps slot frame).bind fun _ h => .value h
  | raise => exact (pop_keeps slot frame).bind fun _ _ => .fault rfl
  | ret => exact (pop_keeps slot frame).bind fun _ _ => .value trivial
  | retVoid => exact .value trivial

variable {slot} {frame}

/-- A step keeps what is in a slot, unless it is a store to that slot. -/
theorem step_keeps_slot (pool : Pool)
    (hstore : ∀ other, frame.method.code[frame.place]? = some (.store other) →
      other.toNat ≠ slot) :
    OnSuccess (Effect.Keeps slot frame) (frame.step pool) := by
  unfold Frame.step
  split
  · rename_i instr hinstr
    refine ⟨fun effect heffect => ?_, fun _ _ => rfl⟩
    have hkeeps := (execute_keeps_slot slot frame.moveOn pool fun other hother =>
      hstore other (hother ▸ hinstr)).ok effect heffect
    cases effect with
    | done => trivial
    | _ => exact ⟨hkeeps.method, hkeeps.held⟩
  · split
    · exact .value trivial
    · exact .fault rfl

/-- One frame is what another one is after an instruction other than a store to the slot. -/
def Frame.ContinuesApart (slot : UInt16) (frame after : Frame) : Prop :=
  frame.Continues after ∧ frame.method.code[frame.place]? ≠ some (.store slot)

theorem Frame.ContinuesApart.keeps {slot : UInt16} {after : Frame}
    (h : frame.ContinuesApart slot after) : frame.Keeps slot.toNat after := by
  obtain ⟨hcontinues, hstore⟩ := h
  have hapart : ∀ other, frame.method.code[frame.place]? = some (.store other) →
      other.toNat ≠ slot.toNat := by
    intro other hother heq
    rw [UInt16.toNat_inj.mp heq] at hother
    exact hstore hother
  cases hcontinues with
  | go hstep => exact (step_keeps_slot _ hapart).ok _ hstep
  | print hstep => exact (step_keeps_slot _ hapart).ok _ hstep
  | back hstep result =>
    have hkeeps := (step_keeps_slot _ hapart).ok _ hstep
    exact Frame.Keeps.receive hkeeps result

/-- For as long as nothing is stored to it, a slot holds what it held. -/
theorem Frame.ContinuesApart.run {slot : UInt16} {later : Frame}
    (h : Relation.ReflTransGen (Frame.ContinuesApart slot) frame later) :
    frame.Keeps slot.toNat later := by
  induction h with
  | refl => exact .refl frame
  | tail _ hstep ih => exact ih.trans hstep.keeps

end

/-! ## Methods of an accepted batch -/

/-- A frame starts with one argument for each parameter, and with these in its first slots. -/
theorem enter_frame {unit : LoadedUnit} {method : String} {args : List Value} {start : Frame}
    (h : enter unit method args = .ok (.frame start)) :
    args.length = start.method.params.length ∧
      start.locals = startLocals start.method args := by
  unfold enter at h
  split at h
  · -- a native method starts no frame
    rename_i cls _
    cases hcall : cls.call method args with
    | error fault =>
      rw [hcall] at h
      cases h
    | ok value =>
      rw [hcall] at h
      cases h
  · split at h
    · cases h
    · split at h
      · rename_i hlength
        cases h
        exact ⟨hlength, rfl⟩
      · cases h

theorem step_load {frame : Frame} {slot : UInt16} {value : Value}
    (hload : frame.method.code[frame.place]? = some (.load slot))
    (hheld : frame.locals[slot.toNat]? = some value) (pool : Pool) :
    frame.step pool = .ok (.go (frame.moveOn.push value)) := by
  unfold Frame.step
  rw [hload]
  simp only [Frame.execute, Frame.load, hheld]
  rfl

section

variable {m : Method}

/-- A parameter whose name no other one has is in the slot of its position. -/
theorem toNat_methodSlot (hdistinct : (m.params.map (·.name.name)).Nodup)
    (hlength : (methodNames m).length ≤ 65535) {i : Nat} {param : Param}
    (hparam : m.params[i]? = some param) : (methodSlot m param.name.name).toNat = i := by
  obtain ⟨hlt, rfl⟩ := List.getElem?_eq_some_iff.mp hparam
  refine toNat_slotIn (nodup_addSlots .nil) hlength ?_
  have hplace := List.prefix_iff_getElem?.mp (prefix_methodNames hdistinct) i
    (by rwa [List.length_map])
  rwa [List.getElem_map] at hplace

/-- A parameter whose name no other one has is read with its type. -/
theorem read_of_distinct {offers : Offering} {sig : MethodSig} (h : MethodHasSig offers m sig)
    (hdistinct : (m.params.map (·.name.name)).Nodup) {i : Nat} {param : Param}
    (hparam : m.params[i]? = some param) {type : Option Ty}
    (hread : .read param.name.name type ∈ blockAccesses m.body) : type = param.type.ty? := by
  refine read_of_last h hparam (fun j other hj hother hsame => ?_) hread
  -- two positions of one name are the same position
  have hname : (m.params.map (·.name.name))[i]? = (m.params.map (·.name.name))[j]? := by
    rw [List.getElem?_map, List.getElem?_map, hparam, hother, Option.map_some, Option.map_some,
      hsame]
  have hlt : i < (m.params.map (·.name.name)).length := by
    rw [List.length_map]
    exact (List.getElem?_eq_some_iff.mp hparam).1
  exact absurd ((List.getElem?_inj hlt hdistinct).mp hname) (Nat.ne_of_lt hj)

/-- What a frame loads from the slot of a position is the argument there, as long as nothing was
stored to the slot. -/
theorem load_of_argument {unit : LoadedUnit} {method : String} {args : List Value}
    {start frame : Frame} (hstart : enter unit method args = .ok (.frame start)) {slot : UInt16}
    (hslot : slot.toNat < args.length)
    (hreach : Relation.ReflTransGen (Frame.ContinuesApart slot) start frame) (pool : Pool)
    (hload : frame.method.code[frame.place]? = some (.load slot)) :
    frame.step pool = .ok (.go (frame.moveOn.push args[slot.toNat])) := by
  refine step_load hload ?_ pool
  rw [(Frame.ContinuesApart.run hreach).held, (enter_frame hstart).2, startLocals,
    List.getElem?_toArray, List.getElem?_append_left hslot, List.getElem?_eq_getElem hslot]

end

/-- The slots of a method's code go with the names in its tree and with the positions of its
arguments. -/
structure SlotsAgree (m : Method) (code : MethodCode) : Prop where
  /-- The parameter at a position has the slot of that number. -/
  parameter : ∀ (i : Nat) (param : Param), m.params[i]? = some param →
    (methodSlot m param.name.name).toNat = i
  /-- Different names have different slots. -/
  distinct : ∀ name ∈ methodNames m, ∀ other ∈ methodNames m,
    methodSlot m name = methodSlot m other → name = other
  /-- The slots of all names are slots of a frame. -/
  below : ∀ name ∈ methodNames m, (methodSlot m name).toNat < code.locals.toNat
  /-- The parameters are among the names. -/
  params : ∀ param ∈ m.params, param.name.name ∈ methodNames m
  /-- What the body reads and assigns is among the names. -/
  named : ∀ use ∈ blockAccesses m.body, use.name ∈ methodNames m
  /-- The code loads and stores what the body reads and assigns, in order, in the slots of the
  names. -/
  uses : accesses code.code.toList = (blockAccesses m.body).map (Access.instr (methodSlot m))
  /-- A parameter is read with its declared type. -/
  typed : ∀ (i : Nat) (param : Param), m.params[i]? = some param → ∀ type,
    .read param.name.name type ∈ blockAccesses m.body → type = param.type.ty?
  /-- In a frame that a call starts, a load from the slot of the parameter at a position pushes the
  argument at that position, as long as nothing is stored to the slot. -/
  loads : ∀ unit method args start, enter unit method args = .ok (.frame start) →
    start.method = code → ∀ (i : Nat) (param : Param), m.params[i]? = some param →
      ∃ value, args[i]? = some value ∧ ∀ frame,
        Relation.ReflTransGen (Frame.ContinuesApart (methodSlot m param.name.name)) start frame →
          frame.method = code ∧
            ∀ pool, code.code[frame.place]? = some (.load (methodSlot m param.name.name)) →
              frame.step pool = .ok (.go (frame.moveOn.push value))

/-- **Names, slots and arguments agree.** In a method of an accepted batch whose parameters have
distinct names, and which has no more names than slots can count, each name has a slot of its own,
and reading a parameter before anything is assigned to it gives the argument at its position, with
its declared type. -/
theorem slots_agree {externals : Externals} {batch : List Program}
    (hclean : (infer externals batch).diagnostics = []) {file cls : String} {m : Method}
    (hm : (file, Declaration.method cls m) ∈ batchDeclarations (infer externals batch).batch)
    (hdistinct : (m.params.map (·.name.name)).Nodup) (hlength : (methodNames m).length ≤ 65535)
    {unit : String} {code : MethodCode} (hcode : methodCode unit m = .ok code) :
    SlotsAgree m code := by
  obtain ⟨sig, hsig, -⟩ := methodHasSig_of_infer hclean hm
  have hnumbered := methodCode_numbered hcode
  refine
    { parameter := fun _ _ hparam => toNat_methodSlot hdistinct hlength hparam
      distinct := fun _ hname _ hother hsame => slotIn_inj hlength hname hother hsame
      below := ?below
      params := fun param hparam => mem_foldl_addSlot.mpr
        (.inr (List.mem_append_left _ (List.mem_map_of_mem hparam)))
      named := hnumbered.names
      uses := hnumbered.instrs
      typed := fun _ _ hparam _ hread => read_of_distinct hsig hdistinct hparam hread
      loads := ?loads }
  case below =>
    intro name hname
    obtain ⟨i, hi⟩ := List.mem_iff_getElem?.mp hname
    have hslot : (methodSlot m name).toNat = i := toNat_slotIn (nodup_addSlots .nil) hlength hi
    rw [hslot, locals_methodCode hcode hlength]
    exact (List.getElem?_eq_some_iff.mp hi).1
  case loads =>
    rintro loaded method args start hstart rfl i param hparam
    have hslot := toNat_methodSlot hdistinct hlength hparam
    -- the code has as many parameters as the tree
    have hcount := congrArg List.length hsig.params
    rw [List.length_map, List.length_map, ← (methodCode_calls hsig hcode).1] at hcount
    have hlt : (methodSlot m param.name.name).toNat < args.length := by
      rw [hslot, (enter_frame hstart).1]
      exact Nat.lt_of_lt_of_eq (List.getElem?_eq_some_iff.mp hparam).1 hcount
    have hargument := List.getElem?_eq_getElem hlt
    refine ⟨_, (congrArg (args[·]?) hslot).symm.trans hargument, fun frame hreach => ?_⟩
    have hmethod := (Frame.ContinuesApart.run hreach).method
    refine ⟨hmethod, fun pool hload => ?_⟩
    rw [← hmethod] at hload
    exact load_of_argument hstart hlt hreach pool hload

/-- A script with a method `label(count: int, text: String)` that joins the text and the count in a
local, and a call `label(3, "line ")`. -/
def labelScript : Program where
  source := inlineName
  package := none
  items :=
    [.method
      { name := ⟨"label", default⟩
        isStatic := false
        params :=
          [⟨⟨"count", default⟩, ⟨"int", 0, default⟩, default⟩,
            ⟨⟨"text", default⟩, ⟨"String", 0, default⟩, default⟩]
        ret := none
        body := .mk
          [.assign ⟨"joined", default⟩
            (.binary .add (.var ⟨"text", default⟩ default) (.var ⟨"count", default⟩ default)
              default) default,
            .ret (some (.var ⟨"joined", default⟩ default)) default]
          default
        span := default },
      .stmt (.puts (.call none ⟨"label", default⟩ [.int 3 default, .string "line " default] none
        default) default)]
  span := default

theorem labelScript_slots_agree :
    let batch := (infer .nothing [labelScript.gather]).batch
    (batchMethods batch).map (fun place => methodNames place.2.2) =
        [["count", "text", "joined"], ["args"]] ∧
      ∀ file cls m, (file, cls, m) ∈ batchMethods batch →
        ∃ code, methodCode cls m = .ok code ∧ SlotsAgree m code := by
  intro batch
  have hclean : (infer .nothing [labelScript.gather]).diagnostics = [] := by decide +kernel
  have hmethods : (batchMethods batch).all (fun place =>
      decide (place.2.2.params.map (·.name.name)).Nodup &&
        decide ((methodNames place.2.2).length ≤ 65535) &&
        (methodCode place.2.1 place.2.2).isOk) = true := by
    decide +kernel
  refine ⟨by decide +kernel, ?_⟩
  intro file cls m hm
  have hmethod := List.all_eq_true.mp hmethods _ hm
  simp only [Bool.and_eq_true, decide_eq_true_eq] at hmethod
  obtain ⟨⟨hdistinct, hlength⟩, hok⟩ := hmethod
  cases hcode : methodCode cls m with
  | error fault =>
    rw [hcode] at hok
    cases hok
  | ok code =>
    exact ⟨code, rfl, slots_agree hclean (mem_batchMethods.mp hm) hdistinct hlength hcode⟩

end StackScript.Machine

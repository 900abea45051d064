import Mathlib.Data.List.Nodup
import StackScript.Proofs.CallSites

/-!
# The references of a class file

References are entered while code is emitted, those of the arguments of a call before that of the
call itself. Emitting a piece of code enters the classes that its instructions call, one after the
other (`exprReferences_eq`, `stmtReferences_eq`), and so the references of a class file are the
classes that its code calls, each once and in the order of its first use
(`references_firstUses`).
-/

namespace StackScript.Code

open StackScript.Source StackScript.Syntax StackScript.Typing

/-! ## First uses -/

/-- The table holds the names in use other than `own`, each once and in the order of its first
use. -/
structure FirstUses (own : String) (uses table : List String) : Prop where
  nodup : table.Nodup
  mem_iff : ∀ name, name ∈ table ↔ name ≠ own ∧ name ∈ uses
  ordered : table.Pairwise fun a b => uses.idxOf a < uses.idxOf b

/-- The table once names were entered one after the other. -/
def addReferences (own : String) (table names : List String) : List String :=
  names.foldl (addReference own) table

@[simp] theorem addReferences_nil (own : String) (table : List String) :
    addReferences own table [] = table := rfl

@[simp] theorem addReferences_cons (own name : String) (table names : List String) :
    addReferences own table (name :: names)
      = addReferences own (addReference own table name) names := rfl

@[simp] theorem addReferences_append (own : String) (table names others : List String) :
    addReferences own table (names ++ others)
      = addReferences own (addReferences own table names) others :=
  List.foldl_append ..

namespace FirstUses

variable {own name : String} {uses table names : List String}

theorem nil (own : String) : FirstUses own [] [] where
  nodup := .nil
  mem_iff name := by simp
  ordered := .nil

/-- The order of names that are in use already does not depend on what comes after. -/
theorem ordered_append (h : FirstUses own uses table) (more : List String) :
    table.Pairwise fun a b => (uses ++ more).idxOf a < (uses ++ more).idxOf b := by
  refine h.ordered.imp_of_mem fun {a b} ha hb hlt => ?_
  rw [List.idxOf_append_of_mem ((h.mem_iff a).mp ha).2,
    List.idxOf_append_of_mem ((h.mem_iff b).mp hb).2]
  exact hlt

/-- Entering a name keeps the table one of first uses. -/
theorem enter (h : FirstUses own uses table) (name : String) :
    FirstUses own (uses ++ [name]) (addReference own table name) := by
  rw [addReference]
  split
  · -- the class itself, or a name that was used before
    rename_i hknown
    have hknown : name = own ∨ name ∈ table := by simpa using hknown
    refine ⟨h.nodup, fun other => ?_, h.ordered_append [name]⟩
    rw [h.mem_iff, List.mem_append, List.mem_singleton]
    constructor
    · exact fun hother => ⟨hother.1, .inl hother.2⟩
    · rintro ⟨hother, huse | rfl⟩
      · exact ⟨hother, huse⟩
      · exact (h.mem_iff other).mp (hknown.resolve_left hother)
  · rename_i hnew
    obtain ⟨hown, htable⟩ : name ≠ own ∧ name ∉ table := by simpa using hnew
    have huses : name ∉ uses := fun huse => htable ((h.mem_iff name).mpr ⟨hown, huse⟩)
    refine ⟨?_, fun other => ?_, ?_⟩
    · rw [List.nodup_append_comm]
      exact h.nodup.cons htable
    · rw [List.mem_append, List.mem_append, h.mem_iff, List.mem_singleton]
      constructor
      · rintro (⟨hother, huse⟩ | rfl)
        · exact ⟨hother, .inl huse⟩
        · exact ⟨hown, .inr rfl⟩
      · rintro ⟨hother, huse | rfl⟩
        · exact .inl ⟨hother, huse⟩
        · exact .inr rfl
    · -- the new name has its first use behind all the others
      rw [List.pairwise_append]
      refine ⟨h.ordered_append [name], List.pairwise_singleton .., fun a ha b hb => ?_⟩
      obtain rfl := List.mem_singleton.mp hb
      have hused := ((h.mem_iff a).mp ha).2
      rw [List.idxOf_append_of_mem hused, List.idxOf_append_of_notMem huses]
      exact Nat.lt_add_right _ (List.idxOf_lt_length_of_mem hused)

/-- Entering names one after the other keeps the table one of first uses. -/
theorem enterAll (h : FirstUses own uses table) (names : List String) :
    FirstUses own (uses ++ names) (addReferences own table names) := by
  induction names generalizing uses table with
  | nil => simpa using h
  | cons name names ih => simpa using ih (h.enter name)

end FirstUses

/-! ## Classes that code calls -/

/-- The classes that instructions call, one for each call. -/
def callees (code : List Instr) : List String := code.filterMap Instr.callee?

@[simp] theorem callees_nil : callees [] = [] := rfl

@[simp] theorem callees_cons (instr : Instr) (code : List Instr) :
    callees (instr :: code) = instr.callee?.toList ++ callees code := by
  rw [callees, List.filterMap_cons]
  cases instr.callee? <;> rfl

@[simp] theorem callees_append (xs ys : List Instr) :
    callees (xs ++ ys) = callees xs ++ callees ys :=
  List.filterMap_append ..

/-- A class is called by code if an instruction of it calls one of its methods. -/
theorem mem_callees {name : String} {code : List Instr} :
    name ∈ callees code ↔ ∃ method argc, Instr.call name method argc ∈ code := by
  rw [callees, List.mem_filterMap]
  constructor
  · rintro ⟨instr, hinstr, hcallee⟩
    cases instr with
    | call cls method argc =>
      cases hcallee
      exact ⟨method, argc, hinstr⟩
    | _ => cases hcallee
  · rintro ⟨method, argc, hcall⟩
    exact ⟨_, hcall, rfl⟩

@[simp] theorem callee?_unaryInstr (op : UnaryOp) : (unaryInstr op).callee? = none := by
  cases op <;> rfl

/-- The instructions of an operator call nothing. -/
@[simp] theorem callees_binaryCode (op : BinaryOp) (type : Ty) (place : Nat)
    (left right : List Instr) :
    callees (binaryCode op type place left right) = callees left ++ callees right := by
  have hplain : callees (binaryInstr? op type).toList = [] := by
    cases op with
    | add =>
      rw [binaryInstr?]
      split <;> rfl
    | _ => rfl
  cases op with
  | and => simp [binaryCode, andCode, Instr.callee?]
  | or => simp [binaryCode, orCode, Instr.callee?]
  | _ => simp [binaryCode, hplain]

theorem callees_loadCode {file : String} {slots : Slots} {name : Ident} {code : List Instr}
    (h : loadCode file slots name = .ok code) : callees code = [] := by
  rw [loadCode] at h
  split at h
  · cases h
    rfl
  · cases h

theorem callees_store (slot : Option UInt16) : callees (slot.map Instr.store).toList = [] := by
  cases slot <;> rfl

/-! ## Emission enters what it calls -/

section

variable {file cls : String} {slots : Slots}

mutual

/-- The references after an expression are those before it and the classes that its code calls. -/
theorem exprReferences_eq : ∀ (e : Expr) {place : Nat} {code : List Instr},
    exprCode file slots place e = .ok code → ∀ references : List String,
      exprReferences cls references e = addReferences cls references (callees code)
  | .int .., _, _, hcode, references => by
    simp only [exprCode, bind_eq_ok, pure_eq_ok] at hcode
    obtain ⟨_, -, rfl⟩ := hcode
    rfl
  | .bool .., _, _, hcode, references => by
    simp only [exprCode, bind_eq_ok, pure_eq_ok] at hcode
    obtain ⟨_, -, rfl⟩ := hcode
    rfl
  | .string .., _, _, hcode, references => by
    simp only [exprCode, bind_eq_ok, pure_eq_ok] at hcode
    obtain ⟨_, -, rfl⟩ := hcode
    rfl
  | .var name _, _, _, hcode, references => by
    simp only [exprCode, bind_eq_ok] at hcode
    obtain ⟨_, -, hload⟩ := hcode
    rw [callees_loadCode hload]
    rfl
  | .call receiver method args target note, _, _, hcode, references => by
    simp only [exprCode, bind_eq_ok, pure_eq_ok] at hcode
    obtain ⟨_, -, other, htarget, inner, hinner, rfl⟩ := hcode
    cases target with
    | none => cases htarget
    | some name =>
      -- the code calls the class that the call is resolved to, behind its arguments
      cases htarget
      rw [exprReferences, argsReferences_eq args hinner, callees_append, addReferences_append]
      rfl
  | .index array position _, _, _, hcode, references => by
    simp only [exprCode, bind_eq_ok, pure_eq_ok] at hcode
    obtain ⟨_, -, first, hfirst, second, hsecond, rfl⟩ := hcode
    rw [exprReferences, exprReferences_eq array hfirst, exprReferences_eq position hsecond,
      callees_append, callees_append, addReferences_append, addReferences_append]
    rfl
  | .length value _, _, _, hcode, references => by
    simp only [exprCode, bind_eq_ok, pure_eq_ok] at hcode
    obtain ⟨_, -, first, hfirst, rfl⟩ := hcode
    rw [exprReferences, exprReferences_eq value hfirst, callees_append, addReferences_append]
    rfl
  | .unary op operand _, _, _, hcode, references => by
    simp only [exprCode, bind_eq_ok, pure_eq_ok] at hcode
    obtain ⟨_, -, first, hfirst, rfl⟩ := hcode
    rw [exprReferences, exprReferences_eq operand hfirst, callees_append, callees_cons,
      callee?_unaryInstr, addReferences_append]
    rfl
  | .binary op left right _, _, _, hcode, references => by
    simp only [exprCode, bind_eq_ok, pure_eq_ok] at hcode
    obtain ⟨_, -, first, hfirst, second, hsecond, rfl⟩ := hcode
    rw [exprReferences, exprReferences_eq left hfirst, exprReferences_eq right hsecond,
      callees_binaryCode, addReferences_append]

theorem argsReferences_eq : ∀ (args : List Expr) {place : Nat} {code : List Instr},
    argsCode file slots place args = .ok code → ∀ references : List String,
      argsReferences cls references args = addReferences cls references (callees code)
  | [], _, _, hcode, references => by
    cases hcode
    rfl
  | arg :: args, _, _, hcode, references => by
    simp only [argsCode, bind_eq_ok, pure_eq_ok] at hcode
    obtain ⟨first, hfirst, rest, hrest, rfl⟩ := hcode
    rw [argsReferences, exprReferences_eq arg hfirst, argsReferences_eq args hrest,
      callees_append, addReferences_append]

end

end

section

variable {file cls : String}

mutual

/-- The references after a statement are those before it and the classes that its code calls. -/
theorem stmtReferences_eq : ∀ (stmt : Stmt) {slots : Slots} {place : Nat} {emitted : Emitted},
    stmtCode file slots place stmt = .ok emitted → ∀ references : List String,
      stmtReferences cls references stmt = addReferences cls references (callees emitted.code)
  | .expr value _, _, _, _, hcode, references => by
    simp only [stmtCode, bind_eq_ok, pure_eq_ok] at hcode
    obtain ⟨type, -, code, hvalue, rfl⟩ := hcode
    have hdropped : callees (if type.isVoid then [] else [Instr.pop]) = [] := by
      split <;> rfl
    rw [stmtReferences, exprReferences_eq value hvalue, code_markLine, code_plain, callees_append,
      hdropped, List.append_nil]
  | .assign target value _, slots, _, _, hcode, references => by
    simp only [stmtCode, bind_eq_ok, pure_eq_ok] at hcode
    obtain ⟨code, hvalue, rfl⟩ := hcode
    rw [stmtReferences, exprReferences_eq value hvalue, code_markLine, code_plain, callees_append,
      callees_store, List.append_nil]
  | .cond chain _, _, _, _, hcode, references => by
    simp only [stmtCode, bind_eq_ok, pure_eq_ok] at hcode
    obtain ⟨emitted, hchain, rfl⟩ := hcode
    rw [stmtReferences, chainReferences_eq chain hchain, code_markLine]
  | .loop condition body _, _, _, _, hcode, references => by
    simp only [stmtCode, bind_eq_ok, pure_eq_ok] at hcode
    obtain ⟨test, htest, inner, hinner, rfl⟩ := hcode
    rw [stmtReferences, exprReferences_eq condition htest, blockReferences_eq body hinner]
    simp [Instr.callee?]
  | .ret (some value) _, _, _, _, hcode, references => by
    simp only [stmtCode, bind_eq_ok, pure_eq_ok] at hcode
    obtain ⟨code, hvalue, rfl⟩ := hcode
    rw [stmtReferences, exprReferences_eq value hvalue]
    simp [Instr.callee?]
  | .ret none _, _, _, _, hcode, references => by
    cases hcode
    rfl
  | .puts value _, _, _, _, hcode, references => by
    simp only [stmtCode, bind_eq_ok, pure_eq_ok] at hcode
    obtain ⟨code, hvalue, rfl⟩ := hcode
    rw [stmtReferences, exprReferences_eq value hvalue]
    simp [Instr.callee?]
  | .raise value _, _, _, _, hcode, references => by
    simp only [stmtCode, bind_eq_ok, pure_eq_ok] at hcode
    obtain ⟨code, hvalue, rfl⟩ := hcode
    rw [stmtReferences, exprReferences_eq value hvalue]
    simp [Instr.callee?]

/-- The references that a block adds are the classes that its code calls. -/
theorem blockReferences_eq : ∀ (block : Block) {slots : Slots} {place : Nat} {emitted : Emitted},
    blockCode file slots place block = .ok emitted → ∀ references : List String,
      blockReferences cls references block = addReferences cls references (callees emitted.code)
  | .mk stmts _, _, _, _, hcode, references => by
    rw [blockCode] at hcode
    rw [blockReferences, stmtsReferences_eq stmts hcode]

theorem stmtsReferences_eq : ∀ (stmts : List Stmt) {slots : Slots} {place : Nat}
    {emitted : Emitted}, stmtsCode file slots place stmts = .ok emitted →
      ∀ references : List String,
        stmtsReferences cls references stmts = addReferences cls references (callees emitted.code)
  | [], _, _, _, hcode, references => by
    cases hcode
    rfl
  | stmt :: stmts, _, _, _, hcode, references => by
    simp only [stmtsCode, bind_eq_ok, pure_eq_ok] at hcode
    obtain ⟨first, hfirst, rest, hrest, rfl⟩ := hcode
    rw [stmtsReferences, stmtReferences_eq stmt hfirst, stmtsReferences_eq stmts hrest,
      code_append, callees_append, addReferences_append]

theorem chainReferences_eq : ∀ (chain : Chain) {slots : Slots} {place : Nat} {emitted : Emitted},
    chainCode file slots place chain = .ok emitted → ∀ references : List String,
      chainReferences cls references chain = addReferences cls references (callees emitted.code)
  | .done, _, _, _, hcode, references => by
    cases hcode
    rfl
  | .otherwise body, _, _, _, hcode, references => by
    rw [chainCode] at hcode
    rw [chainReferences, blockReferences_eq body hcode]
  | .branch condition body rest, _, _, _, hcode, references => by
    simp only [chainCode, bind_eq_ok, pure_eq_ok] at hcode
    obtain ⟨test, htest, taken, htaken, others, hothers, rfl⟩ := hcode
    rw [chainReferences, exprReferences_eq condition htest, blockReferences_eq body htaken,
      chainReferences_eq rest hothers]
    simp [Instr.callee?]

end

/-- A bare expression at the end of a body is entered as any other statement is. -/
theorem bodyReferences_eq {ret : Ty} : ∀ (stmts : List Stmt) {slots : Slots} {place : Nat}
    {emitted : Emitted}, bodyCode file ret slots place stmts = .ok emitted →
      ∀ references : List String,
        stmtsReferences cls references stmts = addReferences cls references (callees emitted.code)
  | [], _, _, _, hcode, references => by
    cases hcode
    rfl
  | stmt :: stmts, slots, place, emitted, hcode, references => by
    rcases isLast_cases stmt stmts with hlast | ⟨value, span, rfl, rfl⟩
    · rw [bodyCode_cons hlast] at hcode
      simp only [bind_eq_ok, pure_eq_ok] at hcode
      obtain ⟨first, hfirst, rest, hrest, rfl⟩ := hcode
      rw [stmtsReferences, stmtReferences_eq stmt hfirst, bodyReferences_eq stmts hrest,
        code_append, callees_append, addReferences_append]
    · rw [bodyCode] at hcode
      split at hcode
      · rw [stmtsReferences, stmtReferences_eq _ hcode, stmtsReferences]
      · simp only [bind_eq_ok, pure_eq_ok] at hcode
        obtain ⟨code, hvalue, rfl⟩ := hcode
        rw [stmtsReferences, stmtReferences, exprReferences_eq value hvalue, stmtsReferences]
        simp [Instr.callee?]

/-- The references after a method are those before it and the classes that its code calls. -/
theorem blockReferences_of_methodCode {m : Method} {code : MethodCode}
    (h : methodCode file m = .ok code) (references : List String) :
    blockReferences cls references m.body
      = addReferences cls references (callees code.code.toList) := by
  obtain ⟨params, ret, body, last, -, -, hbody, hlast, rfl⟩ := methodCode_eq_ok h
  have hend : callees last = [] := by
    rw [endCode_eq_ok hlast]
    split <;> rfl
  have hstmts : blockReferences cls references m.body
      = stmtsReferences cls references m.body.stmts := by
    cases m.body
    rfl
  rw [hstmts, bodyReferences_eq m.body.stmts hbody, callees_append, hend, List.append_nil]

/-- The classes that the code of methods calls, one for each call. -/
def calledClasses (methods : List MethodCode) : List String :=
  methods.flatMap fun method => callees method.code.toList

theorem mem_calledClasses {methods : List MethodCode} {name : String} :
    name ∈ calledClasses methods ↔ ∃ code ∈ methods, ∃ method argc,
      Instr.call name method argc ∈ code.code.toList := by
  simp only [calledClasses, List.mem_flatMap, mem_callees]

theorem foldl_blockReferences {methods : List Method} {codes : List MethodCode}
    (h : methods.mapM (methodCode file) = .ok codes) (references : List String) :
    methods.foldl (fun table m => blockReferences cls table m.body) references
      = addReferences cls references (calledClasses codes) := by
  induction methods generalizing references codes with
  | nil =>
    cases h
    rfl
  | cons m methods ih =>
    rw [List.mapM_cons] at h
    simp only [bind_eq_ok, pure_eq_ok] at h
    obtain ⟨code, hcode, rest, hrest, rfl⟩ := h
    rw [List.foldl_cons, ih hrest, blockReferences_of_methodCode hcode, calledClasses,
      calledClasses, List.flatMap_cons, addReferences_append]

end

/-! ## Class files -/

/-- The references of a class file are the other classes that its code calls, each once and in the
order of its first use. -/
theorem references_firstUses {options : Options} {file qualified : String} {c : ClassDef}
    {made : ClassFile} (h : classFile options file qualified c = .ok made) :
    FirstUses made.name (calledClasses made.methods) made.references := by
  rw [classFile] at h
  obtain ⟨methods, hmethods, hmade⟩ := bind_eq_ok.mp h
  cases pure_eq_ok.mp hmade
  have hall := (FirstUses.nil qualified).enterAll (calledClasses methods)
  rw [List.nil_append] at hall
  simp only [methodsReferences]
  rw [foldl_blockReferences hmethods]
  exact hall

/-- A call of the method `of` of a class with one integer. -/
def callOf (cls : String) (arg : Expr) : Expr :=
  .call (some ⟨cls, default⟩) ⟨"of", default⟩ [arg] (some cls) ⟨default, some .int⟩

/-- A class `Main` whose methods return `Outer.of(Inner.of(Main.of(1)))` and `Inner.of(2)`. -/
def callingClass : ClassDef :=
  let method (name : String) (value : Expr) : Method :=
    { name := ⟨name, default⟩
      isStatic := false
      params := []
      ret := none
      retType := some .int
      body := .mk [.ret (some value) default] default
      span := default }
  .mk ⟨"Main", default⟩
    [.method (method "nested"
      (callOf "Outer" (callOf "Inner" (callOf "Main" (.int 1 ⟨default, some .int⟩))))),
      .method (method "again" (callOf "Inner" (.int 2 ⟨default, some .int⟩)))]
    false default

theorem callingClass_references :
    ∃ made, classFile {} "main.mir" "Main" callingClass = .ok made ∧
      made.references = ["Inner", "Outer"] ∧
      calledClasses made.methods = ["Main", "Inner", "Outer", "Inner"] ∧
      FirstUses "Main" ["Main", "Inner", "Outer", "Inner"] ["Inner", "Outer"] := by
  have hmade : (classFile {} "main.mir" "Main" callingClass).toOption.any (fun made =>
      made.name = "Main" && made.references = ["Inner", "Outer"] &&
        calledClasses made.methods = ["Main", "Inner", "Outer", "Inner"]) = true := by
    decide +kernel
  cases hclass : classFile {} "main.mir" "Main" callingClass with
  | error fault =>
    rw [hclass] at hmade
    cases hmade
  | ok made =>
    simp only [hclass, Except.toOption, Option.any_some, Bool.and_eq_true,
      decide_eq_true_eq] at hmade
    obtain ⟨⟨hname, hreferences⟩, hcalled⟩ := hmade
    have hfirst := references_firstUses hclass
    rw [hname, hreferences, hcalled] at hfirst
    exact ⟨made, rfl, hreferences, hcalled, hfirst⟩

end StackScript.Code

import StackScript.Proofs.Basics
import StackScript.Proofs.Definitions

/-!
# Code is made for everything that is typed

A typed method has code as soon as all its types have written forms (`methodCode_ok`): every
expression carries its type, every call its class, and every local that is read has a slot by
then, since names get their slots in the order in which the judgement takes in locals.
-/

namespace StackScript.Code

open StackScript.Source StackScript.Syntax StackScript.Typing

/-! ## Slots -/

/-- Every local has a slot. -/
def Covers (slots : Slots) (Γ : Context) : Prop :=
  ∀ name t, Γ.lookup name = some t → name ∈ slots

theorem slotOf?_of_mem {slots : Slots} {name : String} (h : name ∈ slots) :
    ∃ slot, slotOf? slots name = some slot := by
  obtain ⟨i, hi⟩ := Option.isSome_iff_exists.mp (List.isSome_idxOf?.mpr h)
  exact ⟨UInt16.ofNat i, by rw [slotOf?, hi, Option.map_some]⟩

theorem mem_addSlot {slots : Slots} {name other : String} :
    other ∈ addSlot slots name ↔ other ∈ slots ∨ other = name := by
  unfold addSlot
  split
  · rename_i h
    have hmem : name ∈ slots := by simpa using h
    exact ⟨.inl, fun h => h.elim id fun e => e ▸ hmem⟩
  · simp

theorem mem_foldl_addSlot {names : List String} {slots : Slots} {name : String} :
    name ∈ names.foldl addSlot slots ↔ name ∈ slots ∨ name ∈ names := by
  induction names generalizing slots with
  | nil => simp
  | cons first rest ih => simp [ih, mem_addSlot, or_assoc]

/-- One more slot leaves the names of a context with theirs. -/
theorem Covers.addSlot {slots : Slots} {Γ : Context} (h : Covers slots Γ) (name : String) :
    Covers (Code.addSlot slots name) Γ :=
  fun other t hother => mem_addSlot.mpr (.inl (h other t hother))

theorem lookup_cons_ne {Γ : Context} {name other : String} (t : Ty) (h : other ≠ name) :
    List.lookup other ((name, t) :: Γ) = Γ.lookup other := by
  rw [List.lookup_cons, beq_false_of_ne h]

theorem Covers.declare {slots : Slots} {Γ : Context} (h : Covers slots Γ) (name : String) (t : Ty) :
    Covers (Code.addSlot slots name) ((name, t) :: Γ) := by
  intro other s hother
  -- only the new local is found under its name; the older ones have their slots already
  by_cases heq : other = name
  · exact mem_addSlot.mpr (.inr heq)
  · rw [lookup_cons_ne t heq] at hother
    exact h.addSlot name other s hother

/-! ## Expressions -/

theorem typeOf_eq_ok {file : String} {e : Expr} {t : Ty} (h : typeOf file e = .ok t) :
    e.type = some t ∧ t.isWritable = true := by
  unfold typeOf at h
  split at h
  · rename_i hfilter
    cases h
    exact Option.filter_eq_some_iff.mp hfilter
  · cases h

section

variable {offers : Offering} {Γ : Context} {slots : Slots} (file : String)

/-- The type that was filled in is the type of an expression, if it can be written. -/
theorem typeOf_ok {e : Expr} {t : Ty} (h : e.type = some t) (ht : t.isWritable = true) :
    typeOf file e = .ok t := by
  simp [typeOf, h, Option.filter, ht]

mutual

/-- There is code for every typed expression. -/
theorem exprCode_ok (hoffers : offers.Writable) (hΓ : Γ.Writable) (hslots : Covers slots Γ) :
    ∀ (e : Expr) {t : Ty}, HasTy offers Γ e t →
      ∀ place, ∃ code, exprCode file slots place e = .ok code
  | .int value note, _, h, place => by
    have htype := typeOf_ok file h.note (h.writable hoffers hΓ)
    exact ⟨_, by simp only [exprCode, bind_eq_ok]; exact ⟨_, htype, rfl⟩⟩
  | .bool value note, _, h, place => by
    have htype := typeOf_ok file h.note (h.writable hoffers hΓ)
    exact ⟨_, by simp only [exprCode, bind_eq_ok]; exact ⟨_, htype, rfl⟩⟩
  | .string value note, _, h, place => by
    have htype := typeOf_ok file h.note (h.writable hoffers hΓ)
    exact ⟨_, by simp only [exprCode, bind_eq_ok]; exact ⟨_, htype, rfl⟩⟩
  -- the slots cover the locals of the judgement, so the name is found among them
  | .var name note, _, h, place => by
    have htype := typeOf_ok file h.note (h.writable hoffers hΓ)
    cases h with
    | var _ hlocal =>
      obtain ⟨slot, hslot⟩ := slotOf?_of_mem (hslots _ _ hlocal)
      refine ⟨[.load slot], ?_⟩
      simp only [exprCode, bind_eq_ok]
      exact ⟨_, htype, by simp [loadCode, hslot]⟩
  | .call receiver method args target note, _, h, place => by
    have htype := typeOf_ok file h.note (h.writable hoffers hΓ)
    cases h with
    | call _ _ hargs =>
      obtain ⟨code, hcode⟩ := argsCode_ok hoffers hΓ hslots args hargs place
      exact ⟨_, by simp only [exprCode, bind_eq_ok]; exact ⟨_, htype, _, rfl, _, hcode, rfl⟩⟩
  | .index array position note, _, h, place => by
    have htype := typeOf_ok file h.note (h.writable hoffers hΓ)
    cases h with
    | index _ harray hposition =>
      obtain ⟨first, hfirst⟩ := exprCode_ok hoffers hΓ hslots array harray place
      obtain ⟨second, hsecond⟩ :=
        exprCode_ok hoffers hΓ hslots position hposition (place + first.length)
      exact ⟨_, by
        simp only [exprCode, bind_eq_ok]; exact ⟨_, htype, _, hfirst, _, hsecond, rfl⟩⟩
  | .length value note, _, h, place => by
    have htype := typeOf_ok file h.note (h.writable hoffers hΓ)
    cases h with
    | length _ hvalue _ =>
      obtain ⟨code, hcode⟩ := exprCode_ok hoffers hΓ hslots value hvalue place
      exact ⟨_, by simp only [exprCode, bind_eq_ok]; exact ⟨_, htype, _, hcode, rfl⟩⟩
  | .unary op operand note, _, h, place => by
    have htype := typeOf_ok file h.note (h.writable hoffers hΓ)
    cases h with
    | unary _ hoperand _ =>
      obtain ⟨code, hcode⟩ := exprCode_ok hoffers hΓ hslots operand hoperand place
      exact ⟨_, by simp only [exprCode, bind_eq_ok]; exact ⟨_, htype, _, hcode, rfl⟩⟩
  | .binary op left right note, _, h, place => by
    have htype := typeOf_ok file h.note (h.writable hoffers hΓ)
    cases h with
    | binary _ hleft hright _ _ _ =>
      obtain ⟨first, hfirst⟩ := exprCode_ok hoffers hΓ hslots left hleft place
      obtain ⟨second, hsecond⟩ :=
        exprCode_ok hoffers hΓ hslots right hright (rightPlace op place first)
      exact ⟨_, by
        simp only [exprCode, bind_eq_ok]; exact ⟨_, htype, _, hfirst, _, hsecond, rfl⟩⟩

/-- Arguments with types have code. -/
theorem argsCode_ok (hoffers : offers.Writable) (hΓ : Γ.Writable) (hslots : Covers slots Γ) :
    ∀ (es : List Expr) {ts : List Ty}, HaveTys offers Γ es ts →
      ∀ place, ∃ code, argsCode file slots place es = .ok code
  | [], _, _, _ => ⟨[], rfl⟩
  | e :: es, _, h, place => by
    cases h with
    | cons he _ hes =>
      obtain ⟨first, hfirst⟩ := exprCode_ok hoffers hΓ hslots e he place
      obtain ⟨rest, hrest⟩ := argsCode_ok hoffers hΓ hslots es hes (place + first.length)
      exact ⟨_, by simp only [argsCode, bind_eq_ok]; exact ⟨_, hfirst, _, hrest, rfl⟩⟩

end

end

/-! ## Statements -/

section

variable {offers : Offering} {ret : Ty} {file : String}

theorem Context.Writable.declare {Γ : Context} (h : Γ.Writable) (name : String) {t : Ty}
    (ht : t.isWritable = true) : Context.Writable ((name, t) :: Γ) := by
  intro other s hother
  by_cases heq : other = name
  · rw [heq, List.lookup_cons_self] at hother
    exact Option.some.inj hother ▸ ht
  · rw [lookup_cons_ne t heq] at hother
    exact h other s hother

/-- Code is made, and after it the locals have slots and written types. -/
def IsEmitted (made : Except CodeFault Emitted) (Δ : Context) : Prop :=
  ∃ emitted, made = .ok emitted ∧ Covers emitted.slots Δ ∧ Δ.Writable

theorem IsEmitted.markLine {made : Except CodeFault Emitted} {Δ : Context}
    (h : IsEmitted made Δ) (place : Nat) (span : Span) :
    IsEmitted (made >>= fun emitted => pure (emitted.markLine place span)) Δ := by
  obtain ⟨emitted, rfl, hslots, hΔ⟩ := h
  exact ⟨emitted.markLine place span, rfl, hslots, hΔ⟩

mutual

/-- There is code for every typed statement. -/
theorem stmtCode_ok (hoffers : offers.Writable) : ∀ (stmt : Stmt) {Γ Δ : Context} {slots : Slots},
    StmtHasTy offers ret Γ stmt Δ → Γ.Writable → Covers slots Γ →
      ∀ place, IsEmitted (stmtCode file slots place stmt) Δ
  | .expr value span, Γ, _, slots, h, hΓ, hslots, place => by
    cases h with
    | expr hvalue =>
      have htype := typeOf_ok file hvalue.note (hvalue.writable hoffers hΓ)
      obtain ⟨code, hcode⟩ := exprCode_ok file hoffers hΓ hslots value hvalue place
      exact ⟨_, by simp only [stmtCode, bind_eq_ok]; exact ⟨_, htype, _, hcode, rfl⟩, hslots, hΓ⟩
  | .assign target value span, Γ, _, slots, h, hΓ, hslots, place => by
    cases h with
    -- the code does not tell the two apart: it asks for a slot either way
    | assign hvalue ht hlocal =>
      obtain ⟨code, hcode⟩ := exprCode_ok file hoffers hΓ hslots value hvalue place
      exact ⟨_, by simp only [stmtCode, bind_eq_ok]; exact ⟨_, hcode, rfl⟩,
        hslots.addSlot target.name, hΓ⟩
    | declare hvalue ht hlocal =>
      obtain ⟨code, hcode⟩ := exprCode_ok file hoffers hΓ hslots value hvalue place
      exact ⟨_, by simp only [stmtCode, bind_eq_ok]; exact ⟨_, hcode, rfl⟩,
        hslots.declare target.name _, Context.Writable.declare hΓ _ (hvalue.writable hoffers hΓ)⟩
  | .cond chain span, _, _, _, h, hΓ, hslots, place => by
    cases h with
    | cond hchain =>
      rw [stmtCode]
      exact (chainCode_ok hoffers chain hchain hΓ hslots place).markLine place span
  | .loop condition body span, _, _, slots, h, hΓ, hslots, place => by
    cases h with
    | loop hcondition hbody =>
      obtain ⟨test, htest⟩ :=
        exprCode_ok file hoffers hΓ hslots condition hcondition place
      obtain ⟨emitted, hemitted, hafter⟩ :=
        blockCode_ok hoffers body hbody hΓ hslots (place + test.length + 1)
      rw [stmtCode]
      exact ⟨_, bind_eq_ok.mpr ⟨_, htest, bind_eq_ok.mpr ⟨_, hemitted, rfl⟩⟩, hafter⟩
  | .ret (some value) span, _, _, slots, h, hΓ, hslots, place => by
    cases h with
    | ret hvalue _ =>
      obtain ⟨code, hcode⟩ := exprCode_ok file hoffers hΓ hslots value hvalue place
      exact ⟨_, by simp only [stmtCode, bind_eq_ok]; exact ⟨_, hcode, rfl⟩, hslots, hΓ⟩
  | .ret none span, _, _, slots, h, hΓ, hslots, place => by
    cases h with
    | retVoid _ => exact ⟨_, rfl, hslots, hΓ⟩
  | .puts value span, _, _, slots, h, hΓ, hslots, place => by
    cases h with
    | puts hvalue _ =>
      obtain ⟨code, hcode⟩ := exprCode_ok file hoffers hΓ hslots value hvalue place
      exact ⟨_, by simp only [stmtCode, bind_eq_ok]; exact ⟨_, hcode, rfl⟩, hslots, hΓ⟩
  | .raise value span, _, _, slots, h, hΓ, hslots, place => by
    cases h with
    | raise hvalue _ =>
      obtain ⟨code, hcode⟩ := exprCode_ok file hoffers hΓ hslots value hvalue place
      exact ⟨_, by simp only [stmtCode, bind_eq_ok]; exact ⟨_, hcode, rfl⟩, hslots, hΓ⟩

theorem blockCode_ok (hoffers : offers.Writable) : ∀ (block : Block) {Γ Δ : Context}
    {slots : Slots}, BlockHasTy offers ret Γ block Δ → Γ.Writable → Covers slots Γ →
      ∀ place, IsEmitted (blockCode file slots place block) Δ
  | .mk stmts span, _, _, _, h, hΓ, hslots, place => by
    cases h with
    | mk hstmts =>
      rw [blockCode]
      exact stmtsCode_ok hoffers stmts hstmts hΓ hslots place

/-- Statements with types have code. -/
theorem stmtsCode_ok (hoffers : offers.Writable) : ∀ (stmts : List Stmt) {Γ Δ : Context}
    {slots : Slots}, StmtsHaveTy offers ret Γ stmts Δ → Γ.Writable → Covers slots Γ →
      ∀ place, IsEmitted (stmtsCode file slots place stmts) Δ
  | [], _, _, _, h, hΓ, hslots, _ => by
    cases h with
    | nil => exact ⟨_, rfl, hslots, hΓ⟩
  | stmt :: rest, _, _, _, h, hΓ, hslots, place => by
    cases h with
    | cons hstmt hrest =>
      obtain ⟨first, hfirst, hcovers, hΔ⟩ := stmtCode_ok hoffers stmt hstmt hΓ hslots place
      obtain ⟨others, hothers, hafter⟩ :=
        stmtsCode_ok hoffers rest hrest hΔ hcovers (place + first.code.length)
      rw [stmtsCode]
      exact ⟨_, bind_eq_ok.mpr ⟨_, hfirst, bind_eq_ok.mpr ⟨_, hothers, rfl⟩⟩, hafter⟩

theorem chainCode_ok (hoffers : offers.Writable) : ∀ (chain : Chain) {Γ Δ : Context}
    {slots : Slots}, ChainHasTy offers ret Γ chain Δ → Γ.Writable → Covers slots Γ →
      ∀ place, IsEmitted (chainCode file slots place chain) Δ
  | .done, _, _, _, h, hΓ, hslots, _ => by
    cases h with
    | done => exact ⟨_, rfl, hslots, hΓ⟩
  | .otherwise body, _, _, _, h, hΓ, hslots, place => by
    cases h with
    | otherwise hbody =>
      rw [chainCode]
      exact blockCode_ok hoffers body hbody hΓ hslots place
  -- slots that one branch adds are there in the next, as in the judgement
  | .branch condition body rest, _, _, slots, h, hΓ, hslots, place => by
    cases h with
    | branch hcondition hbody hrest =>
      obtain ⟨test, htest⟩ :=
        exprCode_ok file hoffers hΓ hslots condition hcondition place
      obtain ⟨taken, htaken, hcovers, hΔ⟩ :=
        blockCode_ok hoffers body hbody hΓ hslots (place + test.length + 1)
      obtain ⟨others, hothers, hafter⟩ := chainCode_ok hoffers rest hrest hΔ hcovers
        (place + test.length + 1 + taken.code.length + 1)
      rw [chainCode]
      exact ⟨_, bind_eq_ok.mpr ⟨_, htest, bind_eq_ok.mpr ⟨_, htaken,
        bind_eq_ok.mpr ⟨_, hothers, rfl⟩⟩⟩, hafter⟩

end

/-! ## Methods -/

/-- A statement that is no bare expression at the end of a body is one like all others. -/
theorem bodyCode_cons {slots : Slots} {place : Nat} {stmt : Stmt} {rest : List Stmt}
    (h : isExpr stmt = true → rest ≠ []) :
    bodyCode file ret slots place (stmt :: rest)
      = (stmtCode file slots place stmt >>= fun first =>
          bodyCode file ret first.slots (place + first.code.length) rest >>= fun others =>
            pure (first ++ others)) := by
  rw [bodyCode]
  rintro value span rfl hnil
  exact h rfl hnil

/-- There is code for the statements of every typed body. -/
theorem bodyCode_ok (file : String) (hoffers : offers.Writable) {stmts : List Stmt} {Γ Δ : Context}
    (h : BodyHasTy offers ret Γ stmts Δ) {slots : Slots} (hΓ : Γ.Writable)
    (hslots : Covers slots Γ) (place : Nat) :
    ∃ emitted, bodyCode file ret slots place stmts = .ok emitted := by
  induction h generalizing slots place with
  | nil => exact ⟨_, rfl⟩
  | @value Γ value span t hvalue hret =>
    rw [bodyCode]
    split
    · -- a method of `void` drops the value, as a statement does
      have hstmt : StmtHasTy offers ret Γ (.expr value span) Γ := .expr hvalue
      obtain ⟨emitted, hemitted, -⟩ := stmtCode_ok hoffers _ hstmt hΓ hslots place
      exact ⟨emitted, hemitted⟩
    · obtain ⟨code, hcode⟩ := exprCode_ok file hoffers hΓ hslots value hvalue place
      exact ⟨_, bind_eq_ok.mpr ⟨_, hcode, rfl⟩⟩
  | cons hlast hstmt hrest ih =>
    rw [bodyCode_cons hlast]
    obtain ⟨first, hfirst, hcovers, hΔ⟩ := stmtCode_ok hoffers _ hstmt hΓ hslots place
    obtain ⟨others, hothers⟩ := ih hΔ hcovers (place + first.code.length)
    exact ⟨_, bind_eq_ok.mpr ⟨_, hfirst, bind_eq_ok.mpr ⟨_, hothers, rfl⟩⟩⟩

end

/-- The types of parameters are those that their annotations denote. -/
theorem paramTypes_ok {file : String} {params : List Param} {types : List Ty}
    (h : params.map (·.type.ty?) = types.map some) : paramTypes file params = .ok types := by
  induction params generalizing types with
  | nil =>
    cases types with
    | nil => rfl
    | cons t types => cases h
  | cons param rest ih =>
    cases types with
    | nil => cases h
    | cons t types =>
      simp only [List.map_cons, List.cons.injEq] at h
      rw [paramTypes, h.1, ih h.2]
      rfl

theorem lookup_startContext {m : Method} {types : List Ty} {name : String} {t : Ty}
    (h : (startContext m types).lookup name = some t) :
    name ∈ m.params.map (·.name.name) ∧ t ∈ types :=
  List.of_mem_zip (List.mem_reverse.mp (lookup_mem h))

/-- Parameters have written types. -/
theorem writable_startContext {offers : Offering} {m : Method} {sig : MethodSig}
    (h : MethodHasSig offers m sig) : (startContext m sig.params).Writable := by
  intro name t hlookup
  have hmem : some t ∈ m.params.map (·.type.ty?) := by
    rw [h.params]
    exact List.mem_map_of_mem (lookup_startContext hlookup).2
  obtain ⟨param, -, hparam⟩ := List.mem_map.mp hmem
  exact Ty.isWritable_of_ofParts? hparam

theorem returnType_ok {file : String} {m : Method} {ret : Ty} (h : m.retType = some ret)
    (hret : ret.isWritable = true) : returnType file m = .ok ret := by
  simp [returnType, h, Option.filter, hret]

/-- The code of a method has an end if it returns nothing, or if its body returns on all ways. -/
theorem endCode_ok (file : String) {m : Method} {ret : Ty}
    (h : ret = .void ∨ m.body.endsWithExpr = true ∨ m.body.exits = true) :
    ∃ last, endCode file m ret = .ok last := by
  unfold endCode
  split
  · exact ⟨_, rfl⟩
  · -- a value is owed, so the fault would be that a path ends without one
    rename_i hret
    rw [if_pos]
    · exact ⟨_, rfl⟩
    · rcases h with rfl | h | h
      · exact absurd rfl hret
      · simp [h]
      · simp [h]

/-- There is code for every typed method. -/
theorem methodCode_ok {offers : Offering} (hoffers : offers.Writable) {m : Method}
    {sig : MethodSig} (h : MethodHasSig offers m sig) (hret : sig.ret.isWritable = true)
    (file : String) : ∃ code, methodCode file m = .ok code := by
  obtain ⟨Δ, hbody⟩ := h.body
  have hparams : paramTypes file m.params = .ok sig.params := paramTypes_ok h.params
  -- parameters are the first names to get slots
  have hslots : Covers ((m.params.map (·.name.name)).foldl addSlot [])
      (startContext m sig.params) := fun name t hlookup =>
    mem_foldl_addSlot.mpr (.inr (lookup_startContext hlookup).1)
  obtain ⟨body, hemitted⟩ := bodyCode_ok file hoffers hbody (writable_startContext h) hslots 0
  obtain ⟨last, hlast⟩ := endCode_ok file h.ends
  rw [methodCode]
  exact ⟨_, bind_eq_ok.mpr ⟨_, hparams, bind_eq_ok.mpr ⟨_, returnType_ok h.ret hret,
    bind_eq_ok.mpr ⟨_, hemitted, bind_eq_ok.mpr ⟨_, hlast, rfl⟩⟩⟩⟩⟩

/-! ## Classes -/

/-- A function that succeeds on all elements succeeds on the list. -/
theorem mapM_ok {ε α β : Type} {f : α → Except ε β} {xs : List α}
    (h : ∀ x ∈ xs, ∃ b, f x = .ok b) : ∃ bs, xs.mapM f = .ok bs := by
  induction xs with
  | nil => exact ⟨[], rfl⟩
  | cons x rest ih =>
    obtain ⟨b, hb⟩ := h x List.mem_cons_self
    obtain ⟨bs, hbs⟩ := ih fun y hy => h y (List.mem_cons_of_mem _ hy)
    rw [List.mapM_cons]
    exact ⟨_, bind_eq_ok.mpr ⟨_, hb, bind_eq_ok.mpr ⟨_, hbs, rfl⟩⟩⟩

/-- A class file has the name of its definition, and the code of its methods in order. -/
theorem classFile_eq_ok {options : Options} {d : Definition} {file : ClassFile}
    (h : d.classFile options = .ok file) :
    ∃ methods, d.cls.methods.mapM (methodCode d.file) = .ok methods ∧
      file = ⟨ClassFile.rightMagic, options.target, d.name, d.file,
        methodsReferences d.name d.cls.methods, methods, options.extensions⟩ := by
  rw [Definition.classFile, classFile] at h
  obtain ⟨methods, hmethods, hfile⟩ := bind_eq_ok.mp h
  exact ⟨methods, hmethods, (pure_eq_ok.mp hfile).symm⟩

theorem name_of_classFile {options : Options} {d : Definition} {file : ClassFile}
    (h : d.classFile options = .ok file) : file.name = d.name := by
  obtain ⟨methods, -, rfl⟩ := classFile_eq_ok h
  rfl

theorem magic_of_classFile {options : Options} {d : Definition} {file : ClassFile}
    (h : d.classFile options = .ok file) : file.magic = ClassFile.rightMagic := by
  obtain ⟨methods, -, rfl⟩ := classFile_eq_ok h
  rfl

/-- There is a class file for every definition of a batch in which nothing is wrong. -/
theorem classFile_of_infer {externals : Externals} {batch : List Program}
    (hext : WritableReturns externals) (h : (infer externals batch).diagnostics = [])
    {d : Definition} (hd : d ∈ batchDefinitions (infer externals batch).batch)
    (options : Options) : ∃ file, d.classFile options = .ok file := by
  have hoffers := offering_writable hext h
  have hmethods : ∀ m ∈ d.cls.methods, ∃ code, methodCode d.file m = .ok code := by
    intro m hm
    obtain ⟨file, hdecl⟩ := mem_batchDeclarations_of_definition hd hm
    obtain ⟨sig, hsig, hoffer⟩ := methodHasSig_of_infer h hdecl
    exact methodCode_ok hoffers hsig (hoffers d.name sig hoffer) d.file
  obtain ⟨methods, hmade⟩ := mapM_ok hmethods
  rw [Definition.classFile, classFile]
  exact ⟨_, bind_eq_ok.mpr ⟨_, hmade, rfl⟩⟩

theorem isGathered_annotateUnit {externals : Externals} {registry : Registry} {program : Program}
    (h : IsGathered program) : IsGathered (annotateUnit externals registry program).1 := by
  intro item hitem
  simp only [annotateUnit, List.map_map, List.mem_map, Function.comp] at hitem
  obtain ⟨before, hbefore, rfl⟩ := hitem
  obtain ⟨c, rfl⟩ := h before hbefore
  exact ⟨_, rfl⟩

/-- No fault comes up while the class files of a unit are made, if its batch is gathered and nothing
is wrong with it. -/
theorem fault_unitClassFiles {externals : Externals} {batch : List Program}
    (hext : WritableReturns externals) (hgathered : ∀ program ∈ batch, IsGathered program)
    (h : (infer externals batch).diagnostics = []) {program : Program}
    (hprogram : program ∈ (infer externals batch).batch) (options : Options) :
    (unitClassFiles options program).fault = none := by
  have hclean : IsGathered program := by
    simp only [infer, List.map_map, List.mem_map, Function.comp] at hprogram
    obtain ⟨before, hbefore, rfl⟩ := hprogram
    exact isGathered_annotateUnit (hgathered before hbefore)
  rw [unitClassFiles_eq options hclean]
  refine Made.fault_each.mpr fun d hd => ?_
  exact classFile_of_infer hext h (List.mem_flatMap.mpr ⟨program, hprogram, hd⟩) options

end StackScript.Code

import StackScript.Proofs.Generating
import StackScript.Proofs.Reordering
import StackScript.Proofs.Simulating
import StackScript.Proofs.StackEffects
import StackScript.Proofs.Stretches

/-!
# Code keeps the stack in order

The code of a typed expression leaves one value more on the stack, or as many as before if its type
is `void` (`exprCode_balanced`), and the code of a statement leaves the stack as it was
(`stmtCode_balanced`). So the code of a method has a chart (`code_is_charted`), and a frame at work
on it is as deep as the chart says (`HasChart.frame_keeps`).
-/

namespace StackScript.Code

open StackScript.Session StackScript.Source StackScript.Syntax StackScript.Typing

/-! ## Expressions -/

/-- No local has the type `void`. -/
def VoidFree (Γ : Context) : Prop := ∀ name t, Γ.lookup name = some t → t ≠ .void

/-- A context stays without void when a name of another type is declared. -/
theorem VoidFree.declare {Γ : Context} (h : VoidFree Γ) (name : String) {t : Ty} (ht : t ≠ .void) :
    VoidFree ((name, t) :: Γ) := by
  intro other s hother
  by_cases heq : other = name
  · rw [heq, List.lookup_cons_self, Option.some.injEq] at hother
    exact hother ▸ ht
  · rw [lookup_cons_ne t heq] at hother
    exact h other s hother

/-- The number of values that an expression of the type leaves. -/
def valueCount (t : Ty) : Nat := if t = .void then 0 else 1

theorem valueCount_of_ne {t : Ty} (h : t ≠ .void) : valueCount t = 1 := if_neg h

/-- The number of arguments of a call. -/
def argumentCount : Expr → Nat
  | .call _ _ args _ _ => args.length
  | _ => 0

/-- No call passes more arguments than its instruction can count. -/
def FewArguments (calls : List Expr) : Prop := ∀ e ∈ calls, argumentCount e < UInt16.size

instance (calls : List Expr) : Decidable (FewArguments calls) :=
  inferInstanceAs (Decidable (∀ e ∈ calls, argumentCount e < UInt16.size))

/-- Code is made only of expressions whose types have written forms. -/
theorem isWritable_of_exprCode {file : String} {slots : Slots} {place : Nat} {e : Expr}
    {code : List Instr} (h : exprCode file slots place e = .ok code) {t : Ty}
    (ht : e.type = some t) : t.isWritable = true := by
  have htype : ∃ s, typeOf file e = .ok s := by
    cases e <;> simp only [exprCode, bind_eq_ok] at h <;> exact ⟨_, h.choose_spec.1⟩
  obtain ⟨s, hs⟩ := htype
  obtain ⟨hsame, hwritable⟩ := typeOf_eq_ok hs
  rw [ht, Option.some.injEq] at hsame
  rwa [hsame]

/-- No binary operator makes void. -/
theorem ne_void_of_binaryType? {op : BinaryOp} {l r t : Ty} (h : binaryType? op l r = some t) :
    t ≠ .void := by
  rintro rfl
  cases op <;> simp only [binaryType?] at h <;> repeat' split at h
  all_goals cases h

/-- What stands behind the code of both sides takes two values and leaves one. -/
theorem binaryInstr?_effect {op : BinaryOp} {type : Ty} {instr : Instr}
    (h : binaryInstr? op type = some instr) :
    instr.isPlain = true ∧ instr.pops = 2 ∧ instr.pushes 0 = 1 := by
  cases op <;> simp only [binaryInstr?, Option.some.injEq, reduceCtorEq] at h <;> subst h
  case add => split <;> exact ⟨rfl, rfl, rfl⟩
  all_goals exact ⟨rfl, rfl, rfl⟩

section

variable {calls : List Expr} {offers : Offering} {Γ : Context} {slots : Slots} {file : String}

/-- An operand and an instruction that puts one value in place of one leave one value. -/
theorem balanced_unary {place depth : Nat} {code : List Instr} {instr : Instr}
    (h : Balanced calls place code [] depth (depth + 1)) (hplain : instr.isPlain = true)
    (hpops : instr.pops = 1) (hpushes : instr.pushes 0 = 1) :
    Balanced calls place (code ++ [instr]) [] depth (depth + 1) := by
  apply h.append_unmarked
  apply Balanced.plain hplain
  · omega
  · omega

theorem balanced_binary {place depth : Nat} {left right : List Instr} {instr : Instr}
    (hleft : Balanced calls place left [] depth (depth + 1))
    (hright : Balanced calls (place + left.length) right [] (depth + 1) (depth + 1 + 1))
    (hplain : instr.isPlain = true) (hpops : instr.pops = 2) (hpushes : instr.pushes 0 = 1) :
    Balanced calls place (left ++ right ++ [instr]) [] depth (depth + 1) := by
  apply (hleft.append_unmarked hright).append_unmarked
  apply Balanced.plain hplain
  · omega
  · omega

/-- The code of a binary operation leaves one value, when the code of each side does. -/
theorem balanced_binaryCode {op : BinaryOp} {type : Ty} {place : Nat} {left right : List Instr}
    (hsize : place + (binaryCode op type place left right).length < UInt32.size)
    (hleft : place + left.length < UInt32.size →
      ∀ depth, Balanced calls place left [] depth (depth + 1))
    (hright : rightPlace op place left + right.length < UInt32.size →
      ∀ depth, Balanced calls (rightPlace op place left) right [] depth (depth + 1))
    (depth : Nat) :
    Balanced calls place (binaryCode op type place left right) [] depth (depth + 1) := by
  by_cases hand : op = .and
  · subst hand
    have hlength : (andCode place left right).length = left.length + right.length + 3 := by
      simp only [andCode, List.length_append, List.length_cons, List.length_nil]
      omega
    simp only [binaryCode, rightPlace] at hsize hright ⊢
    exact .andCode hsize (hleft (by omega) depth) (hright (by omega) depth)
  · by_cases hor : op = .or
    · subst hor
      have hlength : (orCode place left right).length = left.length + right.length + 3 := by
        simp only [orCode, List.length_append, List.length_cons, List.length_nil]
        omega
      simp only [binaryCode, rightPlace] at hsize hright ⊢
      exact .orCode hsize (hleft (by omega) depth) (hright (by omega) depth)
    · obtain ⟨instr, hinstr, hplace, hcode⟩ := Machine.binaryCode_strict hand hor type
      obtain ⟨hplain, hpops, hpushes⟩ := binaryInstr?_effect hinstr
      rw [hplace] at hright
      rw [hcode] at hsize ⊢
      simp only [List.length_append] at hsize
      exact balanced_binary (hleft (by omega) depth) (hright (by omega) (depth + 1)) hplain hpops
        hpushes

mutual

theorem exprCode_balanced (hfew : FewArguments calls) (hΓ : VoidFree Γ) :
    ∀ (e : Expr) {t : Ty} {place : Nat} {code : List Instr}, HasTy offers Γ e t →
      (∀ part ∈ exprParts e, part ∈ calls) → exprCode file slots place e = .ok code →
      place + code.length < UInt32.size →
      ∀ depth, Balanced calls place code [] depth (depth + valueCount t)
  | .int value note, _, place, _, h, _, hcode, _, depth => by
    simp only [exprCode, bind_eq_ok, pure_eq_ok] at hcode
    obtain ⟨_, -, rfl⟩ := hcode
    cases h with
    | int _ => exact .plain rfl place (Nat.zero_le _) rfl
  | .bool value note, _, place, _, h, _, hcode, _, depth => by
    simp only [exprCode, bind_eq_ok, pure_eq_ok] at hcode
    obtain ⟨_, -, rfl⟩ := hcode
    cases h with
    | bool _ => exact .plain rfl place (Nat.zero_le _) rfl
  | .string value note, _, place, _, h, _, hcode, _, depth => by
    simp only [exprCode, bind_eq_ok, pure_eq_ok] at hcode
    obtain ⟨_, -, rfl⟩ := hcode
    cases h with
    | string _ => exact .plain rfl place (Nat.zero_le _) rfl
  | .var name note, _, place, _, h, _, hcode, _, depth => by
    simp only [exprCode, bind_eq_ok, loadCode] at hcode
    obtain ⟨_, -, hload⟩ := hcode
    cases h with
    | var _ hlocal =>
      rw [valueCount_of_ne (hΓ _ _ hlocal)]
      split at hload
      · cases hload
        exact .plain rfl place (Nat.zero_le _) rfl
      · cases hload
  | .call receiver method args target note, t, place, _, h, hparts, hcode, hsize, depth => by
    simp only [exprCode, bind_eq_ok, pure_eq_ok] at hcode
    obtain ⟨_, -, cls, hcls, first, hfirst, rfl⟩ := hcode
    rw [exprParts, List.forall_mem_cons] at hparts
    rw [List.length_append] at hsize
    cases h with
    | call hnote _ hargs =>
      cases hcls
      have hcount : (UInt16.ofNat args.length).toNat = args.length :=
        UInt16.toNat_ofNat_of_lt' (hfew _ hparts.1)
      have harguments := argsCode_balanced hfew hΓ args hargs hparts.2 hfirst (by omega) depth
      apply harguments.append_unmarked
      apply Balanced.call _ hparts.1
      · rw [hcount]
        exact ⟨rfl, rfl, rfl⟩
      · omega
      · -- what the call gives is what its type says
        have hgiven : ∀ point : Point,
            point.call = some (.call receiver method args (some cls) note) →
            point.given = valueCount t := by
          intro point hpoint
          rw [Point.given, hpoint, valueCount]
          simp only [Expr.type, Expr.note, hnote, Option.some.injEq]
        rw [hgiven _ rfl, hcount]
        omega
  | .index array position note, t, place, _, h, hparts, hcode, hsize, depth => by
    simp only [exprCode, bind_eq_ok, pure_eq_ok] at hcode
    obtain ⟨_, -, first, hfirst, second, hsecond, rfl⟩ := hcode
    rw [exprParts, List.forall_mem_cons, List.forall_mem_append] at hparts
    simp only [List.length_append] at hsize
    cases h with
    | index _ harray hposition =>
      -- an array of `void` has no written form, so there would be no code for it
      have hwritable := isWritable_of_exprCode hfirst harray.note
      have ht : t ≠ .void := by
        rintro rfl
        cases hwritable
      rw [valueCount_of_ne ht]
      exact balanced_binary
        (exprCode_balanced hfew hΓ array harray hparts.2.1 hfirst (by omega) depth)
        (exprCode_balanced hfew hΓ position hposition hparts.2.2 hsecond (by omega) (depth + 1))
        rfl rfl rfl
  | .length value note, _, place, _, h, hparts, hcode, hsize, depth => by
    simp only [exprCode, bind_eq_ok, pure_eq_ok] at hcode
    obtain ⟨_, -, first, hfirst, rfl⟩ := hcode
    rw [exprParts, List.forall_mem_cons] at hparts
    rw [List.length_append] at hsize
    cases h with
    | length _ hvalue ht =>
      have hoperand := exprCode_balanced hfew hΓ value hvalue hparts.2 hfirst (by omega) depth
      rw [valueCount_of_ne (by rcases ht with rfl | ⟨_, rfl⟩ <;> exact nofun)] at hoperand
      exact balanced_unary hoperand rfl rfl rfl
  | .unary op operand note, _, place, _, h, hparts, hcode, hsize, depth => by
    simp only [exprCode, bind_eq_ok, pure_eq_ok] at hcode
    obtain ⟨_, -, first, hfirst, rfl⟩ := hcode
    rw [exprParts, List.forall_mem_cons] at hparts
    rw [List.length_append] at hsize
    cases h with
    | @unary _ _ _ s t _ hoperand hop =>
      have hvalue := exprCode_balanced hfew hΓ operand hoperand hparts.2 hfirst (by omega) depth
      -- neither operation takes or gives `void`
      cases op <;> cases s <;> simp only [unaryType?, reduceCtorEq, Option.some.injEq] at hop <;>
        subst hop <;> exact balanced_unary hvalue rfl rfl rfl
  | .binary op left right note, t, place, _, h, hparts, hcode, hsize, depth => by
    simp only [exprCode, bind_eq_ok, pure_eq_ok] at hcode
    obtain ⟨type, -, first, hfirst, second, hsecond, rfl⟩ := hcode
    rw [exprParts, List.forall_mem_cons, List.forall_mem_append] at hparts
    cases h with
    | binary _ hleft hright hl hr hop =>
      rw [valueCount_of_ne (ne_void_of_binaryType? hop)]
      have hfirsts : place + first.length < UInt32.size → ∀ depth,
          Balanced calls place first [] depth (depth + 1) := by
        intro hsize depth
        have hvalue := exprCode_balanced hfew hΓ left hleft hparts.2.1 hfirst hsize depth
        rwa [valueCount_of_ne hl] at hvalue
      have hseconds : rightPlace op place first + second.length < UInt32.size → ∀ depth,
          Balanced calls (rightPlace op place first) second [] depth (depth + 1) := by
        intro hsize depth
        have hvalue := exprCode_balanced hfew hΓ right hright hparts.2.2 hsecond hsize depth
        rwa [valueCount_of_ne hr] at hvalue
      exact balanced_binaryCode hsize hfirsts hseconds depth

/-- The code of arguments leaves one value for each of them. -/
theorem argsCode_balanced (hfew : FewArguments calls) (hΓ : VoidFree Γ) :
    ∀ (es : List Expr) {ts : List Ty} {place : Nat} {code : List Instr}, HaveTys offers Γ es ts →
      (∀ part ∈ argsParts es, part ∈ calls) → argsCode file slots place es = .ok code →
      place + code.length < UInt32.size →
      ∀ depth, Balanced calls place code [] depth (depth + es.length)
  | [], _, place, _, _, _, hcode, _, depth => by
    cases hcode
    exact .nil calls place depth
  | e :: es, _, place, _, h, hparts, hcode, hsize, depth => by
    simp only [argsCode, bind_eq_ok, pure_eq_ok] at hcode
    obtain ⟨first, hfirst, rest, hrest, rfl⟩ := hcode
    rw [argsParts, List.forall_mem_append] at hparts
    rw [List.length_append] at hsize
    cases h with
    | cons he ht hes =>
      have hvalue := exprCode_balanced hfew hΓ e he hparts.1 hfirst (by omega) depth
      rw [valueCount_of_ne ht] at hvalue
      have hothers := argsCode_balanced hfew hΓ es hes hparts.2 hrest (by omega) (depth + 1)
      rw [List.length_cons, Nat.add_comm es.length, ← Nat.add_assoc]
      exact hvalue.append_unmarked hothers

end

end

/-! ## Statements -/

section

variable {calls : List Expr} {offers : Offering} {ret : Ty} {file : String}

/-- The code of a value that is used up leaves an empty stack. -/
theorem balanced_used (hfew : FewArguments calls) {Γ : Context} (hΓ : VoidFree Γ) {slots : Slots}
    {place : Nat} {value : Expr} {t : Ty} (hvalue : HasTy offers Γ value t) (ht : t ≠ .void)
    (hparts : ∀ part ∈ exprParts value, part ∈ calls) {code : List Instr}
    (hcode : exprCode file slots place value = .ok code) {instr : Instr}
    (hsize : place + (code ++ [instr]).length < UInt32.size)
    (hinstr : Balanced calls (place + code.length) [instr] [] 1 0) (span : Span) :
    Balanced calls place (code ++ [instr]) [lineMark place span] 0 0 := by
  rw [List.length_append, List.length_singleton] at hsize
  have hbalanced := exprCode_balanced hfew hΓ value hvalue hparts hcode (by omega) 0
  rw [valueCount_of_ne ht] at hbalanced
  exact (hbalanced.append_unmarked hinstr).markLine (by omega) span

mutual

theorem stmtCode_balanced (hfew : FewArguments calls) : ∀ (stmt : Stmt) {Γ Δ : Context}
    {slots : Slots} {place : Nat} {emitted : Emitted}, StmtHasTy offers ret Γ stmt Δ →
      VoidFree Γ → (∀ part ∈ stmtParts stmt, part ∈ calls) →
      stmtCode file slots place stmt = .ok emitted →
      place + emitted.code.length < UInt32.size →
      Balanced calls place emitted.code emitted.lines 0 0 ∧ VoidFree Δ
  | .expr value span, _, _, _, place, _, h, hΓ, hparts, hcode, hsize => by
    simp only [stmtCode, bind_eq_ok, pure_eq_ok] at hcode
    obtain ⟨type, htype, code, hvalue, rfl⟩ := hcode
    cases h with
    | expr htyped =>
      refine ⟨?_, hΓ⟩
      obtain rfl := Option.some.inj ((typeOf_eq_ok htype).1.symm.trans htyped.note)
      simp only [code_markLine, code_plain, lines_markLine, lines_plain] at hsize ⊢
      have hcodesize : place + code.length < UInt32.size := by
        rw [List.length_append] at hsize
        omega
      have hbalanced := exprCode_balanced hfew hΓ value htyped hparts hvalue hcodesize 0
      -- a value that is there is dropped
      by_cases hvoid : type = .void
      · rw [hvoid] at hbalanced ⊢
        rw [show Ty.isVoid .void = true from rfl, if_pos rfl, List.append_nil]
        exact hbalanced.markLine (by omega) span
      · rw [if_neg (by rwa [Ty.isVoid_iff])] at hsize ⊢
        rw [valueCount_of_ne hvoid] at hbalanced
        have hpop : Balanced calls (place + code.length) [.pop] [] 1 0 :=
          .plain rfl _ (Nat.le_refl 1) rfl
        exact (hbalanced.append_unmarked hpop).markLine (by omega) span
  | .assign target value span, _, _, slots, place, _, h, hΓ, hparts, hcode, hsize => by
    simp only [stmtCode, bind_eq_ok, pure_eq_ok] at hcode
    obtain ⟨code, hvalue, rfl⟩ := hcode
    obtain ⟨slot, hslot⟩ : ∃ slot, slotOf? (addSlot slots target.name) target.name = some slot :=
      slotOf?_of_mem (mem_addSlot.mpr (.inr rfl))
    simp only [code_markLine, code_plain, lines_markLine, lines_plain, hslot, Option.map_some,
      Option.toList_some] at hsize ⊢
    have hstore : Balanced calls (place + code.length) [.store slot] [] 1 0 :=
      .plain rfl _ (Nat.le_refl 1) rfl
    cases h with
    | assign htyped ht _ =>
      exact ⟨balanced_used hfew hΓ htyped ht hparts hvalue hsize hstore span, hΓ⟩
    | declare htyped ht _ =>
      exact ⟨balanced_used hfew hΓ htyped ht hparts hvalue hsize hstore span, hΓ.declare _ ht⟩
  | .cond chain span, _, _, _, place, _, h, hΓ, hparts, hcode, hsize => by
    simp only [stmtCode, bind_eq_ok, pure_eq_ok] at hcode
    obtain ⟨emitted, hchain, rfl⟩ := hcode
    rw [code_markLine] at hsize
    cases h with
    | cond htyped =>
      obtain ⟨hbalanced, hΔ⟩ := chainCode_balanced hfew chain htyped hΓ hparts hchain hsize
      exact ⟨hbalanced.markLine (by omega) span, hΔ⟩
  | .loop condition body span, _, _, _, place, _, h, hΓ, hparts, hcode, hsize => by
    simp only [stmtCode, bind_eq_ok, pure_eq_ok] at hcode
    obtain ⟨test, htest, inner, hinner, rfl⟩ := hcode
    rw [stmtParts, List.forall_mem_append] at hparts
    simp only [code_markLine, code_append, code_plain, lines_markLine, lines_append, lines_plain,
      List.nil_append, List.append_nil, List.length_append, List.length_singleton] at hsize ⊢
    cases h with
    | loop hcondition hbody =>
      have htestcode := exprCode_balanced hfew hΓ condition hcondition hparts.1 htest (by omega) 0
      obtain ⟨hbodycode, hΔ⟩ := blockCode_balanced hfew body hbody hΓ hparts.2 hinner (by omega)
      exact ⟨(Balanced.loop (by omega) htestcode hbodycode).markLine (by omega) span, hΔ⟩
  | .ret (some value) span, _, _, _, place, _, h, hΓ, hparts, hcode, hsize => by
    simp only [stmtCode, bind_eq_ok, pure_eq_ok] at hcode
    obtain ⟨code, hvalue, rfl⟩ := hcode
    cases h with
    | ret htyped hret =>
      refine ⟨balanced_used hfew hΓ htyped hret hparts hvalue hsize ?_ span, hΓ⟩
      exact .ended _ _ rfl (Nat.le_refl 1) (fun _ => rfl) nofun
  | .ret none span, _, _, _, place, _, h, hΓ, _, hcode, hsize => by
    cases hcode
    cases h with
    | retVoid _ =>
      have hreturn : Balanced calls place [.retVoid] [] 0 0 :=
        .ended _ _ rfl (Nat.zero_le _) nofun fun _ => rfl
      exact ⟨hreturn.markLine (Nat.lt_of_le_of_lt (Nat.le_add_right ..) hsize) span, hΓ⟩
  | .puts value span, _, _, _, place, _, h, hΓ, hparts, hcode, hsize => by
    simp only [stmtCode, bind_eq_ok, pure_eq_ok] at hcode
    obtain ⟨code, hvalue, rfl⟩ := hcode
    cases h with
    | puts htyped ht =>
      refine ⟨balanced_used hfew hΓ htyped ht hparts hvalue hsize ?_ span, hΓ⟩
      exact .plain rfl _ (Nat.le_refl 1) rfl
  | .raise value span, _, _, _, place, _, h, hΓ, hparts, hcode, hsize => by
    simp only [stmtCode, bind_eq_ok, pure_eq_ok] at hcode
    obtain ⟨code, hvalue, rfl⟩ := hcode
    cases h with
    | raise htyped ht =>
      refine ⟨balanced_used hfew hΓ htyped ht hparts hvalue hsize ?_ span, hΓ⟩
      exact .ended _ _ rfl (Nat.le_refl 1) nofun nofun

theorem blockCode_balanced (hfew : FewArguments calls) : ∀ (block : Block) {Γ Δ : Context}
    {slots : Slots} {place : Nat} {emitted : Emitted}, BlockHasTy offers ret Γ block Δ →
      VoidFree Γ → (∀ part ∈ blockParts block, part ∈ calls) →
      blockCode file slots place block = .ok emitted →
      place + emitted.code.length < UInt32.size →
      Balanced calls place emitted.code emitted.lines 0 0 ∧ VoidFree Δ
  | .mk stmts span, _, _, _, _, _, h, hΓ, hparts, hcode, hsize => by
    rw [blockCode] at hcode
    cases h with
    | mk hstmts => exact stmtsCode_balanced hfew stmts hstmts hΓ hparts hcode hsize

/-- The code of statements leaves the stack as it found it, empty. -/
theorem stmtsCode_balanced (hfew : FewArguments calls) : ∀ (stmts : List Stmt) {Γ Δ : Context}
    {slots : Slots} {place : Nat} {emitted : Emitted}, StmtsHaveTy offers ret Γ stmts Δ →
      VoidFree Γ → (∀ part ∈ stmtsParts stmts, part ∈ calls) →
      stmtsCode file slots place stmts = .ok emitted →
      place + emitted.code.length < UInt32.size →
      Balanced calls place emitted.code emitted.lines 0 0 ∧ VoidFree Δ
  | [], _, _, _, place, _, h, hΓ, _, hcode, _ => by
    cases hcode
    cases h with
    | nil => exact ⟨.nil calls place 0, hΓ⟩
  | stmt :: rest, _, _, _, place, _, h, hΓ, hparts, hcode, hsize => by
    simp only [stmtsCode, bind_eq_ok, pure_eq_ok] at hcode
    obtain ⟨first, hfirst, others, hothers, rfl⟩ := hcode
    rw [stmtsParts, List.forall_mem_append] at hparts
    rw [code_append, List.length_append] at hsize
    cases h with
    | cons hstmt hrest =>
      obtain ⟨hthis, hΔ⟩ := stmtCode_balanced hfew stmt hstmt hΓ hparts.1 hfirst (by omega)
      obtain ⟨hthese, hΘ⟩ := stmtsCode_balanced hfew rest hrest hΔ hparts.2 hothers (by omega)
      exact ⟨hthis.append hthese, hΘ⟩

theorem chainCode_balanced (hfew : FewArguments calls) : ∀ (chain : Chain) {Γ Δ : Context}
    {slots : Slots} {place : Nat} {emitted : Emitted}, ChainHasTy offers ret Γ chain Δ →
      VoidFree Γ → (∀ part ∈ chainParts chain, part ∈ calls) →
      chainCode file slots place chain = .ok emitted →
      place + emitted.code.length < UInt32.size →
      Balanced calls place emitted.code emitted.lines 0 0 ∧ VoidFree Δ
  | .done, _, _, _, place, _, h, hΓ, _, hcode, _ => by
    cases hcode
    cases h with
    | done => exact ⟨.nil calls place 0, hΓ⟩
  | .otherwise body, _, _, _, _, _, h, hΓ, hparts, hcode, hsize => by
    rw [chainCode] at hcode
    cases h with
    | otherwise hbody => exact blockCode_balanced hfew body hbody hΓ hparts hcode hsize
  | .branch condition body rest, _, _, _, place, _, h, hΓ, hparts, hcode, hsize => by
    simp only [chainCode, bind_eq_ok, pure_eq_ok] at hcode
    obtain ⟨test, htest, taken, htaken, others, hothers, rfl⟩ := hcode
    rw [chainParts, List.forall_mem_append, List.forall_mem_append] at hparts
    simp only [code_append, code_plain, lines_append, lines_plain, List.nil_append,
      List.append_nil, List.length_append, List.length_singleton] at hsize ⊢
    cases h with
    | branch hcondition hbody hrest =>
      have htestcode :=
        exprCode_balanced hfew hΓ condition hcondition hparts.1.1 htest (by omega) 0
      obtain ⟨hbodycode, hΔ⟩ := blockCode_balanced hfew body hbody hΓ hparts.1.2 htaken (by omega)
      obtain ⟨hrestcode, hΘ⟩ := chainCode_balanced hfew rest hrest hΔ hparts.2 hothers (by omega)
      exact ⟨.branch (by omega) htestcode hbodycode hrestcode, hΘ⟩

end

theorem bodyCode_balanced (hfew : FewArguments calls) {stmts : List Stmt} {Γ Δ : Context}
    (h : BodyHasTy offers ret Γ stmts Δ) (hΓ : VoidFree Γ)
    (hparts : ∀ part ∈ stmtsParts stmts, part ∈ calls) {slots : Slots} {place : Nat}
    {emitted : Emitted} (hcode : bodyCode file ret slots place stmts = .ok emitted)
    (hsize : place + emitted.code.length < UInt32.size) :
    Balanced calls place emitted.code emitted.lines 0 0 := by
  induction h generalizing slots place emitted with
  | nil =>
    cases hcode
    exact .nil calls place 0
  | @value Γ value span t hvalue hret =>
    rw [stmtsParts, List.forall_mem_append] at hparts
    rw [bodyCode] at hcode
    split at hcode
    · have hstmt : StmtHasTy offers ret Γ (.expr value span) Γ := .expr hvalue
      exact (stmtCode_balanced hfew _ hstmt hΓ hparts.1 hcode hsize).1
    · -- the method owes a value, and this is it
      rename_i hvoid
      simp only [bind_eq_ok, pure_eq_ok] at hcode
      obtain ⟨code, hemitted, rfl⟩ := hcode
      have ht : t ≠ .void := by
        rintro rfl
        rcases hret with rfl | rfl <;> exact hvoid rfl
      refine balanced_used hfew hΓ hvalue ht hparts.1 hemitted hsize ?_ span
      exact .ended _ _ rfl (Nat.le_refl 1) (fun _ => rfl) nofun
  | cons hlast hstmt _ ih =>
    rw [bodyCode_cons hlast] at hcode
    simp only [bind_eq_ok, pure_eq_ok] at hcode
    obtain ⟨first, hfirst, others, hothers, rfl⟩ := hcode
    rw [stmtsParts, List.forall_mem_append] at hparts
    rw [code_append, List.length_append] at hsize
    obtain ⟨hthis, hΔ⟩ := stmtCode_balanced hfew _ hstmt hΓ hparts.1 hfirst (by omega)
    exact hthis.append (ih hΔ hparts.2 hothers (by omega))

end

/-! ## Methods -/

/-- The chart is right about the whole code of a method. It marks the statements in source order,
and at each mark the stack is empty. -/
structure HasChart (m : Method) (code : MethodCode) (chart : Chart) : Prop where
  start : (chart 0).depth = 0
  marks : code.lines.map LineMark.line = (blockStmts m.body).map startLine
  statements : ∀ mark ∈ code.lines, (chart mark.place.toNat).depth = 0
  charted : ∀ place instr, code.code[place]? = some instr →
    Charted (blockParts m.body) chart place instr

/-- A frame at work on the method is always as deep as the chart says, and never lacks an
operand. -/
theorem HasChart.frame_keeps {m : Method} {code : MethodCode} {chart : Chart}
    (h : HasChart m code chart) {pool : Machine.Pool} {unit : Machine.LoadedUnit}
    {locals : Array Machine.Value} {frame : Machine.Frame}
    (hreach : Relation.ReflTransGen (Machine.Frame.Advances pool chart) ⟨unit, code, locals, [], 0⟩
      frame) :
    frame.stack.length = (chart frame.place).depth ∧
      ∀ fault, frame.step pool = .error fault → fault.lacksOperand = false := by
  have hstart : (⟨unit, code, locals, [], 0⟩ : Machine.Frame).stack.length = (chart 0).depth :=
    h.start.symm
  obtain ⟨hplace, hdepth⟩ := Machine.Frame.keeps_to_chart h.charted hstart hreach
  have hcharted : ∀ place instr, frame.method.code[place]? = some instr →
      Charted (blockParts m.body) chart place instr := by
    rw [hplace.method]
    exact h.charted
  exact ⟨hdepth, (Machine.Frame.step_keeps pool hcharted hdepth).error⟩

/-- The names of parameters do not start out as void. -/
theorem voidFree_startContext {offers : Offering} {m : Method} {sig : MethodSig}
    (h : MethodHasSig offers m sig) (hparams : ∀ param ∈ m.params, param.type.ty? ≠ some .void) :
    VoidFree (startContext m sig.params) := by
  intro name t hlookup
  have hmem : some t ∈ m.params.map (·.type.ty?) := by
    rw [h.params]
    exact List.mem_map_of_mem (lookup_startContext hlookup).2
  obtain ⟨param, hparam, htype⟩ := List.mem_map.mp hmem
  rintro rfl
  exact hparams param hparam htype

/-- A balanced piece that is the whole code has a chart. -/
theorem Balanced.exists_chart {calls : List Expr} {code : List Instr} {marks : List LineMark}
    {before : Nat} (h : Balanced calls 0 code marks before 0) :
    ∃ chart : Chart, (chart 0).depth = before ∧
      (∀ place instr, code[place]? = some instr → Charted calls chart place instr) ∧
      ∀ mark ∈ marks, (chart mark.place.toNat).depth = 0 := by
  obtain ⟨points, hlength, hchart⟩ := h
  -- behind the code the stack is empty
  let chart : Chart := fun place => points[place]?.getD ⟨0, none⟩
  have hagrees : Agrees chart 0 points := by
    apply along_of_getElem?
    intro i point hpoint
    simp only [chart, Nat.zero_add, hpoint, Option.getD_some]
  have hend : (chart (0 + code.length)).depth = 0 := by
    simp only [chart, Nat.zero_add, List.getElem?_eq_none (Nat.le_of_eq hlength), Option.getD_none]
  obtain ⟨hstart, hcharted, hmarks⟩ := hchart chart hagrees hend
  refine ⟨chart, ?_⟩
  refine ⟨hstart, ?_, hmarks⟩
  intro place instr hinstr
  have hplace := hcharted.getElem? hinstr
  rwa [Nat.zero_add] at hplace

/-- The code of every method of an accepted batch keeps the stack in order: there is a chart of it,
by which every statement starts with an empty stack, every instruction finds what it takes and
agrees with all that can come after it, a call takes its arguments and leaves a value unless the
type written into it is `void`, and a return finds its value and nothing else. -/
theorem code_is_charted {externals : Externals} {batch : List Program}
    (hclean : (infer externals batch).diagnostics = []) {file cls : String} {m : Method}
    (hm : (file, Declaration.method cls m) ∈ batchDeclarations (infer externals batch).batch)
    (hparams : ∀ param ∈ m.params, param.type.ty? ≠ some .void)
    (hfew : FewArguments (blockParts m.body)) {unit : String} {code : MethodCode}
    (hcode : methodCode unit m = .ok code) (hsize : code.code.size < UInt32.size) :
    ∃ chart, HasChart m code chart := by
  obtain ⟨sig, hsig, -⟩ := methodHasSig_of_infer hclean hm
  obtain ⟨params, ret, body, last, -, hret, hbody, hlast, rfl⟩ := methodCode_eq_ok hcode
  obtain ⟨Δ, htyped⟩ := hsig.body
  cases (returnType_eq_ok hret).symm.trans hsig.ret
  have hparts : ∀ part ∈ stmtsParts m.body.stmts, part ∈ blockParts m.body := by
    cases m.body
    exact fun _ hpart => hpart
  simp only [List.size_toArray, List.length_append] at hsize
  have hbalanced := bodyCode_balanced hfew htyped (voidFree_startContext hsig hparams) hparts hbody
    (by omega)
  -- a body without a value to return is followed by a return
  have hend : Balanced (blockParts m.body) (0 + body.code.length) last [] 0 0 := by
    rw [endCode_eq_ok hlast]
    split
    · exact .ended _ _ rfl (Nat.zero_le _) nofun fun _ => rfl
    · exact .nil ..
  obtain ⟨chart, hstart, hcharted, hmarks⟩ := (hbalanced.append_unmarked hend).exists_chart
  refine ⟨chart, hstart, ?_, hmarks, ?_⟩
  · rw [lines_bodyCode hbody]
    cases m.body
    rfl
  · intro place instr hinstr
    apply hcharted
    rwa [List.getElem?_toArray] at hinstr

/-- A script with a method `countdown(n: int)` that prints the numbers from `n` down to `1` in a
loop `while n > 0 && true`, and a call `countdown(3)`. -/
def countdownScript : Program where
  source := inlineName
  package := none
  items :=
    [.method
      { name := ⟨"countdown", default⟩
        isStatic := false
        params := [⟨⟨"n", default⟩, ⟨"int", 0, default⟩, default⟩]
        ret := none
        body := .mk
          [.loop
            (.binary .and (.binary .gt (.var ⟨"n", default⟩ default) (.int 0 default) default)
              (.bool true default) default)
            (.mk
              [.puts (.var ⟨"n", default⟩ default) default,
                .assign ⟨"n", default⟩
                  (.binary .sub (.var ⟨"n", default⟩ default) (.int 1 default) default) default]
              default)
            default]
          default
        span := default },
      .stmt (.expr (.call none ⟨"countdown", default⟩ [.int 3 default] none default) default)]
  span := default

theorem countdownScript_is_charted :
    let batch := (infer .nothing [countdownScript.gather]).batch
    (batchMethods batch).length = 2 ∧
    ∀ file cls m, (file, cls, m) ∈ batchMethods batch →
      ∃ code chart, methodCode cls m = .ok code ∧ HasChart m code chart := by
  intro batch
  have hclean : (infer .nothing [countdownScript.gather]).diagnostics = [] := by decide +kernel
  have hmethods : (batchMethods batch).all (fun place =>
      place.2.2.params.all (·.type.ty? ≠ some .void) &&
        decide (FewArguments (blockParts place.2.2.body)) &&
        (methodCode place.2.1 place.2.2).toOption.any (·.code.size < UInt32.size)) = true := by
    decide +kernel
  refine ⟨by decide +kernel, ?_⟩
  intro file cls m hm
  have hmethod := List.all_eq_true.mp hmethods _ hm
  simp only [Bool.and_eq_true, decide_eq_true_eq] at hmethod
  obtain ⟨⟨hparams, hfew⟩, hcode⟩ := hmethod
  obtain ⟨code, hok, hsize⟩ := (Option.any_eq_true ..).mp hcode
  have hcode : methodCode cls m = .ok code := by
    cases hmade : methodCode cls m with
    | error fault => rw [hmade] at hok; cases hok
    | ok made => rw [hmade] at hok; cases hok; rfl
  obtain ⟨chart, hchart⟩ := code_is_charted hclean (mem_batchMethods.mp hm)
    (fun param hparam => of_decide_eq_true (List.all_eq_true.mp hparams param hparam)) hfew hcode
    (of_decide_eq_true hsize)
  exact ⟨code, chart, hcode, hchart⟩

end StackScript.Code

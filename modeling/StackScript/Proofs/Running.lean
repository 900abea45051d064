import StackScript.Proofs.Compiling
import StackScript.Proofs.Simulating

/-!
# Methods that follow what they mean

A body that owes a value never goes on behind its last statement (`returns_doBody`). So the code of
a typed method, with its arguments in its slots, follows the method up to the return to its caller
(`method_follows`).
-/

namespace StackScript.Meaning

open StackScript.Machine StackScript.Syntax StackScript.Typing

/-! ## Bodies that return -/

/-- What is done never goes on with what comes after it. -/
def Returns (doing : Doing Flow) : Prop := ∀ store, doing.ending ≠ .done (.next store)

theorem Returns.bind {α : Type} {first : Doing α} {next : α → Doing Flow}
    (h : ∀ a, Returns (next a)) : Returns (first >>= next) := by
  intro store heq
  obtain ⟨out, ending⟩ := first
  cases ending with
  | done a => exact h a store heq
  | failed fault => cases heq
  | unassigned => cases heq
  | unfinished => cases heq

theorem Returns.pure (value : Value) : Returns (pure (.returned value)) := fun _ h => nomatch h

theorem Returns.goOn {first : Doing Flow} {next : Store → Doing Flow}
    (h : ∀ store, Returns (next store)) : Returns (first >>= goOn next) :=
  .bind fun flow => by
    cases flow with
    | next store => exact h store
    | returned value => exact .pure value

/-- What never goes on is not followed by anything. -/
theorem Returns.before {first : Doing Flow} (h : Returns first) (next : Store → Doing Flow) :
    Returns (first >>= Meaning.goOn next) := by
  intro store heq
  obtain ⟨out, ending⟩ := first
  cases ending with
  | done flow =>
    cases flow with
    | next before => exact h before rfl
    | returned value => cases heq
  | failed fault => cases heq
  | unassigned => cases heq
  | unfinished => cases heq

section

variable {call : Calls} {rounds : Nat}

mutual

/-- A statement that exits on every path never goes on. -/
theorem returns_doStmt : ∀ (stmt : Stmt), stmt.exits = true → ∀ store,
    Returns (doStmt call rounds stmt store)
  | .ret (some value) _, _, store => by
    rw [doStmt]
    exact .bind .pure
  | .ret none _, _, store => by
    rw [doStmt]
    exact .pure .void
  | .raise value _, _, store => by
    rw [doStmt]
    exact .bind fun _ _ h => nomatch h
  | .cond chain _, h, store => by
    rw [doStmt]
    exact returns_doChain chain h store

theorem returns_doBlock : ∀ (block : Block), block.exits = true → ∀ store,
    Returns (doBlock call rounds block store)
  | .mk stmts _, h, store => by
    rw [doBlock]
    exact returns_doStmts stmts h store

theorem returns_doStmts : ∀ (stmts : List Stmt), anyExits stmts = true → ∀ store,
    Returns (doStmts call rounds stmts store)
  | stmt :: rest, h, store => by
    rw [doStmts]
    -- one statement that exits is enough, whether others stand before or behind it
    rcases Bool.or_eq_true_iff.mp h with hstmt | hrest
    · exact (returns_doStmt stmt hstmt store).before _
    · exact .goOn (returns_doStmts rest hrest)

theorem returns_doChain : ∀ (chain : Chain), chain.exits = true → ∀ store,
    Returns (doChain call rounds chain store)
  | .otherwise body, h, store => by
    rw [doChain]
    exact returns_doBlock body h store
  | .branch condition body rest, h, store => by
    obtain ⟨hbody, hrest⟩ := Bool.and_eq_true_iff.mp h
    rw [doChain]
    refine .bind fun b => ?_
    cases b with
    | true => exact returns_doBlock body hbody store
    | false => exact returns_doChain rest hrest store

end

/-- A statement that is no bare expression at the end of a body is done like all others. -/
theorem doBody_cons {owes : Bool} {stmt : Stmt} {rest : List Stmt}
    (h : isExpr stmt = true → rest ≠ []) (store : Store) :
    doBody call rounds owes (stmt :: rest) store
      = doStmt call rounds stmt store >>= goOn (doBody call rounds owes rest) := by
  rw [doBody]
  rintro value span rfl hnil
  exact h rfl hnil

/-- A body that owes a value never goes on behind its last statement, if it ends with a bare
expression or exits on every path. -/
theorem returns_doBody {stmts : List Stmt}
    (h : (∃ value span, stmts.getLast? = some (.expr value span)) ∨ anyExits stmts = true)
    (store : Store) : Returns (doBody call rounds true stmts store) := by
  induction stmts generalizing store with
  | nil =>
    rcases h with ⟨_, _, hlast⟩ | hexits
    · cases hlast
    · cases hexits
  | cons stmt rest ih =>
    rcases isLast_cases stmt rest with hlast | ⟨value, span, rfl, rfl⟩
    · rw [doBody_cons hlast]
      rcases h with ⟨value, span, hvalue⟩ | hexits
      · cases rest with
        | nil =>
          cases hvalue
          exact absurd rfl (hlast rfl)
        | cons next rest =>
          rw [List.getLast?_cons_cons] at hvalue
          exact .goOn (ih (.inl ⟨value, span, hvalue⟩))
      · rcases Bool.or_eq_true_iff.mp hexits with hstmt | hrest
        · exact (returns_doStmt stmt hstmt store).before _
        · exact .goOn (ih (.inr hrest))
    · -- the bare expression at the end is returned as the value that is owed
      rw [doBody]
      exact .bind .pure

end

end StackScript.Meaning

namespace StackScript.Machine

open StackScript.Code StackScript.Meaning StackScript.Source StackScript.Syntax StackScript.Typing

section

variable {pool : Pool} {allowed : RuntimeFault → Prop} {rounds : Nat} {desk : Desk}
  {offers : Offering} {call : Calls} {file : String}

/-- The code of a body follows the body. -/
theorem bodyCode_follows {Θ : Context} {all : Slots} {ret : Ty}
    (hfoot : Footing pool allowed rounds desk offers call) (hall : all.Nodup)
    (hlength : all.length ≤ 65535) {stmts : List Stmt} {Γ Δ : Context}
    (h : BodyHasTy offers ret Γ stmts Δ) (hΔ : Δ.Within Θ) {slots : Slots} {place : Nat}
    {emitted : Emitted} (hcode : bodyCode file ret slots place stmts = .ok emitted)
    (hslots : emitted.slots <+: all) (hat : StandsAt desk.method.code place emitted.code) :
    desk.Does pool allowed rounds ret Θ all place (place + emitted.code.length)
      (doBody call rounds (!ret.isVoid) stmts) := by
  induction h generalizing slots place emitted with
  | nil =>
    cases hcode
    exact .skip
  | @value Γ value span t hvalue hret =>
    rw [bodyCode] at hcode
    intro store locals stack out hmatch
    rw [doBody]
    split at hcode
    · rename_i hvoid
      have hstmt : StmtHasTy offers ret Γ (.expr value span) Γ := .expr hvalue
      rw [hvoid, if_neg (by decide)]
      exact stmtCode_follows hfoot hall hlength _ hstmt hΔ hcode hslots hat stack out hmatch
    · rename_i hvoid
      have ht : t = ret := by
        rcases hret with rfl | rfl
        · exact absurd rfl hvoid
        · rfl
      subst ht
      have hne : t ≠ .void := by
        rintro rfl
        exact hvoid rfl
      simp only [bind_eq_ok, pure_eq_ok] at hcode
      obtain ⟨code, hcode, rfl⟩ := hcode
      rw [Bool.eq_false_iff.mpr hvoid, if_pos (by decide)]
      exact valueCode_follows hfoot ⟨hΔ, hslots, hlength, hmatch⟩ hvalue hne hcode hat
        fun v out hv => Follows.pure ⟨hv, rfl⟩
  | cons hlast hstmt hrest ih =>
    rw [bodyCode_cons hlast] at hcode
    simp only [bind_eq_ok, pure_eq_ok] at hcode
    obtain ⟨first, hfirst, others, hothers, rfl⟩ := hcode
    have hstarts : first.slots <+: others.slots := prefix_of_slots (slots_bodyCode _ hothers)
    have hfollows := stmtCode_follows hfoot hall hlength _ hstmt (hrest.within.trans hΔ) hfirst
      (hstarts.trans hslots) hat.left
    intro store locals stack out hmatch
    rw [doBody_cons hlast, code_append, List.length_append, ← Nat.add_assoc]
    exact hfollows.goOn (ih hΔ hothers hslots hat.right) stack out hmatch

theorem lastStmt_of_ends {m : Method} (h : m.body.endsWithExpr = true ∨ m.body.exits = true) :
    (∃ value span, m.body.stmts.getLast? = some (.expr value span)) ∨
      anyExits m.body.stmts = true := by
  rcases h with h | h
  · unfold Block.endsWithExpr at h
    split at h
    · exact .inl ⟨_, _, ‹_›⟩
    · cases h
  · cases hbody : m.body with
    | mk stmts span =>
      rw [hbody] at h
      exact .inr h

/-- A method is started with its arguments in its slots. -/
def Desk.started (desk : Desk) (args : List Value) (out : String) : Status :=
  desk.status (startLocals desk.method args) [] 0 out

/-- The code of a method follows the method up to its return. -/
theorem method_follows (hfoot : Footing pool allowed rounds desk offers call) {m : Method}
    {sig : MethodSig} (h : MethodHasSig offers m sig) (hcode : methodCode file m = .ok desk.method)
    (hdistinct : (m.params.map (·.name.name)).Nodup) (hlength : (methodNames m).length ≤ 65535)
    {args : List Value} (hargs : Value.HaveTys args sig.params) (out : String) :
    Follows pool allowed rounds (desk.started args out) out (runMethod call rounds m args)
      fun value out later => value.HasTy sig.ret ∧ later = afterReturn desk.callers out value := by
  obtain ⟨params, ret, body, last, -, hret, hbody, hlast, hmethod⟩ := methodCode_eq_ok hcode
  obtain ⟨Δ, htyped⟩ := h.body
  cases (returnType_eq_ok hret).symm.trans h.ret
  have hslots := slots_methodBody hbody
  -- as many slots are set up at the start as the body ends with
  have hlocals : desk.method.locals.toNat = (methodNames m).length := by
    rw [hmethod, ← hslots]
    exact toNat_ofNat_of_le (hslots ▸ hlength)
  have hat : StandsAt desk.method.code 0 (body.code ++ last) := by
    rw [hmethod]
    exact List.prefix_rfl
  have howes : decide (m.retType ≠ some .void) = !sig.ret.isVoid := by
    rw [h.ret]
    cases sig.ret <;> rfl
  have hdoes := bodyCode_follows hfoot (nodup_addSlots .nil) hlength htyped (.refl Δ) hbody
    (hslots ▸ List.prefix_rfl) hat.left
  rw [runMethod, howes]
  refine (hdoes [] out (matches_start h hdistinct hlocals hargs htyped.within)).ended.bind ?_
  rintro flow out later ⟨hending, hlater⟩
  cases flow with
  | returned value => exact Follows.pure hlater
  -- the end of the body is come to only without a value to return
  | next store =>
    obtain ⟨locals, stack, -, rfl⟩ := hlater
    by_cases hvoid : sig.ret = .void
    · have hend := hat.right
      rw [endCode_eq_ok hlast, hvoid, if_pos (by decide)] at hend
      rw [hvoid]
      exact (Follows.pure ⟨.void, rfl⟩).of_reaches (Desk.reaches_effect hend.head rfl)
    · have howed : (!sig.ret.isVoid) = true := by
        cases hret : sig.ret with
        | void => exact absurd hret hvoid
        | _ => rfl
      rw [howed] at hending
      exact absurd hending (returns_doBody (lastStmt_of_ends (h.ends.resolve_left hvoid)) _ store)

end

end StackScript.Machine

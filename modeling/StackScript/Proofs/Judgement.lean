import StackScript.Proofs.Settling

/-!
# Typed trees

What it means for a tree with types written into it to be typed, apart from how types are found.
An expression has the type that is written into it; a statement takes the types of the locals
before it to those after it; a method is typed when its body is, and when its body cannot end
without the value it owes. The methods that calls may go to are a parameter of the judgement.
-/

namespace StackScript.Typing

open StackScript.Source StackScript.Syntax

/-- The types of the locals, latest first. -/
abbrev Context := List (String × Ty)

/-- Which methods classes offer to calls. -/
abbrev Offering := String → MethodSig → Prop

/-! ## Expressions -/

mutual

/-- The expression has the type, which is written into it. -/
inductive HasTy (offers : Offering) (Γ : Context) : Expr → Ty → Prop where
  | int {value note} (hnote : note.type = some .int) : HasTy offers Γ (.int value note) .int
  | bool {value note} (hnote : note.type = some .boolean) :
      HasTy offers Γ (.bool value note) .boolean
  | string {value note} (hnote : note.type = some .string) :
      HasTy offers Γ (.string value note) .string
  | var {name note t} (hnote : note.type = some t) (hlocal : Γ.lookup name.name = some t) :
      HasTy offers Γ (.var name note) t
  | call {receiver method args cls note params ret} (hnote : note.type = some ret)
      (hoffers : offers cls ⟨method.name, params, ret⟩) (hargs : HaveTys offers Γ args params) :
      HasTy offers Γ (.call receiver method args (some cls) note) ret
  | index {array position note t} (hnote : note.type = some t)
      (harray : HasTy offers Γ array (.array t)) (hposition : HasTy offers Γ position .int) :
      HasTy offers Γ (.index array position note) t
  | length {value note t} (hnote : note.type = some .int) (hvalue : HasTy offers Γ value t)
      (ht : t = .string ∨ ∃ element, t = .array element) :
      HasTy offers Γ (.length value note) .int
  | unary {op operand note s t} (hnote : note.type = some t) (hoperand : HasTy offers Γ operand s)
      (hop : unaryType? op s = some t) : HasTy offers Γ (.unary op operand note) t
  | binary {op left right note l r t} (hnote : note.type = some t)
      (hleft : HasTy offers Γ left l) (hright : HasTy offers Γ right r) (hl : l ≠ .void)
      (hr : r ≠ .void) (hop : binaryType? op l r = some t) :
      HasTy offers Γ (.binary op left right note) t

/-- The expressions have the types one by one, none of them `void`. -/
inductive HaveTys (offers : Offering) (Γ : Context) : List Expr → List Ty → Prop where
  | nil : HaveTys offers Γ [] []
  | cons {e t es ts} (h : HasTy offers Γ e t) (ht : t ≠ .void) (hrest : HaveTys offers Γ es ts) :
      HaveTys offers Γ (e :: es) (t :: ts)

end

section

variable {offers : Offering} {Γ : Context}

theorem HasTy.note {e : Expr} {t : Ty} (h : HasTy offers Γ e t) : e.type = some t := by
  cases h <;> assumption

theorem HaveTys.length {es : List Expr} {ts : List Ty} (h : HaveTys offers Γ es ts) :
    es.length = ts.length := by
  induction es generalizing ts with
  | nil => cases h; rfl
  | cons e es ih =>
    cases h with
    | cons _ _ hrest => rw [List.length_cons, List.length_cons, ih hrest]

end

/-! ## Statements -/

mutual

/-- The statement is typed in a method that returns `ret`, and takes the locals to those after
it. -/
inductive StmtHasTy (offers : Offering) (ret : Ty) : Context → Stmt → Context → Prop where
  | expr {Γ value span t} (hvalue : HasTy offers Γ value t) :
      StmtHasTy offers ret Γ (.expr value span) Γ
  /-- A value goes to a local of its type. -/
  | assign {Γ target value span t} (hvalue : HasTy offers Γ value t) (ht : t ≠ .void)
      (hlocal : Γ.lookup target.name = some t) :
      StmtHasTy offers ret Γ (.assign target value span) Γ
  /-- A value goes to a local that there was not before. -/
  | declare {Γ target value span t} (hvalue : HasTy offers Γ value t) (ht : t ≠ .void)
      (hlocal : Γ.lookup target.name = none) :
      StmtHasTy offers ret Γ (.assign target value span) ((target.name, t) :: Γ)
  | cond {Γ Δ chain span} (hchain : ChainHasTy offers ret Γ chain Δ) :
      StmtHasTy offers ret Γ (.cond chain span) Δ
  | loop {Γ Δ condition body span} (hcondition : HasTy offers Γ condition .boolean)
      (hbody : BlockHasTy offers ret Γ body Δ) :
      StmtHasTy offers ret Γ (.loop condition body span) Δ
  | ret {Γ value span} (hvalue : HasTy offers Γ value ret) (hret : ret ≠ .void) :
      StmtHasTy offers ret Γ (.ret (some value) span) Γ
  | retVoid {Γ span} (hret : ret = .void) : StmtHasTy offers ret Γ (.ret none span) Γ
  | puts {Γ value span t} (hvalue : HasTy offers Γ value t) (ht : t ≠ .void) :
      StmtHasTy offers ret Γ (.puts value span) Γ
  | raise {Γ value span t} (hvalue : HasTy offers Γ value t) (ht : t ≠ .void) :
      StmtHasTy offers ret Γ (.raise value span) Γ

/-- The block is typed, and takes the locals to those after it. -/
inductive BlockHasTy (offers : Offering) (ret : Ty) : Context → Block → Context → Prop where
  | mk {Γ Δ stmts span} (hstmts : StmtsHaveTy offers ret Γ stmts Δ) :
      BlockHasTy offers ret Γ (.mk stmts span) Δ

/-- The statements are typed in order, each with the locals that the one before it leaves. -/
inductive StmtsHaveTy (offers : Offering) (ret : Ty) : Context → List Stmt → Context → Prop where
  | nil {Γ} : StmtsHaveTy offers ret Γ [] Γ
  | cons {Γ Δ Θ stmt rest} (hstmt : StmtHasTy offers ret Γ stmt Δ)
      (hrest : StmtsHaveTy offers ret Δ rest Θ) : StmtsHaveTy offers ret Γ (stmt :: rest) Θ

/-- The branches are typed in order; a local that one of them assigns is there in the next. -/
inductive ChainHasTy (offers : Offering) (ret : Ty) : Context → Chain → Context → Prop where
  | done {Γ} : ChainHasTy offers ret Γ .done Γ
  | otherwise {Γ Δ body} (hbody : BlockHasTy offers ret Γ body Δ) :
      ChainHasTy offers ret Γ (.otherwise body) Δ
  | branch {Γ Δ Θ condition body rest} (hcondition : HasTy offers Γ condition .boolean)
      (hbody : BlockHasTy offers ret Γ body Δ) (hrest : ChainHasTy offers ret Δ rest Θ) :
      ChainHasTy offers ret Γ (.branch condition body rest) Θ

end

/-! ## Methods -/

/-- The statement is a bare expression. -/
def isExpr : Stmt → Bool
  | .expr _ _ => true
  | _ => false

/-- A statement of a body is like any other, or it is a bare expression at the end. -/
theorem isLast_cases (stmt : Stmt) (rest : List Stmt) :
    (isExpr stmt = true → rest ≠ []) ∨ ∃ value span, stmt = .expr value span ∧ rest = [] := by
  cases rest with
  | nil =>
    cases stmt with
    | expr value span => exact .inr ⟨value, span, rfl, rfl⟩
    | _ => exact .inl nofun
  | cons next rest => exact .inl fun _ => nofun

/-- The statements of a body are typed; a bare expression at its end is the value that the method
owes. -/
inductive BodyHasTy (offers : Offering) (ret : Ty) : Context → List Stmt → Context → Prop where
  | nil {Γ} : BodyHasTy offers ret Γ [] Γ
  | value {Γ value span t} (hvalue : HasTy offers Γ value t) (hret : ret = .void ∨ t = ret) :
      BodyHasTy offers ret Γ [.expr value span] Γ
  | cons {Γ Δ Θ stmt rest} (hlast : isExpr stmt = true → rest ≠ [])
      (hstmt : StmtHasTy offers ret Γ stmt Δ) (hrest : BodyHasTy offers ret Δ rest Θ) :
      BodyHasTy offers ret Γ (stmt :: rest) Θ

/-- The locals at the start of a method: its parameters, the last of equal names first. -/
def startContext (m : Method) (params : List Ty) : Context :=
  ((m.params.map (·.name.name)).zip params).reverse

/-- The method is typed with the signature. -/
structure MethodHasSig (offers : Offering) (m : Method) (sig : MethodSig) : Prop where
  name : m.name.name = sig.name
  params : m.params.map (·.type.ty?) = sig.params.map some
  ret : m.retType = some sig.ret
  body : ∃ Δ, BodyHasTy offers sig.ret (startContext m sig.params) m.body.stmts Δ
  /-- A value that is owed is returned at the end of every path. -/
  ends : sig.ret = .void ∨ m.body.endsWithExpr = true ∨ m.body.exits = true

/-! ## Written types -/

/-- The types of locals have written forms. -/
def Context.Writable (Γ : Context) : Prop :=
  ∀ name t, Γ.lookup name = some t → t.isWritable = true

/-- Methods on offer return types with written forms. -/
def Offering.Writable (offers : Offering) : Prop :=
  ∀ cls sig, offers cls sig → sig.ret.isWritable = true

/-- The type of an expression has a written form. -/
theorem HasTy.writable {offers : Offering} {Γ : Context} (hoffers : offers.Writable)
    (hΓ : Γ.Writable) : ∀ {e : Expr} {t : Ty}, HasTy offers Γ e t → t.isWritable = true
  | .int .., _, h => by cases h; rfl
  | .bool .., _, h => by cases h; rfl
  | .string .., _, h => by cases h; rfl
  | .var name _, t, h => by
    cases h with
    | var _ hlocal => exact hΓ name.name t hlocal
  -- a call is the one way to a type that is made nowhere in the expression
  | .call .., _, h => by
    cases h with
    | call _ hoffer _ => exact hoffers _ _ hoffer
  | .index .., _, h => by
    cases h with
    | index _ harray _ => exact Ty.isWritable_of_array (harray.writable hoffers hΓ)
  | .length .., _, h => by cases h; rfl
  | .unary .., _, h => by
    cases h with
    | unary _ _ hop => exact unaryType?_writable hop
  | .binary .., _, h => by
    cases h with
    | binary _ _ _ _ _ hop => exact binaryType?_writable hop

end StackScript.Typing

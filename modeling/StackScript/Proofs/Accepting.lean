import StackScript.Proofs.Judgement

/-!
# What passes inference is typed

A body in which inference finds no fault is typed by the judgement as soon as the types of all
methods in reach are known (`Site.body_sound`). Trees keep their shape while types are written into
them; in particular they exit where they did before.
-/

namespace StackScript.Typing

open StackScript.Source StackScript.Syntax

/-! ## Known signatures -/

/-- Methods in reach of calls all of whose types are known. -/
def offering (registry : Registry) (externals : Externals) : Offering := fun cls sig =>
  ∃ entry, Offers registry externals cls entry ∧ entry.name = sig.name ∧
    entry.params = sig.params.map some ∧ entry.ret.known? = some sig.ret

/-- All types of all methods in reach of calls are known. -/
def Complete (registry : Registry) (externals : Externals) : Prop :=
  ∀ cls entry, Offers registry externals cls entry →
    ∃ (params : List Ty) (ret : Ty), entry.params = params.map some ∧ entry.ret.known? = some ret

/-- A site whose methods in reach are all known, in a method that returns `ret`. -/
structure Site.Complete (site : Site) (ret : Ty) : Prop where
  offers : Typing.Complete site.registry site.externals
  expected : site.expected = some ret

/-- The methods that calls from a site may go to. -/
abbrev Site.offering (site : Site) : Offering := Typing.offering site.registry site.externals

/-- Locals with their types, all of them known. -/
def Context.locals (Γ : Context) : Locals := Γ.map fun x => (x.1, some x.2)

/-- The locals of a context have the types that it gives them. -/
theorem Context.lookup_locals (Γ : Context) (name : String) :
    Γ.locals.lookup name = (Γ.lookup name).map some := by
  induction Γ with
  | nil => rfl
  | cons x rest ih =>
    obtain ⟨other, t⟩ := x
    simp only [Context.locals, List.map_cons, List.lookup_cons]
    split
    · rfl
    · exact ih

/-! ## Expressions -/

section

variable {offers : Offering} {Γ : Context}

/-- The expression has its type unless there is a fault in it. -/
def Typed.Sound (offers : Offering) (Γ : Context) (typed : Typed) : Prop :=
  typed.found.faults = [] → ∃ t, typed.type = some t ∧ HasTy offers Γ typed.expr t

/-- The expression has its type, which is not `void`, unless there is a fault in it. -/
def Typed.SoundValue (offers : Offering) (Γ : Context) (typed : Typed) : Prop :=
  typed.found.faults = [] → ∃ t, typed.type = some t ∧ t ≠ .void ∧ HasTy offers Γ typed.expr t

/-- A typed expression that is used as a value has one. -/
theorem Typed.Sound.asValue {typed : Typed} (h : typed.Sound offers Γ) :
    typed.asValue.SoundValue offers Γ := by
  intro hfaults
  unfold Typed.asValue at hfaults ⊢
  split at hfaults
  · simp at hfaults
  · rename_i hvoid
    obtain ⟨t, ht, htyped⟩ := h hfaults
    exact ⟨t, ht, fun e => hvoid (ht.trans (congrArg some e)), htyped⟩

theorem typeVar_sound (Γ : Context) (name : Ident) (note : Note) :
    (typeVar Γ.locals name note).Sound offers Γ := by
  intro hfaults
  unfold typeVar at hfaults ⊢
  rw [Context.lookup_locals] at hfaults ⊢
  cases hlocal : Γ.lookup name.name with
  | none => simp [hlocal, Typed.mk'] at hfaults
  | some t => exact ⟨t, rfl, .var rfl hlocal⟩

/-- An element without a fault is typed as the rules say. -/
theorem typeIndex_sound {array position : Typed} (ha : array.SoundValue offers Γ)
    (hp : position.SoundValue offers Γ) (note : Note) :
    (typeIndex array position note).Sound offers Γ := by
  intro hfaults
  unfold typeIndex at hfaults ⊢
  simp only at hfaults ⊢
  -- the findings of the parts are kept in every branch, so none of them holds a fault
  have hparts : array.found.faults = [] ∧ position.found.faults = [] ∧
      (positionFindings position).faults = [] := by
    split at hfaults <;> simp_all [Typed.mk']
  obtain ⟨s, hs, -, harray⟩ := ha hparts.1
  obtain ⟨t, ht, -, hposition⟩ := hp hparts.2.1
  -- a position that is known and not an `Int` is a fault
  have hint : t = .int := by
    have h := hparts.2.2
    unfold positionFindings at h
    rw [ht] at h
    split at h
    · cases ‹some t = none›
    · exact Option.some.inj ‹_›
    · simp at h
  subst hint
  split at hfaults
  · rename_i hnone
    cases hs.symm.trans hnone
  · rename_i element helement
    cases hs.symm.trans helement
    exact ⟨element, rfl, .index rfl harray hposition⟩
  · simp [Typed.mk'] at hfaults

theorem typeLength_sound {value : Typed} (h : value.SoundValue offers Γ) (note : Note) :
    (typeLength value note).Sound offers Γ := by
  intro hfaults
  unfold typeLength at hfaults ⊢
  simp only at hfaults ⊢
  have hpart : value.found.faults = [] := by
    split at hfaults <;> simp_all [Typed.mk']
  obtain ⟨t, ht, -, hvalue⟩ := h hpart
  split at hfaults
  · rename_i hnone
    cases ht.symm.trans hnone
  · rename_i hstring
    cases ht.symm.trans hstring
    exact ⟨.int, rfl, .length rfl hvalue (.inl rfl)⟩
  · rename_i element harray
    cases ht.symm.trans harray
    exact ⟨.int, rfl, .length rfl hvalue (.inr ⟨element, rfl⟩)⟩
  · simp [Typed.mk'] at hfaults

theorem typeUnary_sound {operand : Typed} (h : operand.SoundValue offers Γ) (op : UnaryOp)
    (note : Note) : (typeUnary op operand note).Sound offers Γ := by
  intro hfaults
  unfold typeUnary at hfaults ⊢
  simp only at hfaults ⊢
  have hpart : operand.found.faults = [] := by
    split at hfaults
    · exact hfaults
    · split at hfaults
      · exact hfaults
      · simp [Typed.mk'] at hfaults
  obtain ⟨s, hs, -, hoperand⟩ := h hpart
  simp only [hs] at hfaults ⊢
  cases hop : unaryType? op s with
  | none => simp [hop, Typed.mk'] at hfaults
  | some t => exact ⟨t, rfl, .unary rfl hoperand hop⟩

/-- An operation without a fault is typed as the rules say. -/
theorem typeBinary_sound {left right : Typed} (hl : left.SoundValue offers Γ)
    (hr : right.SoundValue offers Γ) (op : BinaryOp) (note : Note) :
    (typeBinary op left right note).Sound offers Γ := by
  intro hfaults
  unfold typeBinary at hfaults ⊢
  simp only at hfaults ⊢
  have hparts : left.found.faults = [] ∧ right.found.faults = [] := by
    split at hfaults
    · split at hfaults <;> simp_all [Typed.mk']
    · simpa [Typed.mk'] using hfaults
  obtain ⟨s, hs, hsvoid, hleft⟩ := hl hparts.1
  obtain ⟨t, ht, htvoid, hright⟩ := hr hparts.2
  simp only [hs, ht] at hfaults ⊢
  cases hop : binaryType? op s t with
  | none => simp [hop, Typed.mk'] at hfaults
  | some result => exact ⟨result, rfl, .binary rfl hleft hright hsvoid htvoid hop⟩

/-- Arguments in which there is no fault have types, none of them `void`. -/
theorem haveTys_of_sound {args : List Typed} (h : ∀ arg ∈ args, arg.SoundValue offers Γ)
    (hfaults : (args.foldr (fun arg found => arg.found ++ found) ({} : Findings)).faults = []) :
    ∃ ts, args.map Typed.type = ts.map some ∧ HaveTys offers Γ (args.map Typed.expr) ts := by
  induction args with
  | nil => exact ⟨[], rfl, .nil⟩
  | cons arg rest ih =>
    simp only [List.foldr_cons, Findings.faults_append, List.append_eq_nil_iff] at hfaults
    obtain ⟨t, ht, htvoid, harg⟩ := h arg List.mem_cons_self hfaults.1
    obtain ⟨ts, hts, hrest⟩ := ih (fun a ha => h a (List.mem_cons_of_mem _ ha)) hfaults.2
    exact ⟨t :: ts, by simp [ht, hts], .cons harg htvoid hrest⟩

/-- Arguments that are not at fault have the types of the parameters. -/
theorem types_of_argumentFaults {cls method : String} {number : Nat} {params ts : List Ty}
    {args : List Typed} (hlength : params.length = args.length)
    (htypes : args.map Typed.type = ts.map some)
    (h : (argumentFaults cls method number (params.map some) args).faults = []) : ts = params := by
  -- parameters, types and arguments run in step; the number only counts positions for faults
  induction params generalizing number ts args with
  | nil =>
    cases args with
    | nil => simpa using htypes.symm
    | cons arg rest => cases hlength
  | cons expected params ih =>
    cases args with
    | nil => cases hlength
    | cons arg rest =>
      cases ts with
      | nil => cases htypes
      | cons t ts =>
        simp only [List.map_cons, List.cons.injEq] at htypes
        simp only [List.map_cons, argumentFaults, htypes.1] at h
        by_cases heq : expected = t
        · rw [if_pos heq] at h
          rw [heq, ih (Nat.succ.inj hlength) htypes.2 h]
        · simp [heq] at h

/-- A call without a fault has arguments of the types of the parameters. -/
theorem types_of_callFindings {cls : String} {entry : MethodEntry} {params ts : List Ty}
    {args : List Typed} {span : Span} (hparams : entry.params = params.map some)
    (htypes : args.map Typed.type = ts.map some)
    (h : (callFindings cls entry args span).faults = []) : ts = params := by
  unfold callFindings at h
  rw [hparams] at h
  by_cases hlength : (params.map some).length = args.length
  · simp only [if_pos hlength, Findings.faults_append, List.append_nil] at h
    exact types_of_argumentFaults (by simpa using hlength) htypes h
  · rw [if_neg hlength] at h
    cases h

end

section

variable {site : Site} {Γ : Context}

/-- A call without a fault goes to a method on offer. -/
theorem Site.call_sound (hs : Typing.Complete site.registry site.externals) {args : List Typed}
    (hargs : ∀ arg ∈ args, arg.SoundValue site.offering Γ) (receiver : Option Ident)
    (method : Ident) (resolved : Option String) (note : Note) :
    (site.call receiver method args resolved note).Sound site.offering Γ := by
  intro hfaults
  unfold Site.call at hfaults ⊢
  simp only at hfaults ⊢
  split at hfaults
  · simp [Typed.mk'] at hfaults
  · rename_i cls entry htarget
    split at hfaults
    · simp [Typed.mk'] at hfaults
    · rename_i m hm
      obtain ⟨hname, hoffers⟩ := Site.offers_of_target htarget hm
      -- all types in reach are known, so every argument has been compared with its parameter
      obtain ⟨params, ret, hparams, hret⟩ := hs cls m hoffers
      simp only [Typed.mk', Findings.faults_append, List.append_eq_nil_iff] at hfaults
      obtain ⟨ts, hts, htyped⟩ := haveTys_of_sound hargs hfaults.1
      obtain rfl := types_of_callFindings hparams hts hfaults.2
      rw [hret]
      exact ⟨ret, rfl, .call rfl ⟨m, hoffers, hname, hparams, hret⟩ htyped⟩

mutual

/-- An expression without a fault has the type that is found for it. -/
theorem Site.infer_sound (hs : Typing.Complete site.registry site.externals) (Γ : Context) :
    ∀ e, (site.infer Γ.locals e).Sound site.offering Γ
  | .int _ _ => fun _ => ⟨.int, rfl, .int rfl⟩
  | .bool _ _ => fun _ => ⟨.boolean, rfl, .bool rfl⟩
  | .string _ _ => fun _ => ⟨.string, rfl, .string rfl⟩
  | .var name note => typeVar_sound Γ name note
  | .call receiver method args resolved note =>
    Site.call_sound hs (Site.inferValues_sound hs Γ args) receiver method resolved note
  | .index array position note =>
    typeIndex_sound (Site.infer_sound hs Γ array).asValue
      (Site.infer_sound hs Γ position).asValue note
  | .length value note => typeLength_sound (Site.infer_sound hs Γ value).asValue note
  | .unary op operand note => typeUnary_sound (Site.infer_sound hs Γ operand).asValue op note
  | .binary op left right note =>
    typeBinary_sound (Site.infer_sound hs Γ left).asValue (Site.infer_sound hs Γ right).asValue
      op note

theorem Site.inferValues_sound (hs : Typing.Complete site.registry site.externals) (Γ : Context) :
    ∀ es, ∀ typed ∈ site.inferValues Γ.locals es, typed.SoundValue site.offering Γ
  | [], _, h => nomatch h
  | e :: es, typed, h => by
    rcases List.mem_cons.mp h with rfl | h
    · exact (Site.infer_sound hs Γ e).asValue
    · exact Site.inferValues_sound hs Γ es typed h

end

theorem Site.value_sound (hs : Typing.Complete site.registry site.externals) (Γ : Context)
    (e : Expr) : (site.value Γ.locals e).SoundValue site.offering Γ :=
  (Site.infer_sound hs Γ e).asValue

theorem Site.condition_sound (hs : Typing.Complete site.registry site.externals) {e : Expr}
    (h : (site.condition Γ.locals e).found.faults = []) :
    HasTy site.offering Γ (site.condition Γ.locals e).expr .boolean := by
  have hvalue := Site.value_sound hs Γ e
  unfold Site.condition at h ⊢
  simp only at h ⊢
  split at h
  · rename_i hnone
    obtain ⟨t, ht, -⟩ := hvalue h
    cases hnone.symm.trans ht
  · rename_i hbool
    obtain ⟨t, ht, -, htyped⟩ := hvalue h
    cases hbool.symm.trans ht
    exact htyped
  · simp at h

end

/-! ## Statements -/

/-- Assigning a typed value without a fault either meets the type of the local or makes one. -/
theorem assign_sound {Γ : Context} {name : String} {t : Ty} {span : Span}
    (h : (assign Γ.locals name (some t) span).2.faults = []) :
    (Γ.lookup name = some t ∧ (assign Γ.locals name (some t) span).1 = Γ.locals) ∨
      (Γ.lookup name = none ∧
        (assign Γ.locals name (some t) span).1 = Context.locals ((name, t) :: Γ)) := by
  unfold assign at h ⊢
  rw [Context.lookup_locals] at h ⊢
  -- a new local takes the type of the value; an old one keeps its own
  cases hlocal : Γ.lookup name with
  | none => exact .inr ⟨rfl, rfl⟩
  | some s =>
    simp only [hlocal, Option.map_some] at h ⊢
    by_cases heq : s = t
    · rw [if_pos heq, heq]
      exact .inl ⟨rfl, rfl⟩
    · rw [if_neg heq] at h
      cases h

variable {site : Site} {ret : Ty}

theorem Site.returnFindings_sound (hs : site.Complete ret) {t : Ty} {span : Span}
    (h : (site.returnFindings t span).faults = []) : t = ret := by
  unfold Site.returnFindings at h
  rw [hs.expected] at h
  by_cases heq : ret = t
  · exact heq.symm
  · simp [heq] at h

/-- What is typed without a fault is typed by the judgement, from known locals to known locals. -/
def Steps {α : Type} (typed : Context → α → Context → Prop) (Γ : Context)
    (done : α × Locals × Findings) : Prop :=
  done.2.2.faults = [] → ∃ Δ : Context, done.2.1 = Δ.locals ∧ typed Γ done.1 Δ

mutual

/-- A statement without a fault is typed as the rules say, and so are the locals after it. -/
theorem Site.stmt_sound (hs : site.Complete ret) : ∀ (stmt : Stmt) (Γ : Context),
    Steps (StmtHasTy site.offering ret) Γ (site.stmt Γ.locals stmt)
  | .expr value _, Γ, hfaults => by
    obtain ⟨t, -, hvalue⟩ := Site.infer_sound hs.offers Γ value hfaults
    exact ⟨Γ, rfl, .expr hvalue⟩
  | .assign target value _, Γ, hfaults => by
    simp only [Site.stmt, Findings.faults_append, List.append_eq_nil_iff] at hfaults ⊢
    obtain ⟨t, ht, htvoid, hvalue⟩ := Site.value_sound hs.offers Γ value hfaults.1
    rw [ht] at hfaults ⊢
    rcases assign_sound hfaults.2 with ⟨hlocal, hafter⟩ | ⟨hlocal, hafter⟩
    · exact ⟨Γ, hafter, .assign hvalue htvoid hlocal⟩
    · exact ⟨(target.name, t) :: Γ, hafter, .declare hvalue htvoid hlocal⟩
  | .cond chain _, Γ, hfaults => by
    obtain ⟨Δ, hafter, hchain⟩ := Site.chain_sound hs chain Γ hfaults
    exact ⟨Δ, hafter, .cond hchain⟩
  | .loop condition body _, Γ, hfaults => by
    simp only [Site.stmt, Findings.faults_append, List.append_eq_nil_iff] at hfaults
    obtain ⟨Δ, hafter, hbody⟩ := Site.block_sound hs body Γ hfaults.2
    exact ⟨Δ, hafter, .loop (Site.condition_sound hs.offers hfaults.1) hbody⟩
  | .ret (some value) span, Γ, hfaults => by
    simp only [Site.stmt, Findings.faults_append, List.append_eq_nil_iff] at hfaults
    obtain ⟨t, ht, htvoid, hvalue⟩ := Site.value_sound hs.offers Γ value hfaults.1
    simp only [Site.valueFindings, ht] at hfaults
    obtain rfl := Site.returnFindings_sound hs hfaults.2
    exact ⟨Γ, rfl, .ret hvalue htvoid⟩
  | .ret none span, Γ, hfaults =>
    ⟨Γ, rfl, .retVoid (Site.returnFindings_sound hs hfaults).symm⟩
  | .puts value _, Γ, hfaults => by
    obtain ⟨t, -, htvoid, hvalue⟩ := Site.value_sound hs.offers Γ value hfaults
    exact ⟨Γ, rfl, .puts hvalue htvoid⟩
  | .raise value _, Γ, hfaults => by
    obtain ⟨t, -, htvoid, hvalue⟩ := Site.value_sound hs.offers Γ value hfaults
    exact ⟨Γ, rfl, .raise hvalue htvoid⟩

theorem Site.block_sound (hs : site.Complete ret) : ∀ (block : Block) (Γ : Context),
    Steps (BlockHasTy site.offering ret) Γ (site.block Γ.locals block)
  | .mk stmts _, Γ, hfaults => by
    obtain ⟨Δ, hafter, hstmts⟩ := Site.stmts_sound hs stmts Γ hfaults
    exact ⟨Δ, hafter, .mk hstmts⟩

theorem Site.stmts_sound (hs : site.Complete ret) : ∀ (stmts : List Stmt) (Γ : Context),
    Steps (StmtsHaveTy site.offering ret) Γ (site.stmts Γ.locals stmts)
  | [], Γ, _ => ⟨Γ, rfl, .nil⟩
  | stmt :: rest, Γ, hfaults => by
    simp only [Site.stmts, Findings.faults_append, List.append_eq_nil_iff] at hfaults ⊢
    obtain ⟨Δ, hafter, hstmt⟩ := Site.stmt_sound hs stmt Γ hfaults.1
    rw [hafter] at hfaults ⊢
    obtain ⟨Θ, hlast, hrest⟩ := Site.stmts_sound hs rest Δ hfaults.2
    exact ⟨Θ, hlast, .cons hstmt hrest⟩

theorem Site.chain_sound (hs : site.Complete ret) : ∀ (chain : Chain) (Γ : Context),
    Steps (ChainHasTy site.offering ret) Γ (site.chain Γ.locals chain)
  | .done, Γ, _ => ⟨Γ, rfl, .done⟩
  | .otherwise body, Γ, hfaults => by
    obtain ⟨Δ, hafter, hbody⟩ := Site.block_sound hs body Γ hfaults
    exact ⟨Δ, hafter, .otherwise hbody⟩
  | .branch condition body rest, Γ, hfaults => by
    simp only [Site.chain, Findings.faults_append, List.append_eq_nil_iff] at hfaults ⊢
    obtain ⟨⟨hcondition, hbody⟩, hrest⟩ := hfaults
    obtain ⟨Δ, hafter, htyped⟩ := Site.block_sound hs body Γ hbody
    rw [hafter] at hrest ⊢
    obtain ⟨Θ, hlast, hothers⟩ := Site.chain_sound hs rest Δ hrest
    exact ⟨Θ, hlast, .branch (Site.condition_sound hs.offers hcondition) htyped hothers⟩

end

/-! ## Bodies -/

mutual

/-- Typing does not change whether a statement leaves its method. -/
theorem Site.exits_stmt (site : Site) : ∀ (locals : Locals) (stmt : Stmt),
    (site.stmt locals stmt).1.exits = stmt.exits
  | _, .expr _ _ => rfl
  | _, .assign _ _ _ => rfl
  | locals, .cond chain _ => Site.exits_chain site locals chain
  | _, .loop _ _ _ => rfl
  | _, .ret (some _) _ => rfl
  | _, .ret none _ => rfl
  | _, .puts _ _ => rfl
  | _, .raise _ _ => rfl

theorem Site.exits_block (site : Site) : ∀ (locals : Locals) (block : Block),
    (site.block locals block).1.exits = block.exits
  | locals, .mk stmts _ => Site.exits_stmts site locals stmts

theorem Site.exits_stmts (site : Site) : ∀ (locals : Locals) (stmts : List Stmt),
    anyExits (site.stmts locals stmts).1 = anyExits stmts
  | _, [] => rfl
  | locals, stmt :: rest => by
    simp only [Site.stmts, anyExits, Site.exits_stmt, Site.exits_stmts site _ rest]

theorem Site.exits_chain (site : Site) : ∀ (locals : Locals) (chain : Chain),
    (site.chain locals chain).1.exits = chain.exits
  | _, .done => rfl
  | locals, .otherwise body => Site.exits_block site locals body
  | locals, .branch _ body rest => by
    simp only [Site.chain, Chain.exits, Site.exits_block, Site.exits_chain site _ rest]

end

theorem isExpr_stmt (site : Site) (locals : Locals) (stmt : Stmt) :
    isExpr (site.stmt locals stmt).1 = isExpr stmt := by
  fun_cases Site.stmt site locals stmt <;> rfl

theorem endsWithExpr_mk (stmts : List Stmt) (span : Span) :
    (Block.mk stmts span).endsWithExpr = (stmts.getLast?.map isExpr).getD false := by
  unfold Block.endsWithExpr
  simp only [Block.stmts]
  cases stmts.getLast? with
  | none => rfl
  | some stmt => cases stmt <;> rfl

/-- The statements of a body, typed: as many as before, which exit where they did, with a bare
expression at the end if there was one. -/
theorem Site.shape_bodyStmts (site : Site) (locals : Locals) (stmts : List Stmt) :
    (site.bodyStmts locals stmts).1.isEmpty = stmts.isEmpty ∧
      anyExits (site.bodyStmts locals stmts).1 = anyExits stmts ∧
      (site.bodyStmts locals stmts).1.getLast?.map isExpr = stmts.getLast?.map isExpr := by
  fun_induction Site.bodyStmts site locals stmts with
  | case1 => exact ⟨rfl, rfl, rfl⟩
  | case2 locals value span typed => exact ⟨rfl, rfl, rfl⟩
  | case3 locals stmt rest _ stmt' after found hstmt rest' more hrest ih =>
    rw [hrest] at ih
    obtain ⟨hempty, hexits, hlast⟩ := ih
    have hstmt' : stmt' = (site.stmt locals stmt).1 := by rw [hstmt]
    refine ⟨rfl, ?_, ?_⟩
    · simp only [anyExits, hexits, hstmt', Site.exits_stmt]
    · simp only [List.getLast?_cons]
      -- the last statement is this one only if nothing follows it, before and after typing alike
      cases rest with
      | nil =>
        cases List.isEmpty_iff.mp hempty
        simp [hstmt', isExpr_stmt]
      | cons next rest =>
        cases rest' with
        | nil => cases hempty
        | cons next' rest' =>
          simp only [List.getLast?_cons, Option.map_some, Option.some.injEq] at hlast
          simpa [List.getLast?_cons] using hlast

/-- A value at the end of a body is one that its method may return. -/
theorem Site.implicitReturn_sound (hs : site.Complete ret) {typed : Typed} {t : Ty}
    (ht : typed.type = some t) (h : (site.implicitReturn typed).faults = []) :
    ret = .void ∨ t = ret := by
  unfold Site.implicitReturn at h
  rw [hs.expected, ht] at h
  -- both types are known, which leaves the second and the fourth case
  split at h
  · rename_i hnone _
    cases hnone
  · rename_i hvoid
    exact .inl (Option.some.inj hvoid)
  · rename_i hnone _
    cases hnone
  · rename_i expected found _ hexpected hfound
    cases hexpected
    cases hfound
    by_cases heq : ret = t
    · exact .inr heq.symm
    · rw [if_neg heq] at h
      cases h

/-- A body without a fault is typed as the rules say. -/
theorem Site.bodyStmts_sound (hs : site.Complete ret) (Γ : Context) (stmts : List Stmt)
    (h : (site.bodyStmts Γ.locals stmts).2.faults = []) :
    ∃ Δ, BodyHasTy site.offering ret Γ (site.bodyStmts Γ.locals stmts).1 Δ := by
  -- the induction is on the statements; the locals change from one to the next, and with them
  -- the context
  generalize hlocals : Γ.locals = locals at h ⊢
  fun_induction Site.bodyStmts site locals stmts generalizing Γ with
  | case1 => exact ⟨Γ, .nil⟩
  | case2 locals value span typed =>
    subst hlocals
    rw [Findings.faults_append, List.append_eq_nil_iff] at h
    obtain ⟨t, ht, hvalue⟩ := Site.infer_sound hs.offers Γ value h.1
    exact ⟨Γ, .value hvalue (Site.implicitReturn_sound hs ht h.2)⟩
  | case3 locals stmt rest hexpr stmt' after found hstmt rest' more hrest ih =>
    subst hlocals
    rw [Findings.faults_append, List.append_eq_nil_iff] at h
    have hsound := Site.stmt_sound hs stmt Γ
    rw [hstmt] at hsound
    obtain ⟨Δ, hafter, htyped⟩ := hsound h.1
    rw [hrest] at ih
    obtain ⟨Θ, hbody⟩ := ih Δ hafter.symm h.2
    refine ⟨Θ, .cons (fun hisExpr hnil => ?_) htyped hbody⟩
    -- the last statement is not a bare expression, for that is the case before
    have hshape := (Site.shape_bodyStmts site after rest).1
    simp only [hrest, hnil, List.isEmpty_nil] at hshape
    have hstmt' : stmt' = (site.stmt Γ.locals stmt).1 := by rw [hstmt]
    rw [hstmt', isExpr_stmt] at hisExpr
    cases stmt with
    | expr value span => exact hexpr value span rfl (List.isEmpty_iff.mp hshape.symm)
    | _ => cases hisExpr

theorem Context.locals_startContext (m : Method) (types : List Ty) :
    paramLocals m.params (types.map some) = (startContext m types).locals := by
  unfold paramLocals startContext Context.locals
  rw [List.map_reverse, List.zip_map_right]
  congr 1

/-- A body without a fault cannot end without the value that is owed. -/
theorem Site.missingReturn_sound (hs : site.Complete ret) {m : Method}
    (h : (site.missingReturn m).faults = []) :
    ret = .void ∨ m.body.endsWithExpr = true ∨ m.body.exits = true := by
  unfold Site.missingReturn at h
  rw [hs.expected] at h
  by_cases hvoid : ret.isVoid = true
  · exact .inl (Ty.isVoid_iff.mp hvoid)
  · by_cases hends : m.body.endsWithExpr = true
    · exact .inr (.inl hends)
    · by_cases hexits : m.body.exits = true
      · exact .inr (.inr hexits)
      · simp [hvoid, hends, hexits] at h

/-- A body without a fault is typed, and it does not end without the value it owes. -/
theorem Site.body_sound (hs : site.Complete ret) (m : Method) (types : List Ty)
    (h : (site.body m (types.map some)).2.faults = []) :
    (∃ Δ, BodyHasTy site.offering ret (startContext m types)
      (site.body m (types.map some)).1.stmts Δ) ∧
    (ret = .void ∨ (site.body m (types.map some)).1.endsWithExpr = true ∨
      (site.body m (types.map some)).1.exits = true) := by
  unfold Site.body at h ⊢
  rw [Context.locals_startContext] at h ⊢
  simp only [Findings.faults_append, List.append_eq_nil_iff] at h ⊢
  -- the check for a missing return looks at the body as written, the judgement at the typed one
  obtain ⟨-, hexits, hlast⟩ :=
    Site.shape_bodyStmts site (startContext m types).locals m.body.stmts
  refine ⟨Site.bodyStmts_sound hs _ _ h.2, ?_⟩
  rw [endsWithExpr_mk, hlast, Block.exits, hexits]
  have hbody : m.body = .mk m.body.stmts m.body.span := by cases m.body; rfl
  have hmissing := Site.missingReturn_sound hs h.1
  rw [hbody, endsWithExpr_mk, Block.exits] at hmissing
  exact hmissing

end StackScript.Typing

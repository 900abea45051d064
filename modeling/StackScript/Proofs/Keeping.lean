import StackScript.Proofs.RetypingBodies

/-!
# Typing that keeps reads no annotations

Of the site that typing carries along, nothing changes but where it looks for the class of a call
(`Site.bodyKeeping_keeps`), and that depends on the names that calls are written with, and on
nothing that is written into a tree. So typing a tree and its bare form go in step (`InStep`): they
come to the same site and find the same, and where no fault is found, they come to the same tree.
What typing writes are types and targets, whatever is on record by then.
-/

namespace StackScript.Typing

open StackScript.Source StackScript.Syntax

/-! ## The site after typing -/

section

variable {P : Site → Prop}

mutual

/-- What looking for classes leaves true of a site, typing an expression leaves true of it. -/
theorem Site.inferKeeping_keeps
    (h : ∀ site receiver method, P site → P (Site.seek site receiver method).2) (locals : Locals) :
    ∀ (e : Expr) (site : Site), P site → P (Site.inferKeeping locals e site).2
  | .int _ _, _, hsite => hsite
  | .bool _ _, _, hsite => hsite
  | .string _ _, _, hsite => hsite
  | .var _ _, _, hsite => hsite
  | .call receiver method args _ _, site, hsite =>
    Site.valuesKeeping_keeps h locals args _ (h site receiver method hsite)
  | .index array position _, site, hsite =>
    Site.inferKeeping_keeps h locals position _ (Site.inferKeeping_keeps h locals array site hsite)
  | .length value _, site, hsite => Site.inferKeeping_keeps h locals value site hsite
  | .unary _ operand _, site, hsite => Site.inferKeeping_keeps h locals operand site hsite
  | .binary _ left right _, site, hsite =>
    Site.inferKeeping_keeps h locals right _ (Site.inferKeeping_keeps h locals left site hsite)

theorem Site.valuesKeeping_keeps
    (h : ∀ site receiver method, P site → P (Site.seek site receiver method).2) (locals : Locals) :
    ∀ (es : List Expr) (site : Site), P site → P (Site.valuesKeeping locals es site).2
  | [], _, hsite => hsite
  | e :: es, site, hsite =>
    Site.valuesKeeping_keeps h locals es _ (Site.inferKeeping_keeps h locals e site hsite)

end

mutual

/-- What looking for classes leaves true of a site, typing a statement leaves true of it. -/
theorem Site.stmtKeeping_keeps
    (h : ∀ site receiver method, P site → P (Site.seek site receiver method).2) :
    ∀ (stmt : Stmt) (locals : Locals) (site : Site), P site →
      P (Site.stmtKeeping locals stmt site).2
  | .expr value _, locals, site, hsite => Site.inferKeeping_keeps h locals value site hsite
  | .assign _ value _, locals, site, hsite => Site.inferKeeping_keeps h locals value site hsite
  | .cond chain _, locals, site, hsite => Site.chainKeeping_keeps h chain locals site hsite
  | .loop condition body _, locals, site, hsite =>
    Site.blockKeeping_keeps h body locals _ (Site.inferKeeping_keeps h locals condition site hsite)
  | .ret (some value) _, locals, site, hsite => Site.inferKeeping_keeps h locals value site hsite
  | .ret none _, _, _, hsite => hsite
  | .puts value _, locals, site, hsite => Site.inferKeeping_keeps h locals value site hsite
  | .raise value _, locals, site, hsite => Site.inferKeeping_keeps h locals value site hsite

theorem Site.blockKeeping_keeps
    (h : ∀ site receiver method, P site → P (Site.seek site receiver method).2) :
    ∀ (block : Block) (locals : Locals) (site : Site), P site →
      P (Site.blockKeeping locals block site).2
  | .mk stmts _, locals, site, hsite => Site.stmtsKeeping_keeps h stmts locals site hsite

theorem Site.stmtsKeeping_keeps
    (h : ∀ site receiver method, P site → P (Site.seek site receiver method).2) :
    ∀ (stmts : List Stmt) (locals : Locals) (site : Site), P site →
      P (Site.stmtsKeeping locals stmts site).2
  | [], _, _, hsite => hsite
  | stmt :: rest, locals, site, hsite =>
    Site.stmtsKeeping_keeps h rest _ _ (Site.stmtKeeping_keeps h stmt locals site hsite)

theorem Site.chainKeeping_keeps
    (h : ∀ site receiver method, P site → P (Site.seek site receiver method).2) :
    ∀ (chain : Chain) (locals : Locals) (site : Site), P site →
      P (Site.chainKeeping locals chain site).2
  | .done, _, _, hsite => hsite
  | .otherwise body, locals, site, hsite => Site.blockKeeping_keeps h body locals site hsite
  | .branch condition body rest, locals, site, hsite =>
    Site.chainKeeping_keeps h rest _ _ (Site.blockKeeping_keeps h body locals _
      (Site.inferKeeping_keeps h locals condition site hsite))

end

end

/-! ## Expressions -/

/-- The type that is written into an expression is an annotation. -/
theorem Typed.bare_mk' (e : Expr) (type : Option Ty) (found : Findings) :
    (Typed.mk' e type found).expr.relabel bare = e.relabel bare := Expr.bare_setType e type

/-- A call is typed with nothing but a type and a target written into it. -/
theorem typeCall_bare (target : Except (TypeFault × Span) (String × Option MethodEntry))
    (receiver : Option Ident) (method : Ident) (args : List Typed) (resolved : Option String)
    (note : Note) :
    (typeCall target receiver method args resolved note).expr.relabel bare =
      (Expr.call receiver method (args.map Typed.expr) resolved note).relabel bare := by
  unfold typeCall
  simp only
  split
  · rw [Typed.bare_mk']
  · rw [Typed.bare_mk']
  · rw [Typed.bare_mk']
    rfl

mutual

/-- Typing an expression writes only types and targets. -/
theorem Site.bare_inferKeeping (locals : Locals) : ∀ (e : Expr) (site : Site),
    (Site.inferKeeping locals e site).1.expr.relabel bare = e.relabel bare
  | .int _ _, _ => rfl
  | .bool _ _, _ => rfl
  | .string _ _, _ => rfl
  | .var name note, _ => by rw [Site.inferKeeping, typeVar_expr, Expr.bare_setType]
  | .call receiver method args resolved note, site => by
    rw [Site.inferKeeping, typeCall_bare, Expr.relabel, Expr.relabel,
      Site.bare_valuesKeeping locals args]
  | .index array position note, site => by
    rw [Site.inferKeeping, typeIndex_expr, Expr.bare_setType, Expr.relabel, Expr.relabel,
      Typed.expr_asValue, Typed.expr_asValue, Site.bare_inferKeeping locals array,
      Site.bare_inferKeeping locals position]
  | .length value note, site => by
    rw [Site.inferKeeping, typeLength_expr, Expr.bare_setType, Expr.relabel, Expr.relabel,
      Typed.expr_asValue, Site.bare_inferKeeping locals value]
  | .unary op operand note, site => by
    rw [Site.inferKeeping, typeUnary_expr, Expr.bare_setType, Expr.relabel, Expr.relabel,
      Typed.expr_asValue, Site.bare_inferKeeping locals operand]
  | .binary op left right note, site => by
    rw [Site.inferKeeping, typeBinary_expr, Expr.bare_setType, Expr.relabel, Expr.relabel,
      Typed.expr_asValue, Typed.expr_asValue, Site.bare_inferKeeping locals left,
      Site.bare_inferKeeping locals right]

theorem Site.bare_valuesKeeping (locals : Locals) : ∀ (es : List Expr) (site : Site),
    relabelExprs bare ((Site.valuesKeeping locals es site).1.map Typed.expr) = relabelExprs bare es
  | [], _ => rfl
  | e :: es, site => by
    rw [Site.valuesKeeping, List.map_cons, relabelExprs, relabelExprs, Typed.expr_asValue,
      Site.bare_inferKeeping locals e, Site.bare_valuesKeeping locals es]

end

/-- Two typings of expressions find the same and come to the same site. -/
structure InStep (typed other : Typed × Site) : Prop where
  alike : typed.1.Alike other.1
  site : typed.2 = other.2

namespace InStep

theorem refl (typed : Typed × Site) : InStep typed typed := ⟨.refl _, rfl⟩

variable {typed other : Typed × Site}

theorem asValue (h : InStep typed other) :
    InStep (typed.1.asValue, typed.2) (other.1.asValue, other.2) := ⟨h.alike.asValue, h.site⟩

end InStep

mutual

/-- An expression is typed in step with its bare form. -/
theorem Site.inferKeeping_bare (locals : Locals) : ∀ (e : Expr) (site : Site),
    InStep (Site.inferKeeping locals e site) (Site.inferKeeping locals (e.relabel bare) site)
  | .int _ _, _ => .refl _
  | .bool _ _, _ => .refl _
  | .string _ _, _ => .refl _
  | .var name note, site => by
    rw [Expr.relabel, Site.inferKeeping, Site.inferKeeping, Note.relabel]
    exact ⟨(typeVar_note name note none).symm ▸ .refl _, rfl⟩
  | .call receiver method args resolved note, site => by
    obtain ⟨hargs, hsite⟩ := Site.valuesKeeping_bare locals args (site.seek receiver method).2
    rw [Expr.relabel, Site.inferKeeping, Site.inferKeeping, map_relabel_bare]
    refine ⟨?_, hsite⟩
    have hnote := typeCall_note (Site.reached
      (Site.valuesKeeping locals (relabelExprs bare args) (site.seek receiver method).2).2 method
        (site.seek receiver method).1) receiver method
      (Site.valuesKeeping locals (relabelExprs bare args) (site.seek receiver method).2).1
      none note none
    simp only [hsite]
    exact hnote.symm ▸ typeCall_alike hargs _ receiver method resolved note
  | .index array position note, site => by
    have harray := Site.inferKeeping_bare locals array site
    have hposition := Site.inferKeeping_bare locals position (Site.inferKeeping locals array site).2
    rw [harray.site] at hposition
    simp only [Expr.relabel, Site.inferKeeping, harray.site]
    exact ⟨(typeIndex_note _ _ note none).symm ▸
      typeIndex_alike harray.alike.asValue hposition.alike.asValue note, hposition.site⟩
  | .length value note, site => by
    have h := Site.inferKeeping_bare locals value site
    simp only [Expr.relabel, Site.inferKeeping]
    exact ⟨(typeLength_note _ note none).symm ▸ typeLength_alike h.alike.asValue note, h.site⟩
  | .unary op operand note, site => by
    have h := Site.inferKeeping_bare locals operand site
    simp only [Expr.relabel, Site.inferKeeping]
    exact ⟨(typeUnary_note op _ note none).symm ▸ typeUnary_alike h.alike.asValue op note, h.site⟩
  | .binary op left right note, site => by
    have hleft := Site.inferKeeping_bare locals left site
    have hright := Site.inferKeeping_bare locals right (Site.inferKeeping locals left site).2
    rw [hleft.site] at hright
    simp only [Expr.relabel, Site.inferKeeping, hleft.site]
    exact ⟨(typeBinary_note op _ _ note none).symm ▸
      typeBinary_alike hleft.alike.asValue hright.alike.asValue op note, hright.site⟩

theorem Site.valuesKeeping_bare (locals : Locals) : ∀ (es : List Expr) (site : Site),
    List.Forall₂ Typed.Alike (Site.valuesKeeping locals es site).1
        (Site.valuesKeeping locals (relabelExprs bare es) site).1 ∧
      (Site.valuesKeeping locals es site).2 =
        (Site.valuesKeeping locals (relabelExprs bare es) site).2
  | [], _ => ⟨.nil, rfl⟩
  | e :: es, site => by
    have h := Site.inferKeeping_bare locals e site
    have hrest := Site.valuesKeeping_bare locals es (Site.inferKeeping locals e site).2
    rw [h.site] at hrest
    simp only [relabelExprs, Site.valuesKeeping, h.site]
    exact ⟨.cons h.alike.asValue hrest.1, hrest.2⟩

end

theorem Site.valueKeeping_bare (locals : Locals) (e : Expr) (site : Site) :
    InStep (Site.valueKeeping locals e site) (Site.valueKeeping locals (e.relabel bare) site) :=
  (Site.inferKeeping_bare locals e site).asValue

theorem Typed.expr_asCondition (typed : Typed) : typed.asCondition.expr = typed.expr := by
  unfold Typed.asCondition
  split <;> rfl

/-- Conditions that are typed alike stay alike. -/
theorem Typed.Alike.asCondition {typed other : Typed} (h : typed.Alike other) :
    typed.asCondition.Alike other.asCondition := by
  unfold Typed.asCondition
  rw [h.type]
  split
  · exact h
  · exact h
  · refine ⟨rfl, ?_, h.span, fun hfaults => ?_⟩
    · rw [h.found, h.span]
    · simp at hfaults

theorem Site.conditionKeeping_bare (locals : Locals) (e : Expr) (site : Site) :
    InStep (Site.conditionKeeping locals e site)
      (Site.conditionKeeping locals (e.relabel bare) site) := by
  have h := Site.valueKeeping_bare locals e site
  exact ⟨h.alike.asCondition, h.site⟩

theorem Site.expr_valueKeeping (locals : Locals) (e : Expr) (site : Site) :
    (Site.valueKeeping locals e site).1.expr = (Site.inferKeeping locals e site).1.expr :=
  Typed.expr_asValue _

theorem Site.expr_conditionKeeping (locals : Locals) (e : Expr) (site : Site) :
    (Site.conditionKeeping locals e site).1.expr = (Site.inferKeeping locals e site).1.expr := by
  rw [Site.conditionKeeping, Typed.expr_asCondition, Site.expr_valueKeeping]

/-! ## Statements -/

mutual

/-- Typing a statement writes only types and targets. -/
theorem Site.bare_stmtKeeping : ∀ (stmt : Stmt) (locals : Locals) (site : Site),
    (Site.stmtKeeping locals stmt site).1.1.relabel bare = stmt.relabel bare
  | .expr value span, locals, site => by
    rw [Site.stmtKeeping, Stmt.relabel, Stmt.relabel, Site.bare_inferKeeping]
  | .assign target value span, locals, site => by
    rw [Site.stmtKeeping, Stmt.relabel, Stmt.relabel, Site.expr_valueKeeping,
      Site.bare_inferKeeping]
  | .cond chain span, locals, site => by
    rw [Site.stmtKeeping, Stmt.relabel, Stmt.relabel, Site.bare_chainKeeping chain]
  | .loop condition body span, locals, site => by
    rw [Site.stmtKeeping, Stmt.relabel, Stmt.relabel, Site.expr_conditionKeeping,
      Site.bare_inferKeeping, Site.bare_blockKeeping body]
  | .ret (some value) span, locals, site => by
    rw [Site.stmtKeeping, Stmt.relabel, Stmt.relabel, Site.expr_valueKeeping,
      Site.bare_inferKeeping]
  | .ret none span, locals, site => rfl
  | .puts value span, locals, site => by
    rw [Site.stmtKeeping, Stmt.relabel, Stmt.relabel, Site.expr_valueKeeping,
      Site.bare_inferKeeping]
  | .raise value span, locals, site => by
    rw [Site.stmtKeeping, Stmt.relabel, Stmt.relabel, Site.expr_valueKeeping,
      Site.bare_inferKeeping]

theorem Site.bare_blockKeeping : ∀ (block : Block) (locals : Locals) (site : Site),
    (Site.blockKeeping locals block site).1.1.relabel bare = block.relabel bare
  | .mk stmts span, locals, site => by
    rw [Site.blockKeeping, Block.relabel, Block.relabel, Site.bare_stmtsKeeping stmts]

theorem Site.bare_stmtsKeeping : ∀ (stmts : List Stmt) (locals : Locals) (site : Site),
    relabelStmts bare (Site.stmtsKeeping locals stmts site).1.1 = relabelStmts bare stmts
  | [], _, _ => rfl
  | stmt :: rest, locals, site => by
    rw [Site.stmtsKeeping, relabelStmts, relabelStmts, Site.bare_stmtKeeping stmt,
      Site.bare_stmtsKeeping rest]

theorem Site.bare_chainKeeping : ∀ (chain : Chain) (locals : Locals) (site : Site),
    (Site.chainKeeping locals chain site).1.1.relabel bare = chain.relabel bare
  | .done, _, _ => rfl
  | .otherwise body, locals, site => by
    rw [Site.chainKeeping, Chain.relabel, Chain.relabel, Site.bare_blockKeeping body]
  | .branch condition body rest, locals, site => by
    rw [Site.chainKeeping, Chain.relabel, Chain.relabel, Site.expr_conditionKeeping,
      Site.bare_inferKeeping, Site.bare_blockKeeping body, Site.bare_chainKeeping rest]

end

/-- Two typings of statements agree and come to the same site. -/
structure StmtsInStep {α : Type} (result other : (α × Locals × Findings) × Site) : Prop where
  agree : Agree result.1 other.1
  site : result.2 = other.2

mutual

/-- A statement is typed in step with its bare form. -/
theorem Site.stmtKeeping_bare : ∀ (stmt : Stmt) (locals : Locals) (site : Site),
    StmtsInStep (Site.stmtKeeping locals stmt site)
      (Site.stmtKeeping locals (stmt.relabel bare) site)
  | .expr value span, locals, site => by
    obtain ⟨h, hsite⟩ := Site.inferKeeping_bare locals value site
    simp only [Stmt.relabel, Site.stmtKeeping]
    exact ⟨⟨rfl, h.found, fun hfaults => by rw [h.expr hfaults]; rfl⟩, hsite⟩
  | .assign target value span, locals, site => by
    obtain ⟨h, hsite⟩ := Site.valueKeeping_bare locals value site
    have htarget : target.relabel bare = target := rfl
    simp only [Stmt.relabel, Site.stmtKeeping, htarget, h.type, h.span, h.found]
    refine ⟨⟨rfl, rfl, fun hfaults => ?_⟩, hsite⟩
    rw [Findings.faults_append, List.append_eq_nil_iff] at hfaults
    rw [h.expr hfaults.1]
    rfl
  | .cond chain span, locals, site => by
    obtain ⟨h, hsite⟩ := Site.chainKeeping_bare chain locals site
    simp only [Stmt.relabel, Site.stmtKeeping]
    exact ⟨⟨h.locals, h.found, fun hfaults => by rw [h.made hfaults]; rfl⟩, hsite⟩
  | .loop condition body span, locals, site => by
    obtain ⟨h, hcondition⟩ := Site.conditionKeeping_bare locals condition site
    have hbody := Site.blockKeeping_bare body locals
      (Site.conditionKeeping locals condition site).2
    rw [hcondition] at hbody
    simp only [Stmt.relabel, Site.stmtKeeping, hcondition, h.found, hbody.agree.found]
    refine ⟨⟨hbody.agree.locals, rfl, fun hfaults => ?_⟩, hbody.site⟩
    rw [Findings.faults_append, List.append_eq_nil_iff] at hfaults
    rw [h.expr hfaults.1, hbody.agree.made hfaults.2]
    rfl
  | .ret (some value) span, locals, site => by
    obtain ⟨h, hsite⟩ := Site.valueKeeping_bare locals value site
    simp only [Stmt.relabel, Site.stmtKeeping, Site.valueFindings, hsite, h.type, h.found]
    refine ⟨⟨rfl, rfl, fun hfaults => ?_⟩, rfl⟩
    rw [Findings.faults_append, List.append_eq_nil_iff] at hfaults
    rw [h.expr hfaults.1]
    rfl
  | .ret none span, locals, site => ⟨⟨rfl, rfl, fun _ => rfl⟩, rfl⟩
  | .puts value span, locals, site => by
    obtain ⟨h, hsite⟩ := Site.valueKeeping_bare locals value site
    simp only [Stmt.relabel, Site.stmtKeeping]
    exact ⟨⟨rfl, h.found, fun hfaults => by rw [h.expr hfaults]; rfl⟩, hsite⟩
  | .raise value span, locals, site => by
    obtain ⟨h, hsite⟩ := Site.valueKeeping_bare locals value site
    simp only [Stmt.relabel, Site.stmtKeeping]
    exact ⟨⟨rfl, h.found, fun hfaults => by rw [h.expr hfaults]; rfl⟩, hsite⟩

theorem Site.blockKeeping_bare : ∀ (block : Block) (locals : Locals) (site : Site),
    StmtsInStep (Site.blockKeeping locals block site)
      (Site.blockKeeping locals (block.relabel bare) site)
  | .mk stmts span, locals, site => by
    obtain ⟨h, hsite⟩ := Site.stmtsKeeping_bare stmts locals site
    simp only [Block.relabel, Site.blockKeeping]
    exact ⟨⟨h.locals, h.found, fun hfaults => by rw [h.made hfaults]; rfl⟩, hsite⟩

theorem Site.stmtsKeeping_bare : ∀ (stmts : List Stmt) (locals : Locals) (site : Site),
    StmtsInStep (Site.stmtsKeeping locals stmts site)
      (Site.stmtsKeeping locals (relabelStmts bare stmts) site)
  | [], locals, site => ⟨⟨rfl, rfl, fun _ => rfl⟩, rfl⟩
  | stmt :: rest, locals, site => by
    obtain ⟨h, hsite⟩ := Site.stmtKeeping_bare stmt locals site
    have hrest := Site.stmtsKeeping_bare rest (Site.stmtKeeping locals stmt site).1.2.1
      (Site.stmtKeeping locals stmt site).2
    rw [h.locals, hsite] at hrest
    simp only [relabelStmts, Site.stmtsKeeping, h.locals, hsite, h.found]
    refine ⟨⟨hrest.agree.locals, by rw [hrest.agree.found], fun hfaults => ?_⟩, hrest.site⟩
    rw [Findings.faults_append, List.append_eq_nil_iff] at hfaults
    rw [h.made hfaults.1, hrest.agree.made hfaults.2]

theorem Site.chainKeeping_bare : ∀ (chain : Chain) (locals : Locals) (site : Site),
    StmtsInStep (Site.chainKeeping locals chain site)
      (Site.chainKeeping locals (chain.relabel bare) site)
  | .done, locals, site => ⟨⟨rfl, rfl, fun _ => rfl⟩, rfl⟩
  | .otherwise body, locals, site => by
    obtain ⟨h, hsite⟩ := Site.blockKeeping_bare body locals site
    simp only [Chain.relabel, Site.chainKeeping]
    exact ⟨⟨h.locals, h.found, fun hfaults => by rw [h.made hfaults]⟩, hsite⟩
  | .branch condition body rest, locals, site => by
    obtain ⟨h, hcondition⟩ := Site.conditionKeeping_bare locals condition site
    obtain ⟨hbody, hsite⟩ := Site.blockKeeping_bare body locals
      (Site.conditionKeeping locals condition site).2
    have hrest := Site.chainKeeping_bare rest
      (Site.blockKeeping locals body (Site.conditionKeeping locals condition site).2).1.2.1
      (Site.blockKeeping locals body (Site.conditionKeeping locals condition site).2).2
    rw [hbody.locals, hsite, hcondition] at hrest
    rw [hcondition] at hbody hsite
    simp only [Chain.relabel, Site.chainKeeping, hcondition, h.found, hbody.locals, hbody.found,
      hsite]
    refine ⟨⟨hrest.agree.locals, by rw [hrest.agree.found], fun hfaults => ?_⟩, hrest.site⟩
    simp only [Findings.faults_append, List.append_eq_nil_iff] at hfaults
    rw [h.expr hfaults.1.1, hbody.made hfaults.1.2, hrest.agree.made hfaults.2]

end

/-! ## Bodies -/

/-- A statement that is no bare expression at the end of a body is typed like all others. -/
theorem Site.bodyStmtsKeeping_cons (locals : Locals) {stmt : Stmt} {rest : List Stmt}
    (h : isExpr stmt = true → rest ≠ []) (site : Site) :
    Site.bodyStmtsKeeping locals (stmt :: rest) site =
      let made := Site.stmtKeeping locals stmt site
      let more := Site.bodyStmtsKeeping made.1.2.1 rest made.2
      ((made.1.1 :: more.1.1, made.1.2.2 ++ more.1.2), more.2) := by
  rw [Site.bodyStmtsKeeping]
  rintro value span rfl rfl
  exact h rfl rfl

/-- What looking for classes leaves true of a site, typing a body leaves true of it. -/
theorem Site.bodyKeeping_keeps {P : Site → Prop}
    (h : ∀ site receiver method, P site → P (Site.seek site receiver method).2) (m : Method)
    (types : List (Option Ty)) {site : Site} (hsite : P site) : P (site.bodyKeeping m types).2 := by
  have hstmts : ∀ (stmts : List Stmt) (locals : Locals) (site : Site), P site →
      P (Site.bodyStmtsKeeping locals stmts site).2 := by
    intro stmts
    induction stmts with
    | nil => exact fun _ _ hsite => hsite
    | cons stmt rest ih =>
      intro locals site hsite
      rcases isLast_cases stmt rest with hlast | ⟨value, span, rfl, rfl⟩
      · rw [Site.bodyStmtsKeeping_cons locals hlast]
        exact ih _ _ (Site.stmtKeeping_keeps h stmt locals site hsite)
      · exact Site.inferKeeping_keeps h locals value site hsite
  exact hstmts m.body.stmts _ site hsite

theorem Site.bare_bodyStmtsKeeping (locals : Locals) (stmts : List Stmt) (site : Site) :
    relabelStmts bare (Site.bodyStmtsKeeping locals stmts site).1.1 = relabelStmts bare stmts := by
  induction stmts generalizing locals site with
  | nil => rfl
  | cons stmt rest ih =>
    rcases isLast_cases stmt rest with h | ⟨value, span, rfl, rfl⟩
    · rw [Site.bodyStmtsKeeping_cons locals h, relabelStmts, relabelStmts, Site.bare_stmtKeeping,
        ih]
    · simp only [Site.bodyStmtsKeeping, relabelStmts, Stmt.relabel, Site.bare_inferKeeping]

/-- Two typings of bodies find the same and come to the same site; and to the same body, too, if
that has no fault. -/
structure BodiesInStep {α : Type} (result other : (α × Findings) × Site) : Prop where
  found : result.1.2 = other.1.2
  site : result.2 = other.2
  made : other.1.2.faults = [] → result.1.1 = other.1.1

/-- The statements of a body are typed in step with their bare forms, up to the value at the end. -/
theorem Site.bodyStmtsKeeping_bare (locals : Locals) (stmts : List Stmt) (site : Site) :
    BodiesInStep (Site.bodyStmtsKeeping locals stmts site)
      (Site.bodyStmtsKeeping locals (relabelStmts bare stmts) site) := by
  induction stmts generalizing locals site with
  | nil => exact ⟨rfl, rfl, fun _ => rfl⟩
  | cons stmt rest ih =>
    rcases isLast_cases stmt rest with hlast | ⟨value, span, rfl, rfl⟩
    · have hlast' : isExpr (stmt.relabel bare) = true → relabelStmts bare rest ≠ [] := by
        rw [isExpr_relabel, relabelStmts_eq_map]
        exact fun hexpr hnil => hlast hexpr (List.map_eq_nil_iff.mp hnil)
      obtain ⟨h, hsite⟩ := Site.stmtKeeping_bare stmt locals site
      have hrest := ih (Site.stmtKeeping locals stmt site).1.2.1
        (Site.stmtKeeping locals stmt site).2
      rw [h.locals, hsite] at hrest
      rw [relabelStmts, Site.bodyStmtsKeeping_cons locals hlast,
        Site.bodyStmtsKeeping_cons locals hlast']
      simp only [h.locals, hsite, h.found]
      refine ⟨by rw [hrest.found], hrest.site, fun hfaults => ?_⟩
      rw [Findings.faults_append, List.append_eq_nil_iff] at hfaults
      rw [h.made hfaults.1, hrest.made hfaults.2]
    · obtain ⟨h, hsite⟩ := Site.inferKeeping_bare locals value site
      simp only [relabelStmts, Stmt.relabel, Site.bodyStmtsKeeping, Site.implicitReturn, h.found,
        h.type, h.span, hsite]
      refine ⟨rfl, rfl, fun hfaults => ?_⟩
      rw [Findings.faults_append, List.append_eq_nil_iff] at hfaults
      rw [h.expr hfaults.1]
      rfl

/-- Typing a body writes only types and targets. -/
theorem Site.bare_bodyKeeping (site : Site) (m : Method) (types : List (Option Ty)) :
    (site.bodyKeeping m types).1.1.relabel bare = m.body.relabel bare := by
  have hbody : m.body = .mk m.body.stmts m.body.span := by cases m.body; rfl
  rw [hbody]
  simp only [Site.bodyKeeping, Block.relabel, Site.bare_bodyStmtsKeeping]

/-- A body is typed in step with its bare form. -/
theorem Site.bodyKeeping_bare (site : Site) (m : Method) (types : List (Option Ty)) :
    BodiesInStep (site.bodyKeeping m types) (site.bodyKeeping (m.relabel bare) types) := by
  have hmissing : site.missingReturn (m.relabel bare) = site.missingReturn m := by
    rw [Site.missingReturn, Site.missingReturn]
    simp only [Method.relabel, Block.endsWithExpr_relabel, Block.exits_relabel]
    rfl
  have hparams : paramLocals (m.relabel bare).params types = paramLocals m.params types := by
    simp only [paramLocals, Method.relabel, List.map_map]
    rfl
  have hbody : (m.relabel bare).body.span = m.body.span := by
    cases hm : m.body
    rw [Method.relabel, hm]
    rfl
  have hstmts : (m.relabel bare).body.stmts = relabelStmts bare m.body.stmts :=
    Block.stmts_relabel bare m.body
  have h := Site.bodyStmtsKeeping_bare (paramLocals m.params types) m.body.stmts site
  simp only [Site.bodyKeeping, hmissing, hparams, hbody, hstmts]
  refine ⟨by rw [h.found], h.site, fun hfaults => ?_⟩
  rw [Findings.faults_append, List.append_eq_nil_iff] at hfaults
  rw [h.made hfaults.2]

end StackScript.Typing

import StackScript.Proofs.Retyping

/-!
# Typing bodies that are typed already

The statements of a body pass on what they find about locals, and nothing of what is written into
them. So what holds of expressions holds of bodies: typing one writes only types and targets
(`Site.bare_body`), reads none (`Site.body_bare`), and replaces those of an earlier typing
(`Site.body_body`). A method of a batch takes its parameter types and its return type from the
registry, and the same follows for annotating it.
-/

namespace StackScript.Typing

open StackScript.Source StackScript.Syntax

variable {site before after : Site} {locals : Locals}

/-! ## Conditions -/

theorem Site.expr_value (site : Site) (locals : Locals) (e : Expr) :
    (site.value locals e).expr = (site.infer locals e).expr := Typed.expr_asValue _

/-- What is expected of a condition changes nothing that is written into its expression. -/
theorem Site.expr_condition (site : Site) (locals : Locals) (e : Expr) :
    (site.condition locals e).expr = (site.infer locals e).expr := by
  rw [← Site.expr_value, Site.condition]
  split <;> rfl

theorem Site.value_value (h : before.SameCallees after) (locals earlier : Locals) (e : Expr) :
    after.value locals (before.value earlier e).expr = after.value locals e := by
  rw [Site.expr_value, Site.value, Site.infer_infer h, Site.value]

theorem Site.condition_condition (h : before.SameCallees after) (locals earlier : Locals)
    (e : Expr) : after.condition locals (before.condition earlier e).expr =
      after.condition locals e := by
  rw [Site.expr_condition, ← Site.expr_value, Site.condition, Site.value_value h, Site.condition]

theorem Site.value_bare (site : Site) (locals : Locals) (e : Expr) :
    (site.value locals e).Alike (site.value locals (e.relabel bare)) :=
  (Site.infer_bare site locals e).asValue

/-- A condition and its bare form are found alike. -/
theorem Site.condition_bare (site : Site) (locals : Locals) (e : Expr) :
    (site.condition locals e).Alike (site.condition locals (e.relabel bare)) := by
  have h := Site.value_bare site locals e
  unfold Site.condition
  simp only [h.type]
  split
  · exact h
  · exact h
  · refine ⟨rfl, ?_, h.span, fun hfaults => ?_⟩
    · rw [h.found, h.span]
    · simp at hfaults

/-! ## Statements -/

mutual

/-- Typing a statement writes only types and targets. -/
theorem Site.bare_stmt (site : Site) : ∀ (stmt : Stmt) (locals : Locals),
    (site.stmt locals stmt).1.relabel bare = stmt.relabel bare
  | .expr value span, locals => by
    rw [Site.stmt, Stmt.relabel, Stmt.relabel, Site.bare_infer]
  | .assign target value span, locals => by
    rw [Site.stmt, Stmt.relabel, Stmt.relabel, Site.expr_value, Site.bare_infer]
  | .cond chain span, locals => by
    rw [Site.stmt, Stmt.relabel, Stmt.relabel, Site.bare_chain site chain]
  | .loop condition body span, locals => by
    rw [Site.stmt, Stmt.relabel, Stmt.relabel, Site.expr_condition, Site.bare_infer,
      Site.bare_block site body]
  | .ret (some value) span, locals => by
    rw [Site.stmt, Stmt.relabel, Stmt.relabel, Site.expr_value, Site.bare_infer]
  | .ret none span, locals => rfl
  | .puts value span, locals => by
    rw [Site.stmt, Stmt.relabel, Stmt.relabel, Site.expr_value, Site.bare_infer]
  | .raise value span, locals => by
    rw [Site.stmt, Stmt.relabel, Stmt.relabel, Site.expr_value, Site.bare_infer]

/-- Typing a block writes nothing but types and targets. -/
theorem Site.bare_block (site : Site) : ∀ (block : Block) (locals : Locals),
    (site.block locals block).1.relabel bare = block.relabel bare
  | .mk stmts span, locals => by
    rw [Site.block, Block.relabel, Block.relabel, Site.bare_stmts site stmts]

theorem Site.bare_stmts (site : Site) : ∀ (stmts : List Stmt) (locals : Locals),
    relabelStmts bare (site.stmts locals stmts).1 = relabelStmts bare stmts
  | [], _ => rfl
  | stmt :: rest, locals => by
    rw [Site.stmts, relabelStmts, relabelStmts, Site.bare_stmt site stmt,
      Site.bare_stmts site rest]

theorem Site.bare_chain (site : Site) : ∀ (chain : Chain) (locals : Locals),
    (site.chain locals chain).1.relabel bare = chain.relabel bare
  | .done, _ => rfl
  | .otherwise body, locals => by
    rw [Site.chain, Chain.relabel, Chain.relabel, Site.bare_block site body]
  | .branch condition body rest, locals => by
    rw [Site.chain, Chain.relabel, Chain.relabel, Site.expr_condition, Site.bare_infer,
      Site.bare_block site body, Site.bare_chain site rest]

end

mutual

/-- Typing a statement that was typed where calls have the same targets replaces all that was
written into it. -/
theorem Site.stmt_stmt (h : before.SameCallees after) : ∀ (stmt : Stmt) (locals earlier : Locals),
    after.stmt locals (before.stmt earlier stmt).1 = after.stmt locals stmt
  | .expr value span, locals, earlier => by
    rw [Site.stmt, Site.stmt, Site.infer_infer h, Site.stmt]
  | .assign target value span, locals, earlier => by
    rw [Site.stmt, Site.stmt, Site.value_value h, Site.stmt]
  | .cond chain span, locals, earlier => by
    rw [Site.stmt, Site.stmt, Site.chain_chain h chain, Site.stmt]
  | .loop condition body span, locals, earlier => by
    rw [Site.stmt, Site.stmt, Site.condition_condition h, Site.block_block h body, Site.stmt]
  | .ret (some value) span, locals, earlier => by
    rw [Site.stmt, Site.stmt, Site.value_value h, Site.stmt]
  | .ret none span, locals, earlier => rfl
  | .puts value span, locals, earlier => by
    rw [Site.stmt, Site.stmt, Site.value_value h, Site.stmt]
  | .raise value span, locals, earlier => by
    rw [Site.stmt, Site.stmt, Site.value_value h, Site.stmt]

/-- A block that was typed before is typed anew as if it had not been. -/
theorem Site.block_block (h : before.SameCallees after) :
    ∀ (block : Block) (locals earlier : Locals),
      after.block locals (before.block earlier block).1 = after.block locals block
  | .mk stmts span, locals, earlier => by
    rw [Site.block, Site.block, Site.stmts_stmts h stmts, Site.block]

theorem Site.stmts_stmts (h : before.SameCallees after) :
    ∀ (stmts : List Stmt) (locals earlier : Locals),
      after.stmts locals (before.stmts earlier stmts).1 = after.stmts locals stmts
  | [], _, _ => rfl
  | stmt :: rest, locals, earlier => by
    simp only [Site.stmts, Site.stmt_stmt h stmt, Site.stmts_stmts h rest]

theorem Site.chain_chain (h : before.SameCallees after) :
    ∀ (chain : Chain) (locals earlier : Locals),
      after.chain locals (before.chain earlier chain).1 = after.chain locals chain
  | .done, _, _ => rfl
  | .otherwise body, locals, earlier => by
    rw [Site.chain, Site.chain, Site.block_block h body, Site.chain]
  | .branch condition body rest, locals, earlier => by
    simp only [Site.chain, Site.condition_condition h, Site.block_block h body,
      Site.chain_chain h rest]

end

/-- Two typings leave the same locals and find the same. They come to the same result, too, if that
has no fault. -/
structure Agree {α : Type} (result other : α × Locals × Findings) : Prop where
  locals : result.2.1 = other.2.1
  found : result.2.2 = other.2.2
  made : other.2.2.faults = [] → result.1 = other.1

mutual

/-- A statement is typed as its bare form is. -/
theorem Site.stmt_bare (site : Site) : ∀ (stmt : Stmt) (locals : Locals),
    Agree (site.stmt locals stmt) (site.stmt locals (stmt.relabel bare))
  | .expr value span, locals => by
    have h := Site.infer_bare site locals value
    simp only [Stmt.relabel, Site.stmt]
    exact ⟨rfl, h.found, fun hfaults => by rw [h.expr hfaults]; rfl⟩
  | .assign target value span, locals => by
    have h := Site.value_bare site locals value
    simp only [Stmt.relabel, Site.stmt, h.type, h.span, h.found]
    refine ⟨rfl, rfl, fun hfaults => ?_⟩
    rw [Findings.faults_append, List.append_eq_nil_iff] at hfaults
    rw [h.expr hfaults.1]
    rfl
  | .cond chain span, locals => by
    have h := Site.chain_bare site chain locals
    simp only [Stmt.relabel, Site.stmt]
    exact ⟨h.locals, h.found, fun hfaults => by rw [h.made hfaults]; rfl⟩
  | .loop condition body span, locals => by
    have h := Site.condition_bare site locals condition
    have hbody := Site.block_bare site body locals
    simp only [Stmt.relabel, Site.stmt, h.found, hbody.found]
    refine ⟨hbody.locals, rfl, fun hfaults => ?_⟩
    rw [Findings.faults_append, List.append_eq_nil_iff] at hfaults
    rw [h.expr hfaults.1, hbody.made hfaults.2]
    rfl
  | .ret (some value) span, locals => by
    have h := Site.value_bare site locals value
    simp only [Stmt.relabel, Site.stmt, Site.valueFindings, h.type, h.found]
    refine ⟨rfl, rfl, fun hfaults => ?_⟩
    rw [Findings.faults_append, List.append_eq_nil_iff] at hfaults
    rw [h.expr hfaults.1]
    rfl
  | .ret none span, locals => ⟨rfl, rfl, fun _ => rfl⟩
  | .puts value span, locals => by
    have h := Site.value_bare site locals value
    simp only [Stmt.relabel, Site.stmt]
    exact ⟨rfl, h.found, fun hfaults => by rw [h.expr hfaults]; rfl⟩
  | .raise value span, locals => by
    have h := Site.value_bare site locals value
    simp only [Stmt.relabel, Site.stmt]
    exact ⟨rfl, h.found, fun hfaults => by rw [h.expr hfaults]; rfl⟩

/-- A block and its bare form are found alike. -/
theorem Site.block_bare (site : Site) : ∀ (block : Block) (locals : Locals),
    Agree (site.block locals block) (site.block locals (block.relabel bare))
  | .mk stmts span, locals => by
    have h := Site.stmts_bare site stmts locals
    simp only [Block.relabel, Site.block]
    exact ⟨h.locals, h.found, fun hfaults => by rw [h.made hfaults]; rfl⟩

theorem Site.stmts_bare (site : Site) : ∀ (stmts : List Stmt) (locals : Locals),
    Agree (site.stmts locals stmts) (site.stmts locals (relabelStmts bare stmts))
  | [], locals => ⟨rfl, rfl, fun _ => rfl⟩
  | stmt :: rest, locals => by
    have h := Site.stmt_bare site stmt locals
    have hrest := Site.stmts_bare site rest (site.stmt locals stmt).2.1
    rw [h.locals] at hrest
    simp only [relabelStmts, Site.stmts, h.locals, h.found]
    refine ⟨hrest.locals, by rw [hrest.found], fun hfaults => ?_⟩
    rw [Findings.faults_append, List.append_eq_nil_iff] at hfaults
    rw [h.made hfaults.1, hrest.made hfaults.2]

theorem Site.chain_bare (site : Site) : ∀ (chain : Chain) (locals : Locals),
    Agree (site.chain locals chain) (site.chain locals (chain.relabel bare))
  | .done, locals => ⟨rfl, rfl, fun _ => rfl⟩
  | .otherwise body, locals => by
    have h := Site.block_bare site body locals
    simp only [Chain.relabel, Site.chain]
    exact ⟨h.locals, h.found, fun hfaults => by rw [h.made hfaults]⟩
  | .branch condition body rest, locals => by
    have h := Site.condition_bare site locals condition
    have hbody := Site.block_bare site body locals
    have hrest := Site.chain_bare site rest (site.block locals body).2.1
    rw [hbody.locals] at hrest
    simp only [Chain.relabel, Site.chain, h.found, hbody.locals, hbody.found]
    refine ⟨hrest.locals, by rw [hrest.found], fun hfaults => ?_⟩
    simp only [Findings.faults_append, List.append_eq_nil_iff] at hfaults
    rw [h.expr hfaults.1.1, hbody.made hfaults.1.2, hrest.made hfaults.2]

end

/-! ## Bodies -/

/-- What is filled into a statement does not make it another kind of statement. -/
theorem isExpr_relabel (r : Relabel) (stmt : Stmt) : isExpr (stmt.relabel r) = isExpr stmt := by
  cases stmt with
  | ret value span => cases value <;> rfl
  | _ => rfl

/-- A statement that is no bare expression at the end of a body is typed like all others. -/
theorem Site.bodyStmts_cons (site : Site) (locals : Locals) {stmt : Stmt} {rest : List Stmt}
    (h : isExpr stmt = true → rest ≠ []) :
    site.bodyStmts locals (stmt :: rest) =
      ((site.stmt locals stmt).1 :: (site.bodyStmts (site.stmt locals stmt).2.1 rest).1,
        (site.stmt locals stmt).2.2 ++ (site.bodyStmts (site.stmt locals stmt).2.1 rest).2) := by
  rw [Site.bodyStmts]
  rintro value span rfl rfl
  exact h rfl rfl

/-- Typing the statements of a body writes nothing but types and targets. -/
theorem Site.bare_bodyStmts (site : Site) (locals : Locals) (stmts : List Stmt) :
    relabelStmts bare (site.bodyStmts locals stmts).1 = relabelStmts bare stmts := by
  induction stmts generalizing locals with
  | nil => rfl
  | cons stmt rest ih =>
    rcases isLast_cases stmt rest with h | ⟨value, span, rfl, rfl⟩
    · rw [Site.bodyStmts_cons site locals h, relabelStmts, relabelStmts, Site.bare_stmt, ih]
    · simp only [Site.bodyStmts, relabelStmts, Stmt.relabel, Site.bare_infer]

theorem Site.bodyStmts_bodyStmts (h : before.SameCallees after) (locals earlier : Locals)
    (stmts : List Stmt) :
    after.bodyStmts locals (before.bodyStmts earlier stmts).1 = after.bodyStmts locals stmts := by
  induction stmts generalizing locals earlier with
  | nil => rfl
  | cons stmt rest ih =>
    rcases isLast_cases stmt rest with hlast | ⟨value, span, rfl, rfl⟩
    · -- the typed statement is no bare expression at the end either
      have hlast' : isExpr (before.stmt earlier stmt).1 = true →
          (before.bodyStmts (before.stmt earlier stmt).2.1 rest).1 ≠ [] := by
        intro hexpr hnil
        rw [isExpr_stmt] at hexpr
        have hempty := (before.shape_bodyStmts (before.stmt earlier stmt).2.1 rest).1
        rw [hnil, List.isEmpty_nil] at hempty
        exact hlast hexpr (List.isEmpty_iff.mp hempty.symm)
      rw [Site.bodyStmts_cons before earlier hlast, Site.bodyStmts_cons after locals hlast',
        Site.stmt_stmt h, ih, Site.bodyStmts_cons after locals hlast]
    · simp only [Site.bodyStmts, Site.infer_infer h]

theorem Site.bodyStmts_bare (site : Site) (locals : Locals) (stmts : List Stmt) :
    (site.bodyStmts locals stmts).2 = (site.bodyStmts locals (relabelStmts bare stmts)).2 ∧
      ((site.bodyStmts locals stmts).2.faults = [] →
        (site.bodyStmts locals stmts).1 =
          (site.bodyStmts locals (relabelStmts bare stmts)).1) := by
  induction stmts generalizing locals with
  | nil => exact ⟨rfl, fun _ => rfl⟩
  | cons stmt rest ih =>
    rcases isLast_cases stmt rest with hlast | ⟨value, span, rfl, rfl⟩
    · have hlast' : isExpr (stmt.relabel bare) = true → relabelStmts bare rest ≠ [] := by
        rw [isExpr_relabel, relabelStmts_eq_map]
        exact fun hexpr hnil => hlast hexpr (List.map_eq_nil_iff.mp hnil)
      have h := Site.stmt_bare site stmt locals
      have hrest := ih (site.stmt locals stmt).2.1
      rw [relabelStmts, Site.bodyStmts_cons site locals hlast,
        Site.bodyStmts_cons site locals hlast', ← h.locals, ← h.found]
      refine ⟨by rw [hrest.1], fun hfaults => ?_⟩
      rw [Findings.faults_append, List.append_eq_nil_iff] at hfaults
      rw [h.made (h.found ▸ hfaults.1), hrest.2 hfaults.2]
    · have h := Site.infer_bare site locals value
      have hvalue : site.implicitReturn (site.infer locals value) =
          site.implicitReturn (site.infer locals (value.relabel bare)) := by
        rw [Site.implicitReturn, Site.implicitReturn, h.type, h.span]
      simp only [relabelStmts, Stmt.relabel, Site.bodyStmts, h.found, hvalue]
      refine ⟨trivial, fun hfaults => ?_⟩
      rw [Findings.faults_append, List.append_eq_nil_iff] at hfaults
      rw [h.expr hfaults.1]
      rfl

/-- Typing a body writes only types and targets. -/
theorem Site.bare_body (site : Site) (m : Method) (types : List (Option Ty)) :
    (site.body m types).1.relabel bare = m.body.relabel bare := by
  have hbody : m.body = .mk m.body.stmts m.body.span := by cases m.body; rfl
  rw [hbody]
  simp only [Site.body, Block.relabel, Site.bare_bodyStmts]

/-- Whether a body owes a value that it may not return is a matter of its bare form. -/
theorem Site.missingReturn_congr (site : Site) {m m' : Method} (hname : m.name = m'.name)
    (hbody : m.body.relabel bare = m'.body.relabel bare) :
    site.missingReturn m = site.missingReturn m' := by
  have hends := congrArg Block.endsWithExpr hbody
  have hexits := congrArg Block.exits hbody
  rw [Block.endsWithExpr_relabel, Block.endsWithExpr_relabel] at hends
  rw [Block.exits_relabel, Block.exits_relabel] at hexits
  rw [Site.missingReturn, Site.missingReturn, hends, hexits, hname]

/-- Typing a body that was typed where calls have the same targets replaces all that was written
into it. -/
theorem Site.body_body (h : before.SameCallees after) (m : Method)
    (types earlier : List (Option Ty)) (ret : Option Ty) :
    after.body { m with body := (before.body m earlier).1, retType := ret } types =
      after.body m types := by
  have hmissing : after.missingReturn { m with
      body := (before.body m earlier).1, retType := ret } = after.missingReturn m :=
    after.missingReturn_congr rfl (before.bare_body m earlier)
  rw [Site.body, hmissing, Site.body]
  simp only [Site.body, Block.stmts, Block.span, Site.bodyStmts_bodyStmts h]

/-- A body is typed as its bare form is. -/
theorem Site.body_bare (site : Site) (m : Method) (types : List (Option Ty)) :
    (site.body m types).2 = (site.body (m.relabel bare) types).2 ∧
      ((site.body m types).2.faults = [] →
        (site.body m types).1 = (site.body (m.relabel bare) types).1) := by
  have hmissing : site.missingReturn (m.relabel bare) = site.missingReturn m := by
    rw [Site.missingReturn, Site.missingReturn]
    simp only [Method.relabel, Block.endsWithExpr_relabel, Block.exits_relabel]
    rfl
  have hparams : paramLocals (m.relabel bare).params types = paramLocals m.params types := by
    simp only [paramLocals, Method.relabel, List.map_map]
    rfl
  have hbody : (m.relabel bare).body.span = m.body.span := by
    cases hm : m.body
    rw [Method.relabel, hm]
    rfl
  have hstmts : (m.relabel bare).body.stmts = relabelStmts bare m.body.stmts :=
    Block.stmts_relabel bare m.body
  have h := site.bodyStmts_bare (paramLocals m.params types) m.body.stmts
  simp only [Site.body, hmissing, hparams, hbody, hstmts]
  refine ⟨by rw [h.1], fun hfaults => ?_⟩
  rw [Findings.faults_append, List.append_eq_nil_iff] at hfaults
  rw [h.2 hfaults.2]

end StackScript.Typing

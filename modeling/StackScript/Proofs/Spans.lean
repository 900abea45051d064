import StackScript.Proofs.Building
import StackScript.Proofs.Outlines

/-!
# The spans of a unit are faithful

Reading moves on through the text, so what it leaves stands in order in the text (`Reads.lined`).
Whatever is built from a node of the parse tree stands inside that node. This needs an argument in
three places: a row of operators is regrouped without changing the order of its operands
(`lined_assembleFrom`), a suffix reaches back to the start of its value (`lined_buildSuffixes`), and
the parts of a method are collected one by one (`lined_foldlM_add`).
-/

namespace StackScript.Grammar

open StackScript.Source Outline

variable {R : Type} {g : Rules R} {text : List Char}

/-! ## Parse trees -/

mutual

/-- The outline of a parse tree. -/
def ParseTree.outline : ParseTree R → Outline
  | .node _ start stop parts => .node ⟨start.mark, stop⟩ (treeOutlines parts)

/-- The outlines of parse trees. -/
def treeOutlines : List (ParseTree R) → List Outline
  | [] => []
  | tree :: trees => tree.outline :: treeOutlines trees

end

theorem treeOutlines_append (trees others : List (ParseTree R)) :
    treeOutlines (trees ++ others) = treeOutlines trees ++ treeOutlines others := by
  induction trees with
  | nil => rfl
  | cons tree trees ih =>
    rw [List.cons_append, treeOutlines, treeOutlines, ih]
    rfl

namespace Advances

variable {cur cur' : Cursor}

theorem offset_le (h : Advances cur cur') : cur.mark.offset ≤ cur'.mark.offset := by
  obtain ⟨cs, -, -, hmark⟩ := h
  rw [hmark, Mark.offset_after]
  exact Nat.le_add_right _ _

theorem mark_faithful (h : Advances (.ofText text) cur) : cur.mark.Faithful text := by
  obtain ⟨cs, -, hrest, hmark⟩ := h
  rw [hmark]
  exact Mark.faithful_after hrest

end Advances

/-- The nodes that reading leaves stand in order in the text that is passed over. -/
theorem Reads.lined {ctx : Context} {expr : Peg R} {cur cur' : Cursor}
    {trees : List (ParseTree R)} (hskip : ∀ cur, Advances cur (g.skip cur))
    (h : Reads g ctx expr cur cur' trees) (hcur : Advances (.ofText text) cur) :
    Lined text cur.mark.offset (treeOutlines trees) cur'.mark.offset := by
  have hpassed := (h.advances hskip).offset_le
  induction h with
  | cat hfirst hsecond hbefore hafter =>
    have hfirst := hfirst.advances hskip
    rw [treeOutlines_append]
    exact (hbefore hcur hfirst.offset_le).append
      (hafter (hcur.trans hfirst) (hsecond.advances hskip).offset_le)
  | more hfirst hrest hbefore hafter =>
    have hfirst := hfirst.advances hskip
    rw [treeOutlines_append]
    exact (hbefore hcur hfirst.offset_le).append
      (hafter (hcur.trans hfirst) (hrest.advances hskip).offset_le)
  | left _ ih => exact ih hcur hpassed
  | right _ ih => exact ih hcur hpassed
  | some _ ih => exact ih hcur hpassed
  | @call ctx rule cur cur' trees h ih =>
    have hinner := ih hcur hpassed
    split
    · have hstop := (hcur.trans (h.advances hskip)).mark_faithful
      have hnode : (ParseTree.node rule cur cur'.mark trees).outline.Faithful text :=
        Lined.node_faithful ⟨hcur.mark_faithful, hstop, hpassed⟩ hinner
      exact Holds.self hnode
    · exact hinner
  | _ => exact .nil hpassed

end StackScript.Grammar

namespace StackScript.Syntax

open StackScript.Grammar StackScript.Source Outline

variable {text : List Char} {low high : Nat}

/-! ## Names and types -/

theorem holds_buildIdent {node : Node} : node.outline.Holds text [(buildIdent node).outline] := by
  cases node
  exact holds_leaf

theorem holds_buildTypeRef {node : Node} :
    node.outline.Holds text [(buildTypeRef node).outline] := by
  cases node
  exact holds_leaf

/-! ## Rows of operators -/

/-- The outlines of operators before an operand. -/
def opOutlines (ops : List (UnaryOp × Span)) : List Outline := ops.map fun op => leaf op.2

/-- The outlines of right operands. -/
def rowOutlines (row : List (BinaryOp × Expr)) : List Outline := row.map fun pair => pair.2.outline

/-- The outlines of the operands that wait, in the order in which they are written. -/
def waitingOutlines (waiting : List Waiting) : List Outline :=
  (waiting.map fun pair => pair.1.outline).reverse

theorem waitingOutlines_cons (left : Expr) (op : BinaryOp) (waiting : List Waiting) :
    waitingOutlines ((left, op) :: waiting) = waitingOutlines waiting ++ [left.outline] := by
  rw [waitingOutlines, List.map_cons, List.reverse_cons]
  rfl

theorem lined_applyUnary {op : UnaryOp × Span} {operand : Expr}
    (h : Lined text low [leaf op.2, operand.outline] high) :
    Lined text low [(applyUnary op operand).outline] high := by
  have hoperand := h.pair.tail
  have hmerged := h.merge hoperand
  rw [Expr.outline_span] at hmerged
  exact hmerged

theorem lined_applyBinary {op : BinaryOp} {left right : Expr}
    (h : Lined text low [left.outline, right.outline] high) :
    Lined text low [(applyBinary op left right).outline] high := by
  have hmerged := h.merge h.pair
  rw [Expr.outline_span, Expr.outline_span] at hmerged
  exact hmerged

theorem lined_applyPrefixes {ops : List (UnaryOp × Span)} {operand : Expr}
    (h : Lined text low (opOutlines ops ++ [operand.outline]) high) :
    Lined text low [(applyPrefixes ops operand).outline] high := by
  induction ops generalizing low with
  | nil => exact h
  | cons op ops ih =>
    cases h with
    | cons hlow hop hrest => exact lined_applyUnary (.cons hlow hop (ih hrest))

/-- Operands that are taken up by their operators stand where they stood. -/
theorem lined_reduce (level : Nat) {waiting : List Waiting} {right : Expr}
    (h : Lined text low (waitingOutlines waiting ++ [right.outline]) high) :
    Lined text low (waitingOutlines (reduce level waiting right).1 ++
      [(reduce level waiting right).2.outline]) high := by
  induction waiting generalizing right with
  | nil => exact h
  | cons pair waiting ih =>
    obtain ⟨left, op⟩ := pair
    rw [reduce]
    split
    · rw [waitingOutlines_cons, List.append_assoc] at h
      obtain ⟨mid, hwaiting, hpair⟩ := h.append_inv
      exact ih (hwaiting.append (lined_applyBinary hpair))
    · exact h

/-- However a row is grouped, its tree stands where the row stood. -/
theorem lined_assembleFrom {row : List (BinaryOp × Expr)} (waiting : List Waiting) {current : Expr}
    (h : Lined text low (waitingOutlines waiting ++ current.outline :: rowOutlines row) high) :
    Lined text low [(assembleFrom waiting current row).outline] high := by
  induction row generalizing waiting current with
  | nil =>
    -- the tree is what the last operand was reduced to, and stands after whatever still waits
    obtain ⟨mid, hwaiting, hcurrent⟩ := (lined_reduce 0 h).append_inv
    exact hcurrent.earlier hwaiting.le
  | cons pair row ih =>
    obtain ⟨op, operand⟩ := pair
    -- reducing moves operands only among those before the next one
    rw [List.append_cons] at h
    obtain ⟨mid, hbefore, hrow⟩ := h.append_inv
    rw [assembleFrom]
    refine ih _ ?_
    rw [waitingOutlines_cons]
    exact (lined_reduce op.level hbefore).append hrow

/-! ## Expressions -/

/-- An expression that is built from the node stands inside it. -/
def HoldsExpr (text : List Char) (node : Node) : Prop :=
  ∀ value, buildExpr node = .ok value → node.outline.Holds text [value.outline]

/-- The first operand of a row is read as a right operand is. -/
theorem buildOperand_inv {fault : ReadFault} {nodes : List Node} {ops : List (UnaryOp × Span)}
    {value : Expr} (h : buildOperand ops fault nodes = .ok value) (op : BinaryOp) :
    ∃ first row, buildRight op ops fault nodes = .ok ((op, first) :: row) ∧
      value = assemble first row := by
  induction nodes generalizing ops with
  | nil => cases h
  | cons node rest ih =>
    obtain ⟨rule, start, stop, parts⟩ := node
    rw [buildOperand] at h
    rw [buildRight]
    cases hunary : unaryOp? rule with
    | some unary =>
      rw [hunary] at h
      exact ih h
    | none =>
      simp only [hunary, bind_eq_ok, pure_eq_ok] at h
      obtain ⟨first, hfirst, row, hrow, rfl⟩ := h
      refine ⟨_, row, ?_, rfl⟩
      simp only [bind_eq_ok, pure_eq_ok]
      exact ⟨first, hfirst, row, hrow, rfl⟩

/-- A row stands where its nodes stood, with the operators before its first operand. -/
theorem lined_row {nodes : List Node} (hexpr : ∀ node ∈ nodes, HoldsExpr text node) :
    (∀ {fault low row}, Lined text low (treeOutlines nodes) high →
      buildRow fault nodes = .ok row → Lined text low (rowOutlines row) high) ∧
    ∀ op ops {fault low row}, Lined text low (opOutlines ops ++ treeOutlines nodes) high →
      buildRight op ops fault nodes = .ok row → Lined text low (rowOutlines row) high := by
  induction nodes with
  | nil =>
    refine ⟨fun hlined h => ?_, fun _ _ _ _ _ _ h => ?_⟩
    · cases h
      exact hlined
    · cases h
  | cons node rest ih =>
    obtain ⟨hnode, hrest⟩ := List.forall_mem_cons.mp hexpr
    obtain ⟨hrow, hright⟩ := ih hrest
    obtain ⟨rule, start, stop, parts⟩ := node
    refine ⟨fun hlined h => ?_, fun op ops fault low row hlined h => ?_⟩
    · rw [buildRow] at h
      split at h
      · -- the operator between is no node of the tree
        exact hright _ [] hlined.tail h
      · cases h
    · obtain ⟨mid, hops, hlined⟩ := hlined.append_inv
      rw [buildRight] at h
      split at h
      · -- one more operator before the operand
        have hlined := hops.append (hlined.replace holds_leaf id)
        refine hright _ _ ?_ h
        rw [opOutlines, List.map_append, List.append_assoc]
        exact hlined
      · simp only [bind_eq_ok, pure_eq_ok] at h
        obtain ⟨operand, hoperand, others, hothers, rfl⟩ := h
        have hlined := hlined.replace (hnode operand hoperand) fun hrest => hrow hrest hothers
        obtain ⟨mid', hoperand, hrow⟩ := hlined.append_inv
        exact (lined_applyPrefixes (hops.append hoperand)).append hrow

theorem lined_buildExprs {nodes : List Node} (hexpr : ∀ node ∈ nodes, HoldsExpr text node)
    {values : List Expr} (hlined : Lined text low (treeOutlines nodes) high)
    (h : buildExprs nodes = .ok values) : Lined text low (exprOutlines values) high := by
  induction nodes generalizing low values with
  | nil =>
    cases h
    exact hlined
  | cons node rest ih =>
    obtain ⟨hnode, hrest⟩ := List.forall_mem_cons.mp hexpr
    simp only [buildExprs, bind_eq_ok, pure_eq_ok] at h
    obtain ⟨value, hvalue, values, hvalues, rfl⟩ := h
    exact hlined.replace (hnode value hvalue) fun hlined => ih hrest hlined hvalues

theorem lined_buildArgLists {lists : List Node}
    (hexpr : ∀ list ∈ lists, ∀ arg ∈ list.parts, HoldsExpr text arg) {values : List Expr}
    (hlined : Lined text low (treeOutlines lists) high) (h : buildArgLists lists = .ok values) :
    Lined text low (exprOutlines values) high := by
  cases lists with
  | nil =>
    cases h
    exact hlined
  | cons list rest =>
    obtain ⟨rule, start, stop, args⟩ := list
    refine hlined.head (.of_parts fun hargs => ?_)
    exact lined_buildExprs (hexpr _ List.mem_cons_self) hargs h

/-- Suffixes reach from the start of the value to where they stop themselves. -/
theorem lined_buildSuffixes {fault : ReadFault} {suffixes : List Node}
    (hexpr : ∀ suffix ∈ suffixes, ∀ part ∈ suffix.parts, HoldsExpr text part) {value result : Expr}
    (hlined : Lined text low (value.outline :: treeOutlines suffixes) high)
    (h : buildSuffixes fault value suffixes = .ok result) :
    Lined text low [result.outline] high := by
  induction suffixes generalizing value with
  | nil =>
    cases h
    exact hlined
  | cons suffix rest ih =>
    obtain ⟨hsuffix, hrest⟩ := List.forall_mem_cons.mp hexpr
    have hlined : Lined text low ([value.outline, suffix.outline] ++ treeOutlines rest) high :=
      hlined
    obtain ⟨mid, hpair, hmore⟩ := hlined.append_inv
    obtain ⟨rule, start, stop, parts⟩ := suffix
    cases rule with
    | indexOp =>
      cases parts with
      | nil => cases h
      | cons part more =>
        simp only [buildSuffixes, bind_eq_ok] at h
        obtain ⟨position, hposition, h⟩ := h
        have hposition := hsuffix part List.mem_cons_self position hposition
        have hindex := hpair.merge (hpair.pair.replace .self fun hlast =>
          hlast.head (.of_parts fun hparts => hparts.head hposition))
        refine ih hrest ?_ h
        rw [Expr.outline_span] at hindex
        exact hindex.append hmore
    | lengthOp =>
      simp only [buildSuffixes] at h
      have hlength := hpair.merge (hpair.pair.head .self)
      refine ih hrest ?_ h
      rw [Expr.outline_span] at hlength
      exact hlength.append hmore
    | _ => cases h

/-- Every expression that is built stands inside its node. -/
theorem holds_buildExpr {tree : Node} (h : Stems grammar tree) : HoldsExpr text tree := by
  refine h.induction (P := HoldsExpr text) ?_
  intro tree _ ih value hvalue
  have hexpr : ∀ part ∈ tree.parts, HoldsExpr text part := fun part hpart =>
    ih part hpart part .self
  have hinner : ∀ part ∈ tree.parts, ∀ inner ∈ part.parts, HoldsExpr text inner :=
    fun part hpart inner hinner => ih part hpart inner (.part hinner .self)
  unfold buildExpr at hvalue
  split at hvalue
  · -- a row of operators
    obtain ⟨first, row, hright, rfl⟩ := buildOperand_inv hvalue .or
    refine .of_parts fun hparts => lined_assembleFrom [] ?_
    exact (lined_row hexpr).2 .or [] hparts hright
  · -- a term
    simp only [bind_eq_ok] at hvalue
    obtain ⟨first, hfirst, hsuffixes⟩ := hvalue
    refine .of_parts fun hparts => ?_
    have hlined := hparts.replace (hexpr _ List.mem_cons_self first hfirst) id
    refine lined_buildSuffixes (fun suffix hsuffix => ?_) hlined hsuffixes
    exact hinner suffix (List.mem_cons_of_mem _ hsuffix)
  · cases hvalue
    exact holds_leaf
  · simp only [bind_eq_ok, pure_eq_ok] at hvalue
    obtain ⟨_, _, rfl⟩ := hvalue
    exact holds_leaf
  · simp only [bind_eq_ok, pure_eq_ok] at hvalue
    obtain ⟨_, _, rfl⟩ := hvalue
    exact holds_leaf
  · -- a call on a class
    simp only [bind_eq_ok, pure_eq_ok] at hvalue
    obtain ⟨args, hargs, rfl⟩ := hvalue
    refine .node (.of_parts fun hparts => ?_)
    refine hparts.replace holds_buildIdent fun hrest => hrest.replace holds_buildIdent fun hlists =>
      lined_buildArgLists (fun list hlist => ?_) hlists hargs
    exact hinner list (List.mem_cons_of_mem _ (List.mem_cons_of_mem _ hlist))
  · -- a call on the enclosing class
    simp only [bind_eq_ok, pure_eq_ok] at hvalue
    obtain ⟨args, hargs, rfl⟩ := hvalue
    refine .node (.of_parts fun hparts => ?_)
    have hcall := hparts.replace holds_buildIdent fun hlists => lined_buildArgLists
      (fun list hlist => hinner list (List.mem_cons_of_mem _ hlist)) hlists hargs
    exact hcall
  · cases hvalue
    exact .node (.of_parts fun hparts => hparts.head holds_buildIdent)
  · cases hvalue

/-! ## Statements -/

/-- A statement that is built from the node stands inside it. -/
def HoldsStmt (text : List Char) (node : Node) : Prop :=
  ∀ stmt, buildStmt node = .ok stmt → node.outline.Holds text [stmt.outline]

/-- A block that is built from the node stands inside it. -/
def HoldsBlock (text : List Char) (node : Node) : Prop :=
  ∀ block, buildBlock node = .ok block → node.outline.Holds text [block.outline]

theorem lined_buildStmts {nodes : List Node} (hstmt : ∀ node ∈ nodes, HoldsStmt text node)
    {stmts : List Stmt} (hlined : Lined text low (treeOutlines nodes) high)
    (h : buildStmts nodes = .ok stmts) : Lined text low (stmtOutlines stmts) high := by
  induction nodes generalizing low stmts with
  | nil =>
    cases h
    exact hlined
  | cons node rest ih =>
    obtain ⟨hnode, hrest⟩ := List.forall_mem_cons.mp hstmt
    simp only [buildStmts, bind_eq_ok, pure_eq_ok] at h
    obtain ⟨stmt, hfirst, stmts, hstmts, rfl⟩ := h
    exact hlined.replace (hnode stmt hfirst) fun hlined => ih hrest hlined hstmts

/-- The conditions and blocks of the branches stand in order where their clauses do. -/
theorem lined_buildClauses {clauses : List Node}
    (hexpr : ∀ clause ∈ clauses, ∀ part ∈ clause.parts, HoldsExpr text part)
    (hblock : ∀ clause ∈ clauses, ∀ part ∈ clause.parts, HoldsBlock text part) {chain : Chain}
    (hlined : Lined text low (treeOutlines clauses) high) (h : buildClauses clauses = .ok chain) :
    Lined text low chain.outlines high := by
  induction clauses generalizing low chain with
  | nil =>
    simp only [buildClauses] at h
    cases h
    exact hlined
  | cons clause rest ih =>
    obtain ⟨hclauseExpr, hrestExpr⟩ := List.forall_mem_cons.mp hexpr
    obtain ⟨hclauseBlock, hrestBlock⟩ := List.forall_mem_cons.mp hblock
    unfold buildClauses at h
    split at h
    · cases ‹_ = []›
    · rename_i start stop first second more _ heq
      cases heq
      simp only [bind_eq_ok, pure_eq_ok] at h
      obtain ⟨condition, hcondition, body, hbody, chain, hchain, rfl⟩ := h
      have hcondition := hclauseExpr first List.mem_cons_self condition hcondition
      have hbody := hclauseBlock second (List.mem_cons_of_mem _ List.mem_cons_self) body hbody
      have hclause : (ParseTree.node Rule.elsifClause start stop
          (first :: second :: more)).outline.Holds text [condition.outline, body.outline] :=
        .of_parts fun hparts => hparts.heads hcondition hbody
      exact hlined.replace hclause fun hlined => ih hrestExpr hrestBlock hlined hchain
    · rename_i first more heq
      cases heq
      simp only [bind_eq_ok, pure_eq_ok] at h
      obtain ⟨body, hbody, rfl⟩ := h
      have hbody := hclauseBlock first List.mem_cons_self body hbody
      exact hlined.head (.of_parts fun hparts => hparts.head hbody)
    · cases h

/-- Every statement and every block that is built stands inside its node. -/
theorem holds_buildStmt_and_block {tree : Node} (h : Stems grammar tree) :
    HoldsStmt text tree ∧ HoldsBlock text tree := by
  refine h.induction (P := fun tree => HoldsStmt text tree ∧ HoldsBlock text tree) ?_
  intro tree hstems ih
  have hexpr : ∀ part ∈ tree.parts, HoldsExpr text part := fun part hpart =>
    holds_buildExpr (hstems.part hpart)
  have hstmt : ∀ part ∈ tree.parts, HoldsStmt text part := fun part hpart =>
    (ih part hpart part .self).1
  have hblock : ∀ part ∈ tree.parts, HoldsBlock text part := fun part hpart =>
    (ih part hpart part .self).2
  have hinnerExpr : ∀ part ∈ tree.parts, ∀ inner ∈ part.parts, HoldsExpr text inner :=
    fun part hpart inner hinner => holds_buildExpr ((hstems.part hpart).part hinner)
  have hinnerBlock : ∀ part ∈ tree.parts, ∀ inner ∈ part.parts, HoldsBlock text inner :=
    fun part hpart inner hinner => (ih part hpart inner (.part hinner .self)).2
  constructor
  · intro stmt h
    unfold buildStmt at h
    split at h
    case h_2 =>
      simp only [bind_eq_ok, pure_eq_ok] at h
      obtain ⟨value, hvalue, rfl⟩ := h
      have hvalue := hexpr _ (List.mem_cons_of_mem _ List.mem_cons_self) value hvalue
      exact .node (.of_parts fun hparts => hparts.heads holds_buildIdent hvalue)
    case h_6 =>
      cases h
      exact holds_leaf
    case h_7 =>
      simp only [bind_eq_ok, pure_eq_ok] at h
      obtain ⟨condition, hcondition, body, hbody, chain, hchain, rfl⟩ := h
      have hcondition := hexpr _ List.mem_cons_self condition hcondition
      have hbody := hblock _ (List.mem_cons_of_mem _ List.mem_cons_self) body hbody
      refine .node (.of_parts fun hparts => hparts.replace hcondition fun hmore =>
        hmore.replace hbody fun hclauses => lined_buildClauses ?_ ?_ hclauses hchain)
      · intro clause hclause
        exact hinnerExpr clause (List.mem_cons_of_mem _ (List.mem_cons_of_mem _ hclause))
      · intro clause hclause
        exact hinnerBlock clause (List.mem_cons_of_mem _ (List.mem_cons_of_mem _ hclause))
    case h_8 =>
      simp only [bind_eq_ok, pure_eq_ok] at h
      obtain ⟨condition, hcondition, body, hbody, rfl⟩ := h
      have hcondition := hexpr _ List.mem_cons_self condition hcondition
      have hbody := hblock _ (List.mem_cons_of_mem _ List.mem_cons_self) body hbody
      exact .node (.of_parts fun hparts => hparts.heads hcondition hbody)
    case h_9 => cases h
    -- statements of one expression
    all_goals
      simp only [bind_eq_ok, pure_eq_ok] at h
      obtain ⟨value, hvalue, rfl⟩ := h
      have hvalue := hexpr _ List.mem_cons_self value hvalue
      exact .node (.of_parts fun hparts => hparts.head hvalue)
  · intro block h
    unfold buildBlock at h
    split at h
    simp only [bind_eq_ok, pure_eq_ok] at h
    obtain ⟨stmts, hstmts, rfl⟩ := h
    exact .node (.of_parts fun hparts => lined_buildStmts hstmt hparts hstmts)

/-! ## Definitions -/

theorem holds_buildParam {node : Node} {param : Param} (h : buildParam node = .ok param) :
    node.outline.Holds text [param.outline] := by
  obtain ⟨rule, start, stop, parts⟩ := node
  unfold buildParam at h
  split at h
  · rename_i name type hparts
    obtain rfl : parts = [name, type] := hparts
    cases h
    exact .node (.of_parts fun hparts => hparts.heads holds_buildIdent holds_buildTypeRef)
  · cases h

/-- The parameters stand in order where their nodes do. -/
theorem lined_buildParams {nodes : List Node} {params : List Param}
    (hlined : Lined text low (treeOutlines nodes) high) (h : nodes.mapM buildParam = .ok params) :
    Lined text low (params.map Param.outline) high := by
  induction nodes generalizing low params with
  | nil =>
    cases h
    exact hlined
  | cons node rest ih =>
    rw [List.mapM_cons] at h
    simp only [bind_eq_ok, pure_eq_ok] at h
    obtain ⟨param, hparam, params, hparams, rfl⟩ := h
    exact hlined.replace (holds_buildParam hparam) fun hlined => ih hlined hparams

namespace MethodParts

/-- The outlines of the parts met so far, in the order in which a method has them. -/
def outlines (made : MethodParts) : List Outline :=
  made.name.toList.map Ident.outline ++ (made.params.map Param.outline ++
    (made.ret.toList.map TypeRef.outline ++ made.body.toList.map Block.outline))

end MethodParts

/-- The turn of a part among the parts of a method. -/
def Rule.turn : Rule → Nat
  | .selfPrefix => 0
  | .identifier => 1
  | .paramList => 2
  | .returnType => 3
  | _ => 4

/-- Of the parts that have their turn then or later, none has been met. -/
structure MethodParts.Awaits (made : MethodParts) (turn : Nat) : Prop where
  name : turn ≤ 1 → made.name = none
  params : turn ≤ 2 → made.params = []
  ret : turn ≤ 3 → made.ret = none
  body : turn ≤ 4 → made.body = none

namespace MethodParts.Awaits

variable {made : MethodParts} {turn later : Nat}

theorem start : ({} : MethodParts).Awaits turn :=
  ⟨fun _ => rfl, fun _ => rfl, fun _ => rfl, fun _ => rfl⟩

theorem mono (h : made.Awaits turn) (hle : turn ≤ later) : made.Awaits later where
  name hlater := h.name (Nat.le_trans hle hlater)
  params hlater := h.params (Nat.le_trans hle hlater)
  ret hlater := h.ret (Nat.le_trans hle hlater)
  body hlater := h.body (Nat.le_trans hle hlater)

end MethodParts.Awaits

/-- A part that has its turn is put after those met so far. -/
theorem holds_add {part : Node} (hblock : HoldsBlock text part) {made after : MethodParts}
    (hawaits : made.Awaits part.rule.turn) (h : made.add part = .ok after) :
    after.Awaits (part.rule.turn + 1) ∧ ∃ outlines, part.outline.Holds text outlines ∧
      after.outlines = made.outlines ++ outlines := by
  obtain ⟨isStatic, name, params, ret, body⟩ := made
  obtain ⟨hname, hparams, hret, hbody⟩ := hawaits
  have hpassed : ∀ {turn now : Nat} {p : Prop}, turn < now → now ≤ turn → p :=
    fun hlt hle => absurd hle (Nat.not_le.mpr hlt)
  unfold MethodParts.add at h
  split at h <;> rename_i hrule
  case h_6 => cases h
  all_goals rw [hrule] at hname hparams hret hbody ⊢
  · -- the prefix leaves no trace in the tree
    cases h
    exact ⟨⟨fun _ => hname (by decide), fun _ => hparams (by decide), fun _ => hret (by decide),
      fun _ => hbody (by decide)⟩, [], fun hpart => .nil hpart.spanFaithful.ordered,
      (List.append_nil _).symm⟩
  · -- the name
    obtain rfl : name = none := hname (by decide)
    obtain rfl : params = [] := hparams (by decide)
    obtain rfl : ret = none := hret (by decide)
    obtain rfl : body = none := hbody (by decide)
    cases h
    exact ⟨⟨hpassed (by decide), fun _ => rfl, fun _ => rfl, fun _ => rfl⟩, _,
      holds_buildIdent, rfl⟩
  · -- the parameters
    obtain rfl : params = [] := hparams (by decide)
    obtain rfl : ret = none := hret (by decide)
    obtain rfl : body = none := hbody (by decide)
    simp only [bind_eq_ok, pure_eq_ok] at h
    obtain ⟨params, hbuilt, rfl⟩ := h
    obtain ⟨_, start, stop, nodes⟩ := part
    refine ⟨⟨hpassed (by decide), hpassed (by decide), fun _ => rfl, fun _ => rfl⟩, _,
      .of_parts fun hnodes => lined_buildParams hnodes hbuilt, ?_⟩
    simp [MethodParts.outlines]
  · -- the return type
    obtain rfl : ret = none := hret (by decide)
    obtain rfl : body = none := hbody (by decide)
    obtain ⟨_, start, stop, nodes⟩ := part
    cases nodes with
    | nil => cases h
    | cons type rest =>
      cases h
      refine ⟨⟨hpassed (by decide), hpassed (by decide), hpassed (by decide), fun _ => rfl⟩, _,
        .of_parts fun hnodes => hnodes.head holds_buildTypeRef, ?_⟩
      simp [MethodParts.outlines]
  · -- the body
    obtain rfl : body = none := hbody (by decide)
    simp only [bind_eq_ok, pure_eq_ok] at h
    obtain ⟨body, hbuilt, rfl⟩ := h
    refine ⟨⟨hpassed (by decide), hpassed (by decide), hpassed (by decide), hpassed (by decide)⟩,
      _, hblock body hbuilt, ?_⟩
    simp [MethodParts.outlines]

/-- Parts that come in the order of their turns are met in order. -/
theorem lined_foldlM_add {parts : List Node} (hblock : ∀ part ∈ parts, HoldsBlock text part)
    (hordered : (parts.map ParseTree.rule).Pairwise fun rule later => rule.turn < later.turn)
    {made after : MethodParts} (hawaits : ∀ part ∈ parts, made.Awaits part.rule.turn)
    (hlined : Lined text low (made.outlines ++ treeOutlines parts) high)
    (h : parts.foldlM MethodParts.add made = .ok after) : Lined text low after.outlines high := by
  induction parts generalizing made with
  | nil =>
    cases h
    rwa [treeOutlines, List.append_nil] at hlined
  | cons part rest ih =>
    obtain ⟨hpartBlock, hrestBlock⟩ := List.forall_mem_cons.mp hblock
    obtain ⟨hlater, hordered⟩ := List.pairwise_cons.mp hordered
    rw [List.foldlM_cons] at h
    obtain ⟨next, hnext, h⟩ := bind_eq_ok.mp h
    obtain ⟨hnextAwaits, outlines, hholds, houtlines⟩ :=
      holds_add hpartBlock (hawaits part List.mem_cons_self) hnext
    refine ih hrestBlock hordered (fun other hother => ?_) ?_ h
    · exact hnextAwaits.mono (hlater _ (List.mem_map_of_mem hother))
    · obtain ⟨mid, hmade, hparts⟩ := hlined.append_inv
      rw [houtlines, List.append_assoc]
      exact hmade.append (hparts.replace hholds id)

/-- Every method that is built stands inside its node. -/
theorem holds_buildMethod {tree : Node} (h : Stems grammar tree) (hrule : tree.rule = .methodDef)
    {method : Method} (hmethod : buildMethod tree = .ok method) :
    tree.outline.Holds text [method.outline] := by
  have htakes := takes_of_stems h
  rw [hrule] at htakes
  obtain ⟨self, params, ret, hself, hparams, hret, hmap⟩ := htakes
  have hordered : (tree.parts.map ParseTree.rule).Pairwise fun rule later =>
      rule.turn < later.turn := by
    rw [hmap]
    rcases hself with rfl | rfl <;> rcases hparams with rfl | rfl <;> rcases hret with rfl | rfl <;>
      decide
  rw [buildMethod, bind_eq_ok] at hmethod
  obtain ⟨made, hmade, hmethod⟩ := hmethod
  split at hmethod
  · rename_i name body hname hbody
    obtain rfl := pure_eq_ok.mp hmethod
    obtain ⟨rule, start, stop, parts⟩ := tree
    refine .node (.of_parts fun hlined => ?_)
    have hblock : ∀ part ∈ parts, HoldsBlock text part := fun part hpart =>
      (holds_buildStmt_and_block (h.part hpart)).2
    have hfold := lined_foldlM_add hblock hordered (fun _ _ => .start) hlined hmade
    rw [MethodParts.outlines, hname, hbody] at hfold
    exact hfold
  · cases hmethod

/-- A class that is built from the node stands inside it. -/
def HoldsClass (text : List Char) (node : Node) : Prop :=
  ∀ cls, buildClass node = .ok cls → node.outline.Holds text [cls.outline]

theorem lined_buildMembers {nodes : List Node} (hclass : ∀ node ∈ nodes, HoldsClass text node)
    (hstems : ∀ node ∈ nodes, Stems grammar node) (hrules : ∀ node ∈ nodes, node.rule.isMember)
    {members : List Member} (hlined : Lined text low (treeOutlines nodes) high)
    (h : buildMembers nodes = .ok members) : Lined text low (memberOutlines members) high := by
  induction nodes generalizing low members with
  | nil =>
    simp only [buildMembers] at h
    cases h
    exact hlined
  | cons node rest ih =>
    obtain ⟨hnodeClass, hrestClass⟩ := List.forall_mem_cons.mp hclass
    obtain ⟨hnode, hrestStems⟩ := List.forall_mem_cons.mp hstems
    obtain ⟨hrule, hrestRules⟩ := List.forall_mem_cons.mp hrules
    obtain ⟨rule, start, stop, parts⟩ := node
    cases rule with
    | classDef =>
      simp only [buildMembers, bind_eq_ok, pure_eq_ok] at h
      obtain ⟨cls, hcls, members, hmembers, rfl⟩ := h
      exact hlined.replace (hnodeClass cls hcls) fun hlined =>
        ih hrestClass hrestStems hrestRules hlined hmembers
    | methodDef =>
      simp only [buildMembers, bind_eq_ok, pure_eq_ok] at h
      obtain ⟨method, hmethod, members, hmembers, rfl⟩ := h
      exact hlined.replace (holds_buildMethod hnode rfl hmethod) fun hlined =>
        ih hrestClass hrestStems hrestRules hlined hmembers
    | _ => cases hrule

/-- Every class that is built stands inside its node. -/
theorem holds_buildClass {tree : Node} (h : Stems grammar tree) : HoldsClass text tree := by
  refine h.induction (P := HoldsClass text) ?_
  intro tree hstems ih cls hcls
  have htakes := takes_of_stems hstems
  have hclass : ∀ part ∈ tree.parts, HoldsClass text part := fun part hpart =>
    ih part hpart part .self
  have hparts : ∀ part ∈ tree.parts, Stems grammar part := fun _ hpart => hstems.part hpart
  unfold buildClass at hcls
  split at hcls
  · simp only [bind_eq_ok, pure_eq_ok] at hcls
    obtain ⟨members, hmembers, rfl⟩ := hcls
    obtain ⟨rules, hrules, hmap⟩ := htakes
    obtain ⟨-, rfl⟩ := List.cons.inj hmap
    obtain ⟨-, hclass⟩ := List.forall_mem_cons.mp hclass
    obtain ⟨-, hparts⟩ := List.forall_mem_cons.mp hparts
    refine .node (.of_parts fun hlined => hlined.replace holds_buildIdent fun hlined =>
      lined_buildMembers hclass hparts (fun member hmember => ?_) hlined hmembers)
    exact hrules _ (List.mem_map_of_mem hmember)
  · cases hcls

/-! ## Units -/

/-- Every item that is built stands inside its node. -/
theorem holds_buildItem {tree : Node} (h : Stems grammar tree) {item : Item}
    (hitem : buildItem tree = .ok item) : tree.outline.Holds text [item.outline] := by
  unfold buildItem at hitem
  split at hitem <;> simp only [bind_eq_ok, pure_eq_ok] at hitem
  · obtain ⟨cls, hcls, rfl⟩ := hitem
    exact holds_buildClass h cls hcls
  · obtain ⟨method, hmethod, rfl⟩ := hitem
    exact holds_buildMethod h ‹_› hmethod
  · obtain ⟨stmt, hstmt, rfl⟩ := hitem
    exact (holds_buildStmt_and_block h).1 stmt hstmt

/-- Where no package is declared, the items stand in order where their nodes do. -/
theorem lined_buildParts {nodes : List Node} (hstems : ∀ node ∈ nodes, Stems grammar node)
    (hrules : ∀ node ∈ nodes, node.rule ≠ .packageDecl) {package : Option Package}
    {items : List Item} (hlined : Lined text low (treeOutlines nodes) high)
    (h : buildParts nodes = .ok (package, items)) :
    package = none ∧ Lined text low (items.map Item.outline) high := by
  induction nodes generalizing low package items with
  | nil =>
    cases h
    exact ⟨rfl, hlined⟩
  | cons node rest ih =>
    obtain ⟨hnode, hrestStems⟩ := List.forall_mem_cons.mp hstems
    obtain ⟨hrule, hrestRules⟩ := List.forall_mem_cons.mp hrules
    rw [buildParts] at h
    split at h
    · exact absurd ‹_› hrule
    · exact ih hrestStems hrestRules hlined.tail h
    · simp only [bind_eq_ok, pure_eq_ok] at h
      obtain ⟨item, hitem, ⟨package, items⟩, hparts, h⟩ := h
      cases h
      refine ⟨(ih hrestStems hrestRules hlined.tail hparts).1, ?_⟩
      exact hlined.replace (holds_buildItem hnode hitem) fun hlined =>
        (ih hrestStems hrestRules hlined hparts).2

theorem holds_buildPackage {node : Node} {package : Package}
    (h : buildPackage node = .ok package) : node.outline.Holds text [package.outline] := by
  obtain ⟨rule, start, stop, parts⟩ := node
  unfold buildPackage at h
  split at h
  · cases h
    exact holds_leaf
  · cases h

/-- What a unit is made of stands in order inside its node. -/
theorem holds_buildProgram {tree : Node} (h : Stems grammar tree) (hrule : tree.rule = .program)
    {source : String} {program : Program} (hprogram : buildProgram source tree = .ok program) :
    tree.outline.Holds text [program.outline] := by
  have htakes := takes_of_stems h
  rw [hrule] at htakes
  obtain ⟨packages, others, hpackages, hothers, hmap⟩ := htakes
  obtain ⟨rule, start, stop, nodes⟩ := tree
  have hstems : ∀ node ∈ nodes, Stems grammar node := fun _ hnode => h.part hnode
  have hnone : ∀ rule ∈ others ++ [Rule.finish], rule ≠ .packageDecl := by
    rintro rule hmem rfl
    rcases List.mem_append.mp hmem with hmem | hmem
    · rcases hothers _ hmem with hmember | hstmt
      · cases hmember
      · cases hstmt
    · exact absurd (List.mem_singleton.mp hmem) (by decide)
  simp only [buildProgram, bind_eq_ok, pure_eq_ok] at hprogram
  obtain ⟨⟨package, items⟩, hparts, rfl⟩ := hprogram
  refine .node (.of_parts fun hlined => ?_)
  rcases hpackages with rfl | rfl
  · have hrules : ∀ node ∈ nodes, node.rule ≠ .packageDecl := fun node hnode =>
      hnone _ (hmap ▸ List.mem_map_of_mem hnode)
    obtain ⟨rfl, hitems⟩ := lined_buildParts hstems hrules hlined hparts
    exact hitems
  · obtain ⟨decl, rest, rfl, hdecl, hrest⟩ := List.map_eq_cons_iff.mp hmap
    obtain ⟨-, hstems⟩ := List.forall_mem_cons.mp hstems
    have hrest : rest.map ParseTree.rule = others ++ [.finish] := hrest
    have hrules : ∀ node ∈ rest, node.rule ≠ .packageDecl := fun node hnode =>
      hnone _ (hrest ▸ List.mem_map_of_mem hnode)
    simp only [ParseTree.parts, buildParts, hdecl, bind_eq_ok, pure_eq_ok] at hparts
    obtain ⟨declared, hdeclared, ⟨_, items⟩, hparts, hbuilt⟩ := hparts
    cases hbuilt
    exact hlined.replace (holds_buildPackage hdeclared) fun hlined =>
      (lined_buildParts hstems hrules hlined hparts).2

/-- The node that is read is of the rule, and its outline is faithful to the text. -/
theorem faithful_readNode {rule : Rule} {node : Node} (h : readNode rule text = .ok node) :
    node.rule = rule ∧ node.outline.Faithful text := by
  unfold readNode parse at h
  split at h
  · rename_i hread
    cases h
    have hreads := reads_of_read _ hread
    have hlined := hreads.lined measured_grammar.skips (.refl (.ofText text))
    obtain ⟨parts, hnode⟩ := hreads.call_inv (Rules.leavesNode_of rfl rule)
    obtain rfl := List.head_eq_of_cons_eq hnode
    exact ⟨rfl, hlined.faithful _ List.mem_cons_self⟩
  · cases h

/-- **The spans of a unit are faithful.** Every node of the tree of a text that is accepted stands
where its span says: between two places of the text, whose lines and columns are those of the span,
inside the node around it, and after the nodes that come before it there. -/
theorem readProgram_faithful {source text : String} {program : Program}
    (h : readProgram source text = .ok program) : program.outline.Faithful text.toList := by
  obtain ⟨node, hnode, hprogram⟩ := bind_eq_ok.mp h
  obtain ⟨hrule, hfaithful⟩ := faithful_readNode hnode
  have hlined := holds_buildProgram (stems_readNode hnode) hrule hprogram hfaithful
  exact hlined.faithful _ List.mem_cons_self

/-- A unit of two statements with a line end of two characters between them, and a character of two
bytes in the first. -/
def twoLines : String := "s = \"é\"\r\nputs -s[0] + 1 "

theorem readProgram_faithful_twoLines : ∃ program,
    readProgram "unit" twoLines = .ok program ∧
      program.items.map (fun item => item.span) =
        [⟨⟨0, 1, 1⟩, ⟨9, 1, 9⟩⟩, ⟨⟨10, 2, 1⟩, ⟨25, 2, 16⟩⟩] ∧
      program.outline.Faithful twoLines.toList := by
  have hread : (readProgram "unit" twoLines).toOption.map
      (fun program => program.items.map fun item => item.span) =
        some [⟨⟨0, 1, 1⟩, ⟨9, 1, 9⟩⟩, ⟨⟨10, 2, 1⟩, ⟨25, 2, 16⟩⟩] := by decide +kernel
  cases hprogram : readProgram "unit" twoLines with
  | ok program =>
    rw [hprogram] at hread
    exact ⟨program, rfl, Option.some.inj hread, readProgram_faithful hprogram⟩
  | error fault =>
    rw [hprogram] at hread
    cases hread

end StackScript.Syntax

import StackScript.Proofs.Building
import StackScript.Proofs.InStep
import StackScript.Proofs.Relabelling

/-!
# Trees built from parse trees that are alike

From parse trees that are alike (`Alike`) the same tree is built up to the places of its nodes
(`placeless`), or none from either. Along the way every string is built: whatever can be built has
only strings that stand for a text (`Fine`). `Matched` keeps both facts together, and is kept by
every step of building.
-/

namespace StackScript.Syntax

open StackScript.Grammar StackScript.Source StackScript.Text

/-! ## Strings that stand for a text -/

/-- Puts everything at one place. -/
def placeless : Relabel where
  span _ := default

/-- All contents of strings in the tree stand for a text. -/
def Fine (tree : Node) : Prop :=
  ∀ content, tree.Has content → content.rule = .stringContent →
    ∃ made, unescape 0 content.text = .ok made

namespace Fine

variable {tree : Node}

theorem of_parts (hrule : tree.rule ≠ .stringContent) (hparts : ∀ part ∈ tree.parts, Fine part) :
    Fine tree := by
  intro content hcontent hstring
  cases hcontent with
  | self => exact absurd hstring hrule
  | part hpart hinner => exact hparts _ hpart content hinner hstring

theorem node {rule : Rule} {start : Cursor} {stop : Mark} {parts : List Node}
    (hrule : rule ≠ .stringContent) (hparts : ∀ part ∈ parts, Fine part) :
    Fine (.node rule start stop parts) := of_parts hrule hparts

theorem part {part : Node} (h : Fine tree) (hpart : part ∈ tree.parts) : Fine part :=
  fun content hcontent => h content (.part hpart hcontent)

end Fine

/-- The rule is one of those that take no nodes, other than the contents of strings. -/
def Rule.isLeaf : Rule → Bool
  | .finish | .qualifiedName | .keyword | .identifier | .constant | .selfPrefix | .typeRef
  | .opNegate | .opNot | .opOr | .opAnd | .opEq | .opNe | .opLe | .opGe | .opLt | .opGt
  | .opAdd | .opSub | .opMul | .opDiv | .opMod | .lengthOp | .boolean | .integer => true
  | _ => false

theorem fine_of_isLeaf {tree : Node} (h : Stems grammar tree) (hrule : tree.rule.isLeaf = true) :
    Fine tree := by
  have htakes := takes_of_stems h
  obtain ⟨rule, start, stop, parts⟩ := tree
  have hnil : parts.map ParseTree.rule = [] := by
    cases rule <;> first | exact htakes | cases hrule
  obtain rfl := List.map_eq_nil_iff.mp hnil
  refine .of_parts ?_ (List.forall_mem_nil _)
  rintro rfl
  cases hrule

/-- Contents that stand for a text are fine. -/
theorem fine_of_unescape {content : Node} (h : Stems grammar content)
    (hrule : content.rule = .stringContent) {made : List Char}
    (hmade : unescape 0 content.text = .ok made) : Fine content := by
  have htakes := takes_of_stems h
  rw [hrule] at htakes
  have hnil := List.map_eq_nil_iff.mp htakes
  intro inner hinner _
  cases hinner with
  | self => exact ⟨made, hmade⟩
  | part hpart _ =>
    rw [hnil] at hpart
    cases hpart

/-! ## Steps of building -/

/-- Both are refused, or both are made, the same after erasing, and then there is a fact that is
known of what they were made of. -/
inductive Matched {α β : Type} (fact : Prop) (erase : α → β) : Built α → Built α → Prop where
  | made {value value' : α} (hfact : fact) (heq : erase value = erase value') :
      Matched fact erase (.ok value) (.ok value')
  | refused {fault fault' : ReadFault} : Matched fact erase (.error fault) (.error fault')

theorem Matched.bind {α β γ δ : Type} {fact fact' : Prop} {erase : α → β} {erase' : γ → δ}
    {built built' : Built α} {next next' : α → Built γ} (h : Matched fact erase built built')
    (hnext : ∀ value value', fact → erase value = erase value' →
      Matched fact' erase' (next value) (next' value')) :
    Matched fact' erase' (built >>= next) (built' >>= next') := by
  cases h with
  | made hfact heq => exact hnext _ _ hfact heq
  | refused => exact .refused

theorem Matched.imp {α β : Type} {fact fact' : Prop} {erase : α → β} {built built' : Built α}
    (h : Matched fact erase built built') (himp : fact → fact') :
    Matched fact' erase built built' := by
  cases h with
  | made hfact heq => exact .made (himp hfact) heq
  | refused => exact .refused

/-! ## Nodes that are alike -/

/-- Nodes that are alike are of the same rule. -/
theorem Alike.rule_eq {node node' : Node} (h : Alike node node') : node.rule = node'.rule := by
  cases h
  rfl

/-- Where a rule is read without gaps, nodes that are alike cover the same text. -/
theorem Alike.text_eq {node node' : Node} (h : Alike node node')
    (hrule : node.rule.production.kind = .tight) : node.text = node'.text := by
  cases h with
  | node htext _ => exact htext hrule

section

variable {nodes nodes' : List Node} {rule : Rule}

/-- Where the rule of a first node is known, there are first nodes that are alike. -/
theorem alike_cons {rules : List Rule} (halike : List.Forall₂ Alike nodes nodes')
    (hrules : nodes.map ParseTree.rule = rule :: rules) :
    ∃ node node' rest rest', nodes = node :: rest ∧ nodes' = node' :: rest' ∧ node.rule = rule ∧
      Alike node node' ∧ rest.map ParseTree.rule = rules ∧ List.Forall₂ Alike rest rest' := by
  obtain ⟨node, rest, rfl, hrule, hrest⟩ := List.map_eq_cons_iff.mp hrules
  cases halike with
  | cons hnode hmore => exact ⟨_, _, _, _, rfl, rfl, hrule, hnode, hrest, hmore⟩

theorem alike_singleton (halike : List.Forall₂ Alike nodes nodes')
    (hrules : nodes.map ParseTree.rule = [rule]) :
    ∃ node node', nodes = [node] ∧ nodes' = [node'] ∧ node.rule = rule ∧ Alike node node' := by
  obtain ⟨node, node', rest, rest', rfl, rfl, hrule, hnode, hnil, hrest⟩ :=
    alike_cons halike hrules
  obtain rfl := List.map_eq_nil_iff.mp hnil
  cases hrest
  exact ⟨_, _, rfl, rfl, hrule, hnode⟩

end

/-! ## Names and literals -/

/-- The rule is one of those for names. -/
def Rule.isName (rule : Rule) : Prop := rule = .identifier ∨ rule = .constant

/-- Names that are alike are the same up to their places. -/
theorem alike_buildIdent {node node' : Node} (h : Stems grammar node) (halike : Alike node node')
    (hrule : node.rule.isName) :
    Fine node ∧ (buildIdent node).relabel placeless = (buildIdent node').relabel placeless := by
  have htext : node.text = node'.text := by
    refine halike.text_eq ?_
    rcases hrule with hrule | hrule <;> rw [hrule] <;> rfl
  refine ⟨fine_of_isLeaf h ?_, ?_⟩
  · rcases hrule with hrule | hrule <;> rw [hrule] <;> rfl
  · simp only [buildIdent, Ident.relabel, htext]
    rfl

/-- Types that are alike are the same up to their places. -/
theorem alike_buildTypeRef {node node' : Node} (h : Stems grammar node)
    (halike : Alike node node') (hrule : node.rule = .typeRef) :
    Fine node ∧
      (buildTypeRef node).relabel placeless = (buildTypeRef node').relabel placeless := by
  have htext : node.text = node'.text := halike.text_eq (by rw [hrule]; rfl)
  refine ⟨fine_of_isLeaf h (by rw [hrule]; rfl), ?_⟩
  simp only [buildTypeRef, TypeRef.relabel, htext]
  rfl

/-- Integers that are alike have the same value. -/
theorem matched_buildInteger {node node' : Node} (h : Stems grammar node)
    (halike : Alike node node') (hrule : node.rule = .integer) :
    Matched (Fine node) id (buildInteger node) (buildInteger node') := by
  have htext : node.text = node'.text := halike.text_eq (by rw [hrule]; rfl)
  unfold buildInteger
  rw [← htext]
  cases readInteger node.text with
  | some value => exact .made (fine_of_isLeaf h (by rw [hrule]; rfl)) rfl
  | none => exact .refused

/-- Contents of strings that are alike stand for the same text. -/
theorem matched_buildString {content content' : Node} (h : Stems grammar content)
    (halike : Alike content content') (hrule : content.rule = .stringContent) :
    Matched (Fine content) id (buildString content) (buildString content') := by
  have htext : content.text = content'.text := halike.text_eq (by rw [hrule]; rfl)
  unfold buildString
  rw [← htext]
  cases hmade : unescape 0 content.text with
  | ok made => exact .made (fine_of_unescape h hrule hmade) rfl
  | error _ => exact .refused

/-! ## Operators -/

/-- A row of operators without the places of its operands. -/
def placelessRow (row : List (BinaryOp × Expr)) : List (BinaryOp × Expr) :=
  row.map fun pair => (pair.1, pair.2.relabel placeless)

/-- Operands that wait without their places. -/
def placelessWaiting (waiting : List Waiting) : List Waiting :=
  waiting.map fun pair => (pair.1.relabel placeless, pair.2)

theorem placeless_applyPrefixes {ops ops' : List (UnaryOp × Span)} {operand operand' : Expr}
    (hops : ops.map Prod.fst = ops'.map Prod.fst)
    (h : operand.relabel placeless = operand'.relabel placeless) :
    (applyPrefixes ops operand).relabel placeless =
      (applyPrefixes ops' operand').relabel placeless := by
  induction ops generalizing ops' with
  | nil =>
    obtain rfl := List.map_eq_nil_iff.mp hops.symm
    exact h
  | cons op ops ih =>
    obtain ⟨op', rest, rfl, hop, hrest⟩ := List.map_eq_cons_iff.mp hops.symm
    have hinner := ih hrest.symm
    simp only [applyPrefixes, List.foldr_cons, applyUnary, Expr.relabel, hop] at hinner ⊢
    rw [hinner]
    rfl

theorem placeless_applyBinary (op : BinaryOp) {left left' right right' : Expr}
    (hleft : left.relabel placeless = left'.relabel placeless)
    (hright : right.relabel placeless = right'.relabel placeless) :
    (applyBinary op left right).relabel placeless =
      (applyBinary op left' right').relabel placeless := by
  simp only [applyBinary, Expr.relabel, hleft, hright]
  rfl

/-- Operands are taken up by their operators whatever their places are. -/
theorem placeless_reduce (level : Nat) {waiting waiting' : List Waiting} {right right' : Expr}
    (hwaiting : placelessWaiting waiting = placelessWaiting waiting')
    (hright : right.relabel placeless = right'.relabel placeless) :
    placelessWaiting (reduce level waiting right).1 =
        placelessWaiting (reduce level waiting' right').1 ∧
      (reduce level waiting right).2.relabel placeless =
        (reduce level waiting' right').2.relabel placeless := by
  induction waiting generalizing waiting' right right' with
  | nil =>
    obtain rfl := List.map_eq_nil_iff.mp hwaiting.symm
    exact ⟨rfl, hright⟩
  | cons pair waiting ih =>
    obtain ⟨left, op⟩ := pair
    obtain ⟨⟨left', op'⟩, rest, rfl, hpair, hrest⟩ := List.map_eq_cons_iff.mp hwaiting.symm
    obtain ⟨hleft, rfl⟩ := Prod.mk.inj hpair
    rw [reduce, reduce]
    split
    · exact ih hrest.symm (placeless_applyBinary _ hleft.symm hright)
    · exact ⟨hwaiting, hright⟩

theorem placeless_assembleFrom {row row' : List (BinaryOp × Expr)}
    (hrow : placelessRow row = placelessRow row') {waiting waiting' : List Waiting}
    {current current' : Expr} (hwaiting : placelessWaiting waiting = placelessWaiting waiting')
    (hcurrent : current.relabel placeless = current'.relabel placeless) :
    (assembleFrom waiting current row).relabel placeless =
      (assembleFrom waiting' current' row').relabel placeless := by
  induction row generalizing row' waiting waiting' current current' with
  | nil =>
    obtain rfl := List.map_eq_nil_iff.mp hrow.symm
    exact (placeless_reduce 0 hwaiting hcurrent).2
  | cons pair row ih =>
    obtain ⟨op, operand⟩ := pair
    obtain ⟨⟨op', operand'⟩, rest, rfl, hpair, hrest⟩ := List.map_eq_cons_iff.mp hrow.symm
    obtain ⟨rfl, hoperand⟩ := Prod.mk.inj hpair
    obtain ⟨hwaiting, hleft⟩ := placeless_reduce op'.level hwaiting hcurrent
    rw [assembleFrom, assembleFrom]
    refine ih hrest.symm ?_ hoperand.symm
    simp only [placelessWaiting, List.map_cons, hleft] at hwaiting ⊢
    rw [hwaiting]

/-! ## Expressions -/

/-- What is built from the node as an expression is built from every node alike. -/
def MatchesExpr (node : Node) : Prop :=
  ∀ {other : Node}, Alike node other →
    Matched (Fine node) (Expr.relabel placeless) (buildExpr node) (buildExpr other)

/-- The first operand of a row is the first of the right operands. -/
theorem buildOperand_eq (op : BinaryOp) (ops : List (UnaryOp × Span)) (fault : ReadFault)
    (nodes : List Node) : buildOperand ops fault nodes = (do
      match ← buildRight op ops fault nodes with
      | [] => .error fault
      | first :: row => .ok (assemble first.2 row)) := by
  induction nodes generalizing ops with
  | nil => rfl
  | cons node rest ih =>
    obtain ⟨rule, start, stop, parts⟩ := node
    rw [buildOperand, buildRight]
    cases unaryOp? rule with
    | some unary => exact ih _
    | none =>
      simp only
      cases buildExpr (.node rule start stop parts) with
      | error _ => rfl
      | ok first => cases buildRow fault rest <;> rfl

/-- An operator takes no nodes. -/
theorem isLeaf_of_op {rule : Rule}
    (h : (unaryOp? rule).isSome = true ∨ (binaryOp? rule).isSome = true) :
    rule.isLeaf = true := by
  revert h
  cases rule <;> simp [unaryOp?, binaryOp?, Rule.isLeaf]

/-- Rows of operators and operands that are alike give the same rows. -/
theorem matched_row {nodes nodes' : List Node} (halike : List.Forall₂ Alike nodes nodes')
    (hstems : ∀ node ∈ nodes, Stems grammar node) (hexpr : ∀ node ∈ nodes, MatchesExpr node) :
    (∀ {fault fault'}, Matched (∀ node ∈ nodes, Fine node) placelessRow
      (buildRow fault nodes) (buildRow fault' nodes')) ∧
    ∀ {op ops ops' fault fault'}, ops.map Prod.fst = ops'.map Prod.fst →
      Matched (∀ node ∈ nodes, Fine node) placelessRow
        (buildRight op ops fault nodes) (buildRight op ops' fault' nodes') := by
  induction halike with
  | nil => exact ⟨.made (List.forall_mem_nil _) rfl, fun _ => .refused⟩
  | @cons node node' rest rest' hnode _ ih =>
    obtain ⟨hnodeStems, hrestStems⟩ := List.forall_mem_cons.mp hstems
    obtain ⟨hnodeExpr, hrestExpr⟩ := List.forall_mem_cons.mp hexpr
    obtain ⟨hrow, hright⟩ := ih hrestStems hrestExpr
    have hrule := hnode.rule_eq
    have hmatches := hnodeExpr hnode
    obtain ⟨rule, start, stop, parts⟩ := node
    obtain ⟨rule', start', stop', parts'⟩ := node'
    obtain rfl : rule = rule' := hrule
    refine ⟨fun {fault fault'} => ?_, fun {op ops ops' fault fault'} hops => ?_⟩
    · -- between operands: a binary operator, or the row is refused
      rw [buildRow, buildRow]
      cases hbinary : binaryOp? rule with
      | none => exact .refused
      | some op =>
        have hleaf : rule.isLeaf = true := isLeaf_of_op (.inr (by rw [hbinary]; rfl))
        exact (hright rfl).imp fun hrest =>
          List.forall_mem_cons.mpr ⟨fine_of_isLeaf hnodeStems hleaf, hrest⟩
    · -- before an operand: one more unary operator, or the operand
      rw [buildRight, buildRight]
      cases hunary : unaryOp? rule with
      | some unary =>
        have hleaf : rule.isLeaf = true := isLeaf_of_op (.inl (by rw [hunary]; rfl))
        refine (hright ?_).imp fun hrest =>
          List.forall_mem_cons.mpr ⟨fine_of_isLeaf hnodeStems hleaf, hrest⟩
        rw [List.map_append, List.map_append, hops]
        rfl
      | none =>
        refine hmatches.bind fun operand operand' hfine hoperand => ?_
        refine hrow.bind fun row row' hrest hrows => ?_
        refine .made (List.forall_mem_cons.mpr ⟨hfine, hrest⟩) ?_
        have hfirst := placeless_applyPrefixes hops hoperand
        simp only [placelessRow, List.map_cons, hfirst] at hrows ⊢
        rw [hrows]

/-- Operator rows that are alike give the same tree. -/
theorem matched_buildOperand {nodes nodes' : List Node}
    (halike : List.Forall₂ Alike nodes nodes') (hstems : ∀ node ∈ nodes, Stems grammar node)
    (hexpr : ∀ node ∈ nodes, MatchesExpr node) {fault fault' : ReadFault} :
    Matched (∀ node ∈ nodes, Fine node) (Expr.relabel placeless)
      (buildOperand [] fault nodes) (buildOperand [] fault' nodes') := by
  -- the operator before the first operand is left out again
  rw [buildOperand_eq .or, buildOperand_eq .or]
  refine ((matched_row halike hstems hexpr).2 rfl).bind fun row row' hfine hrow => ?_
  -- there is a first operand in both or in neither
  cases row with
  | nil =>
    obtain rfl := List.map_eq_nil_iff.mp hrow.symm
    exact .refused
  | cons first row =>
    obtain ⟨first', rest, rfl, hfirst, hrest⟩ := List.map_eq_cons_iff.mp hrow.symm
    obtain ⟨-, hfirst⟩ := Prod.mk.inj hfirst
    exact .made hfine (placeless_assembleFrom hrest.symm rfl hfirst.symm)

theorem matched_buildExprs {nodes nodes' : List Node} (halike : List.Forall₂ Alike nodes nodes')
    (hexpr : ∀ node ∈ nodes, MatchesExpr node) :
    Matched (∀ node ∈ nodes, Fine node) (relabelExprs placeless)
      (buildExprs nodes) (buildExprs nodes') := by
  induction halike with
  | nil => exact .made (List.forall_mem_nil _) rfl
  | cons hnode _ ih =>
    obtain ⟨hnodeExpr, hrestExpr⟩ := List.forall_mem_cons.mp hexpr
    simp only [buildExprs]
    refine (hnodeExpr hnode).bind fun value value' hfine hvalue => ?_
    refine (ih hrestExpr).bind fun values values' hrest hvalues => ?_
    refine .made (List.forall_mem_cons.mpr ⟨hfine, hrest⟩) ?_
    rw [relabelExprs, relabelExprs, hvalue, hvalues]

/-- The arguments of calls that are alike are built alike. -/
theorem matched_buildArgLists {lists lists' : List Node}
    (halike : List.Forall₂ Alike lists lists')
    (hlists : Rule.AtMost .argList (lists.map ParseTree.rule))
    (hexpr : ∀ list ∈ lists, ∀ arg ∈ list.parts, MatchesExpr arg) :
    Matched (∀ list ∈ lists, Fine list) (relabelExprs placeless)
      (buildArgLists lists) (buildArgLists lists') := by
  rcases hlists with hnil | hone
  · obtain rfl := List.map_eq_nil_iff.mp hnil
    cases halike
    exact .made (List.forall_mem_nil _) rfl
  · obtain ⟨_, _, rfl, rfl, hrule, hlist⟩ := alike_singleton halike hone
    cases hlist with
    | node _ hargs =>
      refine (matched_buildExprs hargs (hexpr _ List.mem_cons_self)).imp fun hfine => ?_
      refine List.forall_mem_singleton.mpr (.of_parts ?_ hfine)
      rw [hrule]
      decide

/-- Suffixes that are alike are put after a value alike. -/
theorem matched_buildSuffixes {suffixes suffixes' : List Node}
    (halike : List.Forall₂ Alike suffixes suffixes')
    (hrules : ∀ suffix ∈ suffixes, suffix.rule.isSuffix)
    (hstems : ∀ suffix ∈ suffixes, Stems grammar suffix)
    (hexpr : ∀ suffix ∈ suffixes, ∀ part ∈ suffix.parts, MatchesExpr part)
    {fault fault' : ReadFault} {value value' : Expr}
    (hvalue : value.relabel placeless = value'.relabel placeless) :
    Matched (∀ suffix ∈ suffixes, Fine suffix) (Expr.relabel placeless)
      (buildSuffixes fault value suffixes) (buildSuffixes fault' value' suffixes') := by
  induction halike generalizing value value' with
  | nil => exact .made (List.forall_mem_nil _) hvalue
  | @cons suffix suffix' rest rest' hsuffix _ ih =>
    obtain ⟨hrule, hrestRules⟩ := List.forall_mem_cons.mp hrules
    obtain ⟨hsuffixStems, hrestStems⟩ := List.forall_mem_cons.mp hstems
    obtain ⟨hpart, hrestExpr⟩ := List.forall_mem_cons.mp hexpr
    have ih := @ih hrestRules hrestStems hrestExpr
    have htakes := takes_of_stems hsuffixStems
    cases hsuffix with
    | @node rule start start' stop stop' parts parts' _ hparts =>
      cases rule with
      | indexOp =>
        obtain ⟨position, _, rfl, rfl, -, hposition⟩ := alike_singleton hparts htakes
        simp only [buildSuffixes]
        refine (hpart _ List.mem_cons_self hposition).bind fun index index' hfine hindex => ?_
        refine (ih ?_).imp fun hrest => List.forall_mem_cons.mpr ⟨?_, hrest⟩
        · simp only [Expr.relabel, hvalue, hindex]
          rfl
        · exact .node (by decide) (List.forall_mem_singleton.mpr hfine)
      | lengthOp =>
        simp only [buildSuffixes]
        refine (ih ?_).imp fun hrest => List.forall_mem_cons.mpr ⟨?_, hrest⟩
        · simp only [Expr.relabel, hvalue]
          rfl
        · exact fine_of_isLeaf hsuffixStems rfl
      | _ => cases hrule

/-- Expressions that are alike are built alike. -/
theorem matches_buildExpr {tree : Node} (h : Stems grammar tree) : MatchesExpr tree := by
  refine h.induction (P := MatchesExpr) ?_
  intro tree hstems ih _ halike
  have htakes := takes_of_stems hstems
  cases halike with
  | @node rule start start' stop stop' parts parts' htext hparts =>
    have hexpr : ∀ part ∈ parts, MatchesExpr part := fun part hpart => ih part hpart part .self
    have hinner : ∀ part ∈ parts, ∀ inner ∈ part.parts, MatchesExpr inner :=
      fun part hpart inner hinner => ih part hpart inner (.part hinner .self)
    have hstemsParts : ∀ part ∈ parts, Stems grammar part := fun _ hpart => hstems.part hpart
    cases rule with
    | expression =>
      simp only [buildExpr]
      exact (matched_buildOperand hparts hstemsParts hexpr).imp (.node (by decide))
    | term =>
      -- a primary and its suffixes
      obtain ⟨rule, rules, -, hsuffixes, hmap⟩ := htakes
      obtain ⟨primary, _, suffixes, _, rfl, rfl, -, hfirst, rfl, hrest⟩ := alike_cons hparts hmap
      obtain ⟨-, hstemsSuffixes⟩ := List.forall_mem_cons.mp hstemsParts
      obtain ⟨hprimary, -⟩ := List.forall_mem_cons.mp hexpr
      obtain ⟨-, hinner⟩ := List.forall_mem_cons.mp hinner
      have hrules : ∀ suffix ∈ suffixes, suffix.rule.isSuffix := fun suffix hsuffix =>
        hsuffixes _ (List.mem_map_of_mem hsuffix)
      simp only [buildExpr]
      refine (hprimary hfirst).bind fun value value' hfine hvalue => ?_
      refine (matched_buildSuffixes hrest hrules hstemsSuffixes hinner hvalue).imp ?_
      exact fun hsuffixes => .node (by decide) (List.forall_mem_cons.mpr ⟨hfine, hsuffixes⟩)
    | boolean =>
      have htext : start.textTo stop = start'.textTo stop' := htext rfl
      simp only [buildExpr, ParseTree.text, htext]
      exact .made (fine_of_isLeaf hstems rfl) rfl
    | integer =>
      simp only [buildExpr]
      refine (matched_buildInteger hstems (.node htext hparts) rfl).bind ?_
      rintro value _ hfine rfl
      exact .made hfine rfl
    | string =>
      obtain ⟨content, _, rfl, rfl, hcontent, hcontents⟩ := alike_singleton hparts htakes
      have hstemsContent := hstems.part List.mem_cons_self
      simp only [buildExpr]
      refine (matched_buildString hstemsContent hcontents hcontent).bind ?_
      rintro value _ hfine rfl
      exact .made (.node (by decide) (List.forall_mem_singleton.mpr hfine)) rfl
    | staticCall =>
      -- a call on a class
      obtain ⟨rules, hlists, hmap⟩ := htakes
      obtain ⟨receiver, _, more, _, rfl, rfl, hreceiver, hfirst, hmore, hrest⟩ :=
        alike_cons hparts hmap
      obtain ⟨method, _, lists, _, rfl, rfl, hmethod, hsecond, rfl, hrest⟩ := alike_cons hrest hmore
      simp only [List.forall_mem_cons] at hinner hstemsParts
      obtain ⟨hreceiver, hname⟩ := alike_buildIdent hstemsParts.1 hfirst (.inr hreceiver)
      obtain ⟨hmethod, hname'⟩ := alike_buildIdent hstemsParts.2.1 hsecond (.inl hmethod)
      simp only [buildExpr]
      refine (matched_buildArgLists hrest hlists hinner.2.2).bind fun args args' hfine hargs => ?_
      refine .made (.node (by decide) ?_) ?_
      · exact List.forall_mem_cons.mpr ⟨hreceiver, List.forall_mem_cons.mpr ⟨hmethod, hfine⟩⟩
      · simp only [Expr.relabel, Option.map_some, hname, hname', hargs]
        rfl
    | localCall =>
      -- a call on the enclosing class
      obtain ⟨method, _, lists, _, rfl, rfl, hmethod, hfirst, hlists, hrest⟩ :=
        alike_cons hparts htakes
      simp only [List.forall_mem_cons] at hinner hstemsParts
      obtain ⟨hmethod, hname⟩ := alike_buildIdent hstemsParts.1 hfirst (.inl hmethod)
      simp only [buildExpr]
      refine (matched_buildArgLists hrest (.inr hlists) hinner.2).bind ?_
      intro args args' hfine hargs
      refine .made (.node (by decide) (List.forall_mem_cons.mpr ⟨hmethod, hfine⟩)) ?_
      simp only [Expr.relabel, hname, hargs]
      rfl
    | localName =>
      obtain ⟨name, _, rfl, rfl, hname, hnames⟩ := alike_singleton hparts htakes
      obtain ⟨hfine, hname⟩ := alike_buildIdent (hstems.part List.mem_cons_self) hnames (.inl hname)
      simp only [buildExpr]
      refine .made (.node (by decide) (List.forall_mem_singleton.mpr hfine)) ?_
      simp only [Expr.relabel, hname]
      rfl
    -- nodes of other rules are no expressions
    | _ => exact .refused

/-! ## Statements -/

/-- What is built from the node as a statement is built from every node alike. -/
def MatchesStmt (node : Node) : Prop :=
  ∀ {other : Node}, Alike node other →
    Matched (Fine node) (Stmt.relabel placeless) (buildStmt node) (buildStmt other)

/-- What is built from the node as a block is built from every node alike. -/
def MatchesBlock (node : Node) : Prop :=
  ∀ {other : Node}, node.rule = .block → Alike node other →
    Matched (Fine node) (Block.relabel placeless) (buildBlock node) (buildBlock other)

theorem matched_buildStmts {nodes nodes' : List Node} (halike : List.Forall₂ Alike nodes nodes')
    (hstmt : ∀ node ∈ nodes, MatchesStmt node) :
    Matched (∀ node ∈ nodes, Fine node) (relabelStmts placeless)
      (buildStmts nodes) (buildStmts nodes') := by
  induction halike with
  | nil =>
    simp only [buildStmts]
    exact .made (List.forall_mem_nil _) rfl
  | cons hnode _ ih =>
    obtain ⟨hnodeStmt, hrestStmt⟩ := List.forall_mem_cons.mp hstmt
    simp only [buildStmts]
    refine (hnodeStmt hnode).bind fun value value' hfine hvalue => ?_
    refine (ih hrestStmt).bind fun values values' hrest hvalues => ?_
    refine .made (List.forall_mem_cons.mpr ⟨hfine, hrest⟩) ?_
    rw [relabelStmts, relabelStmts, hvalue, hvalues]

/-- A condition and a block that are alike are built alike. -/
theorem matched_condition {parts parts' : List Node} {rules : List Rule}
    (halike : List.Forall₂ Alike parts parts')
    (hrules : parts.map ParseTree.rule = .expression :: .block :: rules)
    (hexpr : ∀ part ∈ parts, MatchesExpr part) (hblock : ∀ part ∈ parts, MatchesBlock part) :
    ∃ condition condition' body body' rest rest', parts = condition :: body :: rest ∧
      parts' = condition' :: body' :: rest' ∧ rest.map ParseTree.rule = rules ∧
      List.Forall₂ Alike rest rest' ∧
      Matched (Fine condition) (Expr.relabel placeless) (buildExpr condition)
        (buildExpr condition') ∧
      Matched (Fine body) (Block.relabel placeless) (buildBlock body) (buildBlock body') := by
  obtain ⟨condition, _, more, _, rfl, rfl, -, hfirst, hmore, halike⟩ := alike_cons halike hrules
  obtain ⟨body, _, rest, _, rfl, rfl, hbody, hsecond, hrest, halike⟩ := alike_cons halike hmore
  simp only [List.forall_mem_cons] at hexpr hblock
  exact ⟨_, _, _, _, _, _, rfl, rfl, hrest, halike, hexpr.1 hfirst, hblock.2.1 hbody hsecond⟩

/-- The branches of conditionals that are alike are built alike. -/
theorem matched_buildClauses {clauses clauses' : List Node}
    (halike : List.Forall₂ Alike clauses clauses')
    (hrules : ∃ before last, (∀ clause ∈ before, clause = .elsifClause) ∧
      Rule.AtMost .elseClause last ∧ clauses.map ParseTree.rule = before ++ last)
    (hstems : ∀ clause ∈ clauses, Stems grammar clause)
    (hexpr : ∀ clause ∈ clauses, ∀ part ∈ clause.parts, MatchesExpr part)
    (hblock : ∀ clause ∈ clauses, ∀ part ∈ clause.parts, MatchesBlock part) :
    Matched (∀ clause ∈ clauses, Fine clause) (Chain.relabel placeless)
      (buildClauses clauses) (buildClauses clauses') := by
  induction halike with
  | nil =>
    simp only [buildClauses]
    exact .made (List.forall_mem_nil _) rfl
  | @cons clause clause' rest rest' hclause hrestAlike ih =>
    obtain ⟨before, last, hbefore, hlast, hmap⟩ := hrules
    obtain ⟨hclauseStems, hrestStems⟩ := List.forall_mem_cons.mp hstems
    obtain ⟨hclauseExpr, hrestExpr⟩ := List.forall_mem_cons.mp hexpr
    obtain ⟨hclauseBlock, hrestBlock⟩ := List.forall_mem_cons.mp hblock
    have ih := fun hrules => ih hrules hrestStems hrestExpr hrestBlock
    have htakes := takes_of_stems hclauseStems
    cases hclause with
    | @node rule start start' stop stop' parts parts' _ hparts =>
      cases before with
      -- a condition of its own, and the clauses behind it
      | cons first before =>
        obtain ⟨hfirst, hmoreBefore⟩ := List.forall_mem_cons.mp hbefore
        obtain ⟨hrule, hrest⟩ := List.cons.inj hmap
        have hrule : rule = .elsifClause := hrule.trans hfirst
        subst hrule
        obtain ⟨_, _, _, _, more, _, rfl, rfl, hnil, -, hcondition, hbody⟩ :=
          matched_condition hparts htakes hclauseExpr hclauseBlock
        obtain rfl := List.map_eq_nil_iff.mp hnil
        have hbranches := ih ⟨before, last, hmoreBefore, hlast, hrest⟩
        simp only [buildClauses]
        refine hcondition.bind fun value value' hvalueFine hvalue => ?_
        refine hbody.bind fun block block' hblockFine hblock => ?_
        refine hbranches.bind fun chain chain' hchainFine hchain => ?_
        refine .made (List.forall_mem_cons.mpr ⟨.node (by decide) ?_, hchainFine⟩) ?_
        · exact List.forall_mem_cons.mpr ⟨hvalueFine, List.forall_mem_singleton.mpr hblockFine⟩
        · rw [Chain.relabel, Chain.relabel, hvalue, hblock, hchain]
      | nil =>
        -- only the last clause has no condition
        rcases hlast with rfl | rfl
        · cases hmap
        · obtain ⟨hrule, hrest⟩ := List.cons.inj hmap
          have hrule : rule = .elseClause := hrule
          subst hrule
          obtain rfl := List.map_eq_nil_iff.mp hrest
          cases hrestAlike
          obtain ⟨body, _, rfl, rfl, hbody, hbodies⟩ := alike_singleton hparts htakes
          simp only [buildClauses]
          refine (hclauseBlock body List.mem_cons_self hbody hbodies).bind ?_
          intro block block' hfine hblock
          refine .made (List.forall_mem_singleton.mpr (.node (by decide) ?_)) ?_
          · exact List.forall_mem_singleton.mpr hfine
          · rw [Chain.relabel, Chain.relabel, hblock]

/-- Conditionals that are alike are built alike. -/
theorem matched_conditional {start start' : Cursor} {stop stop' : Mark} {parts parts' : List Node}
    (h : Stems grammar (.node .ifStmt start stop parts))
    (halike : List.Forall₂ Alike parts parts') (hblock : ∀ part ∈ parts, MatchesBlock part)
    (hinner : ∀ part ∈ parts, ∀ inner ∈ part.parts, MatchesBlock inner) :
    Matched (Fine (.node .ifStmt start stop parts)) (Stmt.relabel placeless)
      (buildStmt (.node .ifStmt start stop parts))
      (buildStmt (.node .ifStmt start' stop' parts')) := by
  have hexpr : ∀ part ∈ parts, MatchesExpr part := fun _ hpart => matches_buildExpr (h.part hpart)
  obtain ⟨before, last, hbefore, hlast, hmap⟩ := takes_of_stems h
  obtain ⟨first, _, second, _, clauses, _, rfl, rfl, hclauses, hmore, hcondition, hbody⟩ :=
    matched_condition halike hmap hexpr hblock
  have hclause : ∀ clause ∈ clauses, clause ∈ first :: second :: clauses := fun _ hclause =>
    List.mem_cons_of_mem _ (List.mem_cons_of_mem _ hclause)
  have hstems : ∀ clause ∈ clauses, Stems grammar clause := fun clause hmem =>
    h.part (hclause clause hmem)
  have hbranches := matched_buildClauses hmore ⟨before, last, hbefore, hlast, hclauses⟩ hstems
    (fun clause hmem part hpart => matches_buildExpr ((hstems clause hmem).part hpart))
    (fun clause hmem part hpart => hinner clause (hclause clause hmem) part hpart)
  simp only [buildStmt]
  refine hcondition.bind fun value value' hvalueFine hvalue => ?_
  refine hbody.bind fun block block' hblockFine hblock => ?_
  refine hbranches.bind fun chain chain' hchainFine hchain => ?_
  refine .made (.node (by decide) ?_) ?_
  · exact List.forall_mem_cons.mpr
      ⟨hvalueFine, List.forall_mem_cons.mpr ⟨hblockFine, hchainFine⟩⟩
  · simp only [Stmt.relabel, Chain.relabel, hvalue, hblock, hchain]
    rfl

/-- Statements and blocks that are alike are built alike. -/
theorem matches_buildStmt_and_block {tree : Node} (h : Stems grammar tree) :
    MatchesStmt tree ∧ MatchesBlock tree := by
  refine h.induction (P := fun tree => MatchesStmt tree ∧ MatchesBlock tree) ?_
  intro tree hstems ih
  have htakes := takes_of_stems hstems
  have hexpr : ∀ part ∈ tree.parts, MatchesExpr part := fun part hpart =>
    matches_buildExpr (hstems.part hpart)
  have hblock : ∀ part ∈ tree.parts, MatchesBlock part := fun part hpart =>
    (ih part hpart part .self).2
  constructor
  · intro _ halike
    cases halike with
    | @node rule start start' stop stop' parts parts' _ hparts =>
      cases rule with
      | exprStmt | putsStmt | raiseStmt =>
        obtain ⟨_, _, rfl, rfl, -, hvalue⟩ := alike_singleton hparts htakes
        simp only [buildStmt]
        refine (hexpr _ List.mem_cons_self hvalue).bind fun value value' hfine hvalue => ?_
        refine .made (.node (by decide) (List.forall_mem_singleton.mpr hfine)) ?_
        simp only [Stmt.relabel, hvalue]
        rfl
      | returnStmt =>
        rcases htakes with hnil | hmap
        · obtain rfl := List.map_eq_nil_iff.mp hnil
          cases hparts
          simp only [buildStmt]
          exact .made (.node (by decide) (List.forall_mem_nil _)) rfl
        · obtain ⟨_, _, rfl, rfl, -, hvalue⟩ := alike_singleton hparts hmap
          simp only [buildStmt]
          refine (hexpr _ List.mem_cons_self hvalue).bind fun value value' hfine hvalue => ?_
          refine .made (.node (by decide) (List.forall_mem_singleton.mpr hfine)) ?_
          simp only [Stmt.relabel, hvalue]
          rfl
      | assignment =>
        obtain ⟨target, _, _, _, rfl, rfl, htarget, hfirst, hmore, hrest⟩ :=
          alike_cons hparts htakes
        obtain ⟨value, _, rfl, rfl, -, hsecond⟩ := alike_singleton hrest hmore
        have htargetStems := hstems.part List.mem_cons_self
        obtain ⟨htarget, hname⟩ := alike_buildIdent htargetStems hfirst (.inl htarget)
        have hvalue := hexpr value (List.mem_cons_of_mem _ List.mem_cons_self) hsecond
        simp only [buildStmt]
        refine hvalue.bind fun value value' hfine hvalue => ?_
        refine .made (.node (by decide) (List.forall_mem_cons.mpr ⟨htarget, ?_⟩)) ?_
        · exact List.forall_mem_singleton.mpr hfine
        · simp only [Stmt.relabel, hname, hvalue]
          rfl
      | ifStmt =>
        exact matched_conditional hstems hparts hblock fun part hpart inner hinner =>
          (ih part hpart inner (.part hinner .self)).2
      | whileStmt =>
        obtain ⟨_, _, _, _, rest, _, rfl, rfl, hnil, -, hcondition, hbody⟩ :=
          matched_condition hparts htakes hexpr hblock
        obtain rfl := List.map_eq_nil_iff.mp hnil
        simp only [buildStmt]
        refine hcondition.bind fun value value' hvalueFine hvalue => ?_
        refine hbody.bind fun block block' hblockFine hblock => ?_
        refine .made (.node (by decide) ?_) ?_
        · exact List.forall_mem_cons.mpr ⟨hvalueFine, List.forall_mem_singleton.mpr hblockFine⟩
        · simp only [Stmt.relabel, hvalue, hblock]
          rfl
      | _ => exact .refused
  · intro _ hrule halike
    cases halike with
    | node _ hparts =>
      simp only [buildBlock]
      have hstmts := matched_buildStmts hparts fun part hpart => (ih part hpart part .self).1
      refine hstmts.bind fun stmts stmts' hfine hstmts => ?_
      refine .made (.of_parts (by rw [hrule]; decide) hfine) ?_
      rw [Block.relabel, Block.relabel, hstmts]
      rfl

/-! ## Definitions -/

/-- Parameters that are alike are built alike. -/
theorem matched_buildParam {node node' : Node} (h : Stems grammar node) (halike : Alike node node')
    (hrule : node.rule = .parameter) :
    Matched (Fine node) (Param.relabel placeless) (buildParam node) (buildParam node') := by
  have htakes := takes_of_stems h
  cases halike with
  | node _ hparts =>
    cases hrule
    obtain ⟨name, _, _, _, rfl, rfl, hname, hfirst, hmore, hrest⟩ := alike_cons hparts htakes
    obtain ⟨type, _, rfl, rfl, htype, hsecond⟩ := alike_singleton hrest hmore
    have hnameStems := h.part List.mem_cons_self
    have htypeStems := h.part (List.mem_cons_of_mem _ List.mem_cons_self)
    obtain ⟨hnameFine, hname⟩ := alike_buildIdent hnameStems hfirst (.inl hname)
    obtain ⟨htypeFine, htype⟩ := alike_buildTypeRef htypeStems hsecond htype
    simp only [buildParam, ParseTree.parts]
    refine .made (.node (by decide) (List.forall_mem_cons.mpr ⟨hnameFine, ?_⟩)) ?_
    · exact List.forall_mem_singleton.mpr htypeFine
    · simp only [Param.relabel, hname, htype]
      rfl

theorem matched_buildParams {nodes nodes' : List Node} (halike : List.Forall₂ Alike nodes nodes')
    (hstems : ∀ node ∈ nodes, Stems grammar node)
    (hrules : ∀ node ∈ nodes, node.rule = .parameter) :
    Matched (∀ node ∈ nodes, Fine node) (List.map (Param.relabel placeless))
      (nodes.mapM buildParam) (nodes'.mapM buildParam) := by
  induction halike with
  | nil => exact .made (List.forall_mem_nil _) rfl
  | cons hnode _ ih =>
    obtain ⟨hnodeStems, hrestStems⟩ := List.forall_mem_cons.mp hstems
    obtain ⟨hrule, hrestRules⟩ := List.forall_mem_cons.mp hrules
    rw [List.mapM_cons, List.mapM_cons]
    refine (matched_buildParam hnodeStems hnode hrule).bind fun param param' hfine hparam => ?_
    refine (ih hrestStems hrestRules).bind fun params params' hrest hparams => ?_
    refine .made (List.forall_mem_cons.mpr ⟨hfine, hrest⟩) ?_
    rw [List.map_cons, List.map_cons, hparam, hparams]

/-- The parts of a method met so far, without their places. -/
def MethodParts.placeless (made : MethodParts) : MethodParts where
  isStatic := made.isStatic
  name := made.name.map (Ident.relabel Syntax.placeless)
  params := made.params.map (Param.relabel Syntax.placeless)
  ret := made.ret.map (TypeRef.relabel Syntax.placeless)
  body := made.body.map (Block.relabel Syntax.placeless)

/-- Parts of methods that are alike are taken alike. -/
theorem matched_add {part part' : Node} (h : Stems grammar part) (halike : Alike part part')
    (hrule : part.rule ∈ methodRules) {made made' : MethodParts}
    (hmade : made.placeless = made'.placeless) :
    Matched (Fine part) MethodParts.placeless (made.add part) (made'.add part') := by
  have htakes := takes_of_stems h
  obtain ⟨isStatic, name, params, ret, body⟩ := made
  obtain ⟨isStatic', name', params', ret', body'⟩ := made'
  obtain ⟨rfl, hname, hparams, hret, hbody⟩ := MethodParts.mk.inj hmade
  simp only [methodRules, List.mem_cons, List.not_mem_nil, or_false] at hrule
  have hrule' := halike.rule_eq
  rcases hrule with hrule | hrule | hrule | hrule | hrule <;> rw [hrule] at htakes hrule' <;>
    simp only [MethodParts.add, hrule, ← hrule']
  · -- the prefix
    exact .made (fine_of_isLeaf h (by rw [hrule]; rfl))
      (by simp only [MethodParts.placeless, hname, hparams, hret, hbody])
  · -- the name
    obtain ⟨hfine, hident⟩ := alike_buildIdent h halike (.inl hrule)
    exact .made hfine
      (by simp only [MethodParts.placeless, Option.map_some, hident, hparams, hret, hbody])
  · -- the parameters
    cases halike with
    | @node _ _ _ _ _ parts _ _ hparts =>
      have hrules : ∀ part ∈ parts, part.rule = .parameter := fun part hpart =>
        htakes part.rule (List.mem_map_of_mem hpart)
      refine (matched_buildParams hparts (fun _ hpart => h.part hpart) hrules).bind ?_
      intro params params' hfine hparams
      exact .made (.of_parts (by rw [hrule]; decide) hfine)
        (by simp only [MethodParts.placeless, hname, hparams, hret, hbody])
  · -- the return type
    cases halike with
    | node _ hparts =>
      obtain ⟨type, _, rfl, rfl, htype, htypes⟩ := alike_singleton hparts htakes
      obtain ⟨hfine, hwritten⟩ := alike_buildTypeRef (h.part List.mem_cons_self) htypes htype
      refine .made (.of_parts (by rw [hrule]; decide) (List.forall_mem_singleton.mpr hfine)) ?_
      simp only [MethodParts.placeless, Option.map_some, hname, hparams, hwritten, hbody]
  · -- the body
    refine ((matches_buildStmt_and_block h).2 hrule halike).bind fun block block' hfine hblock => ?_
    exact .made hfine
      (by simp only [MethodParts.placeless, Option.map_some, hname, hparams, hret, hblock])

theorem matched_foldlM_add {parts parts' : List Node} (halike : List.Forall₂ Alike parts parts')
    (hstems : ∀ part ∈ parts, Stems grammar part)
    (hrules : ∀ part ∈ parts, part.rule ∈ methodRules) {made made' : MethodParts}
    (hmade : made.placeless = made'.placeless) :
    Matched (∀ part ∈ parts, Fine part) MethodParts.placeless
      (parts.foldlM MethodParts.add made) (parts'.foldlM MethodParts.add made') := by
  induction halike generalizing made made' with
  | nil => exact .made (List.forall_mem_nil _) hmade
  | cons hpart _ ih =>
    obtain ⟨hpartStems, hrestStems⟩ := List.forall_mem_cons.mp hstems
    obtain ⟨hrule, hrestRules⟩ := List.forall_mem_cons.mp hrules
    rw [List.foldlM_cons, List.foldlM_cons]
    refine (matched_add hpartStems hpart hrule hmade).bind fun next next' hfine hnext => ?_
    exact (ih hrestStems hrestRules hnext).imp fun hrest =>
      List.forall_mem_cons.mpr ⟨hfine, hrest⟩

/-- Methods that are alike are built alike. -/
theorem matched_buildMethod {tree tree' : Node} (h : Stems grammar tree) (halike : Alike tree tree')
    (hrule : tree.rule = .methodDef) :
    Matched (Fine tree) (Method.relabel placeless) (buildMethod tree) (buildMethod tree') := by
  have hrules : ∀ part ∈ tree.parts, part.rule ∈ methodRules := fun _ hpart =>
    mem_methodRules h hrule hpart
  cases halike with
  | node _ hparts =>
    refine (matched_foldlM_add hparts (fun _ hpart => h.part hpart) hrules rfl).bind ?_
    intro made made' hfine hmade
    obtain ⟨isStatic, name, params, ret, body⟩ := made
    obtain ⟨isStatic', name', params', ret', body'⟩ := made'
    obtain ⟨rfl, hname, hparams, hret, hbody⟩ := MethodParts.mk.inj hmade
    -- the name and the body have been met in both, or in neither
    cases name with
    | none =>
      obtain rfl := Option.map_eq_none_iff.mp hname.symm
      exact .refused
    | some name =>
      obtain ⟨name', rfl, hident⟩ := Option.map_eq_some_iff.mp hname.symm
      cases body with
      | none =>
        obtain rfl := Option.map_eq_none_iff.mp hbody.symm
        exact .refused
      | some body =>
        obtain ⟨body', rfl, hblock⟩ := Option.map_eq_some_iff.mp hbody.symm
        refine .made (.of_parts (by rw [hrule]; decide) hfine) ?_
        simp only [Method.relabel, hident, hparams, hret, hblock]
        rfl

/-- What is built from the node as a class is built from every node alike. -/
def MatchesClass (node : Node) : Prop :=
  ∀ {other : Node}, Alike node other →
    Matched (Fine node) (ClassDef.relabel placeless) (buildClass node) (buildClass other)

theorem matched_buildMembers {nodes nodes' : List Node} (halike : List.Forall₂ Alike nodes nodes')
    (hstems : ∀ node ∈ nodes, Stems grammar node) (hrules : ∀ node ∈ nodes, node.rule.isMember)
    (hclass : ∀ node ∈ nodes, MatchesClass node) :
    Matched (∀ node ∈ nodes, Fine node) (relabelMembers placeless)
      (buildMembers nodes) (buildMembers nodes') := by
  induction halike with
  | nil =>
    simp only [buildMembers]
    exact .made (List.forall_mem_nil _) rfl
  | @cons node node' rest rest' hnode _ ih =>
    obtain ⟨hnodeStems, hrestStems⟩ := List.forall_mem_cons.mp hstems
    obtain ⟨hrule, hrestRules⟩ := List.forall_mem_cons.mp hrules
    obtain ⟨hnodeClass, hrestClass⟩ := List.forall_mem_cons.mp hclass
    have ih := ih hrestStems hrestRules hrestClass
    have hnodeClass := @hnodeClass node' hnode
    have hnodeMethod := matched_buildMethod hnodeStems hnode
    have hsame := hnode.rule_eq
    obtain ⟨rule, start, stop, parts⟩ := node
    obtain ⟨rule', start', stop', parts'⟩ := node'
    obtain rfl : rule = rule' := hsame
    cases rule with
    | classDef =>
      simp only [buildMembers]
      refine hnodeClass.bind fun c c' hfine hc => ?_
      refine ih.bind fun members members' hrest hmembers => ?_
      refine .made (List.forall_mem_cons.mpr ⟨hfine, hrest⟩) ?_
      rw [relabelMembers, relabelMembers, hc, hmembers]
    | methodDef =>
      simp only [buildMembers]
      refine (hnodeMethod rfl).bind fun m m' hfine hm => ?_
      refine ih.bind fun members members' hrest hmembers => ?_
      refine .made (List.forall_mem_cons.mpr ⟨hfine, hrest⟩) ?_
      rw [relabelMembers, relabelMembers, hm, hmembers]
    | _ => cases hrule

/-- Classes that are alike are built alike. -/
theorem matches_buildClass {tree : Node} (h : Stems grammar tree) : MatchesClass tree := by
  refine h.induction (P := MatchesClass) ?_
  intro tree hstems ih _ halike
  have htakes := takes_of_stems hstems
  have hclass : ∀ part ∈ tree.parts, MatchesClass part := fun part hpart =>
    ih part hpart part .self
  cases halike with
  | @node rule start start' stop stop' parts parts' _ hparts =>
    cases rule with
    | classDef =>
      obtain ⟨rules, hrules, hmap⟩ := htakes
      obtain ⟨name, _, members, _, rfl, rfl, hname, hfirst, rfl, hrest⟩ := alike_cons hparts hmap
      have hnameStems := hstems.part List.mem_cons_self
      have hmemberStems : ∀ member ∈ members, Stems grammar member := fun _ hmember =>
        hstems.part (List.mem_cons_of_mem _ hmember)
      have hmemberRules : ∀ member ∈ members, member.rule.isMember := fun _ hmember =>
        hrules _ (List.mem_map_of_mem hmember)
      obtain ⟨-, hclass⟩ := List.forall_mem_cons.mp hclass
      obtain ⟨hnameFine, hname⟩ := alike_buildIdent hnameStems hfirst (.inr hname)
      simp only [buildClass]
      refine (matched_buildMembers hrest hmemberStems hmemberRules hclass).bind ?_
      intro members members' hfine hmembers
      refine .made (.node (by decide) (List.forall_mem_cons.mpr ⟨hnameFine, hfine⟩)) ?_
      simp only [ClassDef.relabel, hname, hmembers]
      rfl
    | _ => exact .refused

/-! ## Units -/

/-- Items that are alike are built alike. -/
theorem matched_buildItem {node node' : Node} (h : Stems grammar node)
    (halike : Alike node node') :
    Matched (Fine node) (Item.relabel placeless) (buildItem node) (buildItem node') := by
  unfold buildItem
  rw [← halike.rule_eq]
  split
  · refine (matches_buildClass h halike).bind fun c c' hfine hc => .made hfine ?_
    rw [Item.relabel, Item.relabel, hc]
  · refine (matched_buildMethod h halike ‹_›).bind fun m m' hfine hm => .made hfine ?_
    rw [Item.relabel, Item.relabel, hm]
  · refine ((matches_buildStmt_and_block h).1 halike).bind fun s s' hfine hs => .made hfine ?_
    rw [Item.relabel, Item.relabel, hs]

/-- Package declarations that are alike are built alike. -/
theorem matched_buildPackage {node node' : Node} (h : Stems grammar node)
    (halike : Alike node node') (hrule : node.rule = .packageDecl) :
    Matched (Fine node) (Package.relabel placeless) (buildPackage node) (buildPackage node') := by
  have htakes := takes_of_stems h
  cases halike with
  | node _ hparts =>
    cases hrule
    obtain ⟨name, _, rfl, rfl, hname, hnames⟩ := alike_singleton hparts htakes
    have hfine := fine_of_isLeaf (h.part List.mem_cons_self) (by rw [hname]; rfl)
    have htext := hnames.text_eq (by rw [hname]; rfl)
    simp only [buildPackage, ParseTree.parts]
    refine .made (.node (by decide) (List.forall_mem_singleton.mpr hfine)) ?_
    simp only [Package.relabel, htext]
    rfl

/-- The package declaration and the items of a unit, without their places. -/
def placelessParts (parts : Option Package × List Item) : Option Package × List Item :=
  (parts.1.map (Package.relabel placeless), parts.2.map (Item.relabel placeless))

theorem matched_buildParts {nodes nodes' : List Node} (halike : List.Forall₂ Alike nodes nodes')
    (hstems : ∀ node ∈ nodes, Stems grammar node) :
    Matched (∀ node ∈ nodes, Fine node) placelessParts (buildParts nodes) (buildParts nodes') := by
  induction halike with
  | nil => exact .made (List.forall_mem_nil _) rfl
  | cons hnode _ ih =>
    obtain ⟨hnodeStems, hrestStems⟩ := List.forall_mem_cons.mp hstems
    have ih := ih hrestStems
    rw [buildParts, buildParts, ← hnode.rule_eq]
    split
    · -- of the package declaration and those after it, this one is kept
      refine (matched_buildPackage hnodeStems hnode ‹_›).bind fun package package' hfine hp => ?_
      refine ih.bind fun parts parts' hrest hparts => ?_
      refine .made (List.forall_mem_cons.mpr ⟨hfine, hrest⟩) ?_
      obtain ⟨-, hitems⟩ := Prod.mk.inj hparts
      simp only [placelessParts, Option.map_some, hp, hitems]
    · rename_i hrule
      exact ih.imp fun hrest =>
        List.forall_mem_cons.mpr ⟨fine_of_isLeaf hnodeStems (by rw [hrule]; rfl), hrest⟩
    · refine (matched_buildItem hnodeStems hnode).bind fun item item' hfine hitem => ?_
      refine ih.bind fun parts parts' hrest hparts => ?_
      refine .made (List.forall_mem_cons.mpr ⟨hfine, hrest⟩) ?_
      obtain ⟨hpackage, hitems⟩ := Prod.mk.inj hparts
      simp only [placelessParts, List.map_cons, hitem, hpackage, hitems]

/-- **From parse trees of units that are alike the same unit is built, up to the places of its
nodes, or none from either.** Where one is built, all its strings stand for texts. -/
theorem matched_buildProgram {tree tree' : Node} (h : Stems grammar tree)
    (halike : Alike tree tree') (hrule : tree.rule = .program) (source : String) :
    Matched (Fine tree) (Program.relabel placeless)
      (buildProgram source tree) (buildProgram source tree') := by
  cases halike with
  | node _ hparts =>
    refine (matched_buildParts hparts fun _ hpart => h.part hpart).bind ?_
    intro parts parts' hfine heq
    refine .made (.of_parts (by rw [hrule]; decide) hfine) ?_
    obtain ⟨hpackage, hitems⟩ := Prod.mk.inj heq
    simp only [Program.relabel, hpackage, hitems]
    rfl

end StackScript.Syntax

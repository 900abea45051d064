import StackScript.Proofs.Spans

/-!
# Rows of operators are grouped in their order

`operatorTiers` says which operators bind tighter than which. `OpTree` is the part of an expression
that a row of operators and operands makes: its operators, down to the operands, which stay whole. A
tree is `Grouped` when a unary operator holds nothing but the operand after it and the operators
before that, and when the operator of a left operand binds at least as tightly as its own one and
that of a right operand strictly tighter. Putting a row together keeps its tokens in order and makes
a grouped tree (`grouped_assemble`), and no other grouped tree has the same tokens
(`OpTree.eq_of_tokens`).
-/

namespace StackScript.Syntax

open StackScript.Grammar StackScript.Source

/-! ## The order of the operators -/

/-- The operators between operands, from those that bind least to those that bind tightest; those of
one tier bind alike. -/
def operatorTiers : List (List BinaryOp) :=
  [[.or], [.and], [.eq, .ne], [.lt, .le, .gt, .ge], [.add, .sub], [.mul, .div, .mod]]

/-- The place of an operator in the order. -/
def BinaryOp.tier (op : BinaryOp) : Nat := operatorTiers.findIdx (·.contains op)

theorem BinaryOp.level_eq_tier (op : BinaryOp) : op.level = op.tier := by
  cases op <;> rfl

/-- The rules that operators are read by. -/
def operatorRules : List (Rule × BinaryOp) :=
  [(.opOr, .or), (.opAnd, .and), (.opEq, .eq), (.opNe, .ne), (.opLt, .lt), (.opLe, .le),
    (.opGt, .gt), (.opGe, .ge), (.opAdd, .add), (.opSub, .sub), (.opMul, .mul), (.opDiv, .div),
    (.opMod, .mod)]

/-! ## Trees over rows -/

/-- What a row is made of. -/
inductive Token where
  | unary (op : UnaryOp × Span)
  | operand (value : Expr)
  | binary (op : BinaryOp)

/-- The operators of a row over its operands. -/
inductive OpTree where
  | operand (value : Expr)
  | unary (op : UnaryOp × Span) (tree : OpTree)
  | binary (op : BinaryOp) (left right : OpTree)

namespace OpTree

/-- The expression that the tree stands for. -/
def expr : OpTree → Expr
  | operand value => value
  | unary op tree => .unary op.1 tree.expr ⟨op.2.merge tree.expr.span, none⟩
  | binary op left right =>
    .binary op left.expr right.expr ⟨left.expr.span.merge right.expr.span, none⟩

/-- The tree read in order. -/
def tokens : OpTree → List Token
  | operand value => [.operand value]
  | unary op tree => .unary op :: tree.tokens
  | binary op left right => left.tokens ++ .binary op :: right.tokens

/-- How tightly the operator at the root binds, if it stands between operands. -/
def tier? : OpTree → Option Nat
  | binary op _ _ => some op.tier
  | operand _ | unary _ _ => none

/-- The operator at the root binds at least as tightly as the tier, if it stands between
operands. -/
def Binds (tier : Nat) (tree : OpTree) : Prop := ∀ own ∈ tree.tier?, tier ≤ own

/-- A unary operator is applied to a whole operand with the unary operators before it; the left
operand of a binary operator binds at least as tightly, its right operand strictly tighter. -/
def Grouped : OpTree → Prop
  | operand _ => True
  | unary _ tree => tree.tier? = none ∧ tree.Grouped
  | binary op left right =>
    (left.Binds op.tier ∧ right.Binds (op.tier + 1)) ∧ left.Grouped ∧ right.Grouped

theorem Binds.mono {level lower : Nat} {tree : OpTree} (h : tree.Binds level)
    (hle : lower ≤ level) : tree.Binds lower := fun own hown =>
  Nat.le_trans hle (h own hown)

theorem binds_of_tier? {tree : OpTree} (h : tree.tier? = none) (level : Nat) :
    tree.Binds level := by
  intro own hown
  rw [h] at hown
  cases hown

/-! ## A grouped tree is determined by its tokens -/

/-- No operator between operands binds less tightly than the one at the root. -/
theorem tier?_le {tree : OpTree} (h : tree.Grouped) {op : BinaryOp}
    (hop : .binary op ∈ tree.tokens) : ∃ own ∈ tree.tier?, own ≤ op.tier := by
  induction tree with
  | operand value => simp [tokens] at hop
  | unary _ tree ih =>
    obtain ⟨own, hown, -⟩ := ih h.2 (by simpa [tokens] using hop)
    rw [h.1] at hown
    cases hown
  | binary root left right hleft hright =>
    obtain ⟨⟨hleftBinds, hrightBinds⟩, hleftGrouped, hrightGrouped⟩ := h
    refine ⟨root.tier, rfl, ?_⟩
    simp only [tokens, List.mem_append, List.mem_cons, Token.binary.injEq] at hop
    rcases hop with hop | rfl | hop
    · obtain ⟨own, hown, hle⟩ := hleft hleftGrouped hop
      exact Nat.le_trans (hleftBinds own hown) hle
    · exact Nat.le_refl _
    · obtain ⟨own, hown, hle⟩ := hright hrightGrouped hop
      exact Nat.le_of_succ_le (Nat.le_trans (hrightBinds own hown) hle)

/-- A tree whose root is not an operator between operands has no such operator at all. -/
theorem binary_not_mem {tree : OpTree} (h : tree.Grouped) (hlevel : tree.tier? = none)
    (op : BinaryOp) : .binary op ∉ tree.tokens := by
  intro hop
  obtain ⟨own, hown, -⟩ := tier?_le h hop
  rw [hlevel] at hown
  cases hown

/-- Of two grouped trees over the same tokens neither has its root further to the right. -/
theorem left_tokens_eq {op op' : BinaryOp} {left right left' right' : OpTree}
    (h : (binary op left right).Grouped) (h' : (binary op' left' right').Grouped)
    {between : List Token} (hleft : left'.tokens = left.tokens ++ between)
    (hright : .binary op :: right.tokens = between ++ .binary op' :: right'.tokens) :
    between = [] := by
  cases between with
  | nil => rfl
  | cons first between =>
    obtain ⟨rfl, hrest⟩ := List.cons.inj hright
    have hrest : right.tokens = between ++ .binary op' :: right'.tokens := hrest
    -- the later root stands in the right operand of the other, the earlier one in its left operand
    have hlater : .binary op' ∈ right.tokens := by
      rw [hrest]
      simp
    have hearlier : .binary op ∈ left'.tokens := by
      rw [hleft]
      simp
    obtain ⟨own, hown, hle⟩ := tier?_le h.2.2 hlater
    obtain ⟨own', hown', hle'⟩ := tier?_le h'.2.1 hearlier
    have hlt := h.1.2 own hown
    have hge := h'.1.1 own' hown'
    omega

/-- **There is one way to group a row.** Grouped trees with the same tokens in order are the same
tree. -/
theorem eq_of_tokens {tree other : OpTree} (h : tree.Grouped) (hother : other.Grouped)
    (htokens : tree.tokens = other.tokens) : tree = other := by
  induction tree generalizing other with
  | operand value =>
    cases other with
    | operand value' =>
      cases htokens
      rfl
    | unary op' tree' => cases htokens
    | binary op' left' right' =>
      have hmem : .binary op' ∈ (operand value).tokens := by
        rw [htokens]
        simp [tokens]
      exact absurd hmem (binary_not_mem h rfl op')
  | unary op tree ih =>
    cases other with
    | operand value' => cases htokens
    | unary op' tree' =>
      obtain ⟨hop, hrest⟩ := List.cons.inj htokens
      cases hop
      rw [ih h.2 hother.2 hrest]
    | binary op' left' right' =>
      have hmem : .binary op' ∈ (unary op tree).tokens := by
        rw [htokens]
        simp [tokens]
      exact absurd hmem (binary_not_mem h rfl op')
  | binary op left right hleft hright =>
    cases other with
    | operand value' =>
      have hmem : .binary op ∈ (operand value').tokens := by
        rw [← htokens]
        simp [tokens]
      exact absurd hmem (binary_not_mem hother rfl op)
    | unary op' tree' =>
      have hmem : .binary op ∈ (unary op' tree').tokens := by
        rw [← htokens]
        simp [tokens]
      exact absurd hmem (binary_not_mem hother rfl op)
    | binary op' left' right' =>
      -- the roots stand at the same place, so both sides agree
      have hsame : left.tokens = left'.tokens ∧
          .binary op :: right.tokens = .binary op' :: right'.tokens := by
        rcases List.append_eq_append_iff.mp htokens with
          ⟨between, hbefore, hafter⟩ | ⟨between, hbefore, hafter⟩
        · obtain rfl := left_tokens_eq h hother hbefore hafter
          exact ⟨by rw [hbefore, List.append_nil], hafter⟩
        · obtain rfl := left_tokens_eq hother h hbefore hafter
          exact ⟨by rw [hbefore, List.append_nil], hafter.symm⟩
      obtain ⟨hop, hrest⟩ := List.cons.inj hsame.2
      cases hop
      rw [hleft h.2.1 hother.2.1 hsame.1, hright h.2.2 hother.2.2 hrest]

end OpTree

/-! ## Putting a row together -/

/-- Unary operators before an operand. -/
def prefixTree (ops : List (UnaryOp × Span)) (value : Expr) : OpTree :=
  ops.foldr .unary (.operand value)

theorem prefixTree_expr (ops : List (UnaryOp × Span)) (value : Expr) :
    (prefixTree ops value).expr = applyPrefixes ops value := by
  induction ops with
  | nil => rfl
  | cons op ops ih =>
    rw [prefixTree, List.foldr_cons, OpTree.expr, ← prefixTree, ih]
    rfl

theorem prefixTree_tier? (ops : List (UnaryOp × Span)) (value : Expr) :
    (prefixTree ops value).tier? = none := by
  cases ops <;> rfl

theorem prefixTree_grouped (ops : List (UnaryOp × Span)) (value : Expr) :
    (prefixTree ops value).Grouped := by
  induction ops with
  | nil => trivial
  | cons op ops ih => exact ⟨prefixTree_tier? ops value, ih⟩

/-- What waits for right operands, innermost first, has the tokens: every left operand is grouped
under the operator after it, and the operators bind the less tightly the further out they are, all
of them less than `level`. -/
inductive Waits : Nat → List Waiting → List Token → Prop where
  | nil {level : Nat} : Waits level [] []
  | cons {level : Nat} {op : BinaryOp} {left : OpTree} {waiting : List Waiting}
      {tokens : List Token} (hop : op.tier < level) (hbinds : left.Binds op.tier)
      (hleft : left.Grouped) (h : Waits op.tier waiting tokens) :
      Waits level ((left.expr, op) :: waiting) (tokens ++ left.tokens ++ [.binary op])

/-- Giving an operand to the operators that bind at least as tightly as the level makes a grouped
operand that binds as tightly, and leaves operators that bind less. -/
theorem Waits.reduce {bound : Nat} {waiting : List Waiting} {tokens : List Token}
    (h : Waits bound waiting tokens) (level : Nat) {right : OpTree} (hright : right.Grouped)
    (hbound : right.Binds bound) (hlevel : right.Binds level) :
    ∃ (tokens' : List Token) (tree : OpTree),
      Waits level (reduce level waiting right.expr).1 tokens' ∧
        tree.expr = (reduce level waiting right.expr).2 ∧ tree.Grouped ∧ tree.Binds level ∧
        tokens' ++ tree.tokens = tokens ++ right.tokens := by
  induction h generalizing right with
  | nil => exact ⟨[], right, .nil, rfl, hright, hlevel, rfl⟩
  | @cons bound op left waiting tokens hop hbinds hleft h ih =>
    rw [Syntax.reduce, op.level_eq_tier]
    split
    · rename_i hle
      have hgrouped : (OpTree.binary op left right).Grouped :=
        ⟨⟨hbinds, hbound.mono hop⟩, hleft, hright⟩
      have hroot : ∀ low ≤ op.tier, (OpTree.binary op left right).Binds low := by
        rintro low hlow own ⟨⟩
        exact hlow
      obtain ⟨tokens', tree, hwaits, hexpr, htree, htreeBinds, htokens⟩ :=
        ih hgrouped (hroot _ (Nat.le_refl _)) (hroot _ hle)
      refine ⟨tokens', tree, hwaits, hexpr, htree, htreeBinds, htokens.trans ?_⟩
      simp [OpTree.tokens]
    · rename_i hlt
      exact ⟨_, right, .cons (Nat.lt_of_not_le hlt) hbinds hleft h, rfl, hright, hlevel, rfl⟩

/-- Nothing waits below the lowest level. -/
theorem Waits.nil_of_zero {waiting : List Waiting} {tokens : List Token}
    (h : Waits 0 waiting tokens) : tokens = [] := by
  cases h with
  | nil => rfl
  | cons hop => exact absurd hop (Nat.not_lt_zero _)

/-- Right operands with the unary operators before them, each after its binary operator. -/
abbrev Round := BinaryOp × List (UnaryOp × Span) × Expr

/-- The operator and the right operand of a round. -/
def Round.pair (round : Round) : BinaryOp × Expr :=
  (round.1, applyPrefixes round.2.1 round.2.2)

/-- The tokens of a round. -/
def Round.tokens (round : Round) : List Token :=
  .binary round.1 :: (prefixTree round.2.1 round.2.2).tokens

/-- However much waits, going through the rest of a row makes a grouped tree of all tokens. -/
theorem Waits.assembleFrom {bound : Nat} {waiting : List Waiting} {tokens : List Token}
    (h : Waits bound waiting tokens) {current : OpTree} (hcurrent : current.Grouped)
    (hbinds : ∀ level, current.Binds level) (rounds : List Round) :
    ∃ tree : OpTree, tree.expr = assembleFrom waiting current.expr (rounds.map Round.pair) ∧
      tree.Grouped ∧
      tree.tokens = tokens ++ current.tokens ++ (rounds.map Round.tokens).flatten := by
  induction rounds generalizing bound waiting tokens current with
  | nil =>
    obtain ⟨tokens', tree, hwaits, hexpr, htree, -, htokens⟩ :=
      h.reduce 0 hcurrent (hbinds _) (hbinds _)
    obtain rfl := hwaits.nil_of_zero
    refine ⟨tree, hexpr, htree, ?_⟩
    rw [List.nil_append] at htokens
    rw [htokens, List.map_nil, List.flatten_nil, List.append_nil]
  | cons round rounds ih =>
    obtain ⟨op, ops, value⟩ := round
    obtain ⟨tokens', left, hwaits, hexpr, hleft, hleftBinds, htokens⟩ :=
      h.reduce op.tier hcurrent (hbinds _) (hbinds _)
    -- the operator waits innermost, with all that was made before it on its left
    have hwaits := Waits.cons (Nat.lt_succ_self op.tier) hleftBinds hleft hwaits
    obtain ⟨tree, htree, hgrouped, hall⟩ := ih hwaits (prefixTree_grouped ops value)
      (OpTree.binds_of_tier? (prefixTree_tier? ops value))
    refine ⟨tree, ?_, hgrouped, ?_⟩
    · rw [htree, hexpr, prefixTree_expr, ← op.level_eq_tier]
      rfl
    · rw [hall, htokens, List.map_cons, List.flatten_cons, Round.tokens]
      simp only [List.append_assoc, List.cons_append, List.nil_append]

/-- The tree of a row is grouped, and has the tokens of the row in order. -/
theorem grouped_assemble (ops : List (UnaryOp × Span)) (first : Expr) (rounds : List Round) :
    ∃ tree : OpTree,
      tree.expr = assemble (applyPrefixes ops first) (rounds.map Round.pair) ∧ tree.Grouped ∧
      tree.tokens = (prefixTree ops first).tokens ++ (rounds.map Round.tokens).flatten := by
  have hwaits : Waits 0 [] [] := .nil
  obtain ⟨tree, hexpr, hgrouped, htokens⟩ := hwaits.assembleFrom (prefixTree_grouped ops first)
    (OpTree.binds_of_tier? (prefixTree_tier? ops first)) rounds
  rw [prefixTree_expr] at hexpr
  exact ⟨tree, hexpr, hgrouped, htokens⟩

/-! ## The tokens of nodes -/

/-- The value with the suffixes after it, applied from the first to the last. -/
inductive Suffixed : Expr → List Node → Expr → Prop where
  | nil {value : Expr} : Suffixed value [] value
  | index {value position result : Expr} {start : Cursor} {stop : Mark} {node : Node}
      {rest : List Node} (hposition : buildExpr node = .ok position)
      (h : Suffixed (.index value position ⟨value.span.merge ⟨start.mark, stop⟩, none⟩) rest
        result) :
      Suffixed value (.node .indexOp start stop [node] :: rest) result
  | length {value result : Expr} {start : Cursor} {stop : Mark} {rest : List Node}
      (h : Suffixed (.length value ⟨value.span.merge ⟨start.mark, stop⟩, none⟩) rest result) :
      Suffixed value (.node .lengthOp start stop [] :: rest) result

/-- The token that a node inside an expression writes. An operand is a literal, a call, a name or
an expression in parentheses, with all its suffixes. -/
inductive TokenOf : Node → Token → Prop where
  | negate {node : Node} (h : node.rule = .opNegate) : TokenOf node (.unary (.negate, node.span))
  | not {node : Node} (h : node.rule = .opNot) : TokenOf node (.unary (.not, node.span))
  | binary {node : Node} {op : BinaryOp} (h : (node.rule, op) ∈ operatorRules) :
      TokenOf node (.binary op)
  | operand {start : Cursor} {stop : Mark} {primary : Node} {suffixes : List Node}
      {value result : Expr} (hprimary : primary.rule.isPrimary = true)
      (hvalue : buildExpr primary = .ok value) (h : Suffixed value suffixes result) :
      TokenOf (.node .term start stop (primary :: suffixes)) (.operand result)

theorem TokenOf.of_unaryOp? {node : Node} {op : UnaryOp} (h : unaryOp? node.rule = some op) :
    TokenOf node (.unary (op, node.span)) := by
  cases hrule : node.rule with
  | opNegate =>
    rw [hrule] at h
    cases h
    exact .negate hrule
  | opNot =>
    rw [hrule] at h
    cases h
    exact .not hrule
  | _ =>
    rw [hrule] at h
    cases h

theorem TokenOf.of_binaryOp? {node : Node} {op : BinaryOp} (h : binaryOp? node.rule = some op) :
    TokenOf node (.binary op) := by
  apply TokenOf.binary
  cases hrule : node.rule <;> rw [hrule] at h <;> cases h <;> decide

/-- Suffixes are applied to the value before them in order. -/
theorem suffixed_of_built {fault : ReadFault} {suffixes : List Node}
    (hstems : ∀ suffix ∈ suffixes, Stems grammar suffix) {value result : Expr}
    (h : buildSuffixes fault value suffixes = .ok result) : Suffixed value suffixes result := by
  induction suffixes generalizing value with
  | nil =>
    cases h
    exact .nil
  | cons suffix rest ih =>
    obtain ⟨hsuffix, hrest⟩ := List.forall_mem_cons.mp hstems
    have htakes := takes_of_stems hsuffix
    obtain ⟨rule, start, stop, parts⟩ := suffix
    cases rule with
    | indexOp =>
      obtain ⟨node, more, rfl, -, hmore⟩ := List.map_eq_cons_iff.mp htakes
      obtain rfl := List.map_eq_nil_iff.mp hmore
      simp only [buildSuffixes, bind_eq_ok] at h
      obtain ⟨position, hposition, h⟩ := h
      exact .index hposition (ih hrest h)
    | lengthOp =>
      obtain rfl := List.map_eq_nil_iff.mp htakes
      exact .length (ih hrest h)
    | _ => cases h

/-- An operand is built from a term. -/
theorem tokenOf_of_built {node : Node} (h : Stems grammar node) (hrule : node.rule = .term)
    {result : Expr} (hbuilt : buildExpr node = .ok result) : TokenOf node (.operand result) := by
  have htakes := takes_of_stems h
  obtain ⟨rule, start, stop, parts⟩ := node
  cases hrule
  obtain ⟨rule, rules, hprimary, -, hmap⟩ := htakes
  obtain ⟨primary, suffixes, rfl, rfl, -⟩ := List.map_eq_cons_iff.mp hmap
  simp only [buildExpr, bind_eq_ok] at hbuilt
  obtain ⟨value, hvalue, hsuffixes⟩ := hbuilt
  refine .operand hprimary hvalue (suffixed_of_built (fun suffix hsuffix => ?_) hsuffixes)
  exact h.part (List.mem_cons_of_mem _ hsuffix)

/-- A row is read as rounds whose tokens are those of its nodes, with the unary operators that were
read before it. -/
theorem rounds_of_built {rules : List Rule} (hrow : Rule.Row rules) :
    ∀ {nodes : List Node}, nodes.map ParseTree.rule = rules →
      (∀ node ∈ nodes, Stems grammar node) →
      ∀ {op ops fault row}, buildRight op ops fault nodes = .ok row →
        ∃ more value rounds, row = (((op, ops ++ more, value) :: rounds).map Round.pair) ∧
          List.Forall₂ TokenOf nodes
            ((prefixTree more value).tokens ++ (rounds.map Round.tokens).flatten) := by
  induction hrow with
  -- an operand alone ends the row
  | operand =>
    intro nodes hnodes hstems op ops fault row h
    obtain ⟨term, rest, rfl, hrule, hrest⟩ := List.map_eq_cons_iff.mp hnodes
    obtain rfl := List.map_eq_nil_iff.mp hrest
    have hterm := hstems term List.mem_cons_self
    obtain ⟨_, start, stop, parts⟩ := term
    cases hrule
    simp only [buildRight, unaryOp?, buildRow, bind_eq_ok, pure_eq_ok] at h
    obtain ⟨value, hvalue, _, ⟨⟩, rfl⟩ := h
    refine ⟨[], value, [], by rw [List.append_nil]; rfl, ?_⟩
    exact .cons (tokenOf_of_built hterm rfl hvalue) .nil
  -- a unary operator waits for its operand with those before it
  | @unary op rules hop _ ih =>
    intro nodes hnodes hstems op ops fault row h
    obtain ⟨⟨rule, start, stop, parts⟩, rest, rfl, hrule, hrest⟩ := List.map_eq_cons_iff.mp hnodes
    cases hrule
    obtain ⟨unary, hunary⟩ := Option.isSome_iff_exists.mp hop
    have hunary : unaryOp? rule = some unary := hunary
    rw [buildRight, hunary] at h
    obtain ⟨more, value, rounds, rfl, htokens⟩ :=
      ih hrest (List.forall_mem_cons.mp hstems).2 h
    refine ⟨(unary, ⟨start.mark, stop⟩) :: more, value, rounds, by simp, ?_⟩
    exact .cons (.of_unaryOp? hunary) htokens
  -- an operand and the operator behind it begin a round
  | @binary op rules hop _ ih =>
    intro nodes hnodes hstems op ops fault row h
    obtain ⟨term, after, rfl, hrule, hafter⟩ := List.map_eq_cons_iff.mp hnodes
    obtain ⟨⟨rule, start, stop, parts⟩, rest, rfl, hoprule, hrest⟩ :=
      List.map_eq_cons_iff.mp hafter
    cases hoprule
    obtain ⟨binary, hbinary⟩ := Option.isSome_iff_exists.mp hop
    have hbinary : binaryOp? rule = some binary := hbinary
    obtain ⟨hterm, hafterStems⟩ := List.forall_mem_cons.mp hstems
    have hrestStems := (List.forall_mem_cons.mp hafterStems).2
    obtain ⟨_, start', stop', parts'⟩ := term
    cases hrule
    simp only [buildRight, unaryOp?, buildRow, hbinary, bind_eq_ok, pure_eq_ok] at h
    obtain ⟨value, hvalue, row, hright, rfl⟩ := h
    obtain ⟨more, value', rounds, rfl, htokens⟩ :=
      ih hrest hrestStems hright
    refine ⟨[], value, (binary, more, value') :: rounds, by simp [Round.pair], ?_⟩
    refine .cons (tokenOf_of_built hterm rfl hvalue) (.cons (.of_binaryOp? hbinary) ?_)
    exact htokens

/-! ## Expressions -/

/-- Something is built from every operand among the nodes. -/
def OperandsBuilt (nodes : List Node) : Prop :=
  ∀ node ∈ nodes, node.rule = .term → ∃ value, buildExpr node = .ok value

theorem operandsBuilt_cons {node : Node} {rest : List Node} : OperandsBuilt (node :: rest) ↔
    (node.rule = .term → ∃ value, buildExpr node = .ok value) ∧ OperandsBuilt rest :=
  List.forall_mem_cons

/-- An operator is no operand. -/
theorem operandsBuilt_cons_of_op {node : Node} {rest : List Node} (h : node.rule ≠ .term) :
    OperandsBuilt (node :: rest) ↔ OperandsBuilt rest :=
  operandsBuilt_cons.trans (and_iff_right fun hrule => absurd hrule h)

/-- The right operand of an operator and the row after it are built exactly if all operands are. -/
theorem buildRight_ok_iff {rules : List Rule} (hrow : Rule.Row rules) :
    ∀ {nodes : List Node}, nodes.map ParseTree.rule = rules →
      ∀ (op : BinaryOp) (ops : List (UnaryOp × Span)) (fault : ReadFault),
        (∃ row, buildRight op ops fault nodes = .ok row) ↔ OperandsBuilt nodes := by
  induction hrow with
  | operand =>
    intro nodes hnodes op ops fault
    obtain ⟨⟨_, start, stop, parts⟩, rest, rfl, hrule, hrest⟩ := List.map_eq_cons_iff.mp hnodes
    obtain rfl := List.map_eq_nil_iff.mp hrest
    cases hrule
    simp only [buildRight, unaryOp?, buildRow, bind_eq_ok, pure_eq_ok, operandsBuilt_cons]
    constructor
    · rintro ⟨_, value, hvalue, -⟩
      exact ⟨fun _ => ⟨value, hvalue⟩, List.forall_mem_nil _⟩
    · rintro ⟨hterm, -⟩
      obtain ⟨value, hvalue⟩ := hterm rfl
      exact ⟨_, value, hvalue, _, rfl, rfl⟩
  | @unary op rules hop _ ih =>
    intro nodes hnodes binary ops fault
    obtain ⟨⟨rule, start, stop, parts⟩, rest, rfl, hrule, hrest⟩ := List.map_eq_cons_iff.mp hnodes
    cases hrule
    obtain ⟨unary, hunary⟩ := Option.isSome_iff_exists.mp hop
    have hunary : unaryOp? rule = some unary := hunary
    have hterm : (ParseTree.node rule start stop parts).rule ≠ .term := by
      rintro rfl
      cases hunary
    rw [operandsBuilt_cons_of_op hterm, buildRight, hunary]
    exact ih hrest binary _ fault
  | @binary op rules hop _ ih =>
    intro nodes hnodes left ops fault
    obtain ⟨⟨_, start, stop, parts⟩, after, rfl, hrule, hafter⟩ := List.map_eq_cons_iff.mp hnodes
    obtain ⟨⟨rule, start', stop', parts'⟩, rest, rfl, hoprule, hrest⟩ :=
      List.map_eq_cons_iff.mp hafter
    cases hoprule
    cases hrule
    obtain ⟨binary, hbinary⟩ := Option.isSome_iff_exists.mp hop
    have hbinary : binaryOp? rule = some binary := hbinary
    have hterm : (ParseTree.node rule start' stop' parts').rule ≠ .term := by
      rintro rfl
      cases hbinary
    have ih := ih hrest binary [] fault
    rw [operandsBuilt_cons, operandsBuilt_cons_of_op hterm, ← ih]
    simp only [buildRight, unaryOp?, buildRow, hbinary, bind_eq_ok, pure_eq_ok]
    constructor
    · rintro ⟨_, value, hvalue, row, hrow, -⟩
      exact ⟨fun _ => ⟨value, hvalue⟩, row, hrow⟩
    · rintro ⟨hterm, row, hrow⟩
      obtain ⟨value, hvalue⟩ := hterm rfl
      exact ⟨_, value, hvalue, row, hrow, rfl⟩

/-- The first operand of a row is built where a right operand would be. -/
theorem buildOperand_ok_iff {fault : ReadFault} {nodes : List Node} {ops : List (UnaryOp × Span)}
    (op : BinaryOp) : (∃ value, buildOperand ops fault nodes = .ok value) ↔
      ∃ row, buildRight op ops fault nodes = .ok row := by
  constructor
  · rintro ⟨value, hvalue⟩
    obtain ⟨first, row, hrow, -⟩ := buildOperand_inv hvalue op
    exact ⟨_, hrow⟩
  · rintro ⟨row, hrow⟩
    induction nodes generalizing ops with
    | nil => cases hrow
    | cons node rest ih =>
      obtain ⟨rule, start, stop, parts⟩ := node
      rw [buildRight] at hrow
      rw [buildOperand]
      cases hunary : unaryOp? rule with
      | some unary =>
        rw [hunary] at hrow
        exact ih hrow
      | none =>
        simp only [hunary, bind_eq_ok, pure_eq_ok] at hrow ⊢
        obtain ⟨value, hvalue, row, hrow, -⟩ := hrow
        exact ⟨_, value, hvalue, row, hrow, rfl⟩

/-- **Operators are grouped in their order.** Inside every expression that is read, anywhere in a
text, there are operands with unary operators before each of them and binary operators between them.
The expression is built exactly if its operands are, and then it is a tree over the tokens of its
nodes, in order, in which every unary operator is applied to the operand after it with its suffixes,
and binary operators of a later tier bind tighter, those of one tier from the left. There is no
other such tree. -/
theorem expression_grouped {rule : Rule} {text : String} {root node : Node}
    (hread : readNode rule text.toList = .ok root) (hnode : root.Has node)
    (hrule : node.rule = .expression) :
    Rule.Row (node.parts.map ParseTree.rule) ∧
    ((∃ value, buildExpr node = .ok value) ↔ OperandsBuilt node.parts) ∧
    ∀ value, buildExpr node = .ok value →
      ∃ tree : OpTree, tree.expr = value ∧ List.Forall₂ TokenOf node.parts tree.tokens ∧
        tree.Grouped ∧ ∀ other : OpTree, other.Grouped → other.tokens = tree.tokens →
          other = tree := by
  have hstems := (stems_readNode hread).has hnode
  have hrow := takes_of_stems hstems
  obtain ⟨_, start, stop, parts⟩ := node
  cases hrule
  refine ⟨hrow, ?_, ?_⟩
  · rw [buildExpr, buildOperand_ok_iff .or]
    exact buildRight_ok_iff hrow rfl .or [] _
  · intro value hvalue
    rw [buildExpr] at hvalue
    obtain ⟨first, row, hright, rfl⟩ := buildOperand_inv hvalue .or
    obtain ⟨ops, operand, rounds, hrounds, htokens⟩ :=
      rounds_of_built hrow rfl (fun part hpart => hstems.part hpart) hright
    obtain ⟨hfirst, rfl⟩ := List.cons.inj hrounds
    cases hfirst
    obtain ⟨tree, hexpr, hgrouped, hall⟩ := grouped_assemble ops operand rounds
    rw [List.nil_append]
    rw [← hall] at htokens
    exact ⟨tree, hexpr, htokens, hgrouped, fun other hother hsame =>
      OpTree.eq_of_tokens hother hgrouped hsame⟩

/-- An expression with operators of all levels, operators before an operand with suffixes, and
parentheses. -/
def operatorText : String := "-!a[0].length * b + c - (d || e) % f < g == h && i || j"

theorem expression_grouped_operatorText : ∃ node,
    readNode .expression operatorText.toList = .ok node ∧ node.parts.length = 19 ∧
    ∃ value, buildExpr node = .ok value ∧ ∃ tree : OpTree, tree.expr = value ∧
      List.Forall₂ TokenOf node.parts tree.tokens ∧ tree.Grouped ∧
      ∀ other : OpTree, other.Grouped → other.tokens = tree.tokens → other = tree := by
  have hread : ((readNode .expression operatorText.toList).toOption.map fun node =>
      decide (node.rule = .expression ∧ node.parts.length = 19) &&
        (buildExpr node).toOption.isSome) = some true := by decide +kernel
  cases hnode : readNode .expression operatorText.toList with
  | error fault =>
    rw [hnode] at hread
    cases hread
  | ok node =>
    rw [hnode] at hread
    obtain ⟨hshape, hbuilt⟩ := (Bool.and_eq_true _ _).mp (Option.some.inj hread)
    obtain ⟨hrule, hlength⟩ := of_decide_eq_true hshape
    obtain ⟨value, hvalue⟩ : ∃ value, buildExpr node = .ok value := by
      cases hvalue : buildExpr node with
      | ok value => exact ⟨value, rfl⟩
      | error fault =>
        rw [hvalue] at hbuilt
        cases hbuilt
    obtain ⟨-, -, hgrouped⟩ := expression_grouped hnode .self hrule
    exact ⟨node, rfl, hlength, value, hvalue, hgrouped value hvalue⟩

end StackScript.Syntax

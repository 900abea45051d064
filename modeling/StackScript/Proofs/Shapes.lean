import StackScript.Proofs.Reading
import StackScript.Syntax.Build

/-!
# The shapes of parse trees

An expression that is read where called rules leave nodes leaves nodes of certain rules in a certain
order (`Peg.Yields`), which can be read off the expression. For the grammar of units this gives the
number, the order and the rules of the nodes inside the nodes of each rule (`Rule.Takes`), which is
what trees are built from (`takes_of_stems`).
-/

namespace StackScript.Grammar

open StackScript.Source

variable {R : Type} {g : Rules R}

/-! ## What expressions leave -/

/-- Where called rules leave nodes, the expression may leave nodes of these rules in this order. -/
def Peg.Yields : Peg R → List R → Prop
  | .text _ | .one _ | .start | .finish | .gap | .present _ | .absent _ => fun rules => rules = []
  | .cat first second => fun rules =>
    ∃ before after, first.Yields before ∧ second.Yields after ∧ rules = before ++ after
  | .alt first second => fun rules => first.Yields rules ∨ second.Yields rules
  | .opt part => fun rules => rules = [] ∨ part.Yields rules
  | .many part => fun rules =>
    ∃ rounds : List (List R), (∀ round ∈ rounds, part.Yields round) ∧ rules = rounds.flatten
  | .call rule => fun rules => rules = [rule]

theorem Context.leavesNode_enter_joined {ctx : Context} (h : ctx.leavesNode = true) :
    (ctx.enter .joined).leavesNode = true := by
  simp only [leavesNode, Bool.and_eq_true, decide_eq_true_eq] at h
  simp [leavesNode, enter, h.1]

/-- Where one rule leaves a node, every rule does. -/
theorem Rules.leavesNode_of {ctx : Context} (h : ctx.leavesNode = true) (rule : R) :
    g.leavesNode ctx rule = true := by
  by_cases hkind : (g.production rule).kind = .joined
  · simp only [leavesNode, hkind, if_true]
    exact Context.leavesNode_enter_joined h
  · simp only [leavesNode, hkind, if_false]
    exact h

namespace Reads

variable {ctx : Context} {expr : Peg R} {cur cur' : Cursor} {trees : List (ParseTree R)}

/-- The nodes that are left are of rules that the expression yields. -/
theorem yields (h : Reads g ctx expr cur cur' trees) (hctx : ctx.leavesNode = true) :
    expr.Yields (trees.map ParseTree.rule) := by
  induction h with
  | cat _ _ hbefore hafter =>
    exact ⟨_, _, hbefore hctx, hafter hctx, List.map_append⟩
  | left _ ih => exact .inl (ih hctx)
  | right _ ih => exact .inr (ih hctx)
  | some _ ih => exact .inr (ih hctx)
  | none => exact .inl rfl
  | more _ _ hbefore hafter =>
    obtain ⟨rounds, hrounds, hrest⟩ := hafter hctx
    refine ⟨_ :: rounds, List.forall_mem_cons.mpr ⟨hbefore hctx, hrounds⟩, ?_⟩
    rw [List.map_append, hrest]
    rfl
  | done => exact ⟨[], List.forall_mem_nil _, rfl⟩
  | call h =>
    rw [if_pos (Rules.leavesNode_of hctx _)]
    rfl
  | _ => rfl

end Reads

/-- The rules that the expression calls, other than to look ahead. -/
def Peg.calls : Peg R → List R
  | .text _ | .one _ | .start | .finish | .gap | .present _ | .absent _ => []
  | .cat first second | .alt first second => first.calls ++ second.calls
  | .opt part | .many part => part.calls
  | .call rule => [rule]

/-- Rules that are read tight call only rules that are read tight. -/
def Rules.TightWithin (g : Rules R) : Prop :=
  ∀ rule, (g.production rule).kind = .tight →
    ∀ called ∈ (g.production rule).body.calls, (g.production called).kind = .tight

/-- What is read tight leaves no nodes. -/
theorem Reads.silent_of_tight {ctx : Context} {expr : Peg R} {cur cur' : Cursor}
    {trees : List (ParseTree R)} (hg : g.TightWithin) (h : Reads g ctx expr cur cur' trees)
    (hctx : ctx.kind = .tight) (hcalls : ∀ rule ∈ expr.calls, (g.production rule).kind = .tight) :
    trees = [] := by
  induction h with
  | cat _ _ hbefore hafter =>
    obtain ⟨hfirst, hsecond⟩ := List.forall_mem_append.mp hcalls
    rw [hbefore hctx hfirst, hafter hctx hsecond]
    rfl
  | left _ ih => exact ih hctx (List.forall_mem_append.mp hcalls).1
  | right _ ih => exact ih hctx (List.forall_mem_append.mp hcalls).2
  | some _ ih => exact ih hctx hcalls
  | more _ _ hbefore hafter => rw [hbefore hctx hcalls, hafter hctx hcalls]; rfl
  | @call ctx rule cur cur' trees h ih =>
    have htight := hcalls rule List.mem_cons_self
    have hleaves : g.leavesNode ctx rule = false := by
      simp [Rules.leavesNode, htight, Context.leavesNode, hctx]
    rw [hleaves, if_neg Bool.false_ne_true]
    exact ih (by rw [htight]; rfl) (hg rule htight)
  | _ => rfl

/-! ## Expressions made of parts -/

namespace Peg

variable {part next : Peg R} {parts : List (Peg R)} {rules : List R}

theorem yields_seq_cons : (seq (part :: next :: parts)).Yields rules ↔
    ∃ before, part.Yields before ∧
      ∃ after, (seq (next :: parts)).Yields after ∧ rules = before ++ after := by
  constructor
  · rintro ⟨before, more, hbefore, ⟨_, after, rfl, hafter, rfl⟩, rfl⟩
    exact ⟨before, hbefore, _, hafter, rfl⟩
  · rintro ⟨before, hbefore, after, hafter, rfl⟩
    exact ⟨before, after, hbefore, ⟨[], after, rfl, hafter, rfl⟩, rfl⟩

theorem yields_seq_one : (seq [part]).Yields rules ↔ part.Yields rules := Iff.rfl

/-- A choice yields what one of its parts yields. -/
theorem yields_choice (hparts : parts ≠ []) :
    (choice parts).Yields rules ↔ ∃ part ∈ parts, part.Yields rules := by
  induction parts with
  | nil => exact absurd rfl hparts
  | cons part parts ih =>
    cases parts with
    | nil => simp [choice]
    | cons next parts =>
      have hmore := ih (List.cons_ne_nil next parts)
      simp only [List.mem_cons, exists_eq_or_imp] at hmore ⊢
      rw [← hmore]
      rfl

/-- A repetition yields what its rounds yield, one behind the other. -/
theorem yields_star : (star part).Yields rules ↔
    ∃ rounds : List (List R), (∀ round ∈ rounds, part.Yields round) ∧ rules = rounds.flatten := by
  constructor
  · rintro (rfl | ⟨first, _, hfirst, ⟨rounds, hrounds, rfl⟩, rfl⟩)
    · exact ⟨[], List.forall_mem_nil _, rfl⟩
    · refine ⟨first :: rounds, List.forall_mem_cons.mpr ⟨hfirst, fun round hround => ?_⟩, rfl⟩
      obtain ⟨_, after, rfl, hafter, rfl⟩ := hrounds round hround
      exact hafter
  · rintro ⟨rounds, hrounds, rfl⟩
    cases rounds with
    | nil => exact .inl rfl
    | cons first rounds =>
      obtain ⟨hfirst, hrounds⟩ := List.forall_mem_cons.mp hrounds
      refine .inr ⟨first, _, hfirst, ⟨rounds, fun round hround => ?_, rfl⟩, rfl⟩
      exact ⟨[], round, rfl, hrounds round hround, rfl⟩

theorem yields_nil_of_calls (h : part.calls = []) : part.Yields [] := by
  induction part with
  | cat first second hfirst hsecond =>
    obtain ⟨h, h'⟩ := List.append_eq_nil_iff.mp h
    exact ⟨[], [], hfirst h, hsecond h', rfl⟩
  | alt first second hfirst _ => exact .inl (hfirst (List.append_eq_nil_iff.mp h).1)
  | opt part _ => exact .inl rfl
  | many part _ => exact ⟨[], List.forall_mem_nil _, rfl⟩
  | call rule => cases h
  | _ => rfl

/-- An expression leaves nodes only of the rules that it calls. -/
theorem mem_calls_of_yields (hrules : part.Yields rules) : ∀ rule ∈ rules, rule ∈ part.calls := by
  induction part generalizing rules with
  | cat first second hfirst hsecond =>
    obtain ⟨before, after, hbefore, hafter, rfl⟩ := hrules
    refine List.forall_mem_append.mpr ⟨fun rule hrule => ?_, fun rule hrule => ?_⟩
    · exact List.mem_append_left _ (hfirst hbefore rule hrule)
    · exact List.mem_append_right _ (hsecond hafter rule hrule)
  | alt first second hfirst hsecond =>
    intro rule hrule
    rcases hrules with hrules | hrules
    · exact List.mem_append_left _ (hfirst hrules rule hrule)
    · exact List.mem_append_right _ (hsecond hrules rule hrule)
  | opt part ih =>
    rcases hrules with rfl | hrules
    · exact List.forall_mem_nil _
    · exact ih hrules
  | many part ih =>
    obtain ⟨rounds, hrounds, rfl⟩ := hrules
    intro rule hrule
    obtain ⟨round, hround, hrule⟩ := List.mem_flatten.mp hrule
    exact ih (hrounds round hround) rule hrule
  | call rule =>
    obtain rfl : rules = [rule] := hrules
    exact fun _ hrule => hrule
  | _ => exact hrules ▸ List.forall_mem_nil _

/-- An expression that calls no rules leaves no nodes. -/
theorem yields_of_calls (h : part.calls = []) : part.Yields rules ↔ rules = [] := by
  refine ⟨fun hrules => ?_, fun hrules => hrules ▸ yields_nil_of_calls h⟩
  have hcalls := mem_calls_of_yields hrules
  rw [h] at hcalls
  exact List.eq_nil_iff_forall_not_mem.mpr fun rule hrule => List.not_mem_nil (hcalls rule hrule)

end Peg

end StackScript.Grammar

namespace StackScript.Syntax

open StackScript.Grammar StackScript.Source Phrase

/-! ## The rules that trees are built from -/

namespace Rule

/-- The rule is one of those for statements. -/
def isStmt : Rule → Bool
  | .ifStmt | .whileStmt | .returnStmt | .putsStmt | .raiseStmt | .assignment | .exprStmt => true
  | _ => false

/-- The rule is one of those for members of a class. -/
def isMember : Rule → Bool
  | .classDef | .methodDef => true
  | _ => false

/-- The rule is one of those that a term may start with. -/
def isPrimary : Rule → Bool
  | .boolean | .integer | .string | .staticCall | .localCall | .localName | .expression => true
  | _ => false

/-- The rule is one of those for suffixes. -/
def isSuffix : Rule → Bool
  | .indexOp | .lengthOp => true
  | _ => false

/-- Operands with unary operators before each of them, and binary operators between. -/
inductive Row : List Rule → Prop where
  | operand : Row [.term]
  | unary {op : Rule} {rules : List Rule} (hop : (unaryOp? op).isSome = true) (h : Row rules) :
      Row (op :: rules)
  | binary {op : Rule} {rules : List Rule} (hop : (binaryOp? op).isSome = true) (h : Row rules) :
      Row (.term :: op :: rules)

/-- The list has nothing but the rule, at most once. -/
def AtMost (rule : Rule) (rules : List Rule) : Prop := rules = [] ∨ rules = [rule]

theorem AtMost.eq_of_mem {rule other : Rule} {rules : List Rule} (h : AtMost rule rules)
    (hmem : other ∈ rules) : other = rule := by
  rcases h with rfl | rfl
  · cases hmem
  · exact List.mem_singleton.mp hmem

/-- The rules of the nodes inside a node, by the rule of that node. -/
def Takes : Rule → List Rule → Prop
  | .program, rules => ∃ package items, AtMost .packageDecl package ∧
      (∀ item ∈ items, item.isMember ∨ item.isStmt) ∧ rules = package ++ (items ++ [.finish])
  | .packageDecl, rules => rules = [.qualifiedName]
  | .classDef, rules => ∃ members, (∀ member ∈ members, member.isMember) ∧
      rules = .constant :: members
  | .methodDef, rules => ∃ self params ret, AtMost .selfPrefix self ∧ AtMost .paramList params ∧
      AtMost .returnType ret ∧ rules = self ++ .identifier :: (params ++ (ret ++ [.block]))
  | .paramList, rules => ∀ rule ∈ rules, rule = .parameter
  | .parameter, rules => rules = [.identifier, .typeRef]
  | .returnType, rules => rules = [.typeRef]
  | .block, rules => ∀ rule ∈ rules, rule.isStmt
  | .ifStmt, rules => ∃ clauses last, (∀ clause ∈ clauses, clause = .elsifClause) ∧
      AtMost .elseClause last ∧ rules = .expression :: .block :: (clauses ++ last)
  | .elsifClause, rules | .whileStmt, rules => rules = [.expression, .block]
  | .elseClause, rules => rules = [.block]
  | .returnStmt, rules => AtMost .expression rules
  | .putsStmt, rules | .raiseStmt, rules | .exprStmt, rules | .indexOp, rules =>
      rules = [.expression]
  | .assignment, rules => rules = [.identifier, .expression]
  | .expression, rules => Row rules
  | .term, rules => ∃ primary suffixes, primary.isPrimary ∧ (∀ suffix ∈ suffixes, suffix.isSuffix) ∧
      rules = primary :: suffixes
  | .string, rules => rules = [.stringContent]
  | .staticCall, rules => ∃ lists, AtMost .argList lists ∧ rules = .constant :: .identifier :: lists
  | .localCall, rules => rules = [.identifier, .argList]
  | .localName, rules => rules = [.identifier]
  | .argList, rules => ∀ rule ∈ rules, rule = .expression
  | _, rules => rules = []

end Rule

section

variable {rules : List Rule}

theorem yields_word (s : String) : (word s).Yields rules ↔ rules = [] := Peg.yields_of_calls rfl

theorem yields_lit (s : String) : (Peg.lit s : Peg Rule).Yields rules ↔ rules = [] :=
  Peg.yields_of_calls rfl

theorem yields_start : (Peg.start : Peg Rule).Yields rules ↔ rules = [] := Iff.rfl

theorem yields_absent (part : Peg Rule) : part.absent.Yields rules ↔ rules = [] := Iff.rfl

theorem yields_separator : separator.Yields rules ↔ rules = [] := Peg.yields_of_calls rfl

theorem yields_opt_separator : separator.opt.Yields rules ↔ rules = [] := Peg.yields_of_calls rfl

theorem yields_opener (s : String) : (opener s).Yields rules ↔ rules = [] := Peg.yields_of_calls rfl

theorem yields_use (rule : Rule) : (use rule).Yields rules ↔ rules = [rule] := Iff.rfl

theorem yields_opt_use (rule : Rule) : (use rule).opt.Yields rules ↔ rule.AtMost rules := Iff.rfl

end

/-- What all rules called by an expression are, the rules of the nodes that it leaves are. -/
theorem forall_of_yields {part : Peg Rule} {rules : List Rule} {ok : Rule → Prop}
    (hrules : part.Yields rules) (hcalls : ∀ rule ∈ part.calls, ok rule) :
    ∀ rule ∈ rules, ok rule :=
  fun rule hrule => hcalls rule (Peg.mem_calls_of_yields hrules rule hrule)

/-- A primary is one node. -/
theorem yields_primary {rules : List Rule} (h : primary.Yields rules) :
    ∃ rule : Rule, rule.isPrimary ∧ rules = [rule] := by
  obtain ⟨part, hpart, h⟩ := (Peg.yields_choice (List.cons_ne_nil _ _)).mp h
  simp only [List.mem_cons, List.not_mem_nil, or_false] at hpart
  rcases hpart with rfl | rfl | rfl | rfl | rfl | rfl | rfl
  case inr.inr.inr.inr.inr.inr =>
    simp only [Peg.yields_seq_cons, Peg.yields_seq_one, yields_lit, yields_use, exists_eq_left,
      List.nil_append, List.append_nil] at h
    exact ⟨_, rfl, h⟩
  all_goals exact ⟨_, rfl, h⟩

theorem yields_infixOp {rules : List Rule} (h : infixOp.Yields rules) :
    ∃ rule : Rule, (binaryOp? rule).isSome ∧ rules = [rule] := by
  obtain ⟨part, hpart, h⟩ := (Peg.yields_choice (List.cons_ne_nil _ _)).mp h
  simp only [List.mem_cons, List.not_mem_nil, or_false] at hpart
  rcases hpart with rfl | rfl | rfl | rfl | rfl | rfl | rfl | rfl | rfl | rfl | rfl | rfl | rfl
  all_goals exact ⟨_, rfl, h⟩

theorem Rule.Row.unaries {ops rules : List Rule} (hops : ∀ op ∈ ops, (unaryOp? op).isSome)
    (h : Row rules) : Row (ops ++ rules) := by
  induction ops with
  | nil => exact h
  | cons op ops ih =>
    obtain ⟨hop, hops⟩ := List.forall_mem_cons.mp hops
    exact .unary hop (ih hops)

/-- An operator, the unary operators after it and its right operand, as often as they come. -/
theorem Rule.row_of_rounds {rounds : List (List Rule)}
    (h : ∀ round ∈ rounds, (Peg.seq [infixOp, .star prefixOp, use .term]).Yields round) :
    Row (.term :: rounds.flatten) := by
  induction rounds with
  | nil => exact .operand
  | cons round rounds ih =>
    obtain ⟨hround, hrounds⟩ := List.forall_mem_cons.mp h
    simp only [Peg.yields_seq_cons, Peg.yields_seq_one, yields_use, exists_eq_left] at hround
    obtain ⟨_, hinfix, _, ⟨ops, hops, rfl⟩, rfl⟩ := hround
    obtain ⟨op, hop, rfl⟩ := yields_infixOp hinfix
    have hmore : Row (ops ++ .term :: rounds.flatten) :=
      Row.unaries (forall_of_yields hops (by decide)) (ih hrounds)
    rw [List.flatten_cons, List.append_assoc, List.append_assoc]
    exact .binary hop hmore

/-- Where rules leave nodes, the expression of a rule leaves what trees are built from. -/
theorem takes_of_yields {rule : Rule} {rules : List Rule} (hkind : rule.production.kind ≠ .tight)
    (h : rule.production.body.Yields rules) : rule.Takes rules := by
  cases rule <;> simp only [Rule.production, Peg.yields_seq_cons, Peg.yields_seq_one, yields_word,
    yields_separator, yields_opt_separator, yields_opener, yields_lit, yields_start, yields_absent,
    yields_use, yields_opt_use, exists_eq_left, exists_eq_right', List.nil_append, List.append_nil,
    List.singleton_append] at h
  case program =>
    obtain ⟨package, hpackage, _, ⟨items, hitems, rfl⟩, rfl⟩ := h
    refine ⟨package, items, ?_, forall_of_yields hitems (by decide), rfl⟩
    rcases hpackage with rfl | hpackage
    · exact .inl rfl
    · obtain ⟨_, rfl, rest, hrest, rfl⟩ := Peg.yields_seq_cons.mp hpackage
      obtain rfl := (Peg.yields_of_calls rfl).mp hrest
      exact .inr rfl
  case classDef =>
    obtain ⟨members, hmembers, rfl⟩ := h
    exact ⟨members, forall_of_yields hmembers (by decide), rfl⟩
  case methodDef =>
    obtain ⟨self, hself, _, ⟨_, ⟨params, hparams, _, ⟨ret, hret, rfl⟩, rfl⟩, rfl⟩, rfl⟩ := h
    exact ⟨self, params, ret, hself, hparams, hret, rfl⟩
  case paramList => exact forall_of_yields h (by decide)
  case block => exact forall_of_yields h (by decide)
  case ifStmt =>
    obtain ⟨_, ⟨_, ⟨clauses, hclauses, last, hlast, rfl⟩, rfl⟩, rfl⟩ := h
    exact ⟨clauses, last, forall_of_yields hclauses (by decide), hlast, rfl⟩
  case expression =>
    obtain ⟨ops, hops, _, ⟨_, hmore, rfl⟩, rfl⟩ := h
    obtain ⟨rounds, hrounds, rfl⟩ := Peg.yields_star.mp hmore
    exact .unaries (forall_of_yields hops (by decide)) (Rule.row_of_rounds hrounds)
  case term =>
    obtain ⟨_, hfirst, suffixes, hsuffixes, rfl⟩ := h
    obtain ⟨primary, hprimary, rfl⟩ := yields_primary hfirst
    exact ⟨primary, suffixes, hprimary, forall_of_yields hsuffixes (by decide), rfl⟩
  case staticCall =>
    obtain ⟨_, ⟨lists, hlists, rfl⟩, rfl⟩ := h
    exact ⟨lists, hlists, rfl⟩
  case argList => exact forall_of_yields h (by decide)
  -- what is left over is read tight, or leaves the same nodes every time
  all_goals first | exact h | exact absurd rfl hkind

/-- Rules that are read tight call only such rules. -/
theorem tightWithin_grammar : grammar.TightWithin := by
  intro rule htight
  cases rule <;> first | decide | cases htight

/-- Rules that are read tight take no nodes. -/
theorem takes_nil_of_tight {rule : Rule} (h : rule.production.kind = .tight) : rule.Takes [] := by
  cases rule <;> first | rfl | cases h

/-- **Every node of a parse tree has the parts that trees are built from.** -/
theorem takes_of_stems {node : Node} (h : Stems grammar node) :
    node.rule.Takes (node.parts.map ParseTree.rule) := by
  cases h with
  | @node ctx rule _ _ parts hreads hleaves _ =>
    show rule.Takes (parts.map ParseTree.rule)
    have hproduction : grammar.production rule = rule.production := rfl
    rw [hproduction] at hreads
    rw [Rules.leavesNode, hproduction] at hleaves
    cases hkind : rule.production.kind with
    | tight =>
      rw [hkind] at hreads
      have hparts := hreads.silent_of_tight tightWithin_grammar rfl (tightWithin_grammar rule hkind)
      rw [hparts]
      exact takes_nil_of_tight hkind
    | loose =>
      rw [hkind] at hreads hleaves
      exact takes_of_yields (by rw [hkind]; decide) (hreads.yields hleaves)
    | joined =>
      rw [hkind] at hreads hleaves
      exact takes_of_yields (by rw [hkind]; decide) (hreads.yields hleaves)

end StackScript.Syntax

import StackScript.Proofs.Literals
import StackScript.Proofs.PlainNames

/-!
# Trees that the grammar makes can be built

Whatever the grammar matches has the parts that are taken out of it (`takes_of_stems`), so building
a syntax tree from it never misses one. What is left to fail are literals: `Built.Sound` says that a
tree is made, or that one of the literals in it is refused.
-/

namespace StackScript.Grammar

variable {R : Type} {g : Rules R}

/-! ## Nodes inside nodes -/

/-- The node is the other one, or inside it. -/
inductive ParseTree.Has : ParseTree R → ParseTree R → Prop where
  | self {tree : ParseTree R} : tree.Has tree
  | part {tree part inner : ParseTree R} (hpart : part ∈ tree.parts) (h : part.Has inner) :
      tree.Has inner

theorem Stems.has {tree inner : ParseTree R} (h : Stems g tree) (hinner : tree.Has inner) :
    Stems g inner := by
  induction hinner with
  | self => exact h
  | part hpart _ ih => exact ih (h.part hpart)

theorem ParseTree.Has.trans {tree part inner : ParseTree R} (h : tree.Has part)
    (h' : part.Has inner) : tree.Has inner := by
  induction h with
  | self => exact h'
  | part hpart _ ih => exact .part hpart (ih h')

/-- What holds of a node whenever it holds of all nodes inside it, holds of every node that the
grammar makes. -/
theorem Stems.induction {P : ParseTree R → Prop}
    (step : ∀ tree, Stems g tree → (∀ part ∈ tree.parts, ∀ inner, part.Has inner → P inner) →
      P tree) {tree : ParseTree R} (h : Stems g tree) : P tree := by
  suffices hall : ∀ inner, tree.Has inner → P inner from hall tree .self
  induction h with
  | @node ctx rule cur cur' parts hreads hleaves hparts ih =>
    intro inner hinner
    cases hinner with
    | self => exact step _ (.node hreads hleaves hparts) ih
    | part hpart hinner => exact ih _ hpart _ hinner

end StackScript.Grammar

namespace StackScript.Syntax

open StackScript.Grammar StackScript.Source StackScript.Text

/-! ## Literals that are refused -/

/-- The literal is refused with the fault: an integer beyond the 64-bit range, or a string with a
backslash before a character that has no escape. -/
inductive Refused : Node → ReadFault → Prop where
  | integer {literal : Node} (hrule : literal.rule = .integer)
      (hdigits : ∀ c ∈ literal.text, isDigit c = true)
      (hlarge : 9223372036854775807 < digitsValue 0 literal.text) :
      Refused literal (.integerRange (String.ofList literal.text) literal.span)
  | escape {literal content : Node} {before after : List Char} {c : Char} {made : List Char}
      (hrule : literal.rule = .string) (hparts : literal.parts = [content])
      (htext : content.text = before ++ '\\' :: c :: after)
      (hbefore : unescape 0 before = .ok made) (hc : c ∉ ['n', 't', '"', '\\']) :
      Refused literal (.unknownEscape (String.ofList ['\\', c])
        (escapeSpan content.span.start (byteLength before) ['\\', c]))

/-- Something was built from the tree, or one of the literals in it is refused. -/
inductive Sound {α : Type} (tree : Node) : Built α → Prop where
  | made (value : α) : Sound tree (.ok value)
  | refused {literal : Node} {fault : ReadFault} (hliteral : tree.Has literal)
      (h : Refused literal fault) : Sound tree (.error fault)

namespace Sound

variable {α β : Type} {tree part : Node}

theorem bind {built : Built α} {next : α → Built β} (h : Sound tree built)
    (hnext : ∀ value, built = .ok value → Sound tree (next value)) :
    Sound tree (built >>= next) := by
  cases h with
  | made value => exact hnext value rfl
  | refused hliteral h => exact .refused hliteral h

theorem within {built : Built α} (h : Sound part built) (hpart : tree.Has part) :
    Sound tree built := by
  cases h with
  | made value => exact .made value
  | refused hliteral h => exact .refused (hpart.trans hliteral) h

end Sound

/-- An integer is built, or it is beyond the 64-bit range. -/
theorem sound_buildInteger {start : Cursor} {stop : Mark} {parts : List Node}
    (h : Stems grammar (.node .integer start stop parts)) :
    Sound (.node .integer start stop parts) (buildInteger (.node .integer start stop parts)) := by
  obtain ⟨hnil, hdigits⟩ := digits_of_stems h
  rw [buildInteger, ParseTree.text, readInteger_digits hnil hdigits]
  cases hvalue : int64? (digitsValue 0 (start.textTo stop)) with
  | some value => exact .made value
  | none => exact .refused .self (.integer rfl hdigits (int64?_eq_none hvalue))

/-- A string is built, or has a backslash before a character that has no escape. -/
theorem sound_buildString {start : Cursor} {stop : Mark} {content : Node}
    (h : Stems grammar (.node .string start stop [content])) :
    Sound (.node .string start stop [content]) (buildString content) := by
  have hrule : content.rule = .stringContent := (List.cons.inj (takes_of_stems h)).1
  obtain ⟨_, _, _, _⟩ := content
  cases hrule
  have hcontents := contents_of_stems (h.part List.mem_cons_self)
  rw [buildString, ParseTree.text]
  rcases unescape_cases hcontents 0 with
    ⟨made, hmade⟩ | ⟨before, c, after, made, htext, hmade, hc, herr⟩
  · rw [hmade]
    exact .made _
  · rw [herr, Nat.zero_add]
    exact .refused .self (.escape rfl rfl htext hmade (escaped?_eq_none hc))

/-! ## Expressions -/

/-- The rule is one of those for expressions. -/
def Rule.isExpr (rule : Rule) : Bool := rule.isPrimary || rule = .term

/-- A row of operators and operands is put together if its operands are. -/
theorem sound_row {tree : Node} {rules : List Rule} (hrow : Rule.Row rules) :
    ∀ {parts : List Node}, parts.map ParseTree.rule = rules →
      (∀ part ∈ parts, part.rule = .term → Sound tree (buildExpr part)) →
      (∀ ops fault, Sound tree (buildOperand ops fault parts)) ∧
        ∀ op ops fault, Sound tree (buildRight op ops fault parts) := by
  induction hrow with
  -- the operand ends the row
  | operand =>
    intro parts hparts hterms
    obtain ⟨term, rest, rfl, hrule, hrest⟩ := List.map_eq_cons_iff.mp hparts
    obtain rfl := List.map_eq_nil_iff.mp hrest
    have hterm := hterms term List.mem_cons_self hrule
    obtain ⟨_, _, _, _⟩ := term
    cases hrule
    refine ⟨fun ops fault => ?_, fun op ops fault => ?_⟩
    · simp only [buildOperand, unaryOp?, buildRow]
      exact hterm.bind fun _ _ => .made _
    · simp only [buildRight, unaryOp?, buildRow]
      exact hterm.bind fun _ _ => .made _
  -- one more operator waits for the operand
  | @unary op rules hop _ ih =>
    intro parts hparts hterms
    obtain ⟨⟨rule, _, _, _⟩, rest, rfl, hrule, hrest⟩ := List.map_eq_cons_iff.mp hparts
    cases hrule
    obtain ⟨unary, hunary⟩ := Option.isSome_iff_exists.mp hop
    obtain ⟨hoperand, hright⟩ := ih hrest (List.forall_mem_cons.mp hterms).2
    have hunary : unaryOp? rule = some unary := hunary
    refine ⟨fun ops fault => ?_, fun op ops fault => ?_⟩
    · simp only [buildOperand, hunary]
      exact hoperand _ _
    · simp only [buildRight, hunary]
      exact hright _ _ _
  -- the operand is built first, so that its fault is told before those behind the operator
  | @binary op rules hop _ ih =>
    intro parts hparts hterms
    obtain ⟨term, more, rfl, hrule, hmore⟩ := List.map_eq_cons_iff.mp hparts
    obtain ⟨⟨rule, _, _, _⟩, rest, rfl, hoprule, hrest⟩ := List.map_eq_cons_iff.mp hmore
    cases hoprule
    obtain ⟨binary, hbinary⟩ := Option.isSome_iff_exists.mp hop
    have hbinary : binaryOp? rule = some binary := hbinary
    obtain ⟨hterm, hterms⟩ := List.forall_mem_cons.mp hterms
    obtain ⟨-, hright⟩ := ih hrest (List.forall_mem_cons.mp hterms).2
    have hterm := hterm hrule
    obtain ⟨_, _, _, _⟩ := term
    cases hrule
    refine ⟨fun ops fault => ?_, fun op ops fault => ?_⟩
    · simp only [buildOperand, unaryOp?, buildRow, hbinary]
      exact hterm.bind fun _ _ => (hright _ _ _).bind fun _ _ => .made _
    · simp only [buildRight, unaryOp?, buildRow, hbinary]
      exact hterm.bind fun _ _ => (hright _ _ _).bind fun _ _ => .made _

theorem sound_buildExprs {tree : Node} {parts : List Node}
    (h : ∀ part ∈ parts, Sound tree (buildExpr part)) : Sound tree (buildExprs parts) := by
  induction parts with
  | nil => exact .made _
  | cons part rest ih =>
    obtain ⟨hpart, hrest⟩ := List.forall_mem_cons.mp h
    exact hpart.bind fun _ _ => (ih hrest).bind fun _ _ => .made _

/-- The arguments of a call are built if all expressions in its argument list are. -/
theorem sound_buildArgLists {tree : Node} {lists : List Node}
    (hlists : Rule.AtMost .argList (lists.map ParseTree.rule))
    (hstems : ∀ list ∈ lists, Stems grammar list)
    (h : ∀ list ∈ lists, ∀ arg ∈ list.parts, arg.rule.isExpr → Sound tree (buildExpr arg)) :
    Sound tree (buildArgLists lists) := by
  rcases hlists with hnil | hone
  · obtain rfl := List.map_eq_nil_iff.mp hnil
    exact .made _
  · obtain ⟨⟨_, _, _, args⟩, rest, rfl, hrule, -⟩ := List.map_eq_cons_iff.mp hone
    cases hrule
    have hargs := takes_of_stems (hstems _ List.mem_cons_self)
    refine sound_buildExprs fun arg harg => h _ List.mem_cons_self arg harg ?_
    rw [hargs arg.rule (List.mem_map_of_mem harg)]
    rfl

/-- Suffixes are put after a value if the positions in them are built. -/
theorem sound_buildSuffixes {tree : Node} {suffixes : List Node}
    (hrules : ∀ suffix ∈ suffixes, suffix.rule.isSuffix)
    (hstems : ∀ suffix ∈ suffixes, Stems grammar suffix)
    (h : ∀ suffix ∈ suffixes, ∀ part ∈ suffix.parts, part.rule.isExpr →
      Sound tree (buildExpr part)) (fault : ReadFault) (value : Expr) :
    Sound tree (buildSuffixes fault value suffixes) := by
  induction suffixes generalizing value with
  | nil => exact .made _
  | cons suffix rest ih =>
    obtain ⟨hrule, hrestRules⟩ := List.forall_mem_cons.mp hrules
    obtain ⟨hsuffix, hrestStems⟩ := List.forall_mem_cons.mp hstems
    obtain ⟨hpart, hrest⟩ := List.forall_mem_cons.mp h
    have ih := ih hrestRules hrestStems hrest
    have htakes := takes_of_stems hsuffix
    obtain ⟨rule, _, _, parts⟩ := suffix
    cases rule with
    | indexOp =>
      obtain ⟨position, more, rfl, hposition, -⟩ := List.map_eq_cons_iff.mp htakes
      have hposition := hpart position List.mem_cons_self (by rw [hposition]; rfl)
      simp only [buildSuffixes]
      exact hposition.bind fun _ _ => ih _
    | lengthOp =>
      simp only [buildSuffixes]
      exact ih _
    | _ => cases hrule

/-- Every expression is built, or has a literal in it that is refused. -/
theorem sound_buildExpr {tree : Node} (h : Stems grammar tree) :
    tree.rule.isExpr → Sound tree (buildExpr tree) := by
  refine h.induction (P := fun tree => tree.rule.isExpr → Sound tree (buildExpr tree)) ?_
  rintro ⟨rule, start, stop, parts⟩ hstems ih hrule
  have htakes := takes_of_stems hstems
  have hparts : ∀ part ∈ parts, Stems grammar part := fun part hpart => hstems.part hpart
  have hexpr : ∀ part ∈ parts, part.rule.isExpr →
      Sound (.node rule start stop parts) (buildExpr part) := fun part hpart hrule =>
    (ih part hpart part .self hrule).within (.part hpart .self)
  have hinner : ∀ part ∈ parts, ∀ inner ∈ part.parts, inner.rule.isExpr →
      Sound (.node rule start stop parts) (buildExpr inner) := fun part hpart inner hinner hrule =>
    (ih part hpart inner (.part hinner .self) hrule).within (.part hpart (.part hinner .self))
  cases rule with
  | expression =>
    simp only [buildExpr]
    refine (sound_row htakes rfl fun part hpart hterm => hexpr part hpart ?_).1 _ _
    rw [hterm]
    rfl
  | term =>
    obtain ⟨rule, rules, hprimary, hsuffixes, hmap⟩ := htakes
    obtain ⟨primary, suffixes, rfl, rfl, rfl⟩ := List.map_eq_cons_iff.mp hmap
    obtain ⟨-, hstems⟩ := List.forall_mem_cons.mp hparts
    obtain ⟨-, hinner⟩ := List.forall_mem_cons.mp hinner
    have hvalue := hexpr primary List.mem_cons_self ((Bool.or_eq_true _ _).mpr (.inl hprimary))
    have hrules : ∀ suffix ∈ suffixes, suffix.rule.isSuffix := fun suffix hsuffix =>
      hsuffixes _ (List.mem_map_of_mem hsuffix)
    simp only [buildExpr]
    exact hvalue.bind fun value _ => sound_buildSuffixes hrules hstems hinner _ value
  | boolean =>
    simp only [buildExpr]
    exact .made _
  | integer =>
    simp only [buildExpr]
    exact (sound_buildInteger hstems).bind fun _ _ => .made _
  | string =>
    obtain ⟨content, rest, rfl, -, hrest⟩ := List.map_eq_cons_iff.mp htakes
    obtain rfl := List.map_eq_nil_iff.mp hrest
    simp only [buildExpr]
    exact (sound_buildString hstems).bind fun _ _ => .made _
  | staticCall =>
    obtain ⟨rules, hlists, hmap⟩ := htakes
    obtain ⟨receiver, more, rfl, -, hmore⟩ := List.map_eq_cons_iff.mp hmap
    obtain ⟨method, lists, rfl, -, rfl⟩ := List.map_eq_cons_iff.mp hmore
    simp only [List.forall_mem_cons] at hparts hinner
    simp only [buildExpr]
    exact (sound_buildArgLists hlists hparts.2.2 hinner.2.2).bind fun _ _ => .made _
  | localCall =>
    obtain ⟨method, lists, rfl, -, hlists⟩ := List.map_eq_cons_iff.mp htakes
    obtain ⟨-, hstems⟩ := List.forall_mem_cons.mp hparts
    obtain ⟨-, hinner⟩ := List.forall_mem_cons.mp hinner
    simp only [buildExpr]
    exact (sound_buildArgLists (.inr hlists) hstems hinner).bind fun _ _ => .made _
  | localName =>
    obtain ⟨name, rest, rfl, -, -⟩ := List.map_eq_cons_iff.mp htakes
    simp only [buildExpr]
    exact .made _
  | _ => cases hrule

/-! ## Statements -/

/-- The branches of a conditional are built if the conditions and blocks in them are. -/
theorem sound_buildClauses {tree : Node} {clauses : List Node}
    (hrules : ∃ before last, (∀ clause ∈ before, clause = .elsifClause) ∧
      Rule.AtMost .elseClause last ∧ clauses.map ParseTree.rule = before ++ last)
    (hstems : ∀ clause ∈ clauses, Stems grammar clause)
    (hexpr : ∀ clause ∈ clauses, ∀ part ∈ clause.parts, part.rule.isExpr →
      Sound tree (buildExpr part))
    (hblock : ∀ clause ∈ clauses, ∀ part ∈ clause.parts, part.rule = .block →
      Sound tree (buildBlock part)) : Sound tree (buildClauses clauses) := by
  induction clauses with
  | nil =>
    simp only [buildClauses]
    exact .made _
  | cons clause rest ih =>
    obtain ⟨before, last, hbefore, hlast, hmap⟩ := hrules
    obtain ⟨hclause, hrestStems⟩ := List.forall_mem_cons.mp hstems
    obtain ⟨hclauseExpr, hrestExpr⟩ := List.forall_mem_cons.mp hexpr
    obtain ⟨hclauseBlock, hrestBlock⟩ := List.forall_mem_cons.mp hblock
    have ih := fun hrules => ih hrules hrestStems hrestExpr hrestBlock
    have htakes := takes_of_stems hclause
    obtain ⟨rule, start, stop, parts⟩ := clause
    cases before with
    | cons first before =>
      obtain ⟨hfirst, hmoreBefore⟩ := List.forall_mem_cons.mp hbefore
      obtain ⟨hrule, hrest⟩ := List.cons.inj hmap
      have hrule : rule = .elsifClause := hrule.trans hfirst
      subst hrule
      obtain ⟨condition, more, rfl, hcondition, hmore⟩ := List.map_eq_cons_iff.mp htakes
      obtain ⟨body, _, rfl, hbody, -⟩ := List.map_eq_cons_iff.mp hmore
      have hcondition := hclauseExpr condition List.mem_cons_self (by rw [hcondition]; rfl)
      have hbody := hclauseBlock body (List.mem_cons_of_mem _ List.mem_cons_self) hbody
      simp only [buildClauses]
      exact hcondition.bind fun _ _ => hbody.bind fun _ _ =>
        (ih ⟨before, last, hmoreBefore, hlast, hrest⟩).bind fun _ _ => .made _
    | nil =>
      rcases hlast with rfl | rfl
      · cases hmap
      · obtain ⟨hrule, hrest⟩ := List.cons.inj hmap
        have hrule : rule = .elseClause := hrule
        subst hrule
        obtain rfl := List.map_eq_nil_iff.mp hrest
        obtain ⟨body, _, rfl, hbody, -⟩ := List.map_eq_cons_iff.mp htakes
        simp only [buildClauses]
        exact (hclauseBlock body List.mem_cons_self hbody).bind fun _ _ => .made _

theorem sound_buildStmts {tree : Node} {parts : List Node}
    (h : ∀ part ∈ parts, Sound tree (buildStmt part)) : Sound tree (buildStmts parts) := by
  induction parts with
  | nil =>
    simp only [buildStmts]
    exact .made _
  | cons part rest ih =>
    obtain ⟨hpart, hrest⟩ := List.forall_mem_cons.mp h
    simp only [buildStmts]
    exact hpart.bind fun _ _ => (ih hrest).bind fun _ _ => .made _

/-- Every statement and every block is built, or has a literal in it that is refused. -/
theorem sound_buildStmt_and_block {tree : Node} (h : Stems grammar tree) :
    (tree.rule.isStmt → Sound tree (buildStmt tree)) ∧
      (tree.rule = .block → Sound tree (buildBlock tree)) := by
  refine h.induction (P := fun tree => (tree.rule.isStmt → Sound tree (buildStmt tree)) ∧
    (tree.rule = .block → Sound tree (buildBlock tree))) ?_
  rintro ⟨rule, start, stop, parts⟩ hstems ih
  have htakes := takes_of_stems hstems
  have hexpr : ∀ part ∈ parts, part.rule.isExpr →
      Sound (.node rule start stop parts) (buildExpr part) := fun part hpart hrule =>
    (sound_buildExpr (hstems.part hpart) hrule).within (.part hpart .self)
  have hblock : ∀ part ∈ parts, part.rule = .block →
      Sound (.node rule start stop parts) (buildBlock part) := fun part hpart hrule =>
    ((ih part hpart part .self).2 hrule).within (.part hpart .self)
  -- statements of one expression
  have hone : parts.map ParseTree.rule = [.expression] → ∃ value rest, parts = value :: rest ∧
      Sound (.node rule start stop parts) (buildExpr value) := by
    intro hmap
    obtain ⟨value, rest, rfl, hvalue, -⟩ := List.map_eq_cons_iff.mp hmap
    exact ⟨value, rest, rfl, hexpr value List.mem_cons_self (by rw [hvalue]; rfl)⟩
  -- statements of a condition and a block
  have htwo : ∀ rules, parts.map ParseTree.rule = .expression :: .block :: rules →
      ∃ condition body rest, parts = condition :: body :: rest ∧
        rest.map ParseTree.rule = rules ∧
        Sound (.node rule start stop parts) (buildExpr condition) ∧
        Sound (.node rule start stop parts) (buildBlock body) := by
    intro rules hmap
    obtain ⟨condition, more, rfl, hcondition, hmore⟩ := List.map_eq_cons_iff.mp hmap
    obtain ⟨body, rest, rfl, hbody, hrest⟩ := List.map_eq_cons_iff.mp hmore
    exact ⟨condition, body, rest, rfl, hrest,
      hexpr condition List.mem_cons_self (by rw [hcondition]; rfl),
      hblock body (List.mem_cons_of_mem _ List.mem_cons_self) hbody⟩
  refine ⟨fun hrule => ?_, fun hrule => ?_⟩
  · cases rule with
    | exprStmt | putsStmt | raiseStmt =>
      obtain ⟨value, rest, rfl, hvalue⟩ := hone htakes
      simp only [buildStmt]
      exact hvalue.bind fun _ _ => .made _
    | returnStmt =>
      rcases htakes with hnil | hmap
      · obtain rfl := List.map_eq_nil_iff.mp hnil
        simp only [buildStmt]
        exact .made _
      · obtain ⟨value, rest, rfl, hvalue⟩ := hone hmap
        simp only [buildStmt]
        exact hvalue.bind fun _ _ => .made _
    | assignment =>
      obtain ⟨target, more, rfl, -, hmore⟩ := List.map_eq_cons_iff.mp htakes
      obtain ⟨value, rest, rfl, hvalue, -⟩ := List.map_eq_cons_iff.mp hmore
      have hvalue := hexpr value (List.mem_cons_of_mem _ List.mem_cons_self) (by rw [hvalue]; rfl)
      simp only [buildStmt]
      exact hvalue.bind fun _ _ => .made _
    | ifStmt =>
      obtain ⟨before, last, hbefore, hlast, hmap⟩ := htakes
      obtain ⟨condition, body, clauses, rfl, hclauses, hcondition, hbody⟩ := htwo _ hmap
      have hclause : ∀ clause ∈ clauses, clause ∈ condition :: body :: clauses := fun _ hclause =>
        List.mem_cons_of_mem _ (List.mem_cons_of_mem _ hclause)
      have hrest : Sound (.node .ifStmt start stop (condition :: body :: clauses))
          (buildClauses clauses) := by
        refine sound_buildClauses ⟨before, last, hbefore, hlast, hclauses⟩ ?_ ?_ ?_
        · exact fun clause hmem => hstems.part (hclause clause hmem)
        · intro clause hmem part hpart hrule
          have hclause := hclause clause hmem
          exact (sound_buildExpr ((hstems.part hclause).part hpart) hrule).within
            (.part hclause (.part hpart .self))
        · intro clause hmem part hpart hrule
          have hclause := hclause clause hmem
          exact ((ih clause hclause part (.part hpart .self)).2 hrule).within
            (.part hclause (.part hpart .self))
      simp only [buildStmt]
      exact hcondition.bind fun _ _ => hbody.bind fun _ _ => hrest.bind fun _ _ => .made _
    | whileStmt =>
      obtain ⟨condition, body, rest, rfl, -, hcondition, hbody⟩ := htwo _ htakes
      simp only [buildStmt]
      exact hcondition.bind fun _ _ => hbody.bind fun _ _ => .made _
    | _ => cases hrule
  · obtain rfl : rule = .block := hrule
    have hstmts : Sound (.node .block start stop parts) (buildStmts parts) := by
      refine sound_buildStmts fun part hpart => ?_
      have hrule := htakes part.rule (List.mem_map_of_mem hpart)
      exact ((ih part hpart part .self).1 hrule).within (.part hpart .self)
    simp only [buildBlock]
    exact hstmts.bind fun _ _ => .made _

/-! ## Definitions -/

/-- Every parameter is built. -/
theorem sound_buildParams {tree list : Node} (h : Stems grammar list)
    (hrule : list.rule = .paramList) : Sound tree (list.parts.mapM buildParam) := by
  have htakes := takes_of_stems h
  rw [hrule] at htakes
  have hparams : ∀ param ∈ list.parts, ∃ made, buildParam param = .ok made := by
    intro param hparam
    have hrule := htakes param.rule (List.mem_map_of_mem hparam)
    have hparts := takes_of_stems (h.part hparam)
    rw [hrule] at hparts
    obtain ⟨name, more, hname, -, hmore⟩ := List.map_eq_cons_iff.mp hparts
    obtain ⟨type, rest, rfl, -, hrest⟩ := List.map_eq_cons_iff.mp hmore
    obtain rfl := List.map_eq_nil_iff.mp hrest
    exact ⟨_, by rw [buildParam, hname]⟩
  clear htakes
  generalize list.parts = params at hparams
  induction params with
  | nil => exact .made _
  | cons param rest ih =>
    obtain ⟨⟨made, hmade⟩, hrest⟩ := List.forall_mem_cons.mp hparams
    rw [List.mapM_cons, hmade]
    exact (ih hrest).bind fun _ _ => .made _

/-- The rules of the parts of a method. -/
def methodRules : List Rule := [.selfPrefix, .identifier, .paramList, .returnType, .block]

/-- A part of a method is taken, and neither the name nor the body is given up. -/
theorem sound_add {tree part : Node} (h : Stems grammar part) (hrule : part.rule ∈ methodRules)
    (hblock : part.rule = .block → Sound tree (buildBlock part)) (made : MethodParts) :
    Sound tree (made.add part) ∧ ∀ after, made.add part = .ok after →
      (made.name.isSome ∨ part.rule = .identifier → after.name.isSome) ∧
        (made.body.isSome ∨ part.rule = .block → after.body.isSome) := by
  have htakes := takes_of_stems h
  simp only [methodRules, List.mem_cons, List.not_mem_nil, or_false] at hrule
  rcases hrule with hrule | hrule | hrule | hrule | hrule
  · simp only [MethodParts.add, hrule]
    refine ⟨.made _, ?_⟩
    rintro after ⟨⟩
    simp
  · simp only [MethodParts.add, hrule]
    refine ⟨.made _, ?_⟩
    rintro after ⟨⟩
    simp
  · simp only [MethodParts.add, hrule]
    refine ⟨(sound_buildParams h hrule).bind fun _ _ => .made _, fun after hafter => ?_⟩
    simp only [bind_eq_ok, pure_eq_ok] at hafter
    obtain ⟨params, -, rfl⟩ := hafter
    simp
  · rw [hrule] at htakes
    obtain ⟨type, rest, hparts, -, -⟩ := List.map_eq_cons_iff.mp htakes
    simp only [MethodParts.add, hrule, hparts]
    refine ⟨.made _, ?_⟩
    rintro after ⟨⟩
    simp
  · simp only [MethodParts.add, hrule]
    refine ⟨(hblock hrule).bind fun _ _ => .made _, fun after hafter => ?_⟩
    simp only [bind_eq_ok, pure_eq_ok] at hafter
    obtain ⟨body, -, rfl⟩ := hafter
    simp

/-- The parts of a method are of these rules. -/
theorem mem_methodRules {tree part : Node} (h : Stems grammar tree) (hrule : tree.rule = .methodDef)
    (hpart : part ∈ tree.parts) : part.rule ∈ methodRules := by
  have htakes := takes_of_stems h
  rw [hrule] at htakes
  obtain ⟨self, params, ret, hself, hparams, hret, hmap⟩ := htakes
  have hmem : part.rule ∈ tree.parts.map ParseTree.rule := List.mem_map_of_mem hpart
  simp only [hmap, List.mem_append, List.mem_cons, List.not_mem_nil, or_false] at hmem
  rcases hmem with hmem | hmem | hmem | hmem | hmem
  · rw [hself.eq_of_mem hmem]
    decide
  · rw [hmem]
    decide
  · rw [hparams.eq_of_mem hmem]
    decide
  · rw [hret.eq_of_mem hmem]
    decide
  · rw [hmem]
    decide

theorem sound_foldlM_add {tree : Node} {parts : List Node}
    (hstems : ∀ part ∈ parts, Stems grammar part)
    (hrules : ∀ part ∈ parts, part.rule ∈ methodRules)
    (hblock : ∀ part ∈ parts, part.rule = .block → Sound tree (buildBlock part))
    (made : MethodParts) :
    Sound tree (parts.foldlM MethodParts.add made) ∧
      ∀ after, parts.foldlM MethodParts.add made = .ok after →
        (made.name.isSome ∨ .identifier ∈ parts.map ParseTree.rule → after.name.isSome) ∧
          (made.body.isSome ∨ .block ∈ parts.map ParseTree.rule → after.body.isSome) := by
  induction parts generalizing made with
  | nil =>
    refine ⟨.made _, ?_⟩
    rintro after ⟨⟩
    simp
  | cons part rest ih =>
    obtain ⟨hpart, hrestStems⟩ := List.forall_mem_cons.mp hstems
    obtain ⟨hrule, hrestRules⟩ := List.forall_mem_cons.mp hrules
    obtain ⟨hpartBlock, hrestBlock⟩ := List.forall_mem_cons.mp hblock
    have ih := ih hrestStems hrestRules hrestBlock
    obtain ⟨hadd, hkept⟩ := sound_add hpart hrule hpartBlock made
    rw [List.foldlM_cons]
    refine ⟨hadd.bind fun next _ => (ih next).1, fun after hafter => ?_⟩
    obtain ⟨next, hnext, hafter⟩ := bind_eq_ok.mp hafter
    obtain ⟨hname, hbody⟩ := hkept next hnext
    obtain ⟨hname', hbody'⟩ := (ih next).2 after hafter
    simp only [List.map_cons, List.mem_cons] at hname' hbody' ⊢
    refine ⟨fun h => hname' ?_, fun h => hbody' ?_⟩
    · rcases h with h | h | h
      · exact .inl (hname (.inl h))
      · exact .inl (hname (.inr h.symm))
      · exact .inr h
    · rcases h with h | h | h
      · exact .inl (hbody (.inl h))
      · exact .inl (hbody (.inr h.symm))
      · exact .inr h

/-- Every method is built, or has a literal in it that is refused. -/
theorem sound_buildMethod {tree : Node} (h : Stems grammar tree)
    (hrule : tree.rule = .methodDef) : Sound tree (buildMethod tree) := by
  have htakes := takes_of_stems h
  rw [hrule] at htakes
  obtain ⟨self, params, ret, hself, hparams, hret, hmap⟩ := htakes
  have hblock : ∀ part ∈ tree.parts, part.rule = .block → Sound tree (buildBlock part) :=
    fun part hpart hrule =>
      ((sound_buildStmt_and_block (h.part hpart)).2 hrule).within (.part hpart .self)
  obtain ⟨hfold, hkept⟩ := sound_foldlM_add (fun _ hpart => h.part hpart)
    (fun _ hpart => mem_methodRules h hrule hpart) hblock {}
  refine hfold.bind fun made hmade => ?_
  obtain ⟨hname, hbody⟩ := hkept made hmade
  obtain ⟨name, hname⟩ := Option.isSome_iff_exists.mp (hname (.inr (by simp [hmap])))
  obtain ⟨body, hbody⟩ := Option.isSome_iff_exists.mp (hbody (.inr (by simp [hmap])))
  rw [hname, hbody]
  exact .made _

theorem sound_buildMembers {tree : Node} {members : List Node}
    (hrules : ∀ member ∈ members, member.rule.isMember)
    (hclass : ∀ member ∈ members, member.rule = .classDef → Sound tree (buildClass member))
    (hmethod : ∀ member ∈ members, member.rule = .methodDef → Sound tree (buildMethod member)) :
    Sound tree (buildMembers members) := by
  induction members with
  | nil =>
    simp only [buildMembers]
    exact .made _
  | cons member rest ih =>
    obtain ⟨hrule, hrestRules⟩ := List.forall_mem_cons.mp hrules
    obtain ⟨hfirstClass, hrestClass⟩ := List.forall_mem_cons.mp hclass
    obtain ⟨hfirstMethod, hrestMethod⟩ := List.forall_mem_cons.mp hmethod
    have ih := ih hrestRules hrestClass hrestMethod
    obtain ⟨rule, start, stop, parts⟩ := member
    cases rule with
    | classDef =>
      simp only [buildMembers]
      exact (hfirstClass rfl).bind fun _ _ => ih.bind fun _ _ => .made _
    | methodDef =>
      simp only [buildMembers]
      exact (hfirstMethod rfl).bind fun _ _ => ih.bind fun _ _ => .made _
    | _ => cases hrule

/-- Every class is built, or has a literal in it that is refused. -/
theorem sound_buildClass {tree : Node} (h : Stems grammar tree) :
    tree.rule = .classDef → Sound tree (buildClass tree) := by
  refine h.induction (P := fun tree => tree.rule = .classDef → Sound tree (buildClass tree)) ?_
  rintro ⟨rule, start, stop, parts⟩ hstems ih rfl
  obtain ⟨rules, hrules, hmap⟩ := takes_of_stems hstems
  obtain ⟨name, members, rfl, -, rfl⟩ := List.map_eq_cons_iff.mp hmap
  have hmembers : Sound (.node .classDef start stop (name :: members)) (buildMembers members) := by
    refine sound_buildMembers (fun member hmember => hrules _ (List.mem_map_of_mem hmember)) ?_ ?_
    · intro member hmember hrule
      have hpart := List.mem_cons_of_mem name hmember
      exact (ih member hpart member .self hrule).within (.part hpart .self)
    · intro member hmember hrule
      have hpart := List.mem_cons_of_mem name hmember
      exact (sound_buildMethod (hstems.part hpart) hrule).within (.part hpart .self)
  simp only [buildClass]
  exact hmembers.bind fun _ _ => .made _

/-! ## Units -/

/-- The package declaration and the items are built, or have a literal that is refused. -/
theorem sound_buildParts {tree : Node} {parts : List Node}
    (hstems : ∀ part ∈ parts, Stems grammar part)
    (hrules : ∀ part ∈ parts, part.rule = .packageDecl ∨ part.rule = .finish ∨
      part.rule.isMember ∨ part.rule.isStmt) (htree : ∀ part ∈ parts, tree.Has part) :
    Sound tree (buildParts parts) := by
  induction parts with
  | nil => exact .made _
  | cons part rest ih =>
    obtain ⟨hpart, hrestStems⟩ := List.forall_mem_cons.mp hstems
    obtain ⟨hrule, hrestRules⟩ := List.forall_mem_cons.mp hrules
    obtain ⟨hhas, hrestTree⟩ := List.forall_mem_cons.mp htree
    have ih := ih hrestStems hrestRules hrestTree
    have hitem : part.rule.isMember ∨ part.rule.isStmt → Sound tree (buildItem part) := by
      intro hrule
      unfold buildItem
      split
      · exact ((sound_buildClass hpart ‹_›).within hhas).bind fun _ _ => .made _
      · exact ((sound_buildMethod hpart ‹_›).within hhas).bind fun _ _ => .made _
      · rename_i hclass hmethod
        have hstmt : part.rule.isStmt := hrule.resolve_left fun hmember => by
          revert hmember hclass hmethod
          cases part.rule <;> simp [Rule.isMember]
        exact (((sound_buildStmt_and_block hpart).1 hstmt).within hhas).bind fun _ _ => .made _
    rw [buildParts]
    split
    · rename_i hpackage
      have htakes := takes_of_stems hpart
      rw [hpackage] at htakes
      obtain ⟨name, _, hname, -, -⟩ := List.map_eq_cons_iff.mp htakes
      simp only [buildPackage, hname]
      exact ih.bind fun _ _ => .made _
    · exact ih
    · rename_i hpackage hfinish
      have hrule := (hrule.resolve_left hpackage).resolve_left hfinish
      exact (hitem hrule).bind fun _ _ => ih.bind fun _ _ => .made _

/-- Every unit is built, or has a literal in it that is refused. -/
theorem sound_buildProgram {tree : Node} (h : Stems grammar tree) (hrule : tree.rule = .program)
    (source : String) : Sound tree (buildProgram source tree) := by
  have htakes := takes_of_stems h
  rw [hrule] at htakes
  obtain ⟨package, items, hpackage, hitems, hmap⟩ := htakes
  have hrules : ∀ part ∈ tree.parts, part.rule = .packageDecl ∨ part.rule = .finish ∨
      part.rule.isMember ∨ part.rule.isStmt := by
    intro part hpart
    have hmem : part.rule ∈ tree.parts.map ParseTree.rule := List.mem_map_of_mem hpart
    simp only [hmap, List.mem_append, List.mem_singleton] at hmem
    rcases hmem with hmem | hmem | hmem
    · exact .inl (hpackage.eq_of_mem hmem)
    · exact .inr (.inr (hitems _ hmem))
    · exact .inr (.inl hmem)
  have hparts : Sound tree (buildParts tree.parts) :=
    sound_buildParts (fun _ hpart => h.part hpart) hrules fun _ hpart => .part hpart .self
  exact hparts.bind fun _ _ => .made _

/-- The grammar matches the rule at the start of the text: given fuel, reading finds it. -/
def Matches (rule : Rule) (text : String) : Prop :=
  ∃ fuel cur trees tries, Grammar.read grammar fuel {} (.call rule) (.ofText text.toList) {} =
    (.found cur trees, tries)

theorem rank_lt_fuelPerChar (rule : Rule) : rule.rank < fuelPerChar := by
  cases rule <;> decide

/-- Wherever the grammar matches, a node of the rule is read. -/
theorem readNode_of_matches {rule : Rule} {text : String} (h : Matches rule text) :
    ∃ node, readNode rule text.toList = .ok node ∧ node.rule = rule := by
  obtain ⟨fuel, cur, trees, tries, hread⟩ := h
  obtain ⟨parts, rfl⟩ := (reads_of_read _ hread).call_inv (Rules.leavesNode_of rfl rule)
  have hparse := parse_of_read measured_grammar (rank_lt_fuelPerChar rule) hread
  exact ⟨_, by rw [readNode, hparse], rfl⟩

theorem matches_of_readNode {rule : Rule} {text : String} {node : Node}
    (h : readNode rule text.toList = .ok node) : Matches rule text := by
  unfold readNode at h
  split at h
  · rename_i hparse
    exact ⟨_, _, _, _, hparse⟩
  · cases h

/-- **Whatever the grammar matches can be built, but for literals.** The node that is read has, all
the way down, the parts that trees are built from. A unit or expression is built from it, or one of
its literals is refused: an integer beyond the 64-bit range, or a string with a backslash before a
character that has no escape. -/
theorem matches_builds {rule : Rule} (hrule : rule = .program ∨ rule = .expression) {text : String}
    (h : Matches rule text) : ∃ node, readNode rule text.toList = .ok node ∧ node.rule = rule ∧
      (∀ inner, node.Has inner → inner.rule.Takes (inner.parts.map ParseTree.rule)) ∧
      (rule = .program → ∀ source, Sound node (readProgram source text)) ∧
      (rule = .expression → Sound node (buildExpr node)) := by
  obtain ⟨node, hnode, hnodeRule⟩ := readNode_of_matches h
  have hstems := stems_readNode hnode
  refine ⟨node, hnode, hnodeRule, fun inner hinner => takes_of_stems (hstems.has hinner), ?_, ?_⟩
  · rintro rfl source
    rw [readProgram, hnode]
    exact sound_buildProgram hstems hnodeRule source
  · rintro rfl
    exact sound_buildExpr hstems (by rw [hnodeRule]; rfl)

/-- A unit with an integer that is one too large. -/
def overflowText : String := "puts 9223372036854775808"

/-- An expression with a backslash before a character that has no escape. -/
def escapeText : String := "\"a\\q\""

theorem matches_builds_refused :
    (∃ node, readNode .program overflowText.toList = .ok node ∧
      Sound node (readProgram "unit" overflowText) ∧
      (readProgram "unit" overflowText).toOption.isNone = true) ∧
    ∃ node, readNode .expression escapeText.toList = .ok node ∧ Sound node (buildExpr node) ∧
      (buildExpr node).toOption.isNone = true := by
  have hoverflow : ∃ node, readNode .program overflowText.toList = .ok node := by
    have hread : (readNode .program overflowText.toList).toOption.isSome = true := by
      decide +kernel
    cases hnode : readNode .program overflowText.toList with
    | ok node => exact ⟨node, rfl⟩
    | error fault =>
      rw [hnode] at hread
      cases hread
  have hescape : ∃ node, readNode .expression escapeText.toList = .ok node ∧
      (buildExpr node).toOption.isNone = true := by
    have hread : ((readNode .expression escapeText.toList).toOption.map fun node =>
        (buildExpr node).toOption.isNone) = some true := by decide +kernel
    cases hnode : readNode .expression escapeText.toList with
    | ok node =>
      rw [hnode] at hread
      exact ⟨node, rfl, Option.some.inj hread⟩
    | error fault =>
      rw [hnode] at hread
      cases hread
  constructor
  · obtain ⟨node, hnode⟩ := hoverflow
    obtain ⟨node, hnode, -, -, hsound, -⟩ := matches_builds (.inl rfl) (matches_of_readNode hnode)
    exact ⟨node, hnode, hsound rfl "unit", by decide +kernel⟩
  · obtain ⟨node, hnode, hrefused⟩ := hescape
    obtain ⟨node', hnode', -, -, -, hsound⟩ := matches_builds (.inr rfl) (matches_of_readNode hnode)
    obtain rfl : node = node' := by
      rw [hnode] at hnode'
      exact Except.ok.inj hnode'
    exact ⟨node, hnode, hsound rfl, hrefused⟩

end StackScript.Syntax

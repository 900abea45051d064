import StackScript.Proofs.PackageNames
import StackScript.Proofs.Spans

/-!
# What a text can write

In a tree fresh from the reader every name is a word, every type a word with brackets behind it, and
nothing is filled in that inference finds out (`Program.Written`). The grammar makes no other names
(`isWord_buildIdent`, `written_buildTypeRef`), and building adds nothing to a tree but what its
nodes write (`written_readProgram`).
-/

namespace StackScript.Syntax

open StackScript.Grammar StackScript.Source StackScript.Text

/-! ## Written trees -/

/-- The type is a word with brackets behind it. -/
def TypeRef.Written (ref : TypeRef) : Prop := IsWord ref.name

/-- The parameter has a word for its name, and a written type. -/
def Param.Written (param : Param) : Prop := IsWord param.name.name ∧ param.type.Written

mutual

/-- The names in the expression are words, and it has no types and targets filled in. -/
def Expr.Written : Expr → Prop
  | .int _ note | .bool _ note | .string _ note => note.type = none
  | .var name note => IsWord name.name ∧ note.type = none
  | .call receiver method args target note =>
    (∀ owner ∈ receiver, IsWord owner.name) ∧ IsWord method.name ∧ WrittenArgs args ∧
      target = none ∧ note.type = none
  | .index array position note => array.Written ∧ position.Written ∧ note.type = none
  | .length value note => value.Written ∧ note.type = none
  | .unary _ operand note => operand.Written ∧ note.type = none
  | .binary _ left right note => left.Written ∧ right.Written ∧ note.type = none

/-- All of the expressions are written. -/
def WrittenArgs : List Expr → Prop
  | [] => True
  | arg :: args => arg.Written ∧ WrittenArgs args

end

mutual

/-- The names in the statement are words, and it has no types and targets filled in. -/
def Stmt.Written : Stmt → Prop
  | .expr value _ | .puts value _ | .raise value _ => value.Written
  | .assign target value _ => IsWord target.name ∧ value.Written
  | .cond chain _ => chain.Written
  | .loop condition body _ => condition.Written ∧ body.Written
  | .ret value _ => ∀ e ∈ value, e.Written

/-- All statements of the block are written. -/
def Block.Written : Block → Prop
  | .mk stmts _ => WrittenStmts stmts

/-- All of the statements are written. -/
def WrittenStmts : List Stmt → Prop
  | [] => True
  | stmt :: stmts => stmt.Written ∧ WrittenStmts stmts

/-- All conditions and blocks of the branches are written. -/
def Chain.Written : Chain → Prop
  | .done => True
  | .otherwise body => body.Written
  | .branch condition body rest => condition.Written ∧ body.Written ∧ rest.Written

end

/-- The names in the method are words, and it has no types and targets filled in. -/
structure Method.Written (m : Method) : Prop where
  name : IsWord m.name.name
  params : ∀ param ∈ m.params, param.Written
  ret : ∀ type ∈ m.ret, type.Written
  body : m.body.Written
  retType : m.retType = none

mutual

/-- The names in the class are words, it stands in the text, and it has nothing filled in. -/
def ClassDef.Written : ClassDef → Prop
  | .mk name members synthetic _ => IsWord name.name ∧ WrittenMembers members ∧ synthetic = false

/-- All of the members are written. -/
def WrittenMembers : List Member → Prop
  | [] => True
  | .method m :: members => m.Written ∧ WrittenMembers members
  | .nested c :: members => c.Written ∧ WrittenMembers members

end

/-- The class, method or statement is written. -/
def Item.Written : Item → Prop
  | .cls c => c.Written
  | .method m => m.Written
  | .stmt s => s.Written

/-- The package has words with dots between for its name, and all items are written. -/
structure Program.Written (program : Program) : Prop where
  package : ∀ package ∈ program.package, Dotted package.name
  items : ∀ item ∈ program.items, item.Written

/-! ## Names and types -/

/-- A name that starts with a capital letter is a word. -/
theorem covers_constant {ctx : Context} {cur cur' : Cursor} {trees : List Node}
    (h : Reads grammar ctx (.call .constant) cur cur' trees) :
    Covers (fun cs => IsWord (String.ofList cs)) cur cur' := by
  cases h with
  | call h =>
    have hkind : (ctx.enter (grammar.production .constant).kind).kind ≠ .loose := nofun
    obtain ⟨mid, _, _, hfirst, hrest⟩ := reads_seq_inv (List.cons_ne_nil _ _) hkind h
    have hmore : Passes isNameChar mid cur' := (hrest.within ⟨fun _ hc => hc, trivial,
      fun _ hc => hc⟩).2 hkind
    cases hfirst with
    | @one _ _ c rest mark hc =>
      have hc : isNameChar c = true := by
        show (c.isUpper || c.isLower || c.isDigit || decide (c = '_')) = true
        rw [hc]
        rfl
      have hone : Covers (· = [c]) ⟨c :: rest, mark⟩ ⟨rest, mark.next c⟩ :=
        ⟨[c], rfl, rfl, rfl⟩
      refine hone.append hmore ?_
      rintro _ cs rfl hcs
      refine ⟨by simp, ?_⟩
      rw [PlainName, String.toList_ofList]
      exact List.forall_mem_cons.mpr ⟨hc, hcs⟩

/-- Names in a text are words. -/
theorem isWord_buildIdent {node : Node} (h : Stems grammar node)
    (hrule : node.rule = .identifier ∨ node.rule = .constant) :
    IsWord (buildIdent node).name := by
  obtain ⟨rule, start, stop, parts⟩ := node
  cases h with
  | @node ctx _ _ _ _ hreads _ _ =>
    rcases hrule with hrule | hrule <;> cases hrule
    · exact (covers_identifier (Reads.call hreads)).of_textTo
    · exact (covers_constant (Reads.call hreads)).of_textTo

/-- The characters of pairs of brackets. -/
def bracketPairs (dims : Nat) : List Char := (List.replicate dims ['[', ']']).flatten

theorem bracketPairs_succ (dims : Nat) :
    bracketPairs (dims + 1) = bracketPairs dims ++ ['[', ']'] := by
  rw [bracketPairs, List.replicate_succ', List.flatten_concat]
  rfl

theorem reverse_bracketPairs_succ (dims : Nat) :
    (bracketPairs (dims + 1)).reverse = ']' :: '[' :: (bracketPairs dims).reverse := by
  rw [bracketPairs_succ, List.reverse_append]
  rfl

/-- An annotation is spelt as its name with its brackets behind. -/
theorem TypeRef.toList_text (ref : TypeRef) :
    ref.text.toList = ref.name.toList ++ bracketPairs ref.dims := by
  rw [TypeRef.text, String.toList_append, String.toList_join, bracketPairs, List.flatMap_replicate]
  rfl

/-- From the end of an annotation the brackets come off up to the name. -/
theorem stripBrackets_of_word {word : String} (h : IsWord word) (dims : Nat) :
    Ty.stripBrackets ((bracketPairs dims).reverse ++ word.toList.reverse) =
      (dims, word.toList.reverse) := by
  induction dims with
  | zero =>
    have hlast : ∀ rest, word.toList.reverse ≠ ']' :: rest := by
      intro rest heq
      have hmem : ']' ∈ word.toList := List.mem_reverse.mp (by rw [heq]; exact List.mem_cons_self)
      exact absurd (h.2 ']' hmem) (by decide)
    show Ty.stripBrackets word.toList.reverse = _
    generalize word.toList.reverse = cs at hlast
    unfold Ty.stripBrackets
    split
    · exact absurd rfl (hlast _)
    · rfl
  | succ dims ih =>
    rw [reverse_bracketPairs_succ, List.cons_append, List.cons_append, Ty.stripBrackets, ih]

/-- A type in a text is a word with brackets behind it. -/
theorem written_buildTypeRef {node : Node} (h : Stems grammar node) (hrule : node.rule = .typeRef) :
    (buildTypeRef node).Written := by
  obtain ⟨rule, start, stop, parts⟩ := node
  cases hrule
  cases h with
  | @node ctx _ _ cur' _ hreads _ _ =>
    have hkind : (ctx.enter (grammar.production .typeRef).kind).kind ≠ .loose := nofun
    obtain ⟨mid, _, _, hname, hbrackets⟩ := reads_seq_inv (List.cons_ne_nil _ _) hkind hreads
    have hword : Covers (fun cs => IsWord (String.ofList cs)) start mid := by
      cases hname with
      | left hname => exact covers_constant hname
      | right hname => exact covers_identifier hname
    have hpair : ∀ {cur cur' : Cursor} {trees : List Node},
        Reads grammar (ctx.enter (grammar.production .typeRef).kind) (.lit "[]") cur cur' trees →
        Covers (· = ['[', ']']) cur cur' := by
      intro cur cur' trees hpair
      cases hpair with
      | text hpair => exact Covers.of_pass? hpair
    have hpairs : Covers (fun cs => ∃ dims, cs = bracketPairs dims) mid cur' := by
      refine Reads.covers_star hkind hpair ⟨0, rfl⟩ ?_ hbrackets
      rintro _ _ rfl ⟨dims, rfl⟩
      exact ⟨dims + 1, rfl⟩
    have hboth : Covers (fun cs => IsWord (Ty.splitText cs).1) start cur' := by
      refine hword.append hpairs ?_
      rintro cs _ hcs ⟨dims, rfl⟩
      have hstrip := stripBrackets_of_word hcs dims
      rw [String.toList_ofList] at hstrip
      rw [Ty.splitText, List.reverse_append, hstrip]
      show IsWord (String.ofList cs.reverse.reverse)
      rw [List.reverse_reverse]
      exact hcs
    exact hboth.of_textTo

/-! ## What is made -/

/-- Whatever is made, if anything is, has the property. -/
def Makes {α : Type} (ok : α → Prop) (built : Built α) : Prop :=
  ∀ value, built = .ok value → ok value

namespace Makes

variable {α β : Type} {ok : α → Prop} {ok' : β → Prop} {built : Built α}

theorem value {a : α} (h : ok a) : Makes ok (.ok a) := by
  rintro _ ⟨⟩
  exact h

theorem error {fault : ReadFault} : Makes ok (.error fault) := nofun

/-- What two builders in a row make is as stated if it is for each of them. -/
theorem bind {next : α → Built β} (h : Makes ok built) (hnext : ∀ a, ok a → Makes ok' (next a)) :
    Makes ok' (built >>= next) := by
  intro b hb
  obtain ⟨a, ha, hb⟩ := bind_eq_ok.mp hb
  exact hnext a (h a ha) b hb

/-- What is made may have any property that does not matter. -/
theorem trivial : Makes (fun _ => True) built := fun _ _ => True.intro

end Makes

/-! ## Expressions -/

theorem written_applyPrefixes {ops : List (UnaryOp × Span)} {operand : Expr}
    (h : operand.Written) : (applyPrefixes ops operand).Written := by
  induction ops with
  | nil => exact h
  | cons op ops ih => exact ⟨ih, rfl⟩

/-- Reducing waiting operators writes nothing but their operands. -/
theorem written_reduce (level : Nat) {waiting : List Waiting} {right : Expr}
    (hwaiting : ∀ pair ∈ waiting, pair.1.Written) (hright : right.Written) :
    (∀ pair ∈ (reduce level waiting right).1, pair.1.Written) ∧
      (reduce level waiting right).2.Written := by
  induction waiting generalizing right with
  | nil => exact ⟨hwaiting, hright⟩
  | cons pair waiting ih =>
    obtain ⟨left, op⟩ := pair
    obtain ⟨hleft, hrest⟩ := List.forall_mem_cons.mp hwaiting
    rw [reduce]
    split
    · exact ih hrest ⟨hleft, hright, rfl⟩
    · exact ⟨hwaiting, hright⟩

/-- A row of operators is assembled to a tree that is written if its operands are. -/
theorem written_assembleFrom {row : List (BinaryOp × Expr)} {waiting : List Waiting}
    {current : Expr} (hwaiting : ∀ pair ∈ waiting, pair.1.Written) (hcurrent : current.Written)
    (hrow : ∀ pair ∈ row, pair.2.Written) : (assembleFrom waiting current row).Written := by
  induction row generalizing waiting current with
  | nil => exact (written_reduce 0 hwaiting hcurrent).2
  | cons pair row ih =>
    obtain ⟨op, operand⟩ := pair
    obtain ⟨hoperand, hrest⟩ := List.forall_mem_cons.mp hrow
    obtain ⟨hstill, hleft⟩ := written_reduce op.level hwaiting hcurrent
    exact ih (List.forall_mem_cons.mpr ⟨hleft, hstill⟩) hoperand hrest

/-- All operands of a row that is built are written. -/
theorem written_row {nodes : List Node}
    (hexpr : ∀ node ∈ nodes, Makes Expr.Written (buildExpr node)) (fault : ReadFault) :
    Makes (fun row => ∀ pair ∈ row, pair.2.Written) (buildRow fault nodes) ∧
      ∀ op ops, Makes (fun row => ∀ pair ∈ row, pair.2.Written)
        (buildRight op ops fault nodes) := by
  induction nodes with
  | nil => exact ⟨.value (List.forall_mem_nil _), fun _ _ => .error⟩
  | cons node rest ih =>
    obtain ⟨hnode, hrest⟩ := List.forall_mem_cons.mp hexpr
    obtain ⟨hrow, hright⟩ := ih hrest
    obtain ⟨rule, start, stop, parts⟩ := node
    constructor
    · rw [buildRow]
      split
      · exact hright _ []
      · exact .error
    · intro op ops
      rw [buildRight]
      split
      · exact hright _ _
      · refine hnode.bind fun operand hoperand => hrow.bind fun row hrow => .value ?_
        exact List.forall_mem_cons.mpr ⟨written_applyPrefixes hoperand, hrow⟩

theorem written_buildExprs {nodes : List Node}
    (hexpr : ∀ node ∈ nodes, Makes Expr.Written (buildExpr node)) :
    Makes WrittenArgs (buildExprs nodes) := by
  induction nodes with
  | nil => exact .value True.intro
  | cons node rest ih =>
    obtain ⟨hnode, hrest⟩ := List.forall_mem_cons.mp hexpr
    rw [buildExprs]
    exact hnode.bind fun value hvalue => (ih hrest).bind fun values hvalues =>
      .value ⟨hvalue, hvalues⟩

theorem written_buildArgLists {lists : List Node}
    (hexpr : ∀ list ∈ lists, ∀ arg ∈ list.parts, Makes Expr.Written (buildExpr arg)) :
    Makes WrittenArgs (buildArgLists lists) := by
  cases lists with
  | nil => exact .value True.intro
  | cons list rest =>
    obtain ⟨rule, start, stop, args⟩ := list
    exact written_buildExprs (hexpr _ List.mem_cons_self)

/-- A value with suffixes is written if the value and what stands in the suffixes is. -/
theorem written_buildSuffixes {fault : ReadFault} {suffixes : List Node}
    (hexpr : ∀ suffix ∈ suffixes, ∀ part ∈ suffix.parts, Makes Expr.Written (buildExpr part))
    {value : Expr} (hvalue : value.Written) :
    Makes Expr.Written (buildSuffixes fault value suffixes) := by
  induction suffixes generalizing value with
  | nil => exact .value hvalue
  | cons suffix rest ih =>
    obtain ⟨hsuffix, hrest⟩ := List.forall_mem_cons.mp hexpr
    unfold buildSuffixes
    split
    · cases ‹_ = []›
    · rename_i heq
      cases heq
      exact (hsuffix _ List.mem_cons_self).bind fun position hposition =>
        ih hrest ⟨hvalue, hposition, rfl⟩
    · rename_i heq
      cases heq
      exact ih hrest ⟨hvalue, rfl⟩
    · exact .error

/-- Every expression that is built is written. -/
theorem written_buildExpr {tree : Node} (h : Stems grammar tree) :
    Makes Expr.Written (buildExpr tree) := by
  refine h.induction (P := fun tree => Makes Expr.Written (buildExpr tree)) ?_
  intro tree hstems ih
  have htakes := takes_of_stems hstems
  have hexpr : ∀ part ∈ tree.parts, Makes Expr.Written (buildExpr part) := fun part hpart =>
    ih part hpart part .self
  have hinner : ∀ part ∈ tree.parts, ∀ inner ∈ part.parts, Makes Expr.Written (buildExpr inner) :=
    fun part hpart inner hinner => ih part hpart inner (.part hinner .self)
  unfold buildExpr
  split
  · -- a row of operators
    intro value hvalue
    obtain ⟨first, row, hright, rfl⟩ := buildOperand_inv hvalue .or
    have hrow := (written_row hexpr _).2 .or [] _ hright
    obtain ⟨hfirst, hrest⟩ := List.forall_mem_cons.mp hrow
    exact written_assembleFrom (List.forall_mem_nil _) hfirst hrest
  · -- a term
    refine (hexpr _ List.mem_cons_self).bind fun value hvalue => ?_
    exact written_buildSuffixes (fun suffix hsuffix =>
      hinner suffix (List.mem_cons_of_mem _ hsuffix)) hvalue
  · exact .value rfl
  · exact Makes.trivial.bind fun _ _ => .value rfl
  · exact Makes.trivial.bind fun _ _ => .value rfl
  · -- a call on a class
    rename_i start stop receiver method lists
    obtain ⟨_, -, hmap⟩ := htakes
    obtain ⟨hreceiver, hmap⟩ := List.cons.inj hmap
    obtain ⟨hmethod, -⟩ := List.cons.inj hmap
    have hargs : Makes WrittenArgs (buildArgLists lists) := written_buildArgLists fun list hlist =>
      hinner list (List.mem_cons_of_mem _ (List.mem_cons_of_mem _ hlist))
    refine hargs.bind fun args hargs => .value ⟨?_, ?_, hargs, rfl, rfl⟩
    · rintro _ ⟨⟩
      exact isWord_buildIdent (hstems.part List.mem_cons_self) (.inr hreceiver)
    · exact isWord_buildIdent (hstems.part (List.mem_cons_of_mem _ List.mem_cons_self))
        (.inl hmethod)
  · -- a call on the enclosing class
    rename_i start stop method lists
    obtain ⟨hmethod, -⟩ := List.cons.inj htakes
    have hargs : Makes WrittenArgs (buildArgLists lists) := written_buildArgLists fun list hlist =>
      hinner list (List.mem_cons_of_mem _ hlist)
    refine hargs.bind fun args hargs => .value ⟨nofun, ?_, hargs, rfl, rfl⟩
    exact isWord_buildIdent (hstems.part List.mem_cons_self) (.inl hmethod)
  · obtain ⟨hname, -⟩ := List.cons.inj htakes
    exact .value ⟨isWord_buildIdent (hstems.part List.mem_cons_self) (.inl hname), rfl⟩
  · exact .error

/-! ## Statements -/

theorem written_buildStmts {nodes : List Node}
    (hstmt : ∀ node ∈ nodes, Makes Stmt.Written (buildStmt node)) :
    Makes WrittenStmts (buildStmts nodes) := by
  induction nodes with
  | nil => exact .value True.intro
  | cons node rest ih =>
    obtain ⟨hnode, hrest⟩ := List.forall_mem_cons.mp hstmt
    rw [buildStmts]
    exact hnode.bind fun stmt hstmt => (ih hrest).bind fun stmts hstmts => .value ⟨hstmt, hstmts⟩

/-- A chain is written if the conditions and blocks of its clauses are. -/
theorem written_buildClauses {clauses : List Node}
    (hexpr : ∀ clause ∈ clauses, ∀ part ∈ clause.parts, Makes Expr.Written (buildExpr part))
    (hblock : ∀ clause ∈ clauses, ∀ part ∈ clause.parts, Makes Block.Written (buildBlock part)) :
    Makes Chain.Written (buildClauses clauses) := by
  induction clauses with
  | nil => exact .value True.intro
  | cons clause rest ih =>
    obtain ⟨hclauseExpr, hrestExpr⟩ := List.forall_mem_cons.mp hexpr
    obtain ⟨hclauseBlock, hrestBlock⟩ := List.forall_mem_cons.mp hblock
    unfold buildClauses
    split
    · cases ‹_ = []›
    · rename_i heq
      cases heq
      refine (hclauseExpr _ List.mem_cons_self).bind fun condition hcondition => ?_
      refine (hclauseBlock _ (List.mem_cons_of_mem _ List.mem_cons_self)).bind fun body hbody => ?_
      exact (ih hrestExpr hrestBlock).bind fun chain hchain => .value ⟨hcondition, hbody, hchain⟩
    · rename_i heq
      cases heq
      exact (hclauseBlock _ List.mem_cons_self).bind fun body hbody => .value hbody
    · exact .error

/-- Every statement and every block that is built is written. -/
theorem written_buildStmt_and_block {tree : Node} (h : Stems grammar tree) :
    Makes Stmt.Written (buildStmt tree) ∧ Makes Block.Written (buildBlock tree) := by
  refine h.induction (P := fun tree =>
    Makes Stmt.Written (buildStmt tree) ∧ Makes Block.Written (buildBlock tree)) ?_
  intro tree hstems ih
  have htakes := takes_of_stems hstems
  have hexpr : ∀ part ∈ tree.parts, Makes Expr.Written (buildExpr part) := fun part hpart =>
    written_buildExpr (hstems.part hpart)
  have hstmt : ∀ part ∈ tree.parts, Makes Stmt.Written (buildStmt part) := fun part hpart =>
    (ih part hpart part .self).1
  have hblock : ∀ part ∈ tree.parts, Makes Block.Written (buildBlock part) := fun part hpart =>
    (ih part hpart part .self).2
  have hinnerExpr : ∀ part ∈ tree.parts, ∀ inner ∈ part.parts,
      Makes Expr.Written (buildExpr inner) := fun part hpart inner hinner =>
    written_buildExpr ((hstems.part hpart).part hinner)
  have hinnerBlock : ∀ part ∈ tree.parts, ∀ inner ∈ part.parts,
      Makes Block.Written (buildBlock inner) := fun part hpart inner hinner =>
    (ih part hpart inner (.part hinner .self)).2
  constructor
  · unfold buildStmt
    split
    case h_2 =>
      -- an assignment
      obtain ⟨htarget, -⟩ := List.cons.inj htakes
      have hword := isWord_buildIdent (hstems.part List.mem_cons_self) (.inl htarget)
      exact (hexpr _ (List.mem_cons_of_mem _ List.mem_cons_self)).bind fun value hvalue =>
        .value ⟨hword, hvalue⟩
    case h_5 =>
      refine (hexpr _ List.mem_cons_self).bind fun value hvalue => .value ?_
      rintro _ ⟨⟩
      exact hvalue
    case h_6 => exact .value nofun
    case h_7 =>
      -- a conditional
      refine (hexpr _ List.mem_cons_self).bind fun condition hcondition => ?_
      refine (hblock _ (List.mem_cons_of_mem _ List.mem_cons_self)).bind fun body hbody => ?_
      refine Makes.bind (written_buildClauses ?_ ?_) fun chain hchain =>
        .value ⟨hcondition, hbody, hchain⟩
      · intro clause hclause
        exact hinnerExpr clause (List.mem_cons_of_mem _ (List.mem_cons_of_mem _ hclause))
      · intro clause hclause
        exact hinnerBlock clause (List.mem_cons_of_mem _ (List.mem_cons_of_mem _ hclause))
    case h_8 =>
      -- a loop
      refine (hexpr _ List.mem_cons_self).bind fun condition hcondition => ?_
      exact (hblock _ (List.mem_cons_of_mem _ List.mem_cons_self)).bind fun body hbody =>
        .value ⟨hcondition, hbody⟩
    case h_9 => exact .error
    -- statements of one expression
    all_goals exact (hexpr _ List.mem_cons_self).bind fun value hvalue => .value hvalue
  · obtain ⟨rule, start, stop, parts⟩ := tree
    rw [buildBlock]
    exact (written_buildStmts hstmt).bind fun stmts hstmts => .value hstmts

/-! ## Definitions -/

theorem written_buildParam {node : Node} (h : Stems grammar node) (hrule : node.rule = .parameter) :
    Makes Param.Written (buildParam node) := by
  have htakes := takes_of_stems h
  rw [hrule] at htakes
  unfold buildParam
  split
  · rename_i name type hparts
    have hname : name ∈ node.parts := by rw [hparts]; exact List.mem_cons_self
    have htype : type ∈ node.parts := by
      rw [hparts]
      exact List.mem_cons_of_mem _ List.mem_cons_self
    rw [hparts] at htakes
    obtain ⟨hident, htypes⟩ := List.cons.inj htakes
    exact .value ⟨isWord_buildIdent (h.part hname) (.inl hident),
      written_buildTypeRef (h.part htype) (List.cons.inj htypes).1⟩
  · exact .error

theorem written_buildParams {nodes : List Node} (hstems : ∀ node ∈ nodes, Stems grammar node)
    (hrules : ∀ node ∈ nodes, node.rule = .parameter) :
    Makes (fun params => ∀ param ∈ params, param.Written) (nodes.mapM buildParam) := by
  induction nodes with
  | nil => exact .value (List.forall_mem_nil _)
  | cons node rest ih =>
    obtain ⟨hnode, hrest⟩ := List.forall_mem_cons.mp hstems
    obtain ⟨hrule, hrestRules⟩ := List.forall_mem_cons.mp hrules
    rw [List.mapM_cons]
    exact (written_buildParam hnode hrule).bind fun param hparam =>
      (ih hrest hrestRules).bind fun params hparams =>
        .value (List.forall_mem_cons.mpr ⟨hparam, hparams⟩)

/-- The parts of a method met so far are written. -/
structure MethodParts.Written (made : MethodParts) : Prop where
  name : ∀ name ∈ made.name, IsWord name.name
  params : ∀ param ∈ made.params, param.Written
  ret : ∀ type ∈ made.ret, type.Written
  body : ∀ body ∈ made.body, body.Written

/-- One more part of a method keeps its parts written. -/
theorem written_add {part : Node} (h : Stems grammar part) {made : MethodParts}
    (hmade : made.Written) : Makes MethodParts.Written (made.add part) := by
  have htakes := takes_of_stems h
  unfold MethodParts.add
  split <;> rename_i hrule
  · exact .value ⟨hmade.name, hmade.params, hmade.ret, hmade.body⟩
  · refine .value ⟨?_, hmade.params, hmade.ret, hmade.body⟩
    rintro _ ⟨⟩
    exact isWord_buildIdent h (.inl hrule)
  · rw [hrule] at htakes
    have hparams := written_buildParams (fun node hnode => h.part hnode) fun node hnode =>
      htakes _ (List.mem_map_of_mem hnode)
    exact hparams.bind fun params hparams => .value ⟨hmade.name, hparams, hmade.ret, hmade.body⟩
  · rw [hrule] at htakes
    split
    · rename_i type rest hparts
      have htype : type ∈ part.parts := by rw [hparts]; exact List.mem_cons_self
      rw [hparts] at htakes
      refine .value ⟨hmade.name, hmade.params, ?_, hmade.body⟩
      rintro _ ⟨⟩
      exact written_buildTypeRef (h.part htype) (List.cons.inj htakes).1
    · exact .error
  · refine (written_buildStmt_and_block h).2.bind fun body hbody =>
      .value ⟨hmade.name, hmade.params, hmade.ret, ?_⟩
    rintro _ ⟨⟩
    exact hbody
  · exact .error

theorem written_foldlM_add {parts : List Node} (hstems : ∀ part ∈ parts, Stems grammar part)
    {made : MethodParts} (hmade : made.Written) :
    Makes MethodParts.Written (parts.foldlM MethodParts.add made) := by
  induction parts generalizing made with
  | nil => exact .value hmade
  | cons part rest ih =>
    obtain ⟨hpart, hrest⟩ := List.forall_mem_cons.mp hstems
    rw [List.foldlM_cons]
    exact (written_add hpart hmade).bind fun after hafter => ih hrest hafter

/-- Every method that is built is written. -/
theorem written_buildMethod {tree : Node} (h : Stems grammar tree) :
    Makes Method.Written (buildMethod tree) := by
  have hnone : ({} : MethodParts).Written := ⟨nofun, List.forall_mem_nil _, nofun, nofun⟩
  refine (written_foldlM_add (fun _ hpart => h.part hpart) hnone).bind fun made hmade => ?_
  split
  · rename_i name body hname hbody
    exact .value ⟨hmade.name name hname, hmade.params, hmade.ret, hmade.body body hbody, rfl⟩
  · exact .error

theorem written_buildMembers {nodes : List Node}
    (hclass : ∀ node ∈ nodes, Makes ClassDef.Written (buildClass node))
    (hstems : ∀ node ∈ nodes, Stems grammar node) :
    Makes WrittenMembers (buildMembers nodes) := by
  induction nodes with
  | nil =>
    rw [buildMembers]
    exact .value True.intro
  | cons node rest ih =>
    obtain ⟨hnodeClass, hrestClass⟩ := List.forall_mem_cons.mp hclass
    obtain ⟨hnode, hrest⟩ := List.forall_mem_cons.mp hstems
    have hmembers := ih hrestClass hrest
    unfold buildMembers
    split
    · cases ‹_ = []›
    · rename_i heq
      cases heq
      exact hnodeClass.bind fun nested hnested => hmembers.bind fun members hmembers =>
        .value ⟨hnested, hmembers⟩
    · rename_i heq
      cases heq
      exact (written_buildMethod hnode).bind fun method hmethod =>
        hmembers.bind fun members hmembers => .value ⟨hmethod, hmembers⟩

/-- Every class that is built is written. -/
theorem written_buildClass {tree : Node} (h : Stems grammar tree) :
    Makes ClassDef.Written (buildClass tree) := by
  refine h.induction (P := fun tree => Makes ClassDef.Written (buildClass tree)) ?_
  intro tree hstems ih
  have htakes := takes_of_stems hstems
  unfold buildClass
  split
  · rename_i start stop name members
    obtain ⟨_, -, hmap⟩ := htakes
    have hword := isWord_buildIdent (hstems.part List.mem_cons_self) (.inr (List.cons.inj hmap).1)
    have hmembers : Makes WrittenMembers (buildMembers members) := written_buildMembers
      (fun node hnode => ih node (List.mem_cons_of_mem _ hnode) node .self)
      (fun node hnode => hstems.part (List.mem_cons_of_mem _ hnode))
    exact hmembers.bind fun members hmembers => .value ⟨hword, hmembers, rfl⟩
  · exact .error

/-! ## Units -/

theorem written_buildItem {tree : Node} (h : Stems grammar tree) :
    Makes Item.Written (buildItem tree) := by
  unfold buildItem
  split
  · exact (written_buildClass h).bind fun c hc => .value hc
  · exact (written_buildMethod h).bind fun m hm => .value hm
  · exact (written_buildStmt_and_block h).1.bind fun s hs => .value hs

theorem written_buildParts {nodes : List Node} (hstems : ∀ node ∈ nodes, Stems grammar node) :
    Makes (fun parts : Option Package × List Item => ∀ item ∈ parts.2, item.Written)
      (buildParts nodes) := by
  induction nodes with
  | nil => exact .value (List.forall_mem_nil _)
  | cons node rest ih =>
    obtain ⟨hnode, hrest⟩ := List.forall_mem_cons.mp hstems
    rw [buildParts]
    split
    · exact Makes.trivial.bind fun _ _ => (ih hrest).bind fun _ hitems => .value hitems
    · exact ih hrest
    · exact (written_buildItem hnode).bind fun item hitem => (ih hrest).bind fun _ hitems =>
        .value (List.forall_mem_cons.mpr ⟨hitem, hitems⟩)

/-- **What is read is written.** Every name of a unit that is read is a word, every type a word with
brackets, the package has words with dots between for its name, and nothing is filled in. -/
theorem written_readProgram {source text : String} {program : Program}
    (h : readProgram source text = .ok program) : program.Written := by
  simp only [readProgram, buildProgram, bind_eq_ok, pure_eq_ok] at h
  obtain ⟨node, hnode, ⟨package, items⟩, hparts, rfl⟩ := h
  have hstems : ∀ part ∈ node.parts, Stems grammar part := fun _ hpart =>
    (stems_readNode hnode).part hpart
  exact ⟨dotted_buildParts hstems hparts, written_buildParts hstems _ hparts⟩

end StackScript.Syntax

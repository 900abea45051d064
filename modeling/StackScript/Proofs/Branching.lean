import StackScript.Proofs.Annotations
import StackScript.Proofs.Building

/-!
# Conditionals that are written

The tree of a conditional has room for none at all of its branches. A conditional that is written
begins with a branch, though, and neither gathering the loose code of a unit nor inference takes it
away. So in every method that typing comes to, each conditional tests a condition before it does
anything else (`branched_of_read`).
-/

namespace StackScript.Syntax

open StackScript.Grammar StackScript.Source StackScript.Typing

/-! ## Branched trees -/

/-- There is a branch with a condition. -/
def Chain.isBranch : Chain → Bool
  | .branch _ _ _ => true
  | .done | .otherwise _ => false

mutual

/-- Every conditional of the statement has a branch with a condition. -/
def Stmt.branched : Stmt → Bool
  | .cond chain _ => chain.isBranch && chain.branched
  | .loop _ body _ => body.branched
  | .expr _ _ | .assign _ _ _ | .ret _ _ | .puts _ _ | .raise _ _ => true

/-- Every conditional of the block does. -/
def Block.branched : Block → Bool
  | .mk stmts _ => allBranched stmts

/-- Every conditional of the statements does. -/
def allBranched : List Stmt → Bool
  | [] => true
  | stmt :: stmts => stmt.branched && allBranched stmts

/-- Every conditional inside the branches does. -/
def Chain.branched : Chain → Bool
  | .done => true
  | .otherwise body => body.branched
  | .branch _ body rest => body.branched && rest.branched

end

mutual

/-- Every conditional in a method of the class has a branch with a condition. -/
def ClassDef.branched : ClassDef → Bool
  | .mk _ members _ _ => membersBranched members

/-- Every conditional in a method among the members, or in a class among them, does. -/
def membersBranched : List Member → Bool
  | [] => true
  | .method m :: members => m.body.branched && membersBranched members
  | .nested c :: members => c.branched && membersBranched members

end

/-- Every conditional of the item does. -/
def Item.branched : Item → Bool
  | .cls c => c.branched
  | .method m => m.body.branched
  | .stmt s => s.branched

/-- Members in a row are branched if both parts are. -/
theorem membersBranched_append (members more : List Member) :
    membersBranched (members ++ more) = (membersBranched members && membersBranched more) := by
  induction members with
  | nil => rfl
  | cons member members ih =>
    cases member with
    | method m => rw [List.cons_append, membersBranched, membersBranched, ih, Bool.and_assoc]
    | nested c => rw [List.cons_append, membersBranched, membersBranched, ih, Bool.and_assoc]

/-- Statements are branched if each of them is. -/
theorem allBranched_eq_true {stmts : List Stmt} :
    allBranched stmts = true ↔ ∀ stmt ∈ stmts, stmt.branched = true := by
  induction stmts with
  | nil => simp [allBranched]
  | cons stmt stmts ih => rw [allBranched, Bool.and_eq_true, ih, List.forall_mem_cons]

/-! ## Labels -/

section

variable {r : Relabel}

theorem Chain.isBranch_relabel (chain : Chain) : (chain.relabel r).isBranch = chain.isBranch := by
  cases chain <;> rfl

mutual

/-- What is filled into a statement does not change its conditionals. -/
theorem Stmt.branched_relabel : ∀ stmt : Stmt, (stmt.relabel r).branched = stmt.branched
  | .expr _ _ => rfl
  | .assign _ _ _ => rfl
  | .cond chain _ => by
    rw [Stmt.relabel, Stmt.branched, Stmt.branched, Chain.isBranch_relabel,
      Chain.branched_relabel chain]
  | .loop _ body _ => Block.branched_relabel body
  | .ret (some _) _ => rfl
  | .ret none _ => rfl
  | .puts _ _ => rfl
  | .raise _ _ => rfl

theorem Block.branched_relabel : ∀ block : Block, (block.relabel r).branched = block.branched
  | .mk stmts _ => allBranched_relabelStmts stmts

theorem allBranched_relabelStmts : ∀ stmts : List Stmt,
    allBranched (relabelStmts r stmts) = allBranched stmts
  | [] => rfl
  | stmt :: rest => by
    rw [relabelStmts, allBranched, allBranched, Stmt.branched_relabel stmt,
      allBranched_relabelStmts rest]

theorem Chain.branched_relabel : ∀ chain : Chain, (chain.relabel r).branched = chain.branched
  | .done => rfl
  | .otherwise body => Block.branched_relabel body
  | .branch _ body rest => by
    rw [Chain.relabel, Chain.branched, Chain.branched, Block.branched_relabel body,
      Chain.branched_relabel rest]

end

end

/-! ## Building -/

/-- A statement that is built from the node is branched. -/
def BuildsStmt (node : Node) : Prop := ∀ stmt, buildStmt node = .ok stmt → stmt.branched = true

/-- A block that is built from the node is branched. -/
def BuildsBlock (node : Node) : Prop :=
  ∀ block, buildBlock node = .ok block → block.branched = true

theorem branched_buildStmts {nodes : List Node} (hstmt : ∀ node ∈ nodes, BuildsStmt node)
    {stmts : List Stmt} (h : buildStmts nodes = .ok stmts) : allBranched stmts = true := by
  induction nodes generalizing stmts with
  | nil =>
    cases h
    rfl
  | cons node rest ih =>
    obtain ⟨hnode, hrest⟩ := List.forall_mem_cons.mp hstmt
    simp only [buildStmts, bind_eq_ok, pure_eq_ok] at h
    obtain ⟨stmt, hfirst, stmts, hstmts, rfl⟩ := h
    rw [allBranched, hnode stmt hfirst, ih hrest hstmts, Bool.and_self]

/-- A chain is branched if the blocks of its clauses are. -/
theorem branched_buildClauses {clauses : List Node}
    (hblock : ∀ clause ∈ clauses, ∀ part ∈ clause.parts, BuildsBlock part) {chain : Chain}
    (h : buildClauses clauses = .ok chain) : chain.branched = true := by
  induction clauses generalizing chain with
  | nil =>
    simp only [buildClauses] at h
    cases h
    rfl
  | cons clause rest ih =>
    obtain ⟨hclause, hrest⟩ := List.forall_mem_cons.mp hblock
    unfold buildClauses at h
    split at h
    · cases ‹_ = []›
    · rename_i start stop first second more _ heq
      cases heq
      simp only [bind_eq_ok, pure_eq_ok] at h
      obtain ⟨condition, -, body, hbody, chain, hchain, rfl⟩ := h
      have hsecond := hclause second (List.mem_cons_of_mem _ List.mem_cons_self)
      rw [Chain.branched, hsecond body hbody, ih hrest hchain, Bool.and_self]
    · rename_i first more heq
      cases heq
      simp only [bind_eq_ok, pure_eq_ok] at h
      obtain ⟨body, hbody, rfl⟩ := h
      exact hclause first List.mem_cons_self body hbody
    · cases h

/-- A conditional is built with the branch that it begins with. -/
theorem builds_stmt_and_block {tree : Node} (h : Stems grammar tree) :
    BuildsStmt tree ∧ BuildsBlock tree := by
  refine h.induction (P := fun tree => BuildsStmt tree ∧ BuildsBlock tree) ?_
  intro tree _ ih
  have hstmt : ∀ part ∈ tree.parts, BuildsStmt part := fun part hpart =>
    (ih part hpart part .self).1
  have hblock : ∀ part ∈ tree.parts, BuildsBlock part := fun part hpart =>
    (ih part hpart part .self).2
  have hinner : ∀ part ∈ tree.parts, ∀ inner ∈ part.parts, BuildsBlock inner :=
    fun part hpart inner hinner => (ih part hpart inner (.part hinner .self)).2
  constructor
  · intro stmt h
    unfold buildStmt at h
    split at h
    case h_6 =>
      cases h
      rfl
    case h_7 =>
      simp only [bind_eq_ok, pure_eq_ok] at h
      obtain ⟨condition, -, body, hbody, chain, hchain, rfl⟩ := h
      have hbody := hblock _ (List.mem_cons_of_mem _ List.mem_cons_self) body hbody
      have hrest : chain.branched = true := by
        apply branched_buildClauses _ hchain
        intro clause hclause
        exact hinner clause (List.mem_cons_of_mem _ (List.mem_cons_of_mem _ hclause))
      rw [Stmt.branched, Chain.isBranch, Chain.branched, hbody, hrest]
      rfl
    case h_8 =>
      simp only [bind_eq_ok, pure_eq_ok] at h
      obtain ⟨condition, -, body, hbody, rfl⟩ := h
      exact hblock _ (List.mem_cons_of_mem _ List.mem_cons_self) body hbody
    case h_9 => cases h
    -- statements without statements in them
    all_goals
      simp only [bind_eq_ok, pure_eq_ok] at h
      obtain ⟨value, -, rfl⟩ := h
      rfl
  · intro block h
    unfold buildBlock at h
    split at h
    simp only [bind_eq_ok, pure_eq_ok] at h
    obtain ⟨stmts, hstmts, rfl⟩ := h
    exact branched_buildStmts hstmt hstmts

/-- A body that is among the parts of a method is branched. -/
theorem branched_add {part : Node} (hblock : BuildsBlock part) {made after : MethodParts}
    (hmade : made.body.all Block.branched = true) (h : made.add part = .ok after) :
    after.body.all Block.branched = true := by
  unfold MethodParts.add at h
  split at h
  · cases h
    exact hmade
  · cases h
    exact hmade
  · simp only [bind_eq_ok, pure_eq_ok] at h
    obtain ⟨params, -, rfl⟩ := h
    exact hmade
  · split at h
    · cases h
      exact hmade
    · cases h
  · simp only [bind_eq_ok, pure_eq_ok] at h
    obtain ⟨body, hbody, rfl⟩ := h
    exact hblock body hbody
  · cases h

theorem branched_foldlM_add {parts : List Node} (hblock : ∀ part ∈ parts, BuildsBlock part)
    {made after : MethodParts} (hmade : made.body.all Block.branched = true)
    (h : parts.foldlM MethodParts.add made = .ok after) :
    after.body.all Block.branched = true := by
  induction parts generalizing made with
  | nil =>
    cases h
    exact hmade
  | cons part rest ih =>
    obtain ⟨hpart, hrest⟩ := List.forall_mem_cons.mp hblock
    rw [List.foldlM_cons, bind_eq_ok] at h
    obtain ⟨next, hnext, h⟩ := h
    exact ih hrest (branched_add hpart hmade hnext) h

/-- A method that is built has branched conditionals in its body. -/
theorem branched_buildMethod {tree : Node} (h : Stems grammar tree) {method : Method}
    (hmethod : buildMethod tree = .ok method) : method.body.branched = true := by
  rw [buildMethod, bind_eq_ok] at hmethod
  obtain ⟨made, hmade, hmethod⟩ := hmethod
  have hblock : ∀ part ∈ tree.parts, BuildsBlock part := fun part hpart =>
    (builds_stmt_and_block (h.part hpart)).2
  have hall := branched_foldlM_add hblock rfl hmade
  split at hmethod
  · rename_i name body _ hbody
    obtain rfl := pure_eq_ok.mp hmethod
    rw [hbody] at hall
    exact hall
  · cases hmethod

/-- A class that is built from the node is branched. -/
def BuildsClass (node : Node) : Prop := ∀ cls, buildClass node = .ok cls → cls.branched = true

theorem branched_buildMembers {nodes : List Node} (hclass : ∀ node ∈ nodes, BuildsClass node)
    (hstems : ∀ node ∈ nodes, Stems grammar node) {members : List Member}
    (h : buildMembers nodes = .ok members) : membersBranched members = true := by
  induction nodes generalizing members with
  | nil =>
    simp only [buildMembers] at h
    cases h
    rfl
  | cons node rest ih =>
    obtain ⟨hnodeClass, hrestClass⟩ := List.forall_mem_cons.mp hclass
    obtain ⟨hnode, hrestStems⟩ := List.forall_mem_cons.mp hstems
    unfold buildMembers at h
    split at h
    · cases ‹_ = []›
    · rename_i heq
      cases heq
      simp only [bind_eq_ok, pure_eq_ok] at h
      obtain ⟨cls, hcls, members, hmembers, rfl⟩ := h
      rw [membersBranched, hnodeClass cls hcls, ih hrestClass hrestStems hmembers, Bool.and_self]
    · rename_i heq
      cases heq
      simp only [bind_eq_ok, pure_eq_ok] at h
      obtain ⟨method, hmethod, members, hmembers, rfl⟩ := h
      rw [membersBranched, branched_buildMethod hnode hmethod,
        ih hrestClass hrestStems hmembers, Bool.and_self]

/-- A class that is built has branched conditionals in its methods, and in its nested classes. -/
theorem builds_class {tree : Node} (h : Stems grammar tree) : BuildsClass tree := by
  refine h.induction (P := BuildsClass) ?_
  intro tree hstems ih cls hcls
  have hclass : ∀ part ∈ tree.parts, BuildsClass part := fun part hpart =>
    ih part hpart part .self
  have hparts : ∀ part ∈ tree.parts, Stems grammar part := fun _ hpart => hstems.part hpart
  unfold buildClass at hcls
  split at hcls
  · simp only [bind_eq_ok, pure_eq_ok] at hcls
    obtain ⟨members, hmembers, rfl⟩ := hcls
    exact branched_buildMembers (fun _ hnode => hclass _ (List.mem_cons_of_mem _ hnode))
      (fun _ hnode => hparts _ (List.mem_cons_of_mem _ hnode)) hmembers
  · cases hcls

theorem branched_buildItem {tree : Node} (h : Stems grammar tree) {item : Item}
    (hitem : buildItem tree = .ok item) : item.branched = true := by
  unfold buildItem at hitem
  split at hitem
  · simp only [bind_eq_ok, pure_eq_ok] at hitem
    obtain ⟨cls, hcls, rfl⟩ := hitem
    exact builds_class h cls hcls
  · simp only [bind_eq_ok, pure_eq_ok] at hitem
    obtain ⟨method, hmethod, rfl⟩ := hitem
    exact branched_buildMethod h hmethod
  · simp only [bind_eq_ok, pure_eq_ok] at hitem
    obtain ⟨stmt, hstmt, rfl⟩ := hitem
    exact (builds_stmt_and_block h).1 stmt hstmt

theorem branched_buildParts {nodes : List Node} (hstems : ∀ node ∈ nodes, Stems grammar node)
    {package : Option Package} {items : List Item} (h : buildParts nodes = .ok (package, items)) :
    ∀ item ∈ items, item.branched = true := by
  induction nodes generalizing package items with
  | nil =>
    cases h
    exact List.forall_mem_nil _
  | cons node rest ih =>
    obtain ⟨hnode, hrest⟩ := List.forall_mem_cons.mp hstems
    rw [buildParts] at h
    split at h
    · simp only [bind_eq_ok, pure_eq_ok] at h
      obtain ⟨_, -, ⟨_, _⟩, hparts, h⟩ := h
      cases h
      exact ih hrest hparts
    · exact ih hrest h
    · simp only [bind_eq_ok, pure_eq_ok] at h
      obtain ⟨item, hitem, ⟨package, items⟩, hparts, h⟩ := h
      cases h
      exact List.forall_mem_cons.mpr ⟨branched_buildItem hnode hitem, ih hrest hparts⟩

/-- Whatever is written at the top of a unit is branched. -/
theorem branched_readProgram {source text : String} {program : Program}
    (h : readProgram source text = .ok program) : ∀ item ∈ program.items, item.branched = true := by
  obtain ⟨node, hnode, hprogram⟩ := bind_eq_ok.mp h
  have hstems := stems_readNode hnode
  simp only [buildProgram, bind_eq_ok, pure_eq_ok] at hprogram
  obtain ⟨⟨package, items⟩, hparts, rfl⟩ := hprogram
  exact branched_buildParts (fun _ hpart => hstems.part hpart) hparts

/-! ## Gathering -/

/-- Gathering loose code makes members of it that are branched if the code is. -/
theorem branched_scriptMembers {items : List Item} (h : ∀ item ∈ items, item.branched = true)
    (span : Span) : membersBranched (scriptMembers items span) = true := by
  have hmethods : membersBranched (items.filterMap Item.looseMethod?) = true := by
    induction items with
    | nil => rfl
    | cons item rest ih =>
      obtain ⟨hitem, hrest⟩ := List.forall_mem_cons.mp h
      cases item with
      | cls c => exact ih hrest
      | stmt s => exact ih hrest
      | method m =>
        rw [List.filterMap_cons]
        exact Bool.and_eq_true_iff.mpr ⟨hitem, ih hrest⟩
  have hstmts : allBranched (items.filterMap Item.stmt?) = true := by
    rw [allBranched_eq_true]
    intro stmt hstmt
    obtain ⟨item, hitem, hsome⟩ := List.mem_filterMap.mp hstmt
    cases item with
    | cls c => cases hsome
    | method m => cases hsome
    | stmt s =>
      cases hsome
      exact h _ hitem
  unfold scriptMembers
  dsimp only
  rw [membersBranched_append, hmethods, Bool.true_and]
  split
  · rfl
  · exact Bool.and_eq_true_iff.mpr ⟨hstmts, rfl⟩

theorem branched_extendClass? {name : String} {members : List Member}
    (hmembers : membersBranched members = true) {classes extended : List ClassDef}
    (hclasses : ∀ c ∈ classes, c.branched = true)
    (h : extendClass? name members classes = some extended) :
    ∀ c ∈ extended, c.branched = true := by
  induction classes generalizing extended with
  | nil => cases h
  | cons c rest ih =>
    obtain ⟨hc, hrest⟩ := List.forall_mem_cons.mp hclasses
    rw [extendClass?] at h
    split at h
    · cases h
      refine List.forall_mem_cons.mpr ⟨?_, hrest⟩
      obtain ⟨cname, own, synthetic, span⟩ := c
      have hown : membersBranched own = true := hc
      exact (membersBranched_append own members).trans (by rw [hown, hmembers]; rfl)
    · obtain ⟨others, hothers, rfl⟩ := Option.map_eq_some_iff.mp h
      exact List.forall_mem_cons.mpr ⟨hc, ih hrest hothers⟩

/-- Gathering the loose code of a unit keeps its conditionals. -/
theorem branched_gather {program : Program} (h : ∀ item ∈ program.items, item.branched = true) :
    ∀ c ∈ program.gather.classes, c.branched = true := by
  have hclasses : ∀ c ∈ program.items.filterMap Item.class?, c.branched = true := by
    intro c hc
    obtain ⟨item, hitem, hsome⟩ := List.mem_filterMap.mp hc
    cases item with
    | cls d =>
      cases hsome
      exact h _ hitem
    | method m => cases hsome
    | stmt s => cases hsome
  have hgathered : ∀ c ∈ gatherItems (scriptClassName program.source) program.items,
      c.branched = true := by
    unfold gatherItems
    dsimp only
    split
    · exact hclasses
    · rename_i span _
      have hmembers := branched_scriptMembers h span
      split
      · rename_i extended hextended
        exact branched_extendClass? hmembers hclasses hextended
      · exact List.forall_mem_cons.mpr ⟨hmembers, hclasses⟩
  intro c hc
  obtain ⟨item, hitem, hsome⟩ := List.mem_filterMap.mp hc
  obtain ⟨d, hd, rfl⟩ := List.mem_map.mp hitem
  cases hsome
  exact hgathered _ hd

/-! ## Declarations -/

mutual

/-- Every method that a branched class declares has branched conditionals. -/
theorem branched_of_declarations (package : Option String) : ∀ (enclosing : Option String)
    (c : ClassDef), c.branched = true → ∀ cls m,
      Declaration.method cls m ∈ declarations package enclosing c → m.body.branched = true
  | enclosing, .mk name members _ _, hc, cls, m, hm => by
    rw [declarations] at hm
    rcases List.mem_cons.mp hm with hself | hm
    · cases hself
    · exact branched_of_memberDeclarations package _ members hc cls m hm

theorem branched_of_memberDeclarations (package : Option String) : ∀ (owner : String)
    (members : List Member), membersBranched members = true → ∀ cls m,
      Declaration.method cls m ∈ memberDeclarations package owner members → m.body.branched = true
  | owner, [], _, cls, m, hm => by cases hm
  | owner, .method other :: rest, hmembers, cls, m, hm => by
    obtain ⟨hother, hrest⟩ := Bool.and_eq_true_iff.mp hmembers
    rw [memberDeclarations] at hm
    rcases List.mem_cons.mp hm with hself | hm
    · cases hself
      exact hother
    · exact branched_of_memberDeclarations package owner rest hrest cls m hm
  | owner, .nested c :: rest, hmembers, cls, m, hm => by
    obtain ⟨hc, hrest⟩ := Bool.and_eq_true_iff.mp hmembers
    rw [memberDeclarations] at hm
    rcases List.mem_append.mp hm with hm | hm
    · exact branched_of_declarations package (some owner) c hc cls m hm
    · exact branched_of_memberDeclarations package owner rest hrest cls m hm

end

/-- The method of a unit that was read. -/
theorem branched_of_unit {explicitPackages : Bool} {source text : String} {program : Program}
    (hread : readUnit explicitPackages source text = .ok program) {file cls : String} {m : Method}
    (hm : (file, Declaration.method cls m) ∈ unitDeclarations program) :
    m.body.branched = true := by
  have hgathered : ∃ written, readProgram source text = .ok written ∧ program = written.gather := by
    unfold readUnit at hread
    split at hread
    · cases hread
    · rename_i written hwritten
      split at hread
      · cases hread
      · cases hread
        exact ⟨written, hwritten, rfl⟩
  obtain ⟨written, hwritten, rfl⟩ := hgathered
  obtain ⟨d, hd, hsame⟩ := List.mem_map.mp hm
  obtain ⟨c, hc, hd⟩ := List.mem_flatMap.mp hd
  cases hsame
  apply branched_of_declarations _ none c _ cls m hd
  exact branched_gather (branched_readProgram hwritten) c hc

/-- In every method of a batch of units that were read, each conditional has a branch with a
condition, whatever inference found out. -/
theorem branched_of_read {batch : List Program}
    (hread : ∀ program ∈ batch, ∃ explicitPackages source text,
      readUnit explicitPackages source text = .ok program)
    {externals : Externals} {file cls : String} {m : Method}
    (hm : (file, Declaration.method cls m) ∈ batchDeclarations (infer externals batch).batch) :
    m.body.branched = true := by
  -- without types and targets, the inferred batch is the one that was read
  have hbare : (file, (Declaration.method cls m).relabel bare) ∈
      batchDeclarations (batch.map (Program.relabel bare)) := by
    rw [← bare_infer externals, batchDeclarations_relabel]
    exact List.mem_map.mpr ⟨_, hm, rfl⟩
  rw [batchDeclarations_relabel] at hbare
  obtain ⟨⟨unit, d⟩, hd, hsame⟩ := List.mem_map.mp hbare
  obtain ⟨hfile, hrelabel⟩ := Prod.mk.inj hsame
  cases d with
  | cls name package enclosing => cases hrelabel
  | method owner other =>
    obtain ⟨howner, hother⟩ := Declaration.method.inj hrelabel
    obtain ⟨program, hprogram, hunit⟩ := List.mem_flatMap.mp hd
    obtain ⟨explicitPackages, source, text, hprogram⟩ := hread program hprogram
    have hbody : other.body.relabel bare = m.body.relabel bare := congrArg Method.body hother
    rw [← Block.branched_relabel (r := bare), ← hbody, Block.branched_relabel]
    exact branched_of_unit hprogram hunit

end StackScript.Syntax

import StackScript.Proofs.Relabelling
import StackScript.Proofs.ScriptClasses
import StackScript.Proofs.WrittenTrees

/-!
# Bodies in words

What stands in the bodies of units that were read is written in words (`inWords_of_read`): gathering
moves statements and methods, and changes none (`wordsDeclared_gather`). What is filled into a tree
later changes no names, so a batch is in words as long as its bare form is (`InWords.of_bare`).
-/

namespace StackScript.Syntax

open StackScript.Source StackScript.Typing

/-! ## Bare forms -/

mutual

/-- An expression without types and targets is in words, if the expression is. -/
theorem Expr.Written.bare : ∀ {e : Expr}, e.Written → (e.relabel bare).Written
  | .int _ _, _ => rfl
  | .bool _ _, _ => rfl
  | .string _ _, _ => rfl
  | .var _ _, h => ⟨h.1, rfl⟩
  | .call receiver method args _ _, h => by
    refine ⟨fun owner howner => ?_, h.2.1, writtenArgs_bare h.2.2.1, rfl, rfl⟩
    obtain ⟨written, hwritten, rfl⟩ := Option.map_eq_some_iff.mp howner
    exact h.1 written hwritten
  | .index _ _ _, h => ⟨Expr.Written.bare h.1, Expr.Written.bare h.2.1, rfl⟩
  | .length _ _, h => ⟨Expr.Written.bare h.1, rfl⟩
  | .unary _ _ _, h => ⟨Expr.Written.bare h.1, rfl⟩
  | .binary _ _ _ _, h => ⟨Expr.Written.bare h.1, Expr.Written.bare h.2.1, rfl⟩

theorem writtenArgs_bare : ∀ {es : List Expr}, WrittenArgs es → WrittenArgs (relabelExprs bare es)
  | [], _ => trivial
  | _ :: _, h => ⟨Expr.Written.bare h.1, writtenArgs_bare h.2⟩

end

mutual

/-- A statement without types and targets is in words, if the statement is. -/
theorem Stmt.Written.bare : ∀ {stmt : Stmt}, stmt.Written → (stmt.relabel bare).Written
  | .expr _ _, h => Expr.Written.bare h
  | .puts _ _, h => Expr.Written.bare h
  | .raise _ _, h => Expr.Written.bare h
  | .assign _ _ _, h => ⟨h.1, Expr.Written.bare h.2⟩
  | .cond _ _, h => Chain.Written.bare h
  | .loop _ _ _, h => ⟨Expr.Written.bare h.1, Block.Written.bare h.2⟩
  | .ret none _, _ => nofun
  | .ret (some value) _, h => by
    rintro _ ⟨⟩
    exact Expr.Written.bare (h value rfl)

/-- A block without types and targets is in words, if the block is. -/
theorem Block.Written.bare : ∀ {block : Block}, block.Written → (block.relabel bare).Written
  | .mk _ _, h => writtenStmts_bare h

theorem writtenStmts_bare : ∀ {stmts : List Stmt}, WrittenStmts stmts →
    WrittenStmts (relabelStmts bare stmts)
  | [], _ => trivial
  | _ :: _, h => ⟨Stmt.Written.bare h.1, writtenStmts_bare h.2⟩

theorem Chain.Written.bare : ∀ {chain : Chain}, chain.Written → (chain.relabel bare).Written
  | .done, _ => trivial
  | .otherwise _, h => Block.Written.bare h
  | .branch _ _ _, h => ⟨Expr.Written.bare h.1, Block.Written.bare h.2.1, Chain.Written.bare h.2.2⟩

end

/-! ## Units -/

theorem writtenStmts_of_forall {stmts : List Stmt} (h : ∀ stmt ∈ stmts, stmt.Written) :
    WrittenStmts stmts := by
  induction stmts with
  | nil => trivial
  | cons stmt rest ih =>
    obtain ⟨hstmt, hrest⟩ := List.forall_mem_cons.mp h
    exact ⟨hstmt, ih hrest⟩

/-- A block is in words if its statements are. -/
theorem Block.written_iff {block : Block} : block.Written ↔ WrittenStmts block.stmts := by
  cases block
  rfl

/-- The methods that are declared have bodies in words. -/
def WordsDeclared (found : List Declaration) : Prop :=
  ∀ cls m, Declaration.method cls m ∈ found → m.body.Written

section

variable (package : Option String)

/-- What members declare, they declare in their order. -/
theorem memberDeclarations_append (cls : String) (members more : List Member) :
    memberDeclarations package cls (members ++ more) =
      memberDeclarations package cls members ++ memberDeclarations package cls more := by
  induction members with
  | nil => rfl
  | cons member rest ih =>
    cases member with
    | method m => rw [List.cons_append, memberDeclarations, memberDeclarations, ih]; rfl
    | nested c =>
      rw [List.cons_append, memberDeclarations, memberDeclarations, ih, List.append_assoc]

mutual

/-- A class in words declares methods with bodies in words. -/
theorem wordsDeclared_class : ∀ (enclosing : Option String) (c : ClassDef), c.Written →
    WordsDeclared (declarations package enclosing c)
  | enclosing, .mk name members _ _, hc, cls, m, hm => by
    rcases List.mem_cons.mp hm with hself | hm
    · cases hself
    · exact wordsDeclared_members _ members hc.2.1 cls m hm

theorem wordsDeclared_members : ∀ (owner : String) (members : List Member),
    WrittenMembers members → WordsDeclared (memberDeclarations package owner members)
  | owner, .method other :: rest, hmembers, cls, m, hm => by
    rcases List.mem_cons.mp hm with hself | hm
    · cases hself
      exact hmembers.1.body
    · exact wordsDeclared_members owner rest hmembers.2 cls m hm
  | owner, .nested c :: rest, hmembers, cls, m, hm => by
    rcases List.mem_append.mp hm with hm | hm
    · exact wordsDeclared_class (some owner) c hmembers.1 cls m hm
    · exact wordsDeclared_members owner rest hmembers.2 cls m hm

end

/-- Methods in words have bodies in words as static members. -/
theorem wordsDeclared_static {methods : List Method} (h : ∀ m ∈ methods, m.Written)
    (owner : String) : WordsDeclared
      (memberDeclarations package owner (methods.map fun m => .method m.static)) := by
  intro cls m hm
  induction methods with
  | nil => cases hm
  | cons first rest ih =>
    obtain ⟨hfirst, hrest⟩ := List.forall_mem_cons.mp h
    rcases List.mem_cons.mp hm with hself | hm
    · cases hself
      exact hfirst.body
    · exact ih hrest hm

/-- Loose code in words makes members in words. -/
theorem wordsDeclared_collected {methods : List Method} {stmts : List Stmt}
    {members : List Member} (h : Collected methods stmts members)
    (hmethods : ∀ m ∈ methods, m.Written) (hstmts : ∀ stmt ∈ stmts, stmt.Written)
    (owner : String) : WordsDeclared (memberDeclarations package owner members) := by
  have hstatic := wordsDeclared_static package hmethods owner
  cases h with
  | noMain => exact hstatic
  | @withMain _ main _ hmain =>
    intro cls m hm
    rw [memberDeclarations_append] at hm
    rcases List.mem_append.mp hm with hm | hm
    · exact hstatic cls m hm
    · rcases List.mem_cons.mp hm with hself | hm
      · cases hself
        rw [Block.written_iff, hmain.stmts]
        exact writtenStmts_of_forall hstmts
      · cases hm

/-- Members in words that a class takes in add bodies in words. -/
theorem wordsDeclared_takenIn {name : String} {members : List Member}
    {classes gathered : List ClassDef} (h : TakenIn name members classes gathered)
    (hclasses : ∀ c ∈ classes, c.Written)
    (hmembers : ∀ owner, WordsDeclared (memberDeclarations package owner members)) :
    ∀ c ∈ gathered, WordsDeclared (declarations package none c) := by
  have hown := fun c hc => wordsDeclared_class package none c (hclasses c hc)
  cases h with
  | @own front back owner _ _ =>
    obtain ⟨hfront, -, hback⟩ : (∀ c ∈ front, _) ∧ _ ∧ ∀ c ∈ back, _ := by
      simpa only [List.forall_mem_append, List.forall_mem_cons] using hown
    have howner := hclasses owner (List.mem_append_right front List.mem_cons_self)
    refine List.forall_mem_append.mpr ⟨hfront, List.forall_mem_cons.mpr ⟨?_, hback⟩⟩
    -- what the class has itself comes first, and behind it what it takes in
    obtain ⟨name, own, synthetic, span⟩ := owner
    intro cls m hm
    rw [declarations, memberDeclarations_append] at hm
    rcases List.mem_cons.mp hm with hself | hm
    · cases hself
    · rcases List.mem_append.mp hm with hm | hm
      · exact wordsDeclared_members package _ own howner.2.1 cls m hm
      · exact hmembers _ cls m hm
  | @fresh _ made _ _ hmade _ =>
    refine List.forall_mem_cons.mpr ⟨?_, hown⟩
    obtain ⟨name, own, synthetic, span⟩ := made
    obtain rfl : own = members := hmade
    intro cls m hm
    rcases List.mem_cons.mp hm with hself | hm
    · cases hself
    · exact hmembers _ cls m hm

end

/-- Each kind of item of a unit in words is in words. -/
theorem Sifted.written {items : List Item} {classes : List ClassDef} {methods : List Method}
    {stmts : List Stmt} (h : Sifted items classes methods stmts)
    (hitems : ∀ item ∈ items, item.Written) :
    (∀ c ∈ classes, c.Written) ∧ (∀ m ∈ methods, m.Written) ∧ ∀ stmt ∈ stmts, stmt.Written := by
  induction h with
  | nil => exact ⟨nofun, nofun, nofun⟩
  | cls c _ ih =>
    obtain ⟨hc, hrest⟩ := List.forall_mem_cons.mp hitems
    obtain ⟨hclasses, hloose⟩ := ih hrest
    exact ⟨List.forall_mem_cons.mpr ⟨hc, hclasses⟩, hloose⟩
  | method m _ ih =>
    obtain ⟨hm, hrest⟩ := List.forall_mem_cons.mp hitems
    obtain ⟨hclasses, hmethods, hstmts⟩ := ih hrest
    exact ⟨hclasses, List.forall_mem_cons.mpr ⟨hm, hmethods⟩, hstmts⟩
  | stmt s _ ih =>
    obtain ⟨hs, hrest⟩ := List.forall_mem_cons.mp hitems
    obtain ⟨hclasses, hmethods, hstmts⟩ := ih hrest
    exact ⟨hclasses, hmethods, List.forall_mem_cons.mpr ⟨hs, hstmts⟩⟩

/-- The methods of a gathered unit have bodies in words, if the unit is in words. -/
theorem wordsDeclared_gather {program : Program} (h : program.Written) :
    ∀ c ∈ program.gather.classes,
      WordsDeclared (declarations program.gather.packageName none c) := by
  obtain ⟨hclasses, hmethods, hstmts⟩ := (sifted program.items).written h.items
  obtain ⟨members, hcollected, htaken⟩ :=
    takenIn_gatherItems (scriptClassName program.source) program.items
  rw [classes_gather]
  split at htaken
  · rw [htaken]
    exact fun c hc => wordsDeclared_class _ none c (hclasses c hc)
  · exact wordsDeclared_takenIn _ htaken hclasses
      (wordsDeclared_collected _ hcollected hmethods hstmts)

/-! ## Batches -/

/-- All bodies of the batch are in words, whatever types and targets are filled in. -/
def InWords (batch : List Program) : Prop :=
  ∀ place ∈ batchMethods batch, (place.2.2.body.relabel bare).Written

/-- A batch is in words if one is that has the same bare form. -/
theorem InWords.of_bare {batch other : List Program} (h : InWords batch)
    (hbare : batch.map (Program.relabel bare) = other.map (Program.relabel bare)) :
    InWords other := by
  intro place hplace
  have hmem : (place.1, place.2.1, place.2.2.relabel bare) ∈
      batchMethods (batch.map (Program.relabel bare)) := by
    rw [hbare, batchMethods_relabel]
    exact List.mem_map_of_mem hplace
  rw [batchMethods_relabel] at hmem
  obtain ⟨first, hfirst, hsame⟩ := List.mem_map.mp hmem
  have hbody : first.2.2.body.relabel bare = place.2.2.body.relabel bare :=
    congrArg (fun place : MethodPlace => place.2.2.body) hsame
  rw [← hbody]
  exact h first hfirst

/-- Units that were read are in words. -/
theorem inWords_of_read {batch : List Program}
    (hread : ∀ program ∈ batch, ∃ explicitPackages source text,
      readUnit explicitPackages source text = .ok program) : InWords batch := by
  intro place hplace
  obtain ⟨d, hd, hsome⟩ := List.mem_filterMap.mp hplace
  obtain ⟨program, hprogram, hunit⟩ := List.mem_flatMap.mp hd
  obtain ⟨declaration, hdeclaration, rfl⟩ := List.mem_map.mp hunit
  obtain ⟨c, hc, hdeclared⟩ := List.mem_flatMap.mp hdeclaration
  obtain ⟨explicitPackages, source, text, hread⟩ := hread program hprogram
  cases declaration with
  | cls name package enclosing => cases hsome
  | method cls m =>
    cases hsome
    unfold readUnit at hread
    split at hread
    · cases hread
    · rename_i written hwritten
      split at hread
      · cases hread
      · cases hread
        have hwords := wordsDeclared_gather (written_readProgram hwritten) c hc
        exact Block.Written.bare (hwords cls m hdeclared)

end StackScript.Syntax

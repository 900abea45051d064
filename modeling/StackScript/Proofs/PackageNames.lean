import StackScript.Proofs.PlainNames

/-!
# Names of packages

The package of every unit that is taken in has a name of words with dots between
(`dotted_readUnit`), each of them a word of the text (`covers_identifier`): no word is empty, and
none has other characters in it than letters, digits and underscores.
-/

namespace StackScript.Syntax

open StackScript.Grammar StackScript.Source StackScript.Text

/-! ## Words -/

/-- A word between dots: not empty, of characters of names. -/
def IsWord (word : String) : Prop := word ≠ "" ∧ PlainName word

/-- Words with dots between, as package names are. -/
def Dotted (text : String) : Prop :=
  ∃ words, words ≠ [] ∧ (∀ word ∈ words, IsWord word) ∧ text = ".".intercalate words

/-- The name of the package of the unit, if it has one, is of words with dots between. -/
def Program.InDotted (program : Program) : Prop := ∀ name ∈ program.packageName, Dotted name

/-- A first word, and words with a dot before each, make up a text with dots between. -/
theorem toList_intercalate_dots (first : String) (words : List String) :
    (".".intercalate (first :: words)).toList =
      first.toList ++ words.flatMap fun word => '.' :: word.toList := by
  induction words generalizing first with
  | nil => simp
  | cons word words ih =>
    rw [String.intercalate_cons_cons, String.toList_append, ih]
    simp

/-! ## What a text writes -/

section

variable {ctx : Context} {cur cur' : Cursor} {trees : List Node}

/-- Parts of a rule without gaps follow each other at once. -/
theorem reads_seq_inv {first : Peg Rule} {parts : List (Peg Rule)} (hparts : parts ≠ [])
    (hkind : ctx.kind ≠ .loose)
    (h : Reads grammar ctx (.seq (first :: parts)) cur cur' trees) :
    ∃ mid before after, Reads grammar ctx first cur mid before ∧
      Reads grammar ctx (.seq parts) mid cur' after := by
  obtain ⟨part, parts, rfl⟩ := List.exists_cons_of_ne_nil hparts
  obtain ⟨mid, before, after, hfirst, hrest, -⟩ := Reads.cat_inv h
  obtain ⟨mid', before', after', hgap, hparts, -⟩ := hrest.cat_inv
  cases hgap
  rw [if_neg hkind] at hparts
  exact ⟨mid, before, after', hfirst, hparts⟩

/-- An identifier is a word. -/
theorem covers_identifier (h : Reads grammar ctx (.call .identifier) cur cur' trees) :
    Covers (fun cs => IsWord (String.ofList cs)) cur cur' := by
  cases h with
  | call h =>
    have hkind : (ctx.enter (grammar.production .identifier).kind).kind ≠ .loose := nofun
    -- it starts with a letter or underscore, behind which there may be more
    obtain ⟨start, _, _, hstart, hname⟩ := reads_seq_inv (List.cons_ne_nil _ _) hkind h
    obtain ⟨mid, _, _, hfirst, hrest⟩ := reads_seq_inv (List.cons_ne_nil _ _) hkind hname
    have hmore : Passes isNameChar mid cur' := (hrest.within ⟨fun _ hc => hc, trivial,
      fun _ hc => hc⟩).2 hkind
    cases hstart
    cases hfirst with
    | one hc =>
      rename_i c rest mark _
      have hc : isNameChar c = true := by
        simp only [isNameStart, Bool.or_eq_true] at hc
        rcases hc with hlower | hunderscore
        · show (c.isUpper || c.isLower || c.isDigit || decide (c = '_')) = true
          simp [hlower]
        · simp [isNameChar, hunderscore]
      have hone : Covers (· = [c]) ⟨c :: rest, mark⟩ ⟨rest, mark.next c⟩ := ⟨[c], rfl, rfl, rfl⟩
      refine hone.append hmore ?_
      rintro _ cs rfl hcs
      refine ⟨by simp, ?_⟩
      intro d hd
      rw [String.toList_ofList] at hd
      rcases List.mem_cons.mp hd with rfl | hd
      · exact hc
      · exact hcs d hd

/-- A dot and an identifier. -/
theorem covers_dotted (hkind : ctx.kind ≠ .loose)
    (h : Reads grammar ctx (.seq [.lit ".", .call .identifier]) cur cur' trees) :
    Covers (fun cs => ∃ word, IsWord word ∧ cs = '.' :: word.toList) cur cur' := by
  obtain ⟨mid, _, _, hdot, hword⟩ := reads_seq_inv (List.cons_ne_nil _ _) hkind h
  cases hdot with
  | text hdot =>
    refine (Covers.of_pass? hdot).append (covers_identifier hword) ?_
    rintro _ cs rfl hcs
    exact ⟨String.ofList cs, hcs, by simp⟩

/-- Dots and identifiers, any number of times. -/
theorem covers_dots {expr : Peg Rule} (h : Reads grammar ctx expr cur cur' trees)
    (hexpr : expr = .many (.cat .gap (.seq [.lit ".", .call .identifier])))
    (hkind : ctx.kind ≠ .loose) :
    Covers (fun cs => ∃ words : List String, (∀ word ∈ words, IsWord word) ∧
      cs = words.flatMap fun word => '.' :: word.toList) cur cur' := by
  induction h with
  | more hfirst _ _ ih =>
    cases hexpr
    obtain ⟨_, _, _, hgap, hpart, -⟩ := hfirst.cat_inv
    cases hgap
    rw [if_neg hkind] at hpart
    refine (covers_dotted hkind hpart).append (ih rfl hkind) ?_
    rintro _ _ ⟨word, hword, rfl⟩ ⟨words, hwords, rfl⟩
    exact ⟨word :: words, List.forall_mem_cons.mpr ⟨hword, hwords⟩, rfl⟩
  | done => exact .nothing ⟨[], List.forall_mem_nil _, rfl⟩ _
  | _ => cases hexpr

end

/-- The name of a package in a text is dotted. -/
theorem dotted_qualifiedName {start : Cursor} {stop : Mark} {parts : List Node}
    (h : Stems grammar (.node .qualifiedName start stop parts)) :
    Dotted (String.ofList (Grammar.ParseTree.node Rule.qualifiedName start stop parts).text) := by
  cases h with
  | @node ctx _ _ cur' _ hreads _ _ =>
    have hkind : (ctx.enter (grammar.production .qualifiedName).kind).kind ≠ .loose := nofun
    obtain ⟨mid, _, _, hfirst, hstar⟩ := reads_seq_inv (List.cons_ne_nil _ _) hkind hreads
    have hmore : Covers (fun cs => ∃ words : List String, (∀ word ∈ words, IsWord word) ∧
        cs = words.flatMap fun word => '.' :: word.toList) mid cur' := by
      cases hstar with
      | none => exact .nothing ⟨[], List.forall_mem_nil _, rfl⟩ _
      | some hstar =>
        obtain ⟨_, _, _, hpart, hmany, -⟩ := hstar.cat_inv
        refine (covers_dotted hkind hpart).append (covers_dots hmany rfl hkind) ?_
        rintro _ _ ⟨word, hword, rfl⟩ ⟨words, hwords, rfl⟩
        exact ⟨word :: words, List.forall_mem_cons.mpr ⟨hword, hwords⟩, rfl⟩
    have hall : Covers (fun cs => Dotted (String.ofList cs)) start cur' := by
      refine (covers_identifier hfirst).append hmore ?_
      rintro cs _ hcs ⟨words, hwords, rfl⟩
      refine ⟨String.ofList cs :: words, List.cons_ne_nil _ _,
        List.forall_mem_cons.mpr ⟨hcs, hwords⟩, ?_⟩
      rw [← String.toList_inj, toList_intercalate_dots, String.toList_ofList, String.toList_ofList]
    exact hall.of_textTo

/-- The package that a declaration names is dotted. -/
theorem dotted_buildPackage {node : Node} (h : Stems grammar node)
    (hrule : node.rule = .packageDecl) {package : Package}
    (hbuild : buildPackage node = .ok package) : Dotted package.name := by
  obtain ⟨rule, start, stop, parts⟩ := node
  cases hrule
  cases parts with
  | nil => cases hbuild
  | cons name rest =>
    cases hbuild
    have hname := h.part List.mem_cons_self
    cases h with
    | node hreads hleaves _ =>
      -- the word before the name leaves no node, and neither does the gap after it
      obtain ⟨_, _, _, hword, hrest, hparts⟩ := hreads.cat_inv
      obtain ⟨_, _, _, hgap, hpackage, hparts'⟩ := hrest.cat_inv
      obtain ⟨_, hnode⟩ := hpackage.call_inv hleaves
      have hnone := hword.silent ⟨trivial, trivial, fun _ _ => rfl⟩
      rw [hparts', hnode, hnone, hgap.silent trivial] at hparts
      cases hparts
      exact dotted_qualifiedName hname

theorem dotted_buildParts {nodes : List Node} (hstems : ∀ node ∈ nodes, Stems grammar node)
    {package : Option Package} {items : List Item}
    (h : buildParts nodes = .ok (package, items)) : ∀ p ∈ package, Dotted p.name := by
  induction nodes generalizing package items with
  | nil =>
    cases h
    exact nofun
  | cons node rest ih =>
    have ih := fun {package items} => @ih (List.forall_mem_cons.mp hstems).2 package items
    simp only [buildParts] at h
    split at h
    · rename_i hrule
      simp only [bind_eq_ok, pure_eq_ok] at h
      obtain ⟨built, hbuilt, _, -, heq⟩ := h
      cases heq
      rintro _ ⟨⟩
      exact dotted_buildPackage (hstems node List.mem_cons_self) hrule hbuilt
    · exact ih h
    · simp only [bind_eq_ok, pure_eq_ok] at h
      obtain ⟨_, -, ⟨_, _⟩, hmore, heq⟩ := h
      cases heq
      exact ih hmore

/-- The package of every unit that is taken in is dotted. -/
theorem dotted_readUnit {explicitPackages : Bool} {source text : String} {program : Program}
    (h : readUnit explicitPackages source text = .ok program) : program.InDotted := by
  unfold readUnit at h
  split at h
  · cases h
  · rename_i written hwritten
    split at h
    · cases h
    · cases h
      simp only [readProgram, buildProgram, bind_eq_ok, pure_eq_ok] at hwritten
      obtain ⟨node, hnode, ⟨package, items⟩, hparts, rfl⟩ := hwritten
      intro name hname
      obtain ⟨declared, hdeclared, rfl⟩ := Option.map_eq_some_iff.mp hname
      have hstems := stems_readNode hnode
      exact dotted_buildParts (fun _ hpart => hstems.part hpart) hparts declared hdeclared

end StackScript.Syntax

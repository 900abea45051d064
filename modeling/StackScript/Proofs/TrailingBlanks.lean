import StackScript.Proofs.BlankEnds
import StackScript.Proofs.FaultPlaces

/-!
# White space after an expression

A text is accepted as an expression if reading stops where its trailing white space begins
(`readExpr_eq_ok`). An expression of one operand, and one whose last operand has no suffix, ends
just past a gap, so blanks after it are read with it and it stops too late; only a line feed ends
the gap. An expression whose last operand has a suffix and is not the only one ends with the suffix
itself (`expression_stop`). This settles what white space after an accepted text does
(`readExpr_trailing`).
-/

namespace StackScript.Grammar

open StackScript.Source

/-- What holds where a repetition stops, and before each of its rounds if it does after it, holds
where it starts. -/
theorem Reads.many_induction {R : Type} {g : Rules R} {ctx : Context} {part : Peg R}
    {motive : Cursor → Cursor → List (ParseTree R) → Prop} (hdone : ∀ cur, motive cur cur [])
    (hmore : ∀ {cur mid cur' before after}, Reads g ctx part cur mid before →
      motive mid cur' after → motive cur cur' (before ++ after))
    {cur cur' : Cursor} {trees : List (ParseTree R)}
    (h : Reads g ctx (.many part) cur cur' trees) : motive cur cur' trees := by
  generalize hexpr : Peg.many part = expr at h
  induction h with
  | more hfirst _ _ ih =>
    cases hexpr
    exact hmore hfirst (ih hmore rfl)
  | done => exact hdone _
  | _ => cases hexpr

end StackScript.Grammar

namespace StackScript.Syntax

open StackScript.Grammar StackScript.Source StackScript.Text

/-! ## Where reading stops -/

/-- The run that was passed over ends in a character that is no white space. -/
def StopsVisibly (cur cur' : Cursor) : Prop :=
  Covers (fun cs => ∃ c ∈ cs.getLast?, isBlank c = false) cur cur'

theorem StopsVisibly.earlier {cur mid cur' : Cursor} (h : StopsVisibly mid cur')
    (hadv : Advances cur mid) : StopsVisibly cur cur' := by
  refine hadv.append h ?_
  rintro cs cs' - ⟨c, hlast, hc⟩
  refine ⟨c, ?_, hc⟩
  rw [List.getLast?_append, Option.mem_def.mp hlast]
  rfl

/-- Reading stopped just past a gap. -/
def StopsPastGap (cur : Cursor) : Prop := ∃ mid, cur = grammar.skip mid

/-- A gap goes on as long as there are blanks and carriage returns. -/
theorem skipGap_stops (inComment : Bool) (mark : Mark) (cs : List Char) :
    ∀ c ∈ (skipGap inComment mark cs).rest.head?, c ∉ [' ', '\t', '\r'] := by
  fun_induction skipGap inComment mark cs with
  | case1 => rintro _ ⟨⟩
  | case2 =>
    rintro _ ⟨⟩
    decide
  | case3 | case4 | case5 | case6 | case7 | case8 =>
    rename_i ih
    exact ih
  | case9 =>
    rintro _ ⟨⟩
    decide
  | case10 _ _ c _ _ hreturn _ hblank =>
    rintro _ ⟨⟩
    simp_all

/-- Reads in the context of a whole expression. -/
abbrev ReadsPlain (expr : Peg Rule) (cur cur' : Cursor) (trees : List Node) : Prop :=
  Reads grammar {} expr cur cur' trees

variable {cur cur' : Cursor} {trees : List Node}

theorem ReadsPlain.advances {expr : Peg Rule} (h : ReadsPlain expr cur cur' trees) :
    Advances cur cur' := Reads.advances measured_grammar.skips h

/-- A part is read with the gap after it, and then the rest. -/
theorem ReadsPlain.seq_inv {part next : Peg Rule} {parts : List (Peg Rule)}
    (h : ReadsPlain (.seq (part :: next :: parts)) cur cur' trees) :
    ∃ mid before after, ReadsPlain part cur mid before ∧
      ReadsPlain (.seq (next :: parts)) (grammar.skip mid) cur' after ∧
      Advances cur (grammar.skip mid) ∧ trees = before ++ after := by
  obtain ⟨mid, before, _, hpart, hmore, rfl⟩ := h.cat_inv
  obtain ⟨_, _, after, hgap, hrest, rfl⟩ := hmore.cat_inv
  cases hgap
  exact ⟨mid, before, after, hpart, hrest,
    (ReadsPlain.advances hpart).trans (measured_grammar.skips mid), rfl⟩

/-- A rule leaves one node. -/
theorem ReadsPlain.call_inv {rule : Rule} (h : ReadsPlain (.call rule) cur cur' trees) :
    ∃ parts, trees = [.node rule cur cur'.mark parts] ∧
      Reads grammar (({} : Context).enter rule.production.kind) rule.production.body cur cur'
        parts := by
  cases h with
  | call hread => exact ⟨_, if_pos (Rules.leavesNode_of (g := grammar) rfl rule), hread⟩

theorem ReadsPlain.text_stops {cs : List Char} (h : ReadsPlain (.text cs) cur cur' trees)
    (hlast : ∃ c ∈ cs.getLast?, isBlank c = false) : StopsVisibly cur cur' := by
  cases h with
  | text h =>
    refine (Covers.of_pass? h).imp ?_
    rintro _ rfl
    exact hlast

/-! ## Operands -/

/-- One suffix of an operand. -/
def suffixOp : Peg Rule := .choice [Phrase.use .indexOp, Phrase.use .lengthOp]

/-- A suffix ends in a bracket or in a letter. -/
theorem suffix_stops (h : ReadsPlain suffixOp cur cur' trees) :
    trees ≠ [] ∧ StopsVisibly cur cur' := by
  cases h with
  | left h =>
    obtain ⟨parts, rfl, hread⟩ := ReadsPlain.call_inv h
    obtain ⟨_, _, _, -, hinside, hadv, -⟩ := ReadsPlain.seq_inv hread
    obtain ⟨_, _, _, -, hclose, hadv', -⟩ := ReadsPlain.seq_inv hinside
    have hstop := ReadsPlain.text_stops hclose ⟨']', rfl, by decide⟩
    exact ⟨List.cons_ne_nil _ _, hstop.earlier (hadv.trans hadv')⟩
  | right h =>
    obtain ⟨parts, rfl, hread⟩ := ReadsPlain.call_inv h
    -- the name is read without gaps, and what comes after it only looked at
    obtain ⟨_, _, _, hname, hmore, -⟩ := hread.cat_inv
    obtain ⟨_, _, _, hgap, hahead, -⟩ := hmore.cat_inv
    have hstay := hgap.gap_inv (by rintro ⟨⟩)
    cases hahead
    subst hstay
    cases hname with
    | text hname =>
      refine ⟨List.cons_ne_nil _ _, (Covers.of_pass? hname).imp ?_⟩
      rintro _ rfl
      exact ⟨'h', rfl, by decide⟩

/-- After one suffix or more, reading stops with the last of them. -/
theorem suffixes_stop (h : ReadsPlain (.many (.cat .gap suffixOp)) cur cur' trees) :
    cur' = cur ∨ StopsVisibly cur cur' := by
  refine Reads.many_induction (motive := fun cur cur' _ => cur' = cur ∨ StopsVisibly cur cur')
    (fun _ => .inl rfl) ?_ h
  intro cur mid cur' before after hfirst hmore
  obtain ⟨_, _, _, hgap, hsuffix, -⟩ := hfirst.cat_inv
  have hadv := ReadsPlain.advances hgap
  obtain ⟨-, hstop⟩ := suffix_stops hsuffix
  rcases hmore with rfl | hmore
  · exact .inr (hstop.earlier hadv)
  · exact .inr (hmore.earlier (ReadsPlain.advances hfirst))

/-- How reading an operand stops: just past a gap if it has no suffixes, with the last of them
otherwise. -/
def StopsAs (operand : Node) (cur cur' : Cursor) : Prop :=
  (operand.parts.length = 1 ∧ StopsPastGap cur') ∨
    (1 < operand.parts.length ∧ StopsVisibly cur cur')

theorem StopsAs.earlier {operand : Node} {mid : Cursor} (h : StopsAs operand mid cur')
    (hadv : Advances cur mid) : StopsAs operand cur cur' :=
  h.imp_right fun h => ⟨h.1, h.2.earlier hadv⟩

theorem operand_stops (h : ReadsPlain (Phrase.use .term) cur cur' trees) :
    ∃ operand, trees = [operand] ∧ operand.rule = .term ∧ StopsAs operand cur cur' := by
  obtain ⟨parts, rfl, hread⟩ := ReadsPlain.call_inv h
  refine ⟨_, rfl, rfl, ?_⟩
  obtain ⟨mid, before, after, hprimary, hsuffixes, hadv, rfl⟩ := ReadsPlain.seq_inv hread
  have hone : before.length = 1 := by
    obtain ⟨rule, -, hrules⟩ := yields_primary (hprimary.yields rfl)
    rw [← List.length_map (f := ParseTree.rule), hrules]
    rfl
  have hsuffixes : ReadsPlain (.star suffixOp) (grammar.skip mid) cur' after := hsuffixes
  cases hsuffixes with
  | none =>
    refine .inl ⟨?_, mid, rfl⟩
    show (before ++ []).length = 1
    rw [List.append_nil, hone]
  | some hsuffixes =>
    obtain ⟨_, first, more, hfirst, hmore, rfl⟩ := hsuffixes.cat_inv
    obtain ⟨hne, hstop⟩ := suffix_stops hfirst
    have hvisible : StopsVisibly cur cur' := by
      rcases suffixes_stop hmore with rfl | hmore
      · exact hstop.earlier hadv
      · exact hmore.earlier (hadv.trans (ReadsPlain.advances hfirst))
    refine .inr ⟨?_, hvisible⟩
    show 1 < (before ++ (first ++ more)).length
    have hpos := List.length_pos_iff.mpr hne
    rw [List.length_append, List.length_append, hone]
    omega

/-! ## Rows of operands -/

/-- An operator with its right operand. -/
def rowPart : Peg Rule := .seq [Phrase.infixOp, .star Phrase.prefixOp, Phrase.use .term]

theorem rowPart_stops (h : ReadsPlain rowPart cur cur' trees) :
    ∃ before operand, trees = before ++ [operand] ∧ operand.rule = .term ∧
      StopsAs operand cur cur' := by
  obtain ⟨_, infixes, _, -, hmore, hadv, rfl⟩ := ReadsPlain.seq_inv h
  obtain ⟨_, prefixes, _, -, hoperand, hadv', rfl⟩ := ReadsPlain.seq_inv hmore
  obtain ⟨operand, rfl, hrule, hstop⟩ := operand_stops hoperand
  refine ⟨infixes ++ prefixes, operand, ?_, hrule, hstop.earlier (hadv.trans hadv')⟩
  rw [List.append_assoc]

/-- However many operators there are, reading stops as the last operand does. -/
theorem row_stops (h : ReadsPlain (.many (.cat .gap rowPart)) cur cur' trees) :
    (trees = [] ∧ cur' = cur) ∨ ∃ before operand, trees = before ++ [operand] ∧
      operand.rule = .term ∧ StopsAs operand cur cur' := by
  refine Reads.many_induction (motive := fun cur cur' trees => (trees = [] ∧ cur' = cur) ∨
    ∃ before operand, trees = before ++ [operand] ∧ operand.rule = .term ∧
      StopsAs operand cur cur') (fun _ => .inl ⟨rfl, rfl⟩) ?_ h
  rintro cur mid cur' before after hfirst (⟨rfl, rfl⟩ | ⟨more, operand, rfl, hrule, hstop⟩)
  · obtain ⟨_, gaps, parts, hgap, hpart, rfl⟩ := hfirst.cat_inv
    obtain ⟨between, operand, rfl, hrule, hstop⟩ := rowPart_stops hpart
    refine .inr ⟨gaps ++ between, operand, ?_, hrule, hstop.earlier (ReadsPlain.advances hgap)⟩
    simp
  · refine .inr ⟨before ++ more, operand, ?_, hrule, hstop.earlier (ReadsPlain.advances hfirst)⟩
    rw [List.append_assoc]

/-- The last operand has a suffix, and is not the only one. -/
def EndsInSuffix (node : Node) : Prop :=
  1 < (node.parts.map ParseTree.rule).count .term ∧
    ∃ length ∈ (node.parts.map fun part => part.parts.length).getLast?, 1 < length

/-- **An expression stops with a suffix of its last operand, if that has one and is not the only
one, and just past a gap otherwise.** -/
theorem expression_stop (h : ReadsPlain (.call .expression) cur cur' trees) :
    ∃ node, trees = [node] ∧ (EndsInSuffix node → StopsVisibly cur cur') ∧
      (¬EndsInSuffix node → StopsPastGap cur') := by
  obtain ⟨parts, rfl, hread⟩ := ReadsPlain.call_inv h
  refine ⟨_, rfl, ?_⟩
  obtain ⟨_, prefixes, _, hprefixes, hmore, hadv, rfl⟩ := ReadsPlain.seq_inv hread
  obtain ⟨mid, _, row, hoperand, hrow, hadv', rfl⟩ := ReadsPlain.seq_inv hmore
  obtain ⟨first, rfl, hfirst, -⟩ := operand_stops hoperand
  have hnone : (prefixes.map ParseTree.rule).count .term = 0 := by
    refine List.count_eq_zero.mpr fun hmem => ?_
    have hcalled := Peg.mem_calls_of_yields (hprefixes.yields rfl) _ hmem
    exact absurd hcalled (by decide)
  have hrow : ReadsPlain (.star rowPart) (grammar.skip mid) cur' row := hrow
  cases hrow with
  | none =>
    -- there is one operand only
    refine ⟨?_, fun _ => ⟨mid, rfl⟩⟩
    rintro ⟨hcount, -⟩
    simp [ParseTree.parts, hnone, hfirst] at hcount
  | some hrow =>
    obtain ⟨_, part, more, hpart, hrows, rfl⟩ := hrow.cat_inv
    obtain ⟨before, last, hparts, hlast, hstop⟩ : ∃ before last, part ++ more = before ++ [last] ∧
        last.rule = .term ∧ StopsAs last cur cur' := by
      rcases row_stops hrows with ⟨rfl, rfl⟩ | ⟨between, last, rfl, hlast, hstop⟩
      · obtain ⟨before, last, rfl, hlast, hstop⟩ := rowPart_stops hpart
        exact ⟨before, last, List.append_nil _, hlast, hstop.earlier (hadv.trans hadv')⟩
      · refine ⟨part ++ between, last, (List.append_assoc _ _ _).symm, hlast, ?_⟩
        exact hstop.earlier ((hadv.trans hadv').trans (ReadsPlain.advances hpart))
    -- the last operand is another one than the first
    have hcount : 1 < ((prefixes ++ ([first] ++ (before ++ [last]))).map ParseTree.rule).count
        .term := by
      simp [hnone, hfirst, hlast]
    have hlength : ((prefixes ++ ([first] ++ (before ++ [last]))).map
        fun part => part.parts.length).getLast? = some last.parts.length := by
      rw [← List.append_assoc, ← List.append_assoc, List.map_append]
      exact List.getLast?_concat
    have hends : EndsInSuffix (.node .expression cur cur'.mark
        (prefixes ++ ([first] ++ (part ++ more)))) ↔ 1 < last.parts.length := by
      rw [hparts]
      constructor
      · rintro ⟨-, length, hlast, hlt⟩
        cases hlength.symm.trans hlast
        exact hlt
      · exact fun hlt => ⟨hcount, _, hlength, hlt⟩
    rw [hends]
    rcases hstop with ⟨hone, hgap⟩ | ⟨hmany, hvisible⟩
    · exact ⟨fun hlt => absurd hone (Nat.ne_of_gt hlt), fun _ => hgap⟩
    · exact ⟨fun _ => hvisible, fun hle => absurd hmany hle⟩

/-- Nodes that are alike end in a suffix together. -/
theorem Alike.endsInSuffix_iff {node node' : Node} (h : Alike node node') :
    EndsInSuffix node ↔ EndsInSuffix node' := by
  cases h with
  | @node _ _ _ _ _ parts parts' _ hparts =>
    have hsame : parts.map ParseTree.rule = parts'.map ParseTree.rule ∧
        (parts.map fun part => part.parts.length) =
          parts'.map fun part => part.parts.length := by
      induction hparts with
      | nil => exact ⟨rfl, rfl⟩
      | @cons part part' _ _ halike _ ih =>
        have hlength : part.parts.length = part'.parts.length := by
          cases halike with
          | node _ hinner => exact hinner.length_eq
        simp only [List.map_cons, halike.rule_eq, hlength, ih.1, ih.2, and_self]
    show (1 < (parts.map ParseTree.rule).count .term ∧
      ∃ length ∈ (parts.map fun part => part.parts.length).getLast?, 1 < length) ↔ _
    rw [hsame.1, hsame.2]
    rfl

/-! ## White space at the end of a text -/

/-- The text has white space at its end if its last character is white space. -/
theorem blanks_eq_nil_iff {visible blanks : List Char} (hvisible : EndsVisibly visible)
    (hblanks : Blank blanks) :
    (∃ c ∈ (visible ++ blanks).getLast?, isBlank c = true) ↔ blanks ≠ [] := by
  rcases List.eq_nil_or_concat blanks with rfl | ⟨front, c, rfl⟩
  · rw [List.append_nil]
    constructor
    · rintro ⟨c, hlast, hc⟩
      rw [hvisible c hlast] at hc
      cases hc
    · exact fun h => absurd rfl h
  · rw [List.concat_eq_append, ← List.append_assoc, List.getLast?_concat]
    refine ⟨fun _ => by simp, fun _ => ⟨c, rfl, hblanks c (by simp)⟩⟩

/-! ## Texts that are accepted -/

/-- **A text is accepted as an expression if reading stops where its trailing white space
begins.** -/
theorem readExpr_eq_ok {text : String} {visible blanks : List Char} {value : Expr}
    (htext : text.toList = visible ++ blanks) (hvisible : EndsVisibly visible)
    (hblanks : Blank blanks) :
    readExpr text = .ok value ↔ ∃ cur node, Answers grammar {} (.call .expression)
      (.ofText text.toList) (some (cur, [node])) ∧ cur.rest = blanks ∧
        buildExpr node = .ok value := by
  have htrim : trimRight text.toList = visible := by
    rw [htext]
    exact trimRight_append hvisible hblanks
  -- the offset where reading stops tells how much was read
  have hstop : ∀ {cur node}, Answers grammar {} (.call .expression) (.ofText text.toList)
      (some (cur, [node])) → (node.span.stop.offset = byteLength visible ↔ cur.rest = blanks) := by
    intro cur node h
    have hreads := h.reads
    obtain ⟨parts, hnode, -⟩ := ReadsPlain.call_inv hreads
    cases hnode
    obtain ⟨cs, -, hrest, hmark⟩ := ReadsPlain.advances hreads
    have hcs : visible ++ blanks = cs ++ cur.rest := htext.symm.trans hrest
    show cur.mark.offset = _ ↔ _
    rw [hmark, Mark.offset_after]
    show 0 + byteLength cs = _ ↔ _
    rw [Nat.zero_add]
    constructor
    · intro hlength
      obtain rfl := eq_of_byteLength hcs hlength.symm
      exact (List.append_cancel_left hcs).symm
    · rintro rfl
      rw [List.append_cancel_right hcs]
  constructor
  · intro h
    obtain ⟨node, hnode, hmore⟩ := bind_eq_ok.mp h
    obtain ⟨cur, tries, hparse⟩ := readNode_inv hnode
    have hanswer : Answers grammar {} (.call .expression) (.ofText text.toList)
        (some (cur, [node])) := answers_of_read _ (by rw [← parse, hparse]; rfl)
    rw [htrim] at hmore
    by_cases hoffset : node.span.stop.offset = byteLength visible
    · have hbuilt : buildExpr node = .ok value := (if_pos hoffset).symm.trans hmore
      exact ⟨cur, node, hanswer, (hstop hanswer).mp hoffset, hbuilt⟩
    · cases (if_neg hoffset).symm.trans hmore
  · rintro ⟨cur, node, hanswer, hrest, hbuilt⟩
    refine bind_eq_ok.mpr ⟨node, readNode_of_found hanswer, ?_⟩
    rw [htrim]
    exact (if_pos ((hstop hanswer).mpr hrest)).trans hbuilt

/-- What of white space may be put after a text: blanks, tabs and the characters of line ends. -/
def IsSpacing (spacing : List Char) : Prop := ∀ c ∈ spacing, c ∈ [' ', '\t', '\r', '\n']

instance (spacing : List Char) : Decidable (IsSpacing spacing) :=
  List.decidableBAll (· ∈ [' ', '\t', '\r', '\n']) spacing

theorem IsSpacing.blank {spacing : List Char} (h : IsSpacing spacing) : Blank spacing := by
  intro c hc
  have hmem := h c hc
  simp only [List.mem_cons, List.not_mem_nil, or_false] at hmem
  rcases hmem with rfl | rfl | rfl | rfl <;> rfl

/-- Reading a text with more white space after it stops where that begins, unless it went on through
a gap: at the end of a text without white space of its own, and not at a line feed. -/
theorem Sharing.rest_or_ended {x w : List Char} {cur cur' : Cursor} (hx : Blank x)
    (h : Sharing x w cur cur') (hrest : cur.rest = x) :
    cur'.rest = x ++ w ∨ (x = [] ∧ w ≠ [] ∧ w.head? ≠ some '\n' ∧
      cur'.rest.length < w.length) := by
  cases h with
  | @before r hr hr' _ =>
    have hnil : r = [] := List.self_eq_append_left.mp (hrest.symm.trans hr)
    rw [hnil] at hr'
    exact .inl hr'
  | within hspent _ hlength =>
    rw [hrest] at hspent
    cases hspent with
    | part _ hshort => exact absurd hshort (Nat.lt_irrefl _)
    | backslash =>
      have hblank := hx '\\' List.mem_cons_self
      cases hblank
    | ended hnil hhead =>
      refine .inr ⟨rfl, ?_, hhead, hlength⟩
      rintro rfl
      exact absurd hlength (Nat.not_lt_zero _)

/-- Reading that went on into white space has not stopped visibly. -/
theorem not_stopsVisibly {text spacing : List Char} {cur : Cursor} (hspacing : Blank spacing)
    (hshort : cur.rest.length < spacing.length) :
    ¬StopsVisibly (.ofText (text ++ spacing)) cur := by
  rintro ⟨cs, ⟨c, hlast, hc⟩, hrest, -⟩
  have heq : text ++ spacing = cs ++ cur.rest := hrest
  obtain ⟨passed, rfl, hpassed⟩ : ∃ passed, cs = text ++ passed ∧ spacing = passed ++ cur.rest := by
    rcases List.append_eq_append_iff.mp heq with ⟨passed, hcs, hspaces⟩ | ⟨more, -, hmore⟩
    · exact ⟨passed, hcs, hspaces⟩
    · have hlength := congrArg List.length hmore
      rw [List.length_append] at hlength
      omega
  have hne : passed ≠ [] := by
    rintro rfl
    rw [hpassed] at hshort
    exact absurd hshort (Nat.lt_irrefl _)
  rw [List.getLast?_append_of_ne_nil _ hne] at hlast
  have hmem : c ∈ spacing := by
    rw [hpassed]
    exact List.mem_append_left _ (List.mem_of_getLast? hlast)
  rw [hspacing c hmem] at hc
  cases hc

/-- Reading that stopped just past a gap left white space over only from a line feed on. -/
theorem StopsPastGap.rest_cases (h : StopsPastGap cur) (hspacing : IsSpacing cur.rest) :
    cur.rest = [] ∨ cur.rest.head? = some '\n' := by
  obtain ⟨mid, rfl⟩ := h
  have hstops : ∀ c ∈ (grammar.skip mid).rest.head?, c ∉ [' ', '\t', '\r'] :=
    skipGap_stops false mid.mark mid.rest
  cases hrest : (grammar.skip mid).rest with
  | nil => exact .inl rfl
  | cons c more =>
    rw [hrest] at hstops hspacing
    have hstop := hstops c rfl
    have hc := hspacing c List.mem_cons_self
    simp only [List.mem_cons, List.not_mem_nil, or_false, not_or] at hstop hc
    obtain ⟨hblank, htab, hreturn⟩ := hstop
    rcases hc with rfl | rfl | rfl | rfl
    · exact absurd rfl hblank
    · exact absurd rfl htab
    · exact absurd rfl hreturn
    · exact .inr rfl

/-- An accepted text with white space after it is still read as an expression, by a node like its
own. It is accepted if reading stops where all the white space begins, and then gives the same
tree up to places. -/
theorem readExpr_longer {text spacing : String} {visible blanks : List Char} {value : Expr}
    (htext : text.toList = visible ++ blanks) (hvisible : EndsVisibly visible)
    (hblanks : Blank blanks) (hspacing : Blank spacing.toList) (h : readExpr text = .ok value) :
    ∃ node cur' node', readNode .expression text.toList = .ok node ∧ Alike node node' ∧
      ReadsPlain (.call .expression) (.ofText (text ++ spacing).toList) cur' [node'] ∧
      (cur'.rest = blanks ++ spacing.toList ∨ (blanks = [] ∧ spacing.toList ≠ [] ∧
        spacing.toList.head? ≠ some '\n' ∧ cur'.rest.length < spacing.toList.length)) ∧
      ((∃ value', readExpr (text ++ spacing) = .ok value') ↔
        cur'.rest = blanks ++ spacing.toList) ∧
      ∀ value', readExpr (text ++ spacing) = .ok value' →
        value'.relabel placeless = value.relabel placeless := by
  have hmore : Blank (blanks ++ spacing.toList) :=
    List.forall_mem_append.mpr ⟨hblanks, hspacing⟩
  have htext' : (text ++ spacing).toList = visible ++ (blanks ++ spacing.toList) := by
    rw [String.toList_append, htext, List.append_assoc]
  have haccepts := fun value' => @readExpr_eq_ok _ _ _ value' htext' hvisible hmore
  obtain ⟨cur, node, hanswer, hrest, hbuilt⟩ := (readExpr_eq_ok htext hvisible hblanks).mp h
  have hstart : Sharing blanks spacing.toList (.ofText text.toList)
      (.ofText (text ++ spacing).toList) := .before htext htext' hvisible
  obtain ⟨answer', hanswer', habreast⟩ := answers_sharing hblanks hspacing hanswer hstart
  cases habreast with
  | @both _ cur' _ trees' hcur' _ htrees =>
  cases htrees with
  | @cons _ node' _ _ halike hnil =>
  cases hnil
  have hnode := readNode_of_found hanswer
  have hmatched := matches_buildExpr (stems_readNode hnode) halike
  rw [hbuilt] at hmatched
  -- the longer text has this answer only
  have hiff : ∀ value', readExpr (text ++ spacing) = .ok value' ↔
      cur'.rest = blanks ++ spacing.toList ∧ buildExpr node' = .ok value' := by
    intro value'
    rw [haccepts]
    constructor
    · rintro ⟨cur'', node'', hfound, hrest'', hbuilt''⟩
      cases hanswer'.unique hfound
      exact ⟨hrest'', hbuilt''⟩
    · rintro ⟨hrest', hbuilt'⟩
      exact ⟨cur', node', hanswer', hrest', hbuilt'⟩
  generalize hbuilt' : buildExpr node' = built' at hmatched hiff
  cases hmatched with
  | @made _ made _ heq =>
  refine ⟨node, cur', node', hnode, halike, hanswer'.reads, hcur'.rest_or_ended hblanks hrest,
    ⟨?_, fun hrest' => ⟨made, (hiff made).mpr ⟨hrest', rfl⟩⟩⟩, ?_⟩
  · rintro ⟨value', hread⟩
    exact ((hiff value').mp hread).1
  · intro value' hread
    obtain ⟨-, hmade⟩ := (hiff value').mp hread
    cases hmade
    exact heq.symm

/-- **What white space after an expression does.** Put after an accepted text it leaves the text
accepted exactly if there is none of it, the text ends in white space already, it starts with a line
feed, or the last operand has a suffix and is not the only one. The tree is the same up to the
places of its nodes. -/
theorem readExpr_trailing {text spacing : String} {value : Expr}
    (h : readExpr text = .ok value) (hspacing : IsSpacing spacing.toList) :
    ((∃ value', readExpr (text ++ spacing) = .ok value') ↔
      spacing = "" ∨ (∃ c ∈ text.toList.getLast?, isBlank c = true) ∨
        spacing.toList.head? = some '\n' ∨
        ∃ node, readNode .expression text.toList = .ok node ∧ EndsInSuffix node) ∧
    ∀ value', readExpr (text ++ spacing) = .ok value' →
      value'.relabel placeless = value.relabel placeless := by
  obtain ⟨visible, blanks, htext, hvisible, hblanks⟩ := exists_trailing text.toList
  obtain ⟨node, cur', node', hnode, halike, hreads, hrest, haccepted, hsame⟩ :=
    readExpr_longer htext hvisible hblanks hspacing.blank h
  obtain ⟨_, hsingle, hvisibly, hpastGap⟩ := expression_stop hreads
  cases hsingle
  refine ⟨?_, hsame⟩
  rw [haccepted, htext, blanks_eq_nil_iff hvisible hblanks, ← htext]
  constructor
  · intro hrest'
    by_cases hnil : blanks = []
    · by_cases hsuffix : EndsInSuffix node
      · exact .inr (.inr (.inr ⟨node, hnode, hsuffix⟩))
      · -- the longer text is read up to a gap, and the gap would pass over its white space
        have hgap := hpastGap (mt halike.endsInSuffix_iff.mpr hsuffix)
        rw [hnil, List.nil_append] at hrest'
        have hcases := hgap.rest_cases (by rwa [hrest'])
        rw [hrest'] at hcases
        rcases hcases with hempty | hfeed
        · exact .inl (String.toList_eq_nil_iff.mp hempty)
        · exact .inr (.inr (.inl hfeed))
    · exact .inr (.inl hnil)
  · intro hcases
    rcases hrest with hrest' | ⟨hnil, hne, hfeed, hshort⟩
    · exact hrest'
    · rcases hcases with hempty | hblank | hhead | ⟨other, hother, hsuffix⟩
      · rw [hempty] at hne
        exact absurd rfl hne
      · exact absurd hnil hblank
      · exact absurd hhead hfeed
      · cases hnode.symm.trans hother
        have hstop := hvisibly (halike.endsInSuffix_iff.mp hsuffix)
        rw [String.toList_append] at hstop
        exact absurd hstop (not_stopsVisibly hspacing.blank hshort)

/-- A number is an expression, and so it is with a line feed after it, but not with a blank. -/
theorem readExpr_trailing_number : (∃ value, readExpr "1" = .ok value) ∧
    (∃ value, readExpr ("1" ++ "\n") = .ok value) ∧
    ¬∃ value, readExpr ("1" ++ " ") = .ok value := by
  have hread : (readExpr "1").toOption.isSome = true := by decide +kernel
  obtain ⟨value, hvalue⟩ : ∃ value, readExpr "1" = .ok value := by
    cases hvalue : readExpr "1" with
    | ok value => exact ⟨value, rfl⟩
    | error fault =>
      rw [hvalue] at hread
      cases hread
  have hfeed : IsSpacing "\n".toList := by decide
  have hblank : IsSpacing " ".toList := by decide
  refine ⟨⟨value, hvalue⟩, (readExpr_trailing hvalue hfeed).1.mpr (.inr (.inr (.inl rfl))), ?_⟩
  intro haccepted
  rcases (readExpr_trailing hvalue hblank).1.mp haccepted with hempty | ⟨c, hc, hvisible⟩ | hhead |
    ⟨node, hnode, hcount, -⟩
  · exact absurd hempty (by decide)
  · cases hc
    cases hvisible
  · exact absurd hhead (by decide)
  · -- there is one operand only
    have hone : (readNode .expression "1".toList).toOption.map
        (fun node => (node.parts.map ParseTree.rule).count .term) = some 1 := by decide +kernel
    rw [hnode] at hone
    have hone := Option.some.inj hone
    exact absurd hone (Nat.ne_of_gt hcount)

end StackScript.Syntax

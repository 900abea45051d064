import StackScript.Proofs.SamePlaces
import StackScript.Proofs.Spans

/-!
# Line endings

A text that is accepted has every string closed on its line (`intact_of_readProgram`), since a
backslash before a line end has no escape. Such a text and its twin are read in step, and the same
unit is built from both. So it makes no difference whether lines end in line feeds or in carriage
returns with line feeds (`readProgram_crlf`).
-/

namespace StackScript.Syntax

open StackScript.Grammar StackScript.Source StackScript.Text

/-! ## Strings that are read -/

theorem answers_newline_some {ctx : Context} {c : Char} (h : isLineEnd c = true) (rest : List Char)
    (mark : Mark) : ∃ found, Answers grammar ctx .newline ⟨c :: rest, mark⟩ (some found) := by
  rcases (Bool.or_eq_true _ _).mp h with hfeed | hreturn
  · obtain rfl := of_decide_eq_true hfeed
    exact ⟨_, answers_newline_feed rest mark⟩
  · obtain rfl := of_decide_eq_true hreturn
    rcases rest with _ | ⟨d, rest⟩
    · exact ⟨_, .right (.mismatch rfl) (.right (.mismatch rfl) (.text rfl))⟩
    · by_cases hd : '\n' = d
      · subst hd
        exact ⟨_, answers_newline_return rest mark⟩
      · refine ⟨_, .right (.mismatch rfl) (.right (.mismatch ?_) (.text rfl))⟩
        simp [Cursor.pass?, hd]

/-- Where no quote, backslash or line end comes next, the next character is none of them. -/
theorem ne_special_of_fails {ctx : Context} {c : Char} {rest : List Char} {mark : Mark}
    (h : Fails grammar ctx (.choice [.lit "\"", .lit "\\", .newline]) ⟨c :: rest, mark⟩) :
    c ≠ '"' ∧ c ≠ '\\' ∧ isLineEnd c = false := by
  have hnone := fails_iff.mp h
  have hquote : c ≠ '"' := by
    rintro rfl
    cases hnone.unique (.left (.text rfl))
  have hbackslash := ne_backslash_of_fails h
  refine ⟨hquote, hbackslash, ?_⟩
  cases hline : isLineEnd c with
  | false => rfl
  | true =>
    obtain ⟨found, hfound⟩ := @answers_newline_some ctx c hline rest mark
    cases hnone.unique (.right (.mismatch (if_neg hquote.symm))
      (.right (.mismatch (if_neg hbackslash.symm)) hfound))

/-- A character of a string that stands for itself, or a backslash with the character after it. -/
def LinePiece (cs : List Char) : Prop :=
  (∃ c, c ≠ '"' ∧ c ≠ '\\' ∧ isLineEnd c = false ∧ cs = [c]) ∨ ∃ c, cs = ['\\', c]

theorem covers_linePiece {ctx : Context} {cur cur' : Cursor} {trees : List Node}
    (hkind : ctx.kind ≠ .loose) (h : Reads grammar ctx piece cur cur' trees) :
    Covers LinePiece cur cur' := by
  cases h with
  | left h =>
    obtain ⟨c, rest, mark, hfails, rfl, rfl⟩ := plain_inv hkind h
    obtain ⟨hquote, hbackslash, hline⟩ := ne_special_of_fails hfails
    exact .one (.inl ⟨c, hquote, hbackslash, hline, rfl⟩) rest mark
  | right h => exact (covers_pair hkind h).imp fun _ => .inr

theorem isLineEnd_of_escaped? {c d : Char} (h : escaped? c = some d) : isLineEnd c = false := by
  unfold escaped? at h
  split at h
  · rfl
  · rfl
  · rfl
  · rfl
  · cases h

/-- Whatever is read as the contents of a string may stand between its quotes. -/
theorem covers_quotable {ctx : Context} {cur cur' : Cursor} {trees : List Node}
    (hkind : ctx.kind ≠ .loose) (h : Reads grammar ctx (.star piece) cur cur' trees) :
    Covers Quotable cur cur' := by
  refine h.covers_star hkind (covers_linePiece hkind) .nil ?_
  intro cs more hpiece hmore
  rcases hpiece with ⟨c, hquote, hbackslash, hline, rfl⟩ | ⟨c, rfl⟩
  · exact .plain hquote hbackslash hline hmore
  · exact .pair hmore

/-- The part of the contents that stands for a text is on one line, since no line end has an
escape. -/
theorem Quotable.onLine_of_unescape {cs before more : List Char} (h : Quotable cs)
    (hcs : cs = before ++ more) {offset : Nat} {made : List Char}
    (hmade : unescape offset before = .ok made) : OnLine before := by
  -- what comes after the first piece stands for a text too
  have hrest : ∀ {next : Nat} {c : Char} {cs made : List Char},
      (unescape next cs).map (c :: ·) = .ok made → ∃ rest, unescape next cs = .ok rest := by
    intro next c cs made h
    cases hrest : unescape next cs with
    | ok rest => exact ⟨rest, rfl⟩
    | error _ =>
      rw [hrest] at h
      cases h
  induction h generalizing before offset made with
  | nil =>
    obtain ⟨rfl, -⟩ := List.append_eq_nil_iff.mp hcs.symm
    exact .nil
  | plain hquote hbackslash hline _ ih =>
    rcases before with _ | ⟨c, before⟩
    · exact .nil
    · obtain ⟨rfl, hmore⟩ := List.cons.inj hcs
      rw [unescape_plain hbackslash] at hmade
      obtain ⟨rest, hmade⟩ := hrest hmade
      exact .plain hquote hbackslash hline (ih hmore hmade)
  | pair _ ih =>
    rcases before with _ | ⟨c, _ | ⟨d, before⟩⟩
    · exact .nil
    · obtain ⟨rfl, -⟩ := List.cons.inj hcs
      cases hmade
    · obtain ⟨rfl, hinner⟩ := List.cons.inj hcs
      obtain ⟨rfl, hmore⟩ := List.cons.inj hinner
      rw [unescape] at hmade
      split at hmade
      · obtain ⟨rest, hmade⟩ := hrest hmade
        exact .pair (isLineEnd_of_escaped? ‹_›) (ih hmore hmade)
      · cases hmade

/-- A string is read as its quotes and the contents between. -/
theorem string_body_inv {ctx : Context} {cur cur' : Cursor} {parts : List Node}
    (hkind : ctx.kind ≠ .loose) (h : Reads grammar ctx Rule.string.production.body cur cur' parts) :
    ∃ start mid inner, cur.pass? ['"'] = some start ∧
      Reads grammar (ctx.enter .tight) (.star piece) start mid inner ∧
      mid.pass? ['"'] = some cur' ∧
      (grammar.leavesNode ctx .stringContent = true →
        parts = [.node .stringContent start mid.mark inner]) := by
  obtain ⟨_, _, _, hopen, hopened, rfl⟩ := h.cat_inv
  obtain ⟨_, _, _, hgap, hinside, rfl⟩ := hopened.cat_inv
  obtain ⟨_, _, _, hcontent, hclosing, rfl⟩ := hinside.cat_inv
  obtain ⟨_, _, _, hgap', hclose, rfl⟩ := hclosing.cat_inv
  rw [hgap.gap_inv hkind] at hcontent
  rw [hgap'.gap_inv hkind] at hclose
  cases hopen with
  | text hopen =>
    cases hclose with
    | text hclose =>
      cases hgap
      cases hgap'
      cases hcontent with
      | call hcontent =>
        refine ⟨_, _, _, hopen, hcontent, hclose, fun hleaves => ?_⟩
        rw [if_pos hleaves]
        rfl

/-- Where nodes are left, a string leaves one with the contents inside it. -/
theorem string_inv {ctx : Context} {cur cur' : Cursor} {trees : List Node}
    (hctx : ctx.leavesNode = true) (h : Reads grammar ctx (.call .string) cur cur' trees) :
    ∃ start mid inner, cur.pass? ['"'] = some start ∧
      Reads grammar ((ctx.enter .joined).enter .tight) (.star piece) start mid inner ∧
      mid.pass? ['"'] = some cur' ∧
      trees = [.node .string cur cur'.mark [.node .stringContent start mid.mark inner]] := by
  have hleaves := Rules.leavesNode_of (g := grammar) (Context.leavesNode_enter_joined hctx)
    .stringContent
  cases h with
  | call h =>
    obtain ⟨start, mid, inner, hopen, hcontent, hclose, hparts⟩ :=
      string_body_inv (by rintro ⟨⟩) h
    rw [hparts hleaves]
    exact ⟨start, mid, inner, hopen, hcontent, hclose,
      if_pos (Rules.leavesNode_of (g := grammar) hctx .string)⟩

/-- A string that stands for a text is closed on its line. -/
theorem intact_string {ctx : Context} {cur cur' : Cursor} {trees : List Node}
    (hctx : ctx.leavesNode = true) (h : Reads grammar ctx (.call .string) cur cur' trees)
    (hfine : ∀ tree ∈ trees, Fine tree) :
    intact .code cur'.rest = intact .code cur.rest := by
  obtain ⟨start, mid, inner, hopen, hcontent, hclose, rfl⟩ := string_inv hctx h
  obtain ⟨made, hmade⟩ : ∃ made, unescape 0 (start.textTo mid.mark) = .ok made :=
    hfine _ List.mem_cons_self _ (.part List.mem_cons_self .self) rfl
  obtain ⟨_, rfl, hstart, -⟩ := Covers.of_pass? hopen
  obtain ⟨_, rfl, hmid, -⟩ := Covers.of_pass? hclose
  have hkind : ((ctx.enter .joined).enter .tight).kind ≠ .loose := by rintro ⟨⟩
  obtain ⟨cs, hcs, hrest, hmark⟩ := covers_quotable hkind hcontent
  have htext : start.textTo mid.mark = cs := by
    have hcovers : Covers (· = cs) start mid := ⟨cs, rfl, hrest, hmark⟩
    exact hcovers.of_textTo
  rw [htext] at hmade
  have honLine : OnLine cs := hcs.onLine_of_unescape (List.append_nil cs).symm hmade
  calc intact .code cur'.rest
      = intact .string ('"' :: cur'.rest) := rfl
    _ = intact .string (cs ++ '"' :: cur'.rest) := (honLine.intact_append _).symm
    _ = intact .code ('"' :: (cs ++ '"' :: cur'.rest)) := rfl
    _ = intact .code cur.rest := by rw [hstart, hrest, hmid]; rfl

/-! ## Texts that are read -/

theorem intact_append_plain {cs : List Char} (h : cs.all isPlain = true) (rest : List Char) :
    intact .code (cs ++ rest) = intact .code rest := by
  induction cs with
  | nil => rfl
  | cons c cs ih =>
    rw [List.all_cons, Bool.and_eq_true] at h
    obtain ⟨-, -, hquote, hcomment⟩ := isPlain_iff.mp h.1
    rw [List.cons_append, intact_code_cons hquote hcomment, ih h.2]

/-- Line ends open no string. -/
theorem intact_newline {ctx : Context} {cur cur' : Cursor} {trees : List Node}
    (h : Reads grammar ctx .newline cur cur' trees) :
    intact .code cur'.rest = intact .code cur.rest := by
  have hpass : ∃ cs, cs ∈ [['\n'], ['\r', '\n'], ['\r']] ∧ cur.pass? cs = some cur' := by
    cases h with
    | left h =>
      cases h with
      | text h => exact ⟨_, by decide, h⟩
    | right h =>
      cases h with
      | left h =>
        cases h with
        | text h => exact ⟨_, by decide, h⟩
      | right h =>
        cases h with
        | text h => exact ⟨_, by decide, h⟩
  obtain ⟨cs, hcs, hpass⟩ := hpass
  obtain ⟨_, rfl, hrest, -⟩ := Covers.of_pass? hpass
  rw [hrest]
  simp only [List.mem_cons, List.not_mem_nil, or_false] at hcs
  rcases hcs with rfl | rfl | rfl <;> rfl

/-- **Where the strings that are read stand for texts, none of them is left open.** -/
theorem intact_of_reads {ctx : Context} {expr : Peg Rule} {cur cur' : Cursor} {trees : List Node}
    (h : Reads grammar ctx expr cur cur' trees) (hkind : ctx.kind ≠ .joined)
    (hsight : ctx.sight = .plain) (hblind : lineBlind (ctx.kind = .tight) expr = true)
    (hfine : ∀ tree ∈ trees, Fine tree) : intact .code cur'.rest = intact .code cur.rest := by
  induction h with
  | @text ctx cs cur cur' hpass =>
    obtain ⟨_, rfl, hrest, -⟩ := Covers.of_pass? hpass
    rw [hrest, intact_append_plain hblind]
  | one hc =>
    obtain ⟨-, -, hquote, hcomment⟩ := isPlain_iff.mp (isPlain_of_accepts hblind hc)
    exact (intact_code_cons hquote hcomment _).symm
  | start => rfl
  | finish => rfl
  | gap =>
    split
    · exact intact_skipGap false _ _
    · rfl
  | cat _ _ hfirst hsecond =>
    obtain ⟨hblind, hblind'⟩ := (Bool.and_eq_true _ _).mp hblind
    obtain ⟨hbefore, hafter⟩ := List.forall_mem_append.mp hfine
    exact (hsecond hkind hsight hblind' hafter).trans (hfirst hkind hsight hblind hbefore)
  | @left ctx first second cur cur' trees hread ih =>
    rcases lineBlind_alt hblind with ⟨-, heq⟩ | ⟨hblind, -⟩
    · have hread : Reads grammar ctx (.alt first second) cur cur' trees := .left hread
      rw [heq] at hread
      exact intact_newline hread
    · exact ih hkind hsight hblind hfine
  | @right ctx first second cur cur' trees hread ih =>
    rcases lineBlind_alt hblind with ⟨-, heq⟩ | ⟨-, hblind⟩
    · have hread : Reads grammar ctx (.alt first second) cur cur' trees := .right hread
      rw [heq] at hread
      exact intact_newline hread
    · exact ih hkind hsight hblind hfine
  | some _ ih => exact ih hkind hsight hblind hfine
  | none => rfl
  | more _ _ hfirst hrest =>
    obtain ⟨hbefore, hafter⟩ := List.forall_mem_append.mp hfine
    exact (hrest hkind hsight hblind hafter).trans (hfirst hkind hsight hblind hbefore)
  | done => rfl
  | present => rfl
  | absent _ => rfl
  | @call ctx rule cur cur' trees hread ih =>
    by_cases hrule : rule = .string
    · subst rule
      have htight : ctx.kind ≠ .tight := by
        intro htight
        rw [htight] at hblind
        cases hblind
      have hctx : ctx.leavesNode = true := by
        simp [Context.leavesNode, hsight, htight]
      exact intact_string hctx (.call hread) hfine
    · obtain ⟨henter, hbodyBlind, -⟩ := lineBlind_call hkind hrule hblind
      rw [← kind_enter] at henter hbodyBlind
      have hsight' : (ctx.enter rule.production.kind).sight = .plain := by
        cases rule.production.kind <;> exact hsight
      refine ih henter hsight' hbodyBlind fun tree htree => ?_
      split at hfine
      · exact (hfine _ List.mem_cons_self).part htree
      · exact hfine tree htree

/-! ## Units -/

/-- A node is alike itself. -/
theorem alike_self {node : Node} (h : Stems grammar node) : Alike node node := by
  refine h.induction (P := fun node => Alike node node) ?_
  rintro ⟨rule, start, stop, parts⟩ _ ih
  refine .node (fun _ => rfl) (List.forall₂_same.mpr fun part hpart => ?_)
  exact ih part hpart part .self

theorem readNode_inv {rule : Rule} {cs : List Char} {node : Node}
    (h : readNode rule cs = .ok node) :
    ∃ cur tries, parse grammar rule cs = (.found cur [node], tries) := by
  unfold readNode at h
  split at h
  · cases h
    exact ⟨_, _, ‹_›⟩
  · cases h

theorem readNode_of_found {rule : Rule} {cs : List Char} {cur : Cursor} {node : Node}
    (h : Answers grammar {} (.call rule) (.ofText cs) (some (cur, [node]))) :
    readNode rule cs = .ok node := by
  have hparse := parse_of_answers measured_grammar (rank_lt_fuelPerChar rule) h
  obtain ⟨tries, hread⟩ := read_eq hparse
  rw [readNode, parse, hread]
  rfl

theorem readNode_of_none {rule : Rule} {cs : List Char}
    (h : Answers grammar {} (.call rule) (.ofText cs) none) :
    ∃ fault, readNode rule cs = .error fault := by
  have hparse := parse_of_answers measured_grammar (rank_lt_fuelPerChar rule) h
  obtain ⟨tries, hread⟩ := read_eq hparse
  rw [readNode, parse, hread]
  exact ⟨_, rfl⟩

/-- The rules that match up to the end of the text only. -/
def Rule.closes : Rule → Bool
  | .program | .finish => true
  | _ => false

theorem closes_body (rule : Rule) (h : rule.closes = true) :
    (grammar.production rule).body.closes Rule.closes = true := by
  cases rule <;> first | rfl | cases h

/-- **In a text that is accepted every string is closed on its line.** -/
theorem intact_of_readProgram {source text : String} {program : Program}
    (h : readProgram source text = .ok program) : intact .code text.toList = true := by
  obtain ⟨node, hnode, hprogram⟩ := bind_eq_ok.mp h
  have hstems := stems_readNode hnode
  obtain ⟨hrule, -⟩ := faithful_readNode hnode
  have hfine : Fine node := by
    have hself := matched_buildProgram hstems (alike_self hstems) hrule source
    rw [hprogram] at hself
    cases hself with
    | made hfine _ => exact hfine
  obtain ⟨cur, tries, hparse⟩ := readNode_inv hnode
  have hend : cur.rest = [] := by
    have hanswer : Answers grammar {} (.call .program) (.ofText text.toList)
        (some (cur, [node])) := answers_of_read _ (by rw [← parse, hparse]; rfl)
    exact hanswer.rest_eq_nil closes_body rfl
  have hread : Reads grammar {} (.call .program) (.ofText text.toList) cur [node] :=
    reads_of_read _ hparse
  -- after the start of the text everything is blind to line ends
  obtain ⟨parts, hbody, hparts⟩ : ∃ parts,
      Reads grammar {} Rule.program.production.body (.ofText text.toList) cur parts ∧
        ∀ part ∈ parts, Fine part := by
    generalize hnodes : [node] = nodes at hread
    cases hread with
    | @call _ _ _ _ parts hbody =>
      refine ⟨parts, hbody, fun part hpart => ?_⟩
      rw [if_pos (Rules.leavesNode_of (g := grammar) rfl Rule.program)] at hnodes
      cases hnodes
      exact hfine.part hpart
  obtain ⟨_, _, _, hstart, hrest, rfl⟩ := hbody.cat_inv
  cases hstart
  have hintact := intact_of_reads hrest (by decide) rfl (by decide) hparts
  rw [hend] at hintact
  exact hintact.symm

/-- Twins are accepted together, and give the same unit up to the places of its nodes. -/
theorem readProgram_twins {text text' : String} (h : Twins text.toList text'.toList)
    (source : String) :
    Matched True (Program.relabel placeless) (readProgram source text)
      (readProgram source text') := by
  cases hintact : intact .code text.toList with
  | true =>
    have hlevel : Level (.ofText text.toList) (.ofText text'.toList) := ⟨h, hintact⟩
    obtain ⟨answer, hanswer⟩ :=
      answers_of_parse measured_grammar (rank_lt_fuelPerChar .program) text.toList
    obtain ⟨answer', hanswer', habreast⟩ := program_inStep hlevel hanswer
    rw [readProgram, readProgram]
    cases habreast with
    | neither =>
      obtain ⟨fault, hread⟩ := readNode_of_none hanswer
      obtain ⟨fault', hread'⟩ := readNode_of_none hanswer'
      rw [hread, hread']
      exact .refused
    | both _ _ htrees =>
      obtain ⟨parts, rfl⟩ := hanswer.call_inv (Rules.leavesNode_of rfl _)
      cases htrees with
      | cons halike hnil =>
        cases hnil
        have hread := readNode_of_found hanswer
        rw [hread, readNode_of_found hanswer']
        exact (matched_buildProgram (stems_readNode hread) halike rfl source).imp fun _ => trivial
  | false =>
    -- neither of them is accepted
    have hrefused : ∀ {text : String}, intact .code text.toList = false →
        ∃ fault, readProgram source text = .error fault := by
      intro text hintact
      cases hread : readProgram source text with
      | ok program =>
        rw [intact_of_readProgram hread] at hintact
        cases hintact
      | error fault => exact ⟨fault, rfl⟩
    obtain ⟨fault, hread⟩ := hrefused hintact
    obtain ⟨fault', hread'⟩ := hrefused ((h.intact_eq .code).trans hintact)
    rw [hread, hread']
    exact .refused

/-- The text with a carriage return before every line feed. -/
def crlfText (text : String) : String := String.ofList (crlf text.toList)

/-- **Line endings make no difference.** A text without carriage returns is accepted exactly if the
same text with a carriage return before every line feed is, and then both give the same unit up to
the places of its nodes. -/
theorem readProgram_crlf {text : String} (h : '\r' ∉ text.toList) (source : String) :
    ((∃ program, readProgram source text = .ok program) ↔
      ∃ program, readProgram source (crlfText text) = .ok program) ∧
    ∀ program program', readProgram source text = .ok program →
      readProgram source (crlfText text) = .ok program' →
        program.relabel placeless = program'.relabel placeless := by
  have htwins : Twins text.toList (crlfText text).toList := by
    rw [crlfText, String.toList_ofList]
    exact twins_crlf h
  have hmatched := readProgram_twins htwins source
  generalize readProgram source text = read at hmatched
  generalize readProgram source (crlfText text) = read' at hmatched
  cases hmatched with
  | made _ heq =>
    refine ⟨⟨fun _ => ⟨_, rfl⟩, fun _ => ⟨_, rfl⟩⟩, ?_⟩
    rintro _ _ ⟨⟩ ⟨⟩
    exact heq
  | refused =>
    refine ⟨⟨?_, ?_⟩, ?_⟩
    · rintro ⟨_, ⟨⟩⟩
    · rintro ⟨_, ⟨⟩⟩
    · rintro _ _ ⟨⟩

/-- A unit with line ends wherever they matter: after a comment, escaped, beside a string that
spells one, between statements and inside a block. -/
def manyLines : String :=
  "# lines\n\nif 1 < \\\n 2 then # two\n  puts \"a\\n#\"\nend\nx = 3; puts x\n"

theorem readProgram_crlf_manyLines : '\r' ∉ manyLines.toList ∧ ∃ program program',
    readProgram "unit" manyLines = .ok program ∧
      readProgram "unit" (crlfText manyLines) = .ok program' ∧
      program.relabel placeless = program'.relabel placeless := by
  have hreturn : '\r' ∉ manyLines.toList := by decide
  have hread : (readProgram "unit" manyLines).toOption.isSome = true := by decide +kernel
  obtain ⟨haccepted, hsame⟩ := readProgram_crlf hreturn "unit"
  cases hprogram : readProgram "unit" manyLines with
  | ok program =>
    obtain ⟨program', hprogram'⟩ := haccepted.mp ⟨program, hprogram⟩
    exact ⟨hreturn, program, program', rfl, hprogram', hsame _ _ hprogram hprogram'⟩
  | error fault =>
    rw [hprogram] at hread
    cases hread

end StackScript.Syntax

import Mathlib.Data.List.TakeWhile
import StackScript.Proofs.LineEndings
import StackScript.Syntax.Unit

/-!
# The places of refused literals and units

Offsets count bytes and columns count characters. The place of an integer literal is that of its
node and has both right. The place of an escape is computed from the place where the contents of its
string start, and the first line of a unit without a package from the start of the text; both move a
column on by the number of bytes. Such a place is right exactly if every character before it takes
one byte (`Mark.shift_eq_after_iff`), and if no line ends in between.
-/

namespace StackScript.Source

/-! ## Columns that count bytes -/

/-- Every character of the text takes one byte. -/
def SingleBytes (cs : List Char) : Prop := ∀ c ∈ cs, c.utf8Size = 1

instance (cs : List Char) : Decidable (SingleBytes cs) := List.decidableBAll _ cs

theorem length_le_byteLength (cs : List Char) : cs.length ≤ byteLength cs := by
  induction cs with
  | nil => exact Nat.le_refl 0
  | cons c cs ih =>
    have hsize := c.utf8Size_pos
    show cs.length + 1 ≤ c.utf8Size + byteLength cs
    omega

/-- A text has as many bytes as characters only if each of them takes one. -/
theorem byteLength_eq_length_iff {cs : List Char} :
    byteLength cs = cs.length ↔ SingleBytes cs := by
  induction cs with
  | nil => exact ⟨fun _ => List.forall_mem_nil _, fun _ => rfl⟩
  | cons c cs ih =>
    have hsize := c.utf8Size_pos
    have hle := length_le_byteLength cs
    rw [SingleBytes, List.forall_mem_cons]
    show c.utf8Size + byteLength cs = cs.length + 1 ↔ c.utf8Size = 1 ∧ SingleBytes cs
    rw [← ih]
    omega

/-- The mark moved on by the number of bytes, in bytes and in columns. -/
def Mark.shift (mark : Mark) (bytes : Nat) : Mark :=
  ⟨mark.offset + bytes, mark.line, mark.column + bytes⟩

/-- Past a run without line feeds a mark stays on its line. -/
theorem Mark.after_of_not_mem {cs : List Char} (h : '\n' ∉ cs) (mark : Mark) :
    mark.after cs = ⟨mark.offset + byteLength cs, mark.line, mark.column + cs.length⟩ := by
  induction cs generalizing mark with
  | nil => rfl
  | cons c cs ih =>
    obtain ⟨hc, hcs⟩ := not_or.mp (mt List.mem_cons.mpr h)
    have hnext : mark.next c = ⟨mark.offset + c.utf8Size, mark.line, mark.column + 1⟩ :=
      if_neg (Ne.symm hc)
    show (mark.next c).after cs = _
    rw [ih hcs, hnext]
    simp only [byteLength, List.length_cons, Mark.mk.injEq, true_and]
    omega

/-- Moving on by bytes is moving on by characters exactly where each of them takes one byte. -/
theorem Mark.shift_eq_after_iff {cs : List Char} (h : '\n' ∉ cs) (mark : Mark) :
    mark.shift (byteLength cs) = mark.after cs ↔ SingleBytes cs := by
  rw [Mark.after_of_not_mem h, ← byteLength_eq_length_iff, Mark.shift, Mark.mk.injEq]
  constructor
  · rintro ⟨-, -, hcolumn⟩
    exact Nat.add_left_cancel hcolumn
  · intro heq
    exact ⟨rfl, rfl, congrArg (mark.column + ·) heq⟩

/-- Past a line feed a mark is on a later line. -/
theorem Mark.line_after_feed {cs : List Char} (h : '\n' ∉ cs) (mark : Mark) :
    (mark.after (cs ++ ['\n'])).line = mark.line + 1 := by
  rw [Mark.after_concat, Mark.after_of_not_mem h]
  rfl

/-- A mark with the offset of a place is right if it is the one that is counted there. -/
theorem Mark.faithful_iff {text before after : List Char} {mark : Mark}
    (htext : text = before ++ after) (hoffset : mark.offset = byteLength before) :
    mark.Faithful text ↔ mark = Mark.first.after before := by
  have hcounted := Mark.faithful_after htext
  constructor
  · intro h
    apply h.unique hcounted
    rw [hoffset, Mark.offset_after]
    exact (Nat.zero_add _).symm
  · rintro rfl
    exact hcounted

end StackScript.Source

namespace StackScript.Grammar

open StackScript.Source

variable {R : Type} {g : Rules R} {text : List Char}

/-! ## Nodes in the text -/

/-- The node starts at a place of the text and stops at a later one. -/
def ParseTree.LiesIn (text : List Char) : ParseTree R → Prop
  | .node _ start stop _ =>
    Advances (.ofText text) start ∧ ∃ rest, Advances start ⟨rest, stop⟩

theorem ParseTree.LiesIn.faithful {tree : ParseTree R} (h : tree.LiesIn text) :
    tree.span.Faithful text := by
  obtain ⟨rule, start, stop, parts⟩ := tree
  obtain ⟨hstart, rest, hstop⟩ := h
  exact ⟨hstart.mark_faithful, (hstart.trans hstop).mark_faithful, hstop.offset_le⟩

/-- All nodes that reading leaves lie in the text, and so do the nodes inside them. -/
theorem Reads.liesIn {ctx : Context} {expr : Peg R} {cur cur' : Cursor}
    {trees : List (ParseTree R)} (hskip : ∀ cur, Advances cur (g.skip cur))
    (h : Reads g ctx expr cur cur' trees) (hcur : Advances (.ofText text) cur) :
    ∀ tree ∈ trees, ∀ inner, tree.Has inner → inner.LiesIn text := by
  induction h with
  | cat hfirst _ hbefore hafter =>
    intro tree htree
    rcases List.mem_append.mp htree with htree | htree
    · exact hbefore hcur tree htree
    · exact hafter (hcur.trans (hfirst.advances hskip)) tree htree
  | more hfirst _ hbefore hafter =>
    intro tree htree
    rcases List.mem_append.mp htree with htree | htree
    · exact hbefore hcur tree htree
    · exact hafter (hcur.trans (hfirst.advances hskip)) tree htree
  | left _ ih => exact ih hcur
  | right _ ih => exact ih hcur
  | some _ ih => exact ih hcur
  | @call ctx rule cur cur' trees h ih =>
    split
    · -- the node of the rule itself, and then the nodes inside it
      intro tree htree inner hinner
      rw [List.mem_singleton.mp htree] at hinner
      cases hinner with
      | self => exact ⟨hcur, cur'.rest, h.advances hskip⟩
      | part hpart hinner => exact ih hcur _ hpart _ hinner
    · exact ih hcur
  | _ => exact List.forall_mem_nil _

end StackScript.Grammar

namespace StackScript.Syntax

open StackScript.Grammar StackScript.Source StackScript.Text

variable {text : List Char}

theorem liesIn_readNode {rule : Rule} {node inner : Node} (h : readNode rule text = .ok node)
    (hinner : node.Has inner) : inner.LiesIn text := by
  obtain ⟨cur, tries, hparse⟩ := readNode_inv h
  have hreads := reads_of_read _ hparse
  exact hreads.liesIn measured_grammar.skips (.refl _) node List.mem_cons_self inner hinner

/-! ## Escapes -/

/-- The contents of a string start just past its opening quote, and are all that its node covers. -/
theorem string_node_inv {start : Cursor} {stop : Mark} {content : Node}
    (h : Stems grammar (.node .string start stop [content])) :
    ∃ rest, Quotable content.text ∧ start.rest = '"' :: (content.text ++ rest) ∧
      content.span.start = start.mark.next '"' := by
  generalize htree : ParseTree.node Rule.string start stop [content] = tree at h
  cases h with
  | @node ctx rule _ _ parts hreads hleaves _ =>
    cases htree
    have hinside : grammar.leavesNode (ctx.enter .joined) .stringContent = true :=
      Rules.leavesNode_of (g := grammar) hleaves .stringContent
    obtain ⟨first, mid, inner, hopen, hcontent, -, hparts⟩ :=
      string_body_inv (by rintro ⟨⟩) hreads
    cases hparts hinside
    obtain ⟨_, rfl, hstart, hmark⟩ := Covers.of_pass? hopen
    obtain ⟨cs, hcs, hrest, hstop⟩ := covers_quotable (by rintro ⟨⟩) hcontent
    have hcovered : Covers (· = cs) first mid := ⟨cs, rfl, hrest, hstop⟩
    have htext : first.textTo mid.mark = cs := hcovered.of_textTo
    refine ⟨mid.rest, ?_, ?_, hmark⟩
    · show Quotable (first.textTo mid.mark)
      rw [htext]
      exact hcs
    · show start.rest = '"' :: (first.textTo mid.mark ++ mid.rest)
      rw [htext, hstart, hrest]
      rfl

/-- The place told for an escape: where it starts is right if each character before it takes one
byte; where it stops is right if, besides, it is no line feed that the backslash stands before. -/
theorem escapeSpan_faithful_iff {before inside after : List Char} {c : Char}
    (htext : text = before ++ (inside ++ '\\' :: c :: after)) (hinside : '\n' ∉ inside) :
    let span := escapeSpan (Mark.first.after before) (byteLength inside) ['\\', c]
    (span.start.Faithful text ↔ SingleBytes inside) ∧
      (span.stop.Faithful text ↔ SingleBytes inside ∧ c ≠ '\n') := by
  intro span
  -- the offset is told right; whether the column is depends on how many bytes the characters have
  have hoffset : (Mark.first.after before).offset = byteLength before := by
    rw [Mark.offset_after]
    exact Nat.zero_add _
  constructor
  · have hbefore : text = (before ++ inside) ++ '\\' :: c :: after := by
      rw [htext, List.append_assoc]
    have hstart : span.start.offset = byteLength (before ++ inside) := by
      rw [byteLength_append, ← hoffset]
      rfl
    rw [Mark.faithful_iff hbefore hstart, Mark.after_append]
    exact Mark.shift_eq_after_iff hinside _
  · have hbefore : text = (before ++ (inside ++ ['\\', c])) ++ after := by
      simp [htext]
    have hstop : span.stop.offset = byteLength (before ++ (inside ++ ['\\', c])) := by
      rw [byteLength_append, byteLength_append, ← hoffset, ← Nat.add_assoc]
      rfl
    rw [Mark.faithful_iff hbefore hstop, Mark.after_append]
    by_cases hc : c = '\n'
    · -- the escape is told to stop on the line that it starts on
      subst c
      have hpair : '\n' ∉ inside ++ ['\\'] := by simp [hinside]
      have hline := Mark.line_after_feed hpair (Mark.first.after before)
      rw [List.append_assoc, List.singleton_append] at hline
      constructor
      · intro heq
        rw [← heq] at hline
        exact absurd hline.symm (Nat.succ_ne_self _)
      · rintro ⟨-, hne⟩
        exact absurd rfl hne
    · have hpair : '\n' ∉ inside ++ ['\\', c] := by simp [hinside, Ne.symm hc]
      have hbytes := byteLength_append inside ['\\', c]
      have htold : span.stop = ⟨(Mark.first.after before).offset + byteLength inside +
          byteLength ['\\', c], (Mark.first.after before).line,
          (Mark.first.after before).column + byteLength inside + 2⟩ := rfl
      rw [Mark.after_of_not_mem hpair, htold, Mark.mk.injEq, hbytes, List.length_append,
        ← byteLength_eq_length_iff, and_iff_left hc]
      simp only [List.length_cons, List.length_nil, true_and]
      omega

/-! ## Units without a package -/

/-- The first line is as long in columns as in bytes only if each of its characters takes one. -/
theorem firstLineSpan_faithful_iff :
    (firstLineSpan text).Faithful text ↔ SingleBytes (text.takeWhile (· ≠ '\n')) := by
  have hfeed : '\n' ∉ text.takeWhile (· ≠ '\n') := by
    intro hmem
    exact absurd (List.mem_takeWhile_imp hmem) (by decide)
  have hbefore : text = text.takeWhile (· ≠ '\n') ++ text.dropWhile (· ≠ '\n') :=
    List.takeWhile_append_dropWhile.symm
  have hstop : (firstLineSpan text).stop =
      Mark.first.shift (byteLength (text.takeWhile (· ≠ '\n'))) := by
    show Mark.mk _ _ _ = Mark.mk _ _ _
    rw [Mark.mk.injEq]
    exact ⟨(Nat.zero_add _).symm, rfl, Nat.add_comm _ _⟩
  have hoffset : (Mark.first.shift (byteLength (text.takeWhile (· ≠ '\n')))).offset =
      byteLength (text.takeWhile (· ≠ '\n')) := Nat.zero_add _
  rw [← Mark.shift_eq_after_iff hfeed Mark.first, ← Mark.faithful_iff hbefore hoffset, ← hstop]
  constructor
  · exact Span.Faithful.stop
  · intro h
    have hstart : Mark.first.Faithful text := Mark.faithful_after (List.nil_append text).symm
    exact ⟨hstart, h, Nat.zero_le _⟩

/-! ## Faults -/

/-- A refused literal lies in the text: digits where they are told to lie, an escape at its offsets
in a string whose contents can be read up to there. -/
theorem readProgram_refused {source unit : String} {fault : ReadFault}
    (h : readProgram source unit = .error fault) :
    (∃ place found expected, fault = .unexpected place found expected) ∨
      (∃ digits span, fault = .integerRange digits span ∧ span.Faithful unit.toList) ∨
      ∃ before inside c after, unit.toList = before ++ '"' :: (inside ++ '\\' :: c :: after) ∧
        OnLine inside ∧ fault = .unknownEscape (String.ofList ['\\', c])
          (escapeSpan (Mark.first.after (before ++ ['"'])) (byteLength inside) ['\\', c]) := by
  cases hnode : readNode .program unit.toList with
  | error found =>
    rw [readProgram, hnode] at h
    cases h
    rw [readNode] at hnode
    split at hnode
    · cases hnode
    · cases hnode
      exact .inl ⟨_, _, _, rfl⟩
  | ok node =>
    have hstems := stems_readNode hnode
    obtain ⟨hrule, -⟩ := faithful_readNode hnode
    have hsound := sound_buildProgram hstems hrule source
    rw [readProgram, hnode] at h
    have hbuilt : buildProgram source node = .error fault := h
    rw [hbuilt] at hsound
    cases hsound with
    | @refused literal _ hliteral hrefused =>
      have hlies := liesIn_readNode hnode hliteral
      cases hrefused with
      | integer => exact .inr (.inl ⟨_, _, rfl, hlies.faithful⟩)
      | @escape content inside after c made hstring hparts htext hmade _ =>
        obtain ⟨rule, start, stop, parts⟩ := literal
        obtain rfl : rule = .string := hstring
        obtain rfl : parts = [content] := hparts
        obtain ⟨rest, hquotable, hstart, hmark⟩ := string_node_inv (hstems.has hliteral)
        obtain ⟨⟨before, -, hunit, hbefore⟩, -⟩ := hlies
        rw [htext] at hquotable hstart
        refine .inr (.inr ⟨before, inside, c, after ++ rest, ?_, ?_, ?_⟩)
        · have hunit : unit.toList = before ++ start.rest := hunit
          rw [hunit, hstart]
          simp
        · exact hquotable.onLine_of_unescape rfl hmade
        · rw [hmark, hbefore, Mark.after_concat]
          rfl

/-- **Where refused literals and units are told to lie.** An integer lies where it is told to. Of an
escape and of the first line of a unit without a package the offsets are right, but lines and
columns only as long as every character between the quote, or the start of the text, and the place
takes one byte, and it is no line feed that stands after the backslash. -/
theorem readUnit_places {explicitPackages : Bool} {source text : String} {fault : UnitFault}
    (h : readUnit explicitPackages source text = .error fault) :
    (∀ digits span, fault = .unreadable (.integerRange digits span) →
      span.Faithful text.toList) ∧
    (∀ spelling span, fault = .unreadable (.unknownEscape spelling span) →
      ∃ before inside c after, text.toList = before ++ '"' :: (inside ++ '\\' :: c :: after) ∧
        OnLine inside ∧ spelling = String.ofList ['\\', c] ∧
        span.start.offset = byteLength (before ++ '"' :: inside) ∧
        span.stop.offset = span.start.offset + byteLength ['\\', c] ∧
        (span.start.Faithful text.toList ↔ SingleBytes inside) ∧
        (span.stop.Faithful text.toList ↔ SingleBytes inside ∧ c ≠ '\n')) ∧
    ∀ unit span, fault = .noPackage unit span →
      span.start = .first ∧
        span.stop.offset = byteLength (text.toList.takeWhile (· ≠ '\n')) ∧
        (span.Faithful text.toList ↔ SingleBytes (text.toList.takeWhile (· ≠ '\n'))) := by
  rw [readUnit] at h
  cases hread : readProgram source text with
  | error found =>
    rw [hread] at h
    cases h
    rcases readProgram_refused hread with ⟨_, _, _, rfl⟩ | ⟨_, _, rfl, hfaithful⟩ |
      ⟨before, inside, c, after, htext, hline, rfl⟩
    · refine ⟨?_, ?_, ?_⟩ <;> rintro _ _ ⟨⟩
    · refine ⟨?_, ?_, ?_⟩ <;> rintro _ _ ⟨⟩
      exact hfaithful
    · refine ⟨?_, ?_, ?_⟩ <;> rintro _ _ ⟨⟩
      -- a string stands on one line, so up to the escape only columns count
      have hfeed : '\n' ∉ inside := by
        intro hmem
        have hno := hline.isLineEnd_of_mem _ hmem
        cases hno
      have hquote : text.toList = (before ++ ['"']) ++ (inside ++ '\\' :: c :: after) := by
        simp [htext]
      obtain ⟨hstart, hstop⟩ := escapeSpan_faithful_iff hquote hfeed
      refine ⟨before, inside, c, after, htext, hline, rfl, ?_, rfl, hstart, hstop⟩
      calc (Mark.first.after (before ++ ['"'])).offset + byteLength inside
          = byteLength (before ++ ['"']) + byteLength inside := by
            rw [Mark.offset_after]
            exact congrArg (· + byteLength inside) (Nat.zero_add _)
        _ = byteLength (before ++ '"' :: inside) := by
            rw [← byteLength_append, List.append_assoc]
            rfl
  | ok program =>
    simp only [hread] at h
    split at h <;> cases h
    refine ⟨?_, ?_, ?_⟩ <;> rintro _ _ ⟨⟩
    exact ⟨rfl, rfl, firstLineSpan_faithful_iff⟩

/-- A string with a character of two bytes before a backslash that stands before no escape. -/
def accentText : String := "puts \"é\\q\"\n"

/-- What is told of it: offsets that are right, and columns that are one too large. -/
def accentFault : UnitFault := .unreadable (.unknownEscape "\\q" ⟨⟨8, 1, 9⟩, ⟨10, 1, 11⟩⟩)

theorem readUnit_places_accent : readUnit false "unit" accentText = .error accentFault ∧
    ¬accentFault.location.start.Faithful accentText.toList ∧
    ¬accentFault.location.stop.Faithful accentText.toList := by
  have hfault : readUnit false "unit" accentText = .error accentFault := by
    have hread : (match readUnit false "unit" accentText with
        | .error fault => decide (fault = accentFault)
        | .ok _ => false) = true := by decide +kernel
    split at hread
    · rename_i hread'
      rw [hread', of_decide_eq_true hread]
    · cases hread
  obtain ⟨-, hescape, -⟩ := readUnit_places hfault
  obtain ⟨before, inside, c, after, htext, -, -, hoffset, -, hstart, hstop⟩ := hescape _ _ rfl
  -- the offset settles what comes before the backslash, and the accent is part of it
  have hbefore : before ++ '"' :: inside = ['p', 'u', 't', 's', ' ', '"', 'é'] := by
    have hwhole : (before ++ '"' :: inside) ++ '\\' :: c :: after = accentText.toList := by
      simp [htext]
    have hknown : accentText.toList =
        ['p', 'u', 't', 's', ' ', '"', 'é'] ++ ['\\', 'q', '"', '\n'] := by decide
    exact eq_of_byteLength (hwhole.trans hknown) (hoffset.symm.trans (by decide))
  have haccent : ¬SingleBytes inside := by
    intro hsingle
    have hlast : ('"' :: inside).getLast? = some 'é' := by
      have h := congrArg List.getLast? hbefore
      rwa [List.getLast?_append_of_ne_nil _ (List.cons_ne_nil _ _)] at h
    have hinside : 'é' ∈ inside :=
      (List.mem_cons.mp (List.mem_of_getLast? hlast)).resolve_left (by decide)
    exact absurd (hsingle 'é' hinside) (by decide)
  refine ⟨hfault, ?_, ?_⟩
  · exact fun h => haccent (hstart.mp h)
  · exact fun h => haccent (hstop.mp h).1

end StackScript.Syntax

import StackScript.Proofs.Abreast
import StackScript.Proofs.LineEnds

/-!
# Reading twins in step

From level places of twins (`Level`) an expression of the grammar comes to the same answer in both:
no match, or nodes that are alike (`Alike`) and level places again (`answers_inStep`). Most
expressions look at no line end at all (`lineBlind`). Three places in the grammar do: the gaps, the
line ends between statements, and the contents of strings, which have none as long as every string
is closed on its line.
-/

namespace StackScript.Syntax

open StackScript.Grammar StackScript.Source

/-! ## Expressions that line ends make no difference to -/

/-- The character ends no line, and starts no string and no comment. -/
def isPlain (c : Char) : Bool := !isLineEnd c && c ≠ '"' && c ≠ '#'

/-- The expression reads one line end. -/
def isNewline : Peg Rule → Bool
  | .alt (.text ['\n']) (.alt (.text ['\r', '\n']) (.text ['\r'])) => true
  | _ => false

theorem eq_newline {expr : Peg Rule} (h : isNewline expr = true) : expr = .newline := by
  unfold isNewline at h
  split at h
  · rfl
  · cases h

/-- The expression looks at no line end other than by reading one, and, where gaps are not skipped,
not even that. It calls neither the whole unit nor the contents of a string. -/
def lineBlind (tight : Bool) : Peg Rule → Bool
  | .text cs => cs.all isPlain
  | .one accepts => ['\n', '\r', '"', '#'].all (!accepts ·)
  | .start => false
  | .finish | .gap => true
  | .cat first second => lineBlind tight first && lineBlind tight second
  | .alt first second =>
    (!tight && isNewline (.alt first second)) || (lineBlind tight first && lineBlind tight second)
  | .opt part | .many part | .present part | .absent part => lineBlind tight part
  | .call rule =>
    rule ≠ .program && rule ≠ .stringContent && (!tight || rule.production.kind = .tight)

/-- Apart from the whole unit and strings all rules are blind to line ends. -/
theorem lineBlind_body (rule : Rule) (hprogram : rule ≠ .program) (hstring : rule ≠ .string)
    (hcontent : rule ≠ .stringContent) :
    lineBlind (rule.production.kind = .tight) rule.production.body = true := by
  cases rule <;> first | decide | contradiction

/-! ## Level places -/

/-- The places are in the code of texts that go on as twins, with every string closed on its
line. -/
structure Level (cur cur' : Cursor) : Prop where
  twins : Twins cur.rest cur'.rest
  intact : intact .code cur.rest = true

/-! ## Characters -/

theorem isPlain_iff {c : Char} :
    isPlain c = true ↔ c ≠ '\n' ∧ c ≠ '\r' ∧ c ≠ '"' ∧ c ≠ '#' := by
  simp [isPlain, isLineEnd, and_assoc]

/-- A class that is blind to line ends has plain characters only. -/
theorem isPlain_of_accepts {accepts : Char → Bool} {c : Char}
    (h : ['\n', '\r', '"', '#'].all (!accepts ·) = true) (hc : accepts c = true) :
    isPlain c = true := by
  simp only [List.all_cons, List.all_nil, Bool.and_true, Bool.and_eq_true, Bool.not_eq_true'] at h
  obtain ⟨hfeed, hreturn, hquote, hcomment⟩ := h
  refine isPlain_iff.mpr ⟨?_, ?_, ?_, ?_⟩ <;> rintro rfl
  · exact absurd hc (Bool.eq_false_iff.mp hfeed)
  · exact absurd hc (Bool.eq_false_iff.mp hreturn)
  · exact absurd hc (Bool.eq_false_iff.mp hquote)
  · exact absurd hc (Bool.eq_false_iff.mp hcomment)

/-- At a plain character of the code twins are the same, and go on as level places. -/
theorem Level.next {c : Char} {rest rest' : List Char} {mark mark' : Mark}
    (h : Level ⟨c :: rest, mark⟩ ⟨rest', mark'⟩) (hc : isPlain c = true) :
    ∃ more, rest' = c :: more ∧ Level ⟨rest, mark.next c⟩ ⟨more, mark'.next c⟩ := by
  obtain ⟨hfeed, -, hquote, hcomment⟩ := isPlain_iff.mp hc
  obtain ⟨-, more, hmore, htwins⟩ := h.twins.cons_inv hfeed
  exact ⟨more, hmore, htwins, (intact_code_cons hquote hcomment rest).symm.trans h.intact⟩

/-- A plain text stands at both of two level places, or at neither. -/
theorem Level.pass? {cs : List Char} (hcs : cs.all isPlain = true) {cur cur' : Cursor}
    (h : Level cur cur') :
    (cur.pass? cs = none ∧ cur'.pass? cs = none) ∨ ∃ mid mid', cur.pass? cs = some mid ∧
      cur'.pass? cs = some mid' ∧ Level mid mid' := by
  induction cs generalizing cur cur' with
  | nil => exact .inr ⟨cur, cur', rfl, rfl, h⟩
  | cons c cs ih =>
    rw [List.all_cons, Bool.and_eq_true] at hcs
    obtain ⟨hc, hcs⟩ := hcs
    obtain ⟨rest, mark⟩ := cur
    obtain ⟨rest', mark'⟩ := cur'
    obtain ⟨hfeed, hreturn, -, -⟩ := isPlain_iff.mp hc
    have htwins : Twins rest rest' := h.twins
    cases htwins with
    | nil => exact .inl ⟨rfl, rfl⟩
    | @same d _ _ _ _ =>
      by_cases heq : c = d
      · subst d
        obtain ⟨more, hmore, hnext⟩ := h.next hc
        obtain rfl := (List.cons.inj hmore).2
        simpa only [Cursor.pass?, if_true] using ih hcs hnext
      · simp [Cursor.pass?, heq]
    | feed _ => simp [Cursor.pass?, hfeed, hreturn]

/-- Both of two level places are at the end of their text, or neither is. -/
theorem Level.isEmpty_eq {cur cur' : Cursor} (h : Level cur cur') :
    cur'.rest.isEmpty = cur.rest.isEmpty := by
  obtain ⟨rest, mark⟩ := cur
  obtain ⟨rest', mark'⟩ := cur'
  have htwins : Twins rest rest' := h.twins
  cases htwins <;> rfl

/-- Level places stay level through a gap. -/
theorem Level.skip {cur cur' : Cursor} (h : Level cur cur') :
    Level (grammar.skip cur) (grammar.skip cur') where
  twins := twins_skipGap false cur.mark cur'.mark h.twins
  intact := (intact_skipGap false cur.mark cur.rest).trans h.intact

/-! ## Line ends -/

section

variable {ctx : Context} {cur cur' : Cursor} {answer : Answer Rule}

theorem answers_newline_feed (rest : List Char) (mark : Mark) :
    Answers grammar ctx .newline ⟨'\n' :: rest, mark⟩ (some (⟨rest, mark.next '\n'⟩, [])) :=
  .left (.text rfl)

theorem answers_newline_return (rest : List Char) (mark : Mark) :
    Answers grammar ctx .newline ⟨'\r' :: '\n' :: rest, mark⟩
      (some (⟨rest, (mark.next '\r').next '\n'⟩, [])) :=
  .right (.mismatch rfl) (.left (.text rfl))

theorem answers_newline_none (h : ∀ c ∈ cur.rest.head?, isLineEnd c = false) :
    Answers grammar ctx .newline cur none := by
  have hnone : ∀ c more, isLineEnd c = true → cur.pass? (c :: more) = none := by
    intro c more hc
    obtain ⟨_ | ⟨d, rest⟩, mark⟩ := cur
    · rfl
    · have hd := h d rfl
      refine if_neg ?_
      rintro rfl
      rw [hc] at hd
      cases hd
  exact .right (.mismatch (hnone _ _ rfl)) (.right (.mismatch (hnone _ _ rfl))
    (.mismatch (hnone _ _ rfl)))

/-- Where one text has a line end, its twin has one. -/
theorem keepsStep_newline {kind : Kind} (hkind : kind ≠ .tight) :
    KeepsStep Level kind .newline := by
  rintro ctx cur cur' answer rfl h hlevel
  obtain ⟨rest, mark⟩ := cur
  obtain ⟨rest', mark'⟩ := cur'
  have htwins : Twins rest rest' := hlevel.twins
  have htight : ∀ {p : Prop}, ctx.kind = .tight → p := fun htight => absurd htight hkind
  cases htwins with
  | nil =>
    obtain rfl := h.unique (answers_newline_none fun _ hc => nomatch hc)
    exact ⟨none, answers_newline_none (fun _ hc => nomatch hc), .neither⟩
  | @same c rest rest' hreturn htwins =>
    by_cases hfeed : c = '\n'
    · subst c
      obtain rfl := h.unique (answers_newline_feed rest mark)
      exact ⟨_, answers_newline_feed rest' mark', .both ⟨htwins, hlevel.intact⟩ htight .nil⟩
    · have hline : ∀ d ∈ some c, isLineEnd d = false := by
        rintro d ⟨⟩
        simp [isLineEnd, hfeed, hreturn]
      obtain rfl := h.unique (answers_newline_none hline)
      exact ⟨none, answers_newline_none hline, .neither⟩
  | @feed rest rest' htwins =>
    obtain rfl := h.unique (answers_newline_feed rest mark)
    exact ⟨_, answers_newline_return rest' mark', .both ⟨htwins, hlevel.intact⟩ htight .nil⟩

/-! ## Strings -/

/-- One character of a string, or two of them after a backslash. -/
def piece : Peg Rule :=
  .choice [.seq [.absent (.choice [.lit "\"", .lit "\\", .newline]), .any],
    .seq [.lit "\\", .any]]

theorem answers_gap (hkind : ctx.kind ≠ .loose) :
    Answers grammar ctx .gap cur (some (cur, [])) := by
  have hgap : Answers grammar ctx .gap cur _ := .gap
  rwa [if_neg hkind] at hgap

/-- A character of a string that stands for itself. -/
theorem answers_piece_plain (hkind : ctx.kind ≠ .loose) {c : Char} (hquote : c ≠ '"')
    (hbackslash : c ≠ '\\') (hline : isLineEnd c = false) (rest : List Char) (mark : Mark) :
    Answers grammar ctx piece ⟨c :: rest, mark⟩ (some (⟨rest, mark.next c⟩, [])) := by
  have hahead : Answers grammar ctx.lookAbsent (.choice [.lit "\"", .lit "\\", .newline])
      ⟨c :: rest, mark⟩ none := by
    refine .right (.mismatch (if_neg hquote.symm)) (.right (.mismatch (if_neg hbackslash.symm)) ?_)
    refine answers_newline_none ?_
    rintro d ⟨⟩
    exact hline
  exact .left (.cat (.absent hahead) (.cat (answers_gap hkind) (.one rfl)))

/-- A backslash with the character after it. -/
theorem answers_piece_pair (hkind : ctx.kind ≠ .loose) (c : Char) (rest : List Char)
    (mark : Mark) : Answers grammar ctx piece ⟨'\\' :: c :: rest, mark⟩
      (some (⟨rest, (mark.next '\\').next c⟩, [])) := by
  have hahead : Answers grammar ctx.lookAbsent (.choice [.lit "\"", .lit "\\", .newline])
      ⟨'\\' :: c :: rest, mark⟩ (some (⟨c :: rest, mark.next '\\'⟩, [])) :=
    .right (.mismatch rfl) (.left (.text rfl))
  exact .right (.stuck (.absent hahead)) (.cat (.text rfl) (.cat (answers_gap hkind) (.one rfl)))

/-- A string goes on up to the quote. -/
theorem answers_piece_quote (rest : List Char) (mark : Mark) :
    Answers grammar ctx piece ⟨'"' :: rest, mark⟩ none := by
  have hahead : Answers grammar ctx.lookAbsent (.choice [.lit "\"", .lit "\\", .newline])
      ⟨'"' :: rest, mark⟩ (some (⟨rest, mark.next '"'⟩, [])) := .left (.text rfl)
  exact .right (.stuck (.absent hahead)) (.stuck (.mismatch rfl))

/-- The contents of a string are passed over piece by piece. -/
theorem answers_pieces (hkind : ctx.kind ≠ .loose) {body : List Char} (hbody : Quotable body)
    (after : List Char) (mark : Mark) :
    Answers grammar ctx (.many (.cat .gap piece)) ⟨body ++ '"' :: after, mark⟩
      (some (⟨'"' :: after, mark.after body⟩, [])) := by
  induction hbody generalizing mark with
  | nil => exact .done (.cat (answers_gap hkind) (answers_piece_quote after mark))
  | @plain c body hquote hbackslash hline _ ih =>
    have hpiece := answers_piece_plain hkind hquote hbackslash hline (body ++ '"' :: after) mark
    exact .more (.cat (answers_gap hkind) hpiece) (ih (mark.next c))
  | @pair c body _ ih =>
    have hpiece := answers_piece_pair hkind c (body ++ '"' :: after) mark
    exact .more (.cat (answers_gap hkind) hpiece) (ih ((mark.next '\\').next c))

theorem answers_contents (hkind : ctx.kind ≠ .loose) {body : List Char} (hbody : Quotable body)
    (after : List Char) (mark : Mark) :
    Answers grammar ctx (.star piece) ⟨body ++ '"' :: after, mark⟩
      (some (⟨'"' :: after, mark.after body⟩, [])) := by
  cases hbody with
  | nil => exact .opt (.stuck (answers_piece_quote after mark))
  | @plain c body hquote hbackslash hline hbody =>
    have hpiece := answers_piece_plain hkind hquote hbackslash hline (body ++ '"' :: after) mark
    exact .opt (.cat hpiece (answers_pieces hkind hbody after (mark.next c)))
  | @pair c body hbody =>
    have hpiece := answers_piece_pair hkind c (body ++ '"' :: after) mark
    exact .opt (.cat hpiece (answers_pieces hkind hbody after ((mark.next '\\').next c)))

/-- The node of the contents of a string between the two places, where nodes are left. -/
def contentTrees (ctx : Context) (start stop : Cursor) : List Node :=
  if grammar.leavesNode (ctx.enter .joined) .stringContent then
    [.node .stringContent start stop.mark []]
  else []

/-- A string that is closed is read up to its closing quote. -/
theorem answers_string {body : List Char} (hbody : Quotable body) (after : List Char)
    (mark : Mark) : Answers grammar ctx (.call .string) ⟨'"' :: (body ++ '"' :: after), mark⟩
      (Answer.called grammar ctx .string ⟨'"' :: (body ++ '"' :: after), mark⟩
        (some (⟨after, ((mark.next '"').after body).next '"'⟩,
          contentTrees ctx ⟨body ++ '"' :: after, mark.next '"'⟩
            ⟨'"' :: after, (mark.next '"').after body⟩))) := by
  have hkind : (ctx.enter .joined).kind ≠ .loose := by rintro ⟨⟩
  have htight : ((ctx.enter .joined).enter .tight).kind ≠ .loose := by rintro ⟨⟩
  have hcontent : Answers grammar (ctx.enter .joined) (.call .stringContent) _ _ :=
    .call (answers_contents htight hbody after (mark.next '"'))
  have hread : Answers grammar (ctx.enter .joined) Rule.string.production.body
      ⟨'"' :: (body ++ '"' :: after), mark⟩ _ :=
    .cat (.text rfl) (.cat (answers_gap hkind) (.cat hcontent (.cat (answers_gap hkind)
      (.text rfl))))
  have hcall : Answers grammar ctx (.call .string) _ _ := .call hread
  simpa only [Answer.after, Answer.called, Option.map_some, List.nil_append, List.append_nil,
    contentTrees] using hcall

theorem answers_string_none (h : ∀ rest, cur.rest ≠ '"' :: rest) :
    Answers grammar ctx (.call .string) cur none := by
  have hquote : cur.pass? ['"'] = none := by
    obtain ⟨_ | ⟨c, rest⟩, mark⟩ := cur
    · rfl
    · refine if_neg ?_
      rintro rfl
      exact h rest rfl
  have hread : Answers grammar (ctx.enter .joined) Rule.string.production.body cur none :=
    .stuck (.mismatch hquote)
  have hcall : Answers grammar ctx (.call .string) cur _ := .call hread
  exact hcall

/-- The same string is read from both of two texts, if they go on after it at places in the
relation. -/
theorem abreast_string {rel : Cursor → Cursor → Prop} {body after after' : List Char}
    {mark mark' : Mark} (hbody : Quotable body) (hkind : ctx.kind ≠ .tight)
    (h : Answers grammar ctx (.call .string) ⟨'"' :: (body ++ '"' :: after), mark⟩ answer)
    (hafter : ∀ mark mark', rel ⟨after, mark⟩ ⟨after', mark'⟩) :
    ∃ answer', Answers grammar ctx (.call .string) ⟨'"' :: (body ++ '"' :: after'), mark'⟩ answer' ∧
      Abreast rel ctx.kind ⟨'"' :: (body ++ '"' :: after), mark⟩
        ⟨'"' :: (body ++ '"' :: after'), mark'⟩ answer answer' := by
  obtain rfl := h.unique (answers_string hbody after mark)
  have hcontent : List.Forall₂ Alike
      (contentTrees ctx ⟨body ++ '"' :: after, mark.next '"'⟩
        ⟨'"' :: after, (mark.next '"').after body⟩)
      (contentTrees ctx ⟨body ++ '"' :: after', mark'.next '"'⟩
        ⟨'"' :: after', (mark'.next '"').after body⟩) :=
    alike_called (fun _ => ⟨body, ⟨body, rfl, rfl, rfl⟩, ⟨body, rfl, rfl, rfl⟩⟩) .nil
  exact ⟨_, answers_string hbody after' mark', .both (hafter _ _)
    (fun htight => absurd htight hkind) (alike_called (fun htight => nomatch htight) hcontent)⟩

/-- Where every string is closed on its line, twins have the same strings. -/
theorem keepsStep_string {kind : Kind} (hkind : kind ≠ .tight) :
    KeepsStep Level kind (.call .string) := by
  rintro ctx ⟨rest, mark⟩ ⟨rest', mark'⟩ answer rfl h hlevel
  have htwins : Twins rest rest' := hlevel.twins
  by_cases hquote : ∃ inside, rest = '"' :: inside
  · -- the string is closed before the line ends, so the twin has the same one
    obtain ⟨inside, rfl⟩ := hquote
    obtain ⟨body, after, hbody, rfl, hafter⟩ := OnLine.of_intact hlevel.intact
    obtain ⟨-, inside', rfl, hinside⟩ := htwins.cons_inv (by decide)
    obtain ⟨more, rfl, hmore⟩ := hinside.append_inv hbody.isLineEnd_of_mem
    obtain ⟨-, after', rfl, hafter'⟩ := hmore.cons_inv (by decide)
    exact abreast_string hbody.quotable hkind h fun _ _ => ⟨hafter', hafter⟩
  · have hrest : ∀ inside, rest ≠ '"' :: inside := fun inside heq => hquote ⟨inside, heq⟩
    have hrest' : ∀ inside, rest' ≠ '"' :: inside := by
      rintro inside rfl
      cases htwins with
      | same _ _ => exact hrest _ rfl
    obtain rfl := h.unique (answers_string_none hrest)
    exact ⟨none, answers_string_none hrest', .neither⟩

end

/-! ## Expressions -/

theorem lineBlind_alt {tight : Bool} {first second : Peg Rule}
    (h : lineBlind tight (.alt first second) = true) :
    (tight = false ∧ Peg.alt first second = .newline) ∨
      (lineBlind tight first = true ∧ lineBlind tight second = true) := by
  simp only [lineBlind, Bool.or_eq_true, Bool.and_eq_true, Bool.not_eq_true'] at h
  exact h.imp_left fun h => ⟨h.1, eq_newline h.2⟩

theorem eq_string_of_joined {rule : Rule} (h : rule.production.kind = .joined) :
    rule = .string := by
  cases rule <;> first | rfl | cases h

/-- A given text of plain characters stands at both of two level places, or at neither. -/
theorem keepsStep_text {kind : Kind} {cs : List Char} (hcs : cs.all isPlain = true) :
    KeepsStep Level kind (.text cs) := by
  rintro ctx cur cur' answer rfl h hlevel
  rcases hlevel.pass? hcs with ⟨hnone, hnone'⟩ | ⟨mid, mid', hsome, hsome', hmid⟩
  · obtain rfl := h.unique (.mismatch hnone)
    exact ⟨_, .mismatch hnone', .neither⟩
  · obtain rfl := h.unique (.text hsome)
    exact ⟨_, .text hsome', .both hmid (fun _ => ⟨cs, .of_pass? hsome, .of_pass? hsome'⟩) .nil⟩

/-- A class of plain characters takes the same character at both of two level places. -/
theorem keepsStep_one {kind : Kind} {accepts : Char → Bool}
    (haccepts : ['\n', '\r', '"', '#'].all (!accepts ·) = true) :
    KeepsStep Level kind (.one accepts) := by
  rintro ctx cur ⟨rest', mark'⟩ answer rfl h hlevel
  cases h with
  | one hc =>
    obtain ⟨more, rfl, hnext⟩ := hlevel.next (isPlain_of_accepts haccepts hc)
    exact ⟨_, .one hc, .both hnext (fun _ => .one) .nil⟩
  | @other _ _ c rest mark hc =>
    have htwins : Twins (c :: rest) rest' := hlevel.twins
    cases htwins with
    | same _ _ => exact ⟨_, .other hc, .neither⟩
    | feed _ =>
      -- a class that does not take the line feed does not take the carriage return either
      have hreturn : accepts '\r' = false := by
        simp only [List.all_cons, Bool.and_eq_true, Bool.not_eq_true'] at haccepts
        exact haccepts.2.1
      exact ⟨_, .other hreturn, .neither⟩
  | ended =>
    have htwins : Twins [] rest' := hlevel.twins
    cases htwins
    exact ⟨_, .ended, .neither⟩

theorem keepsStep_finish {kind : Kind} : KeepsStep Level kind .finish := by
  rintro ctx cur cur' answer rfl h hlevel
  obtain rfl := h.unique .finish
  refine ⟨_, .finish, ?_⟩
  rw [hlevel.isEmpty_eq]
  split
  · exact .stays hlevel
  · exact .neither

theorem keepsStep_gap {kind : Kind} : KeepsStep Level kind .gap := by
  rintro ctx cur cur' answer rfl h hlevel
  obtain rfl := h.unique .gap
  refine ⟨_, .gap, ?_⟩
  split
  · exact .both hlevel.skip (fun htight => by simp_all) .nil
  · exact .stays hlevel

/-- A rule that a blind expression calls reads its own expression blindly, and where gaps are not
skipped around it or in it, they are not. -/
theorem lineBlind_call {kind : Kind} {rule : Rule} (hkind : kind ≠ .joined)
    (hrule : rule ≠ .string) (h : lineBlind (kind = .tight) (.call rule) = true) :
    insideKind kind rule.production.kind ≠ .joined ∧
      lineBlind (insideKind kind rule.production.kind = .tight) rule.production.body = true ∧
      (kind = .tight ∨ rule.production.kind = .tight →
        insideKind kind rule.production.kind = .tight) := by
  simp only [lineBlind, Bool.and_eq_true, decide_eq_true_eq, Bool.or_eq_true, Bool.not_eq_true',
    decide_eq_false_iff_not] at h
  obtain ⟨⟨hprogram, hcontent⟩, htight⟩ := h
  obtain ⟨hjoined, hiff, htight⟩ :=
    insideKind_of_called hkind (mt eq_string_of_joined hrule) htight
  refine ⟨hjoined, ?_, htight⟩
  rw [decide_eq_decide.mpr hiff]
  exact lineBlind_body rule hprogram hrule hcontent

/-- The expression is read where line ends make no difference to it. -/
def ReadsBlind (kind : Kind) (expr : Peg Rule) : Prop :=
  kind ≠ .joined ∧ lineBlind (kind = .tight) expr = true

theorem keepsStep_or_parts {kind : Kind} {expr : Peg Rule} (h : ReadsBlind kind expr) :
    KeepsStep Level kind expr ∨ PartsKnown ReadsBlind kind expr := by
  obtain ⟨hkind, hblind⟩ := h
  cases expr with
  | text cs => exact .inl (keepsStep_text hblind)
  | one accepts => exact .inl (keepsStep_one hblind)
  | start => cases hblind
  | finish => exact .inl keepsStep_finish
  | gap => exact .inl keepsStep_gap
  | cat first second =>
    obtain ⟨hfirst, hsecond⟩ := (Bool.and_eq_true _ _).mp hblind
    exact .inr ⟨⟨hkind, hfirst⟩, ⟨hkind, hsecond⟩⟩
  | alt first second =>
    rcases lineBlind_alt hblind with ⟨htight, heq⟩ | ⟨hfirst, hsecond⟩
    · -- the choice reads a line end, and may come to another part of it in the twin
      rw [heq]
      exact .inl (keepsStep_newline (of_decide_eq_false htight))
    · exact .inr ⟨⟨hkind, hfirst⟩, ⟨hkind, hsecond⟩⟩
  | opt part | many part | present part | absent part => exact .inr ⟨hkind, hblind⟩
  | call rule =>
    by_cases hrule : rule = .string
    · -- inside strings it is no code that is read
      subst rule
      refine .inl (keepsStep_string ?_)
      rintro rfl
      cases hblind
    · obtain ⟨hinside, hbody, htight⟩ := lineBlind_call hkind hrule hblind
      exact .inr ⟨⟨hinside, hbody⟩, htight⟩

/-- **An expression that is blind to line ends comes to the same answer in twins.** -/
theorem answers_inStep {ctx : Context} {expr : Peg Rule} {cur cur' : Cursor}
    {answer : Answer Rule} (h : Answers grammar ctx expr cur answer) (hctx : ctx.kind ≠ .joined)
    (hblind : lineBlind (ctx.kind = .tight) expr = true) (hlevel : Level cur cur') :
    ∃ answer', Answers grammar ctx expr cur' answer' ∧
      Abreast Level ctx.kind cur cur' answer answer' :=
  answers_abreast keepsStep_or_parts h ⟨hctx, hblind⟩ hlevel

/-! ## Units -/

/-- Level starts of two texts come to the same answer as units. -/
theorem program_inStep {cs cs' : List Char} {answer : Answer Rule}
    (hlevel : Level (.ofText cs) (.ofText cs'))
    (h : Answers grammar {} (.call .program) (.ofText cs) answer) :
    ∃ answer', Answers grammar {} (.call .program) (.ofText cs') answer' ∧
      Abreast Level .loose (.ofText cs) (.ofText cs') answer answer' := by
  cases h with
  | @call _ _ _ inner hread =>
    -- after the start of the text everything is blind to line ends
    have hstart : ∀ cs, Answers grammar {} .start (.ofText cs) (some (.ofText cs, [])) :=
      fun _ => .start
    obtain ⟨inner', hread', hinner⟩ : ∃ inner', Answers grammar {} Rule.program.production.body
        (.ofText cs') inner' ∧ Abreast Level .loose (.ofText cs) (.ofText cs') inner inner' := by
      have hread : Answers grammar {} Rule.program.production.body (.ofText cs) inner := hread
      cases hread with
      | cat hfirst hsecond =>
        cases hfirst.unique (hstart cs)
        obtain ⟨_, hsecond', hlast⟩ := answers_inStep hsecond (by decide) (by decide) hlevel
        exact ⟨_, .cat (hstart cs') hsecond',
          hlast.after (fun htight => nomatch htight) .nil⟩
      | stuck hfirst => cases hfirst.unique (hstart cs)
    refine ⟨_, .call hread', ?_⟩
    cases hinner with
    | neither => exact .neither
    | both hmid _ htrees =>
      exact .both hmid (fun htight => nomatch htight)
        (alike_called (fun htight => nomatch htight) htrees)

end StackScript.Syntax

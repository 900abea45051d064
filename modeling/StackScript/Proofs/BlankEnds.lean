import StackScript.Proofs.LineEndings
import StackScript.Proofs.Trimming

/-!
# Texts that differ in the white space at their ends

A text that ends in white space `x`, and the same text with more white space `w` after it. As long
as reading has not come to the white space it is at places that share what is before it
(`Sharing.before`). A gap may lead into the white space, in the second text only or in both; nothing
but gaps can be read there (`Sharing.within`). So expressions come to the same answers in both texts
(`answers_sharing`), and where they stop before the white space in the one, they do so in the other,
unless the first text ends there.
-/

namespace StackScript.Grammar

open StackScript.Source

variable {R : Type} {g : Rules R}

theorem Advances.mem {cur cur' : Cursor} (h : Advances cur cur') {c : Char} (hc : c ∈ cur'.rest) :
    c ∈ cur.rest := by
  obtain ⟨cs, -, hrest, -⟩ := h
  rw [hrest]
  exact List.mem_append_right cs hc

/-- An expression that nests no deeper than known has an answer at every cursor. -/
theorem answers_of_fits {known : R → Bool} {rank : R → Nat} {bound : Nat}
    (hg : g.Measured known rank bound) {expr : Peg R} (hexpr : expr.fits known rank bound = true)
    (ctx : Context) (cur : Cursor) : ∃ answer, Answers g ctx expr cur answer := by
  have hended := @read_ends _ _ _ _ _ hg _ ctx expr cur {} hexpr (Nat.le_refl _)
  rcases ended_cases hended with ⟨_, _, _, hread⟩ | ⟨_, hread⟩
  · exact ⟨_, answers_of_read _ (by rw [hread]; rfl)⟩
  · exact ⟨_, answers_of_read _ (by rw [hread]; rfl)⟩

end StackScript.Grammar

namespace StackScript.Syntax

open StackScript.Grammar StackScript.Source StackScript.Text

/-! ## White space and backslashes -/

/-- The character is white space, or a backslash. Outside strings and gaps no expression takes
one. -/
def isIdle (c : Char) : Bool := isBlank c || c = '\\'

/-- The white space, one character after the other, and the backslash. -/
def idleChars : List Char :=
  '\\' :: blankRanges.flatMap fun range =>
    (List.range' range.1 (range.2 + 1 - range.1)).map Char.ofNat

theorem mem_idleChars {c : Char} (h : isIdle c = true) : c ∈ idleChars := by
  rcases (Bool.or_eq_true _ _).mp h with hblank | hbackslash
  · obtain ⟨range, hrange, hlow, hhigh⟩ := Ranges.contain_iff.mp hblank
    refine List.mem_cons_of_mem _ (List.mem_flatMap.mpr ⟨range, hrange, ?_⟩)
    refine List.mem_map.mpr ⟨c.toNat, List.mem_range'_1.mpr ⟨hlow, by omega⟩, c.ofNat_toNat⟩
  · obtain rfl := of_decide_eq_true hbackslash
    exact List.mem_cons_self

theorem Blank.of_advances {cur cur' : Cursor} (h : Blank cur.rest) (hadv : Advances cur cur') :
    Blank cur'.rest := fun c hc => h c (hadv.mem hc)

/-! ## Places that share what is before the white space -/

/-- What is left of the first text once reading is in the white space: part of it, a backslash
before a line feed that only the second text has, or nothing, where the second text goes on with
what a gap passes over. -/
inductive Spent (x w : List Char) : List Char → Prop where
  | part {rest : List Char} (hrest : Blank rest) (hlength : rest.length < x.length) :
      Spent x w rest
  | backslash : Spent x w ['\\']
  | ended (hx : x = []) (hw : w.head? ≠ some '\n') : Spent x w []

/-- Places of two texts that end in the white space `x` and `x ++ w` and share what is before it. -/
inductive Sharing (x w : List Char) (cur cur' : Cursor) : Prop where
  | before {r : List Char} (hrest : cur.rest = r ++ x) (hrest' : cur'.rest = r ++ (x ++ w))
      (hlast : EndsVisibly r)
  | within (hspent : Spent x w cur.rest) (hblank : Blank cur'.rest)
      (hlength : cur'.rest.length < (x ++ w).length)

section

variable {x w : List Char}

/-- What is left starts with no character that an expression takes. -/
def StartsIdle (rest : List Char) : Prop := ∀ c ∈ rest.head?, isIdle c = true

theorem Blank.startsIdle {rest : List Char} (h : Blank rest) : StartsIdle rest := by
  intro c hc
  have hblank := h c (List.mem_of_mem_head? hc)
  rw [isIdle, hblank]
  rfl

theorem Spent.startsIdle {rest : List Char} (h : Spent x w rest) : StartsIdle rest := by
  cases h with
  | part hrest _ => exact hrest.startsIdle
  | backslash =>
    rintro c ⟨⟩
    rfl
  | ended _ _ => exact fun c hc => nomatch hc

/-- At two sharing places the same character comes next, or none that an expression takes. -/
theorem Sharing.head_cases (hx : Blank x) (hw : Blank w) {cur cur' : Cursor}
    (h : Sharing x w cur cur') :
    (∃ c rest rest', isIdle c = false ∧ cur.rest = c :: rest ∧ cur'.rest = c :: rest' ∧
      ∀ mark mark', Sharing x w ⟨rest, mark⟩ ⟨rest', mark'⟩) ∨
    (StartsIdle cur.rest ∧ StartsIdle cur'.rest) := by
  cases h with
  | @before r hrest hrest' hlast =>
    cases r with
    | nil =>
      have hmore : Blank (x ++ w) := List.forall_mem_append.mpr ⟨hx, hw⟩
      rw [hrest, hrest']
      exact .inr ⟨hx.startsIdle, hmore.startsIdle⟩
    | cons c r =>
      cases hc : isIdle c with
      | false => exact .inl ⟨c, _, _, hc, hrest, hrest', fun _ _ => .before rfl rfl hlast.tail⟩
      | true =>
        rw [hrest, hrest']
        refine .inr ⟨?_, ?_⟩ <;> rintro _ ⟨⟩ <;> exact hc
  | within hspent hblank _ => exact .inr ⟨hspent.startsIdle, hblank.startsIdle⟩

/-! ## Gaps -/

/-- A gap ends at white space, or passes over it, whatever comes after it. -/
theorem skipGap_space (inComment : Bool) {c : Char} (hc : isBlank c = true) :
    (∀ rest mark, skipGap inComment mark (c :: rest) = ⟨c :: rest, mark⟩) ∨
      (c ≠ '\n' ∧ ∀ rest mark, ∃ mark', Advances ⟨rest, mark'⟩
        (skipGap inComment mark (c :: rest))) := by
  by_cases hfeed : c = '\n'
  · subst c
    exact .inl fun rest mark => skipGap_feed
  · by_cases hreturn : c = '\r'
    · subst c
      refine .inr ⟨hfeed, fun rest mark => ⟨mark.next '\r', ?_⟩⟩
      rw [skipGap_return]
      exact advances_skipGap _ _ _
    · by_cases hcomment : (inComment || decide (c = '#')) = true
      · refine .inr ⟨hfeed, fun rest mark => ⟨mark.next c, ?_⟩⟩
        rw [skipGap_comment hfeed hreturn hcomment]
        exact advances_skipGap _ _ _
      · by_cases hspace : (decide (c = ' ') || decide (c = '\t')) = true
        · refine .inr ⟨hfeed, fun rest mark => ⟨mark.next c, ?_⟩⟩
          rw [skipGap_blank hfeed hreturn hcomment hspace]
          exact advances_skipGap _ _ _
        · refine .inl fun rest mark => skipGap_other hfeed hreturn hcomment hspace ?_
          rintro rfl
          cases hc

/-- Outside comments a gap passes over a backslash and the line end after it. -/
theorem skipGap_escaped {c : Char} (hc : isLineEnd c = true) (rest : List Char) (mark : Mark) :
    ∃ mark', Advances ⟨rest, mark'⟩ (skipGap false mark ('\\' :: c :: rest)) := by
  rcases (Bool.or_eq_true _ _).mp hc with hfeed | hreturn
  · obtain rfl := of_decide_eq_true hfeed
    refine ⟨(mark.next '\\').next '\n', ?_⟩
    rw [skipGap_escape]
    exact advances_skipGap _ _ _
  · obtain rfl := of_decide_eq_true hreturn
    by_cases hpair : ∃ more, rest = '\n' :: more
    · obtain ⟨more, rfl⟩ := hpair
      refine ⟨(mark.next '\\').next '\r', ?_⟩
      rw [skipGap_escape_return]
      exact .next (advances_skipGap _ _ _)
    · refine ⟨(mark.next '\\').next '\r', ?_⟩
      rw [skipGap_escape_lone fun more heq => hpair ⟨more, heq⟩]
      exact advances_skipGap _ _ _

section

variable (hx : Blank x) (hw : Blank w)

include hx hw

/-- Once the first text is in its own white space, the second one is in the white space too. -/
theorem Sharing.of_advances {rest : List Char} {mark mark' : Mark} {cur cur' : Cursor} {c : Char}
    (h : Advances ⟨rest, mark⟩ cur) (h' : Advances ⟨rest ++ w, mark'⟩ cur')
    (heq : x = c :: rest) : Sharing x w cur cur' := by
  subst heq
  have hrest : Blank rest := fun d hd => hx d (List.mem_cons_of_mem c hd)
  have hmore : Blank (rest ++ w) := List.forall_mem_append.mpr ⟨hrest, hw⟩
  refine .within (.part (hrest.of_advances h) ?_) (hmore.of_advances h') ?_
  · exact Nat.lt_succ_of_le h.rest_le
  · exact Nat.lt_succ_of_le h'.rest_le

/-- A gap at the start of the white space stays there, or leads into it. -/
theorem sharing_skipGap_nil (inComment : Bool) (mark mark' : Mark) :
    Sharing x w (skipGap inComment mark x) (skipGap inComment mark' (x ++ w)) := by
  have hnil : EndsVisibly [] := fun _ hc => nomatch hc
  cases x with
  | nil =>
    cases w with
    | nil => exact .before (r := []) rfl rfl hnil
    | cons c w =>
      have hc : isBlank c = true := hw c List.mem_cons_self
      rcases skipGap_space inComment hc with hstays | ⟨hfeed, hmoves⟩
      · have hstay : skipGap inComment mark' ([] ++ c :: w) = ⟨c :: w, mark'⟩ := hstays w mark'
        rw [hstay]
        exact .before (r := []) rfl rfl hnil
      · -- the first text is at its end, and the second one goes on
        obtain ⟨_, hadv⟩ := hmoves w mark'
        have hrest : Blank w := fun d hd => hw d (List.mem_cons_of_mem c hd)
        refine .within (.ended rfl ?_) (hrest.of_advances hadv) (Nat.lt_succ_of_le hadv.rest_le)
        rintro ⟨⟩
        exact hfeed rfl
  | cons c x =>
    have hc : isBlank c = true := hx c List.mem_cons_self
    rcases skipGap_space inComment hc with hstays | ⟨-, hmoves⟩
    · have hstay : skipGap inComment mark' (c :: x ++ w) = ⟨c :: (x ++ w), mark'⟩ := hstays _ _
      rw [hstays, hstay]
      exact .before (r := []) rfl rfl hnil
    · obtain ⟨_, hadv⟩ := hmoves x mark
      obtain ⟨_, hadv'⟩ := hmoves (x ++ w) mark'
      exact .of_advances hx hw hadv hadv' rfl

/-- A backslash just before the white space may take the start of it along. -/
theorem sharing_skipGap_backslash (mark mark' : Mark) :
    Sharing x w (skipGap false mark ('\\' :: x)) (skipGap false mark' ('\\' :: (x ++ w))) := by
  have hvisible : EndsVisibly ['\\'] := by
    rintro _ ⟨⟩
    decide
  have hstays : ∀ {rest : List Char} {mark}, (∀ c ∈ rest.head?, isLineEnd c = false) →
      skipGap false mark ('\\' :: rest) = ⟨'\\' :: rest, mark⟩ := by
    intro rest mark hline
    refine skipGap_backslash rfl ?_
    rintro c more rfl
    have hc := hline c rfl
    constructor <;> rintro rfl <;> cases hc
  cases x with
  | nil =>
    have hstay : skipGap false mark ['\\'] = ⟨['\\'], mark⟩ := hstays fun _ hc => nomatch hc
    rw [hstay]
    cases w with
    | nil =>
      have hstay' : skipGap false mark' ('\\' :: ([] ++ [])) = ⟨['\\'], mark'⟩ :=
        hstays fun _ hc => nomatch hc
      rw [hstay']
      exact .before (r := ['\\']) rfl rfl hvisible
    | cons c w =>
      cases hc : isLineEnd c with
      | false =>
        have hstay' : skipGap false mark' ('\\' :: ([] ++ c :: w)) = ⟨'\\' :: c :: w, mark'⟩ := by
          refine hstays ?_
          rintro _ ⟨⟩
          exact hc
        rw [hstay']
        exact .before (r := ['\\']) rfl rfl hvisible
      | true =>
        -- only in the second text is there a line end for the backslash to take
        obtain ⟨_, hadv⟩ := skipGap_escaped hc w mark'
        have hrest : Blank w := fun d hd => hw d (List.mem_cons_of_mem c hd)
        exact .within .backslash (hrest.of_advances hadv) (Nat.lt_succ_of_le hadv.rest_le)
  | cons c x =>
    cases hc : isLineEnd c with
    | false =>
      have hstay : ∀ {rest : List Char} {mark},
          skipGap false mark ('\\' :: c :: rest) = ⟨'\\' :: c :: rest, mark⟩ := by
        intro rest mark
        refine hstays ?_
        rintro _ ⟨⟩
        exact hc
      rw [List.cons_append, hstay, hstay]
      exact .before (r := ['\\']) rfl rfl hvisible
    | true =>
      obtain ⟨_, hadv⟩ := skipGap_escaped hc x mark
      obtain ⟨_, hadv'⟩ := skipGap_escaped hc (x ++ w) mark'
      exact .of_advances hx hw hadv hadv' rfl

/-- A gap leads from sharing places to sharing places. -/
theorem sharing_skipGap {r : List Char} (hlast : EndsVisibly r) (inComment : Bool)
    (mark mark' : Mark) :
    Sharing x w (skipGap inComment mark (r ++ x)) (skipGap inComment mark' (r ++ (x ++ w))) := by
  -- a backslash takes up to two characters along, so the induction is on the length
  induction hlength : r.length using Nat.strongRecOn
    generalizing r inComment mark mark' with
  | ind n ih =>
    subst hlength
    rcases r with _ | ⟨c, r⟩
    · exact sharing_skipGap_nil hx hw inComment mark mark'
    rw [List.cons_append, List.cons_append]
    by_cases hfeed : c = '\n'
    · subst c
      rw [skipGap_feed, skipGap_feed]
      exact .before (r := '\n' :: r) rfl rfl hlast
    by_cases hreturn : c = '\r'
    · subst c
      rw [skipGap_return, skipGap_return]
      exact ih _ (Nat.lt_succ_self _) hlast.tail _ _ _ rfl
    by_cases hcomment : (inComment || decide (c = '#')) = true
    · rw [skipGap_comment hfeed hreturn hcomment, skipGap_comment hfeed hreturn hcomment]
      exact ih _ (Nat.lt_succ_self _) hlast.tail _ _ _ rfl
    by_cases hspace : (decide (c = ' ') || decide (c = '\t')) = true
    · rw [skipGap_blank hfeed hreturn hcomment hspace, skipGap_blank hfeed hreturn hcomment hspace]
      exact ih _ (Nat.lt_succ_self _) hlast.tail _ _ _ rfl
    by_cases hbackslash : c = '\\'
    · subst c
      obtain rfl : inComment = false := by simpa using hcomment
      rcases r with _ | ⟨d, r⟩
      · exact sharing_skipGap_backslash hx hw mark mark'
      rw [List.cons_append, List.cons_append]
      by_cases hline : d = '\n'
      · subst d
        rw [skipGap_escape, skipGap_escape]
        exact ih _ (by simp only [List.length_cons]; omega) hlast.tail.tail _ _ _ rfl
      by_cases hpair : d = '\r'
      · subst d
        rcases r with _ | ⟨e, r⟩
        · -- the last character before the white space is none itself
          have hvisible := hlast '\r' rfl
          cases hvisible
        rw [List.cons_append, List.cons_append]
        by_cases hfeed' : e = '\n'
        · subst e
          rw [skipGap_escape_return, skipGap_escape_return]
          exact ih _ (by simp only [List.length_cons]; omega) hlast.tail.tail.tail _ _ _ rfl
        · have hlone : ∀ rest more, e :: rest ≠ '\n' :: more := fun _ _ heq =>
            hfeed' (List.cons.inj heq).1
          rw [skipGap_escape_lone (hlone _), skipGap_escape_lone (hlone _)]
          exact ih _ (by simp only [List.length_cons]; omega) hlast.tail.tail _ _ _ rfl
      · have hstays : ∀ rest mark, skipGap false mark ('\\' :: d :: rest) =
            ⟨'\\' :: d :: rest, mark⟩ := by
          intro rest mark
          refine skipGap_backslash rfl ?_
          rintro _ _ ⟨⟩
          exact ⟨hline, hpair⟩
        rw [hstays, hstays]
        exact .before (r := '\\' :: d :: r) rfl rfl hlast
    · rw [skipGap_other hfeed hreturn hcomment hspace hbackslash,
        skipGap_other hfeed hreturn hcomment hspace hbackslash]
      exact .before (r := c :: r) rfl rfl hlast

/-- Sharing places go on as such through a gap. -/
theorem Sharing.skip {cur cur' : Cursor} (h : Sharing x w cur cur') :
    Sharing x w (grammar.skip cur) (grammar.skip cur') := by
  obtain ⟨rest, mark⟩ := cur
  obtain ⟨rest', mark'⟩ := cur'
  have hadv : Advances ⟨rest, mark⟩ (skipGap false mark rest) := advances_skipGap _ _ _
  have hadv' : Advances ⟨rest', mark'⟩ (skipGap false mark' rest') := advances_skipGap _ _ _
  cases h with
  | before hrest hrest' hlast =>
    obtain rfl := hrest
    obtain rfl := hrest'
    exact sharing_skipGap hx hw hlast _ _ _
  | within hspent hblank hlength =>
    refine .within ?_ (hblank.of_advances hadv') (Nat.lt_of_le_of_lt hadv'.rest_le hlength)
    cases hspent with
    | part hrest hshort =>
      exact .part (hrest.of_advances hadv) (Nat.lt_of_le_of_lt hadv.rest_le hshort)
    | backslash => exact .backslash
    | ended hnil hhead => exact .ended hnil hhead

/-! ## Texts and classes of characters -/

/-- A text without idle characters stands at both of two sharing places, or at neither. -/
theorem Sharing.pass? {cs : List Char} (hcs : cs.all (!isIdle ·) = true) {cur cur' : Cursor}
    (h : Sharing x w cur cur') :
    (cur.pass? cs = none ∧ cur'.pass? cs = none) ∨ ∃ mid mid', cur.pass? cs = some mid ∧
      cur'.pass? cs = some mid' ∧ Sharing x w mid mid' := by
  induction cs generalizing cur cur' with
  | nil => exact .inr ⟨cur, cur', rfl, rfl, h⟩
  | cons c cs ih =>
    rw [List.all_cons, Bool.and_eq_true, Bool.not_eq_true'] at hcs
    obtain ⟨hc, hcs⟩ := hcs
    obtain ⟨rest, mark⟩ := cur
    obtain ⟨rest', mark'⟩ := cur'
    rcases h.head_cases hx hw with ⟨d, rest, rest', -, rfl, rfl, hnext⟩ | ⟨hidle, hidle'⟩
    · by_cases heq : c = d
      · subst d
        simpa only [Cursor.pass?, if_true] using ih hcs (hnext _ _)
      · simp [Cursor.pass?, heq]
    · have hnone : ∀ {rest : List Char} {mark}, StartsIdle rest →
          Cursor.pass? (c :: cs) ⟨rest, mark⟩ = none := by
        intro rest mark hidle
        rcases rest with _ | ⟨d, rest⟩
        · rfl
        · refine if_neg ?_
          rintro rfl
          rw [hidle c rfl] at hc
          cases hc
      exact .inl ⟨hnone hidle, hnone hidle'⟩

variable {kind : Kind}

theorem sharing_text {cs : List Char} (hcs : cs.all (!isIdle ·) = true) :
    KeepsStep (Sharing x w) kind (.text cs) := by
  rintro ctx cur cur' answer rfl h hcur
  rcases hcur.pass? hx hw hcs with ⟨hnone, hnone'⟩ | ⟨mid, mid', hsome, hsome', hmid⟩
  · obtain rfl := h.unique (.mismatch hnone)
    exact ⟨_, .mismatch hnone', .neither⟩
  · obtain rfl := h.unique (.text hsome)
    exact ⟨_, .text hsome', .both hmid (fun _ => ⟨cs, .of_pass? hsome, .of_pass? hsome'⟩) .nil⟩

theorem sharing_one {accepts : Char → Bool} (haccepts : idleChars.all (!accepts ·) = true) :
    KeepsStep (Sharing x w) kind (.one accepts) := by
  rintro ctx ⟨rest, mark⟩ ⟨rest', mark'⟩ answer rfl h hcur
  rcases hcur.head_cases hx hw with ⟨c, rest, rest', -, rfl, rfl, hnext⟩ | ⟨hidle, hidle'⟩
  · cases hc : accepts c with
    | true =>
      obtain rfl := h.unique (.one hc)
      exact ⟨_, .one hc, .both (hnext _ _) (fun _ => .one) .nil⟩
    | false =>
      obtain rfl := h.unique (.other hc)
      exact ⟨_, .other hc, .neither⟩
  · have hnone : ∀ {rest : List Char} {mark}, StartsIdle rest →
        Answers grammar ctx (.one accepts) ⟨rest, mark⟩ none := by
      intro rest mark hidle
      rcases rest with _ | ⟨c, rest⟩
      · exact .ended
      · have hc := List.all_eq_true.mp haccepts c (mem_idleChars (hidle c rfl))
        exact .other ((Bool.not_eq_true' _).mp hc)
    obtain rfl := h.unique (hnone hidle)
    exact ⟨_, hnone hidle', .neither⟩

theorem sharing_gap : KeepsStep (Sharing x w) kind .gap := by
  rintro ctx cur cur' answer rfl h hcur
  obtain rfl := h.unique .gap
  refine ⟨_, .gap, ?_⟩
  split
  · exact .both (hcur.skip hx hw) (fun htight => by simp_all) .nil
  · exact .stays hcur

end

/-! ## Strings -/

/-- Whatever is read as a string is closed. -/
theorem Reads.string_closed {ctx : Context} {cur cur' : Cursor} {trees : List Node}
    (h : Reads grammar ctx (.call .string) cur cur' trees) :
    ∃ body after, Quotable body ∧ cur.rest = '"' :: (body ++ '"' :: after) := by
  generalize hexpr : Peg.call Rule.string = expr at h
  cases h with
  | call hread =>
    cases hexpr
    obtain ⟨start, mid, inner, hquote, hcontent, hclose, -⟩ :=
      string_body_inv (by rintro ⟨⟩) hread
    obtain ⟨_, rfl, hstart, -⟩ := Covers.of_pass? hquote
    obtain ⟨_, rfl, hmid, -⟩ := Covers.of_pass? hclose
    obtain ⟨body, hbody, hrest, -⟩ := covers_quotable (by rintro ⟨⟩) hcontent
    refine ⟨body, cur'.rest, hbody, ?_⟩
    rw [hstart, hrest, hmid]
    rfl
  | _ => cases hexpr

/-- White space closes no string. -/
theorem answers_string_open {ctx : Context} {inside blanks : List Char} {mark : Mark}
    (hopen : ¬∃ body after, Quotable body ∧ inside = body ++ '"' :: after)
    (hblanks : Blank blanks) :
    Answers grammar ctx (.call .string) ⟨'"' :: (inside ++ blanks), mark⟩ none := by
  have hfits : Peg.fits Rule.eats Rule.rank fuelPerChar (.call .string) = true := by decide
  obtain ⟨answer, hanswer⟩ :=
    answers_of_fits measured_grammar hfits ctx ⟨'"' :: (inside ++ blanks), mark⟩
  cases answer with
  | none => exact hanswer
  | some found =>
    refine absurd ?_ hopen
    obtain ⟨body, after, hbody, heq⟩ := Reads.string_closed hanswer.reads
    have heq : inside ++ blanks = body ++ '"' :: after := (List.cons.inj heq).2
    -- the closing quote is not in the white space, so it is before it
    rcases List.append_eq_append_iff.mp heq with ⟨more, rfl, hmore⟩ | ⟨more, rfl, hmore⟩
    · have hquote : '"' ∈ blanks := by
        rw [hmore]
        exact List.mem_append_right _ List.mem_cons_self
      have hblank := hblanks _ hquote
      cases hblank
    · cases more with
      | nil =>
        have hquote : '"' ∈ blanks := by
          rw [← List.nil_append blanks, ← hmore]
          exact List.mem_cons_self
        have hblank := hblanks _ hquote
        cases hblank
      | cons c more =>
        obtain ⟨rfl, -⟩ := List.cons.inj hmore
        exact ⟨body, more, hbody, rfl⟩

section

variable (hx : Blank x) (hw : Blank w) {kind : Kind}

include hx hw

/-- A string is read from both of two sharing places, or from neither. -/
theorem sharing_string (hkind : kind ≠ .tight) : KeepsStep (Sharing x w) kind (.call .string) := by
  rintro ctx ⟨rest, mark⟩ ⟨rest', mark'⟩ answer rfl h hcur
  have hmore : Blank (x ++ w) := List.forall_mem_append.mpr ⟨hx, hw⟩
  have hother : (∀ inside, rest ≠ '"' :: inside) → (∀ inside, rest' ≠ '"' :: inside) →
      ∃ answer', Answers grammar ctx (.call .string) ⟨rest', mark'⟩ answer' ∧
        Abreast (Sharing x w) ctx.kind ⟨rest, mark⟩ ⟨rest', mark'⟩ answer answer' := by
    intro hrest hrest'
    obtain rfl := h.unique (answers_string_none hrest)
    exact ⟨none, answers_string_none hrest', .neither⟩
  have hidle : ∀ {rest : List Char}, StartsIdle rest → ∀ inside, rest ≠ '"' :: inside := by
    rintro _ hidle inside rfl
    have hquote := hidle '"' rfl
    cases hquote
  cases hcur with
  | within hspent hblank _ => exact hother (hidle hspent.startsIdle) (hidle hblank.startsIdle)
  | @before r hrest hrest' hlast =>
    obtain rfl := hrest
    obtain rfl := hrest'
    rcases r with _ | ⟨c, inside⟩
    · exact hother (hidle hx.startsIdle) (hidle hmore.startsIdle)
    by_cases hc : c = '"'
    · subst c
      by_cases hclosed : ∃ body after, Quotable body ∧ inside = body ++ '"' :: after
      · obtain ⟨body, after, hbody, rfl⟩ := hclosed
        have hafter : EndsVisibly after := hlast.tail.right.tail
        rw [List.cons_append, List.append_assoc, List.cons_append] at h ⊢
        rw [List.cons_append, List.append_assoc, List.cons_append]
        exact abreast_string hbody hkind h fun _ _ => .before rfl rfl hafter
      · obtain rfl := h.unique (answers_string_open hclosed hx)
        exact ⟨none, answers_string_open hclosed hmore, .neither⟩
    · have hne : ∀ more inside', c :: inside ++ more ≠ '"' :: inside' := by
        intro more inside' heq
        exact hc (List.cons.inj heq).1
      exact hother (hne x) (hne (x ++ w))

end

end

/-! ## Expressions -/

/-- The rules that expressions are read by. -/
def Rule.isOfExpr : Rule → Bool
  | .keyword | .identifier | .constant | .expression | .opNegate | .opNot | .opOr | .opAnd | .opEq
  | .opNe | .opLe | .opGe | .opLt | .opGt | .opAdd | .opSub | .opMul | .opDiv | .opMod | .term
  | .indexOp | .lengthOp | .boolean | .integer | .string | .staticCall | .localCall | .localName
  | .argList => true
  | _ => false

/-- The expression takes no white space and no backslash other than in gaps and strings, and calls
rules of expressions only. -/
def idleBlind (tight : Bool) : Peg Rule → Bool
  | .text cs => cs.all (!isIdle ·)
  | .one accepts => idleChars.all (!accepts ·)
  | .start | .finish => false
  | .gap => true
  | .cat first second | .alt first second => idleBlind tight first && idleBlind tight second
  | .opt part | .many part | .present part | .absent part => idleBlind tight part
  | .call rule => rule.isOfExpr && (!tight || rule.production.kind = .tight)

theorem idleBlind_body (rule : Rule) (hrule : rule.isOfExpr = true) (hstring : rule ≠ .string) :
    idleBlind (rule.production.kind = .tight) rule.production.body = true := by
  cases rule <;> first | decide | contradiction

/-- The expression is read where the white space makes no difference to it. -/
def ReadsIdle (kind : Kind) (expr : Peg Rule) : Prop :=
  kind ≠ .joined ∧ idleBlind (kind = .tight) expr = true

section

variable {x w : List Char} (hx : Blank x) (hw : Blank w)

include hx hw

theorem sharing_or_parts {kind : Kind} {expr : Peg Rule} (h : ReadsIdle kind expr) :
    KeepsStep (Sharing x w) kind expr ∨ PartsKnown ReadsIdle kind expr := by
  obtain ⟨hkind, hblind⟩ := h
  cases expr with
  | text cs => exact .inl (sharing_text hx hw hblind)
  | one accepts => exact .inl (sharing_one hx hw hblind)
  | start | finish => cases hblind
  | gap => exact .inl (sharing_gap hx hw)
  | cat first second | alt first second =>
    obtain ⟨hfirst, hsecond⟩ := (Bool.and_eq_true _ _).mp hblind
    exact .inr ⟨⟨hkind, hfirst⟩, ⟨hkind, hsecond⟩⟩
  | opt part | many part | present part | absent part => exact .inr ⟨hkind, hblind⟩
  | call rule =>
    by_cases hstring : rule = .string
    · subst rule
      refine .inl (sharing_string hx hw ?_)
      rintro rfl
      cases hblind
    · simp only [idleBlind, Bool.and_eq_true, Bool.or_eq_true, Bool.not_eq_true',
        decide_eq_false_iff_not, decide_eq_true_eq] at hblind
      obtain ⟨hrule, htight⟩ := hblind
      obtain ⟨hjoined, hiff, htight⟩ :=
        insideKind_of_called hkind (mt eq_string_of_joined hstring) htight
      refine .inr ⟨⟨hjoined, ?_⟩, htight⟩
      rw [decide_eq_decide.mpr hiff]
      exact idleBlind_body rule hrule hstring

/-- **Expressions come to the same answers in texts that differ in the white space at their
ends.** -/
theorem answers_sharing {cur cur' : Cursor} {answer : Answer Rule}
    (h : Answers grammar {} (.call .expression) cur answer) (hcur : Sharing x w cur cur') :
    ∃ answer', Answers grammar {} (.call .expression) cur' answer' ∧
      Abreast (Sharing x w) .loose cur cur' answer answer' :=
  answers_abreast (sharing_or_parts hx hw) h ⟨by decide, by decide⟩ hcur

end

end StackScript.Syntax

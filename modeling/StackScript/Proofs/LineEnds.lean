import StackScript.Proofs.Progress

/-!
# Two ways to end a line

The same text with line feeds and with a carriage return before each of them (`Twins`), and what is
skipped in their gaps: from twins on, a gap leads to twins again (`twins_skipGap`), although one of
the two runs passes over carriage returns that the other does not have.

A line end in a string is what tells such texts apart, since a backslash takes only one character
with it. `intact` follows a text from code through comments and strings, and asks that every string
be closed on its line.
-/

namespace StackScript.Syntax

open StackScript.Source

/-! ## Twins -/

/-- The text with a carriage return before every line feed. -/
def crlf (cs : List Char) : List Char := cs.flatMap fun c => if c = '\n' then ['\r', '\n'] else [c]

/-- The texts are the same but for carriage returns, which the first one does not have, and the
second one has only before line feeds. -/
inductive Twins : List Char → List Char → Prop where
  | nil : Twins [] []
  | same {c : Char} {cs cs' : List Char} (hc : c ≠ '\r') (h : Twins cs cs') :
      Twins (c :: cs) (c :: cs')
  | feed {cs cs' : List Char} (h : Twins cs cs') : Twins ('\n' :: cs) ('\r' :: '\n' :: cs')

theorem twins_crlf {cs : List Char} (h : '\r' ∉ cs) : Twins cs (crlf cs) := by
  induction cs with
  | nil => exact .nil
  | cons c cs ih =>
    obtain ⟨hc, hcs⟩ := not_or.mp (mt List.mem_cons.mpr h)
    rw [crlf, List.flatMap_cons]
    split
    · subst c
      exact .feed (ih hcs)
    · exact .same (Ne.symm hc) (ih hcs)

namespace Twins

variable {c : Char} {cs cs' : List Char}

/-- Before anything but a line end twins are the same. -/
theorem cons_inv (h : Twins (c :: cs) cs') (hc : c ≠ '\n') :
    c ≠ '\r' ∧ ∃ rest, cs' = c :: rest ∧ Twins cs rest := by
  cases h with
  | same hreturn h => exact ⟨hreturn, _, rfl, h⟩
  | feed => exact absurd rfl hc

/-- At a line feed the twin has a line feed too, perhaps after a carriage return. -/
theorem feed_inv (h : Twins ('\n' :: cs) cs') :
    ∃ rest, (cs' = '\n' :: rest ∨ cs' = '\r' :: '\n' :: rest) ∧ Twins cs rest := by
  cases h with
  | same _ h => exact ⟨_, .inl rfl, h⟩
  | feed h => exact ⟨_, .inr rfl, h⟩

theorem ne_return (h : Twins (c :: cs) cs') : c ≠ '\r' := by
  cases h with
  | same hc _ => exact hc
  | feed => decide

end Twins

/-! ## Gaps -/

section

variable {inComment : Bool} {mark : Mark} {c : Char} {rest : List Char}

/-- A gap ends at a line feed. -/
theorem skipGap_feed : skipGap inComment mark ('\n' :: rest) = ⟨'\n' :: rest, mark⟩ := by
  unfold skipGap
  exact if_pos rfl

theorem skipGap_return :
    skipGap inComment mark ('\r' :: rest) = skipGap false (mark.next '\r') rest := by
  conv => lhs; unfold skipGap
  rfl

theorem skipGap_comment (hfeed : c ≠ '\n') (hreturn : c ≠ '\r')
    (hcomment : (inComment || decide (c = '#')) = true) :
    skipGap inComment mark (c :: rest) = skipGap true (mark.next c) rest := by
  conv => lhs; unfold skipGap
  rw [if_neg hfeed, if_neg hreturn, if_pos hcomment]

theorem skipGap_blank (hfeed : c ≠ '\n') (hreturn : c ≠ '\r')
    (hcomment : ¬(inComment || decide (c = '#')) = true)
    (hblank : (decide (c = ' ') || decide (c = '\t')) = true) :
    skipGap inComment mark (c :: rest) = skipGap false (mark.next c) rest := by
  conv => lhs; unfold skipGap
  rw [if_neg hfeed, if_neg hreturn, if_neg hcomment, if_pos hblank]

/-- Outside comments a backslash takes a line end with it. -/
theorem skipGap_escape : skipGap false mark ('\\' :: '\n' :: rest) =
    skipGap false ((mark.next '\\').next '\n') rest := by
  conv => lhs; unfold skipGap
  rfl

theorem skipGap_escape_return : skipGap false mark ('\\' :: '\r' :: '\n' :: rest) =
    skipGap false (((mark.next '\\').next '\r').next '\n') rest := by
  conv => lhs; unfold skipGap
  rfl

/-- So it does with a carriage return that no line feed comes after. -/
theorem skipGap_escape_lone (h : ∀ more, rest ≠ '\n' :: more) :
    skipGap false mark ('\\' :: '\r' :: rest) =
      skipGap false ((mark.next '\\').next '\r') rest := by
  rcases rest with _ | ⟨c, rest⟩
  · rfl
  · conv => lhs; unfold skipGap
    simp

/-- A gap ends at a character that is not skipped. -/
theorem skipGap_other (hfeed : c ≠ '\n') (hreturn : c ≠ '\r')
    (hcomment : ¬(inComment || decide (c = '#')) = true)
    (hblank : ¬(decide (c = ' ') || decide (c = '\t')) = true) (hbackslash : c ≠ '\\') :
    skipGap inComment mark (c :: rest) = ⟨c :: rest, mark⟩ := by
  unfold skipGap
  rw [if_neg hfeed, if_neg hreturn, if_neg hcomment, if_neg hblank, if_neg hbackslash]

/-- A gap ends at a backslash that no line end comes after. -/
theorem skipGap_backslash (hcomment : inComment = false) (hline : ∀ c more, rest = c :: more →
    c ≠ '\n' ∧ c ≠ '\r') : skipGap inComment mark ('\\' :: rest) = ⟨'\\' :: rest, mark⟩ := by
  subst hcomment
  rcases rest with _ | ⟨c, more⟩
  · rfl
  · obtain ⟨hfeed, hreturn⟩ := hline c more rfl
    unfold skipGap
    simp [hfeed, hreturn]

end

/-- From twins on, a gap leads to twins. -/
theorem twins_skipGap (inComment : Bool) (mark mark' : Mark) {cs cs' : List Char}
    (h : Twins cs cs') :
    Twins (skipGap inComment mark cs).rest (skipGap inComment mark' cs').rest := by
  fun_induction skipGap inComment mark cs generalizing mark' cs' with
  | case1 =>
    cases h
    exact .nil
  | case2 =>
    -- a carriage return of the twin is passed over
    obtain ⟨rest, rfl | rfl, hrest⟩ := h.feed_inv
    · rw [skipGap_feed]
      exact .same (by decide) hrest
    · rw [skipGap_return, skipGap_feed]
      exact .same (by decide) hrest
  | case3 => exact absurd rfl h.ne_return
  | case4 _ _ _ _ hfeed hreturn hcomment ih =>
    obtain ⟨-, rest, rfl, hrest⟩ := h.cons_inv hfeed
    rw [skipGap_comment hfeed hreturn hcomment]
    exact ih _ hrest
  | case5 _ _ _ _ hfeed hreturn hcomment hblank ih =>
    obtain ⟨-, rest, rfl, hrest⟩ := h.cons_inv hfeed
    rw [skipGap_blank hfeed hreturn hcomment hblank]
    exact ih _ hrest
  | case6 inComment =>
    rename_i hcomment _ ih
    obtain rfl : inComment = false := by simpa using hcomment
    obtain ⟨-, rest, rfl, hline⟩ := h.cons_inv (by decide)
    obtain ⟨rest, rfl | rfl, hrest⟩ := hline.feed_inv
    · rw [skipGap_escape]
      exact ih _ hrest
    · rw [skipGap_escape_return]
      exact ih _ hrest
  | case7 =>
    obtain ⟨-, rest, rfl, hrest⟩ := h.cons_inv (by decide)
    exact absurd rfl hrest.ne_return
  | case8 =>
    obtain ⟨-, rest, rfl, hrest⟩ := h.cons_inv (by decide)
    exact absurd rfl hrest.ne_return
  | case9 inComment _ rest hfeed =>
    rename_i hcomment _
    obtain ⟨-, rest', rfl, hrest⟩ := h.cons_inv (by decide)
    rw [skipGap_backslash (by simpa using hcomment)]
    · exact .same (by decide) hrest
    · -- the next character is the same, and no line end
      rintro c more rfl
      cases hrest with
      | same hreturn _ =>
        refine ⟨?_, hreturn⟩
        rintro rfl
        exact hfeed _ rfl
      | feed _ => exact absurd rfl (hfeed _)
  | case10 _ _ _ _ hfeed hreturn hcomment hblank hbackslash =>
    obtain ⟨-, rest, rfl, hrest⟩ := h.cons_inv hfeed
    rw [skipGap_other hfeed hreturn hcomment hblank hbackslash]
    exact .same hreturn hrest

/-! ## Strings on one line -/

/-- Where in a text a character stands. -/
inductive Stretch where
  | code
  | comment
  | string
  /-- Just after a backslash in a string. -/
  | escape
  deriving DecidableEq

/-- The character ends a line. -/
def isLineEnd (c : Char) : Bool := c = '\n' || c = '\r'

/-- Where the next character stands. A string has no line end in it, not even after a backslash. -/
def Stretch.next : Stretch → Char → Option Stretch
  | .code, c => some (if c = '"' then .string else if c = '#' then .comment else .code)
  | .comment, c => some (if isLineEnd c then .code else .comment)
  | .string, c =>
    if isLineEnd c then none
    else some (if c = '"' then .code else if c = '\\' then .escape else .string)
  | .escape, c => if isLineEnd c then none else some .string

/-- Every string of the text is closed on its line. -/
def intact : Stretch → List Char → Bool
  | stretch, [] => stretch = .code || stretch = .comment
  | stretch, c :: cs =>
    match stretch.next c with
    | some stretch => intact stretch cs
    | none => false

/-- Twins are intact together. -/
theorem Twins.intact_eq {cs cs' : List Char} (h : Twins cs cs') (stretch : Stretch) :
    intact stretch cs' = intact stretch cs := by
  induction h generalizing stretch with
  | nil => rfl
  | @same c _ _ _ _ ih =>
    simp only [intact]
    split
    · exact ih _
    · rfl
  | feed _ ih => cases stretch <;> simp [intact, Stretch.next, isLineEnd, ih]

/-- A character of the code that starts neither a string nor a comment. -/
theorem intact_code_cons {c : Char} (hquote : c ≠ '"') (hcomment : c ≠ '#') (cs : List Char) :
    intact .code (c :: cs) = intact .code cs := by
  simp [intact, Stretch.next, hquote, hcomment]

/-- Nothing that is skipped in a gap opens a string. -/
theorem intact_skipGap (inComment : Bool) (mark : Mark) (cs : List Char) :
    intact .code (skipGap inComment mark cs).rest =
      intact (if inComment then .comment else .code) cs := by
  fun_induction skipGap inComment mark cs with
  | case1 inComment => cases inComment <;> rfl
  | case2 inComment => cases inComment <;> simp [intact, Stretch.next, isLineEnd]
  | case3 inComment =>
    rename_i ih
    cases inComment <;> simp [ih, intact, Stretch.next, isLineEnd]
  -- up to the end of its line a comment is passed over, and a blank outside of one
  | case4 inComment _ c _ hfeed hreturn hcomment ih =>
    cases inComment with
    | true => simp [ih, intact, Stretch.next, isLineEnd, hfeed, hreturn]
    | false =>
      obtain rfl : c = '#' := by simpa using hcomment
      rw [ih]
      rfl
  | case5 inComment _ c rest hfeed hreturn hcomment hblank ih =>
    obtain rfl : inComment = false := by simp_all
    have hquote : c ≠ '"' := by
      rintro rfl
      exact absurd hblank (by decide)
    rw [ih]
    exact (intact_code_cons hquote (by simpa using hcomment) rest).symm
  -- a line end behind a backslash is passed over with it, in each of its forms
  | case6 inComment =>
    rename_i hcomment _ ih
    obtain rfl : inComment = false := by simpa using hcomment
    rw [ih]
    rfl
  | case7 inComment =>
    rename_i hcomment _ ih
    obtain rfl : inComment = false := by simpa using hcomment
    rw [ih]
    rfl
  | case8 inComment =>
    rename_i hcomment _ ih
    obtain rfl : inComment = false := by simpa using hcomment
    rw [ih]
    rfl
  | case9 inComment =>
    rename_i hcomment _
    obtain rfl : inComment = false := by simpa using hcomment
    rfl
  | case10 inComment _ _ _ _ _ hcomment =>
    obtain rfl : inComment = false := by simp_all
    rfl

/-! ## The contents of strings -/

/-- The contents of a string on one line: no quote, and a backslash with the character after it. -/
inductive OnLine : List Char → Prop where
  | nil : OnLine []
  | plain {c : Char} {cs : List Char} (hquote : c ≠ '"') (hbackslash : c ≠ '\\')
      (hline : isLineEnd c = false) (h : OnLine cs) : OnLine (c :: cs)
  | pair {c : Char} {cs : List Char} (hline : isLineEnd c = false) (h : OnLine cs) :
      OnLine ('\\' :: c :: cs)

/-- What may stand between the quotes of a string: characters other than quotes, backslashes and
line ends, and backslashes with any character after them. -/
inductive Quotable : List Char → Prop where
  | nil : Quotable []
  | plain {c : Char} {cs : List Char} (hquote : c ≠ '"') (hbackslash : c ≠ '\\')
      (hline : isLineEnd c = false) (h : Quotable cs) : Quotable (c :: cs)
  | pair {c : Char} {cs : List Char} (h : Quotable cs) : Quotable ('\\' :: c :: cs)

theorem OnLine.quotable {cs : List Char} (h : OnLine cs) : Quotable cs := by
  induction h with
  | nil => exact .nil
  | plain hquote hbackslash hline _ ih => exact .plain hquote hbackslash hline ih
  | pair _ _ ih => exact .pair ih

namespace OnLine

variable {cs cs' body : List Char}

/-- A string that is intact is closed, also from just after a backslash in it. -/
theorem of_intact_from (cs : List Char) :
    (intact .string cs = true → ∃ body after, OnLine body ∧ cs = body ++ '"' :: after ∧
      intact .code after = true) ∧
    (intact .escape cs = true → ∃ c body after, isLineEnd c = false ∧ OnLine body ∧
      cs = c :: (body ++ '"' :: after) ∧ intact .code after = true) := by
  induction cs with
  | nil => exact ⟨(nomatch ·), (nomatch ·)⟩
  | cons c cs ih =>
    obtain ⟨hstring, hescape⟩ := ih
    cases hline : isLineEnd c with
    | true =>
      simp only [intact, Stretch.next, hline, if_true]
      exact ⟨(nomatch ·), (nomatch ·)⟩
    | false =>
      simp only [intact, Stretch.next, hline, Bool.false_eq_true, if_false]
      refine ⟨fun h => ?_, fun h => ?_⟩
      · split at h
        · -- the closing quote
          subst c
          exact ⟨[], cs, .nil, rfl, h⟩
        · split at h
          · subst c
            obtain ⟨d, body, after, hd, hbody, rfl, hafter⟩ := hescape h
            exact ⟨_ :: d :: body, after, .pair hd hbody, rfl, hafter⟩
          · obtain ⟨body, after, hbody, rfl, hafter⟩ := hstring h
            exact ⟨c :: body, after, .plain ‹_› ‹_› hline hbody, rfl, hafter⟩
      · obtain ⟨body, after, hbody, rfl, hafter⟩ := hstring h
        exact ⟨c, body, after, hline, hbody, rfl, hafter⟩

/-- A string that is intact is closed on its line. -/
theorem of_intact (h : intact .string cs = true) :
    ∃ body after, OnLine body ∧ cs = body ++ '"' :: after ∧ intact .code after = true :=
  (of_intact_from cs).1 h

/-- After the contents of a string it goes on as before. -/
theorem intact_append (h : OnLine body) (rest : List Char) :
    intact .string (body ++ rest) = intact .string rest := by
  induction h with
  | nil => rfl
  | plain hquote hbackslash hline _ ih =>
    simp [intact, Stretch.next, hquote, hbackslash, hline, ih]
  | pair hline _ ih =>
    have hbackslash : isLineEnd '\\' = false := rfl
    simp [intact, Stretch.next, hbackslash, hline, ih]

theorem isLineEnd_of_mem (h : OnLine body) : ∀ c ∈ body, isLineEnd c = false := by
  induction h with
  | nil => exact List.forall_mem_nil _
  | plain _ _ hline _ ih => exact List.forall_mem_cons.mpr ⟨hline, ih⟩
  | pair hline _ ih =>
    exact List.forall_mem_cons.mpr ⟨rfl, List.forall_mem_cons.mpr ⟨hline, ih⟩⟩

end OnLine

/-- Twins are the same up to a line end. -/
theorem Twins.append_inv {line cs cs' : List Char} (hline : ∀ c ∈ line, isLineEnd c = false)
    (h : Twins (line ++ cs) cs') : ∃ rest, cs' = line ++ rest ∧ Twins cs rest := by
  induction line generalizing cs' with
  | nil => exact ⟨cs', rfl, h⟩
  | cons c line ih =>
    obtain ⟨hc, hline⟩ := List.forall_mem_cons.mp hline
    have hfeed : c ≠ '\n' := by
      rintro rfl
      cases hc
    obtain ⟨-, rest, rfl, hrest⟩ := Twins.cons_inv h hfeed
    obtain ⟨more, rfl, hmore⟩ := ih hline hrest
    exact ⟨more, rfl, hmore⟩

end StackScript.Syntax

import StackScript.Proofs.QuotedTexts

/-!
# Lists in lists

A form is a word, a quoted text, or a list of forms. A text lays a form out (`Lays`) if it writes
lists between parentheses and gaps of blanks and line feeds between items, however long. A text lays
out no two forms (`Lays.form_unique`), and its parentheses match outside the quoted texts
(`Lays.balanced`).
-/

namespace StackScript.Text

/-! ## Forms and their layouts -/

/-- A word, a quoted text, or a list. -/
inductive Form where
  | word (text : String)
  | quote (text : String)
  | list (items : List Form)

/-- The character stands between items. -/
def isGapChar (c : Char) : Bool := c = ' ' || c = '\n'

/-- The character may stand in a word: it ends no item and begins neither a list nor a quoted
text. -/
def isWordChar (c : Char) : Bool := !isGapChar c && c ≠ '(' && c ≠ ')' && c ≠ '"'

/-- The text is a word. -/
def IsFormWord (text : String) : Prop := text ≠ "" ∧ ∀ c ∈ text.toList, isWordChar c = true

instance (text : String) : Decidable (IsFormWord text) :=
  @instDecidableAnd _ _ inferInstance (List.decidableBAll (isWordChar · = true) text.toList)

/-- Words put together make up a word. -/
theorem IsFormWord.append {text more : String} (h : IsFormWord text) (hmore : IsFormWord more) :
    IsFormWord (text ++ more) := by
  refine ⟨fun hnil => h.1 ?_, fun c hc => ?_⟩
  · have hchars := congrArg String.toList hnil
    rw [String.toList_append] at hchars
    exact String.toList_eq_nil_iff.mp (List.append_eq_nil_iff.mp hchars).1
  · rw [String.toList_append] at hc
    rcases List.mem_append.mp hc with hc | hc
    · exact h.2 c hc
    · exact hmore.2 c hc

/-- The text parts two items. -/
def IsGap (cs : List Char) : Prop := cs ≠ [] ∧ ∀ c ∈ cs, isGapChar c = true

mutual

/-- The text lays the form out. -/
inductive Lays : Form → List Char → Prop where
  | word {text : String} (h : IsFormWord text) : Lays (.word text) text.toList
  | quote (text : String) : Lays (.quote text) (quoted text).toList
  | empty : Lays (.list []) ['(', ')']
  | list {head : Form} {items : List Form} {cs rest : List Char} (hhead : Lays head cs)
    (hrest : LaysRest items rest) : Lays (.list (head :: items)) ('(' :: (cs ++ (rest ++ [')'])))

/-- The text lays the forms out behind another one, each after a gap. -/
inductive LaysRest : List Form → List Char → Prop where
  | nil : LaysRest [] []
  | cons {form : Form} {items : List Form} {gap cs rest : List Char} (hgap : IsGap gap)
    (hform : Lays form cs) (hrest : LaysRest items rest) :
    LaysRest (form :: items) (gap ++ (cs ++ rest))

end

theorem Lays.of_eq {form : Form} {cs cs' : List Char} (h : Lays form cs) (heq : cs = cs') :
    Lays form cs' := heq ▸ h

theorem LaysRest.of_eq {items : List Form} {cs cs' : List Char} (h : LaysRest items cs)
    (heq : cs = cs') : LaysRest items cs' := heq ▸ h

namespace LaysRest

variable {form : Form} {items others : List Form} {cs rest : List Char}

/-- One more form, after a blank. -/
theorem blank (hform : Lays form cs) (hrest : LaysRest items rest) :
    LaysRest (form :: items) (' ' :: (cs ++ rest)) := by
  have hgap : IsGap [' '] := ⟨nofun, List.forall_mem_singleton.mpr rfl⟩
  exact .cons hgap hform hrest

theorem append (h : LaysRest items cs) (hothers : LaysRest others rest) :
    LaysRest (items ++ others) (cs ++ rest) := by
  induction items generalizing cs with
  | nil =>
    cases h
    exact hothers
  | cons form items ih =>
    cases h with
    | cons hgap hform hrest =>
      exact (LaysRest.cons hgap hform (ih hrest)).of_eq (by simp only [List.append_assoc])

end LaysRest

/-- A list that a word is at the head of. -/
theorem Lays.headed {head : String} (hhead : IsFormWord head) {items : List Form} {rest : List Char}
    (hrest : LaysRest items rest) :
    Lays (.list (.word head :: items)) ('(' :: (head.toList ++ (rest ++ [')']))) :=
  .list (.word hhead) hrest

/-! ## A layout is of one form only -/

/-- The text is at its end or goes on with a character that ends words. -/
def Breaks (cs : List Char) : Prop := ∀ c ∈ cs.head?, isWordChar c = false

theorem breaks_close (rest : List Char) : Breaks (')' :: rest) := by
  rintro _ ⟨⟩
  rfl

theorem isWordChar_of_isGapChar {c : Char} (h : isGapChar c = true) : isWordChar c = false := by
  rw [isWordChar, h]
  rfl

/-- No form begins with a gap or with a parenthesis that closes. -/
theorem Lays.exists_first {form : Form} {cs : List Char} (h : Lays form cs) :
    ∃ first rest, cs = first :: rest ∧ isGapChar first = false ∧ first ≠ ')' := by
  cases h with
  | @word text h =>
    obtain ⟨hne, hchars⟩ := h
    obtain ⟨first, rest, hcs⟩ := List.exists_cons_of_ne_nil
      (fun hnil : text.toList = [] => hne (String.toList_eq_nil_iff.mp hnil))
    have hfirst := hchars first (by rw [hcs]; exact List.mem_cons_self)
    refine ⟨first, rest, hcs, ?_, ?_⟩
    · cases hgap : isGapChar first with
      | false => rfl
      | true =>
        rw [isWordChar_of_isGapChar hgap] at hfirst
        cases hfirst
    · rintro rfl
      cases hfirst
  | quote text => exact ⟨'"', _, toList_quoted text, rfl, by decide⟩
  | empty => exact ⟨'(', _, rfl, rfl, by decide⟩
  | list => exact ⟨'(', _, rfl, rfl, by decide⟩

/-- What is laid out behind a form, up to the end of the list, does not go on with a word. -/
theorem LaysRest.breaks {items : List Form} {cs : List Char} (h : LaysRest items cs)
    (rest : List Char) : Breaks (cs ++ ')' :: rest) := by
  cases h with
  | nil => exact breaks_close rest
  | @cons _ _ gap _ _ hgap _ _ =>
    obtain ⟨hne, hchars⟩ := hgap
    obtain ⟨first, gap, rfl⟩ := List.exists_cons_of_ne_nil hne
    rintro _ ⟨⟩
    exact isWordChar_of_isGapChar (hchars first List.mem_cons_self)

theorem LaysRest.first_ne {form : Form} {items : List Form} {cs rest rest' : List Char}
    (h : LaysRest (form :: items) cs) : cs ++ rest ≠ ')' :: rest' := by
  cases h with
  | @cons _ _ gap _ _ hgap _ _ =>
    obtain ⟨hne, hchars⟩ := hgap
    obtain ⟨first, gap, rfl⟩ := List.exists_cons_of_ne_nil hne
    intro heq
    have hfirst := hchars first List.mem_cons_self
    rw [(List.cons.inj heq).1] at hfirst
    cases hfirst

/-- A word stands only where no list and no quoted text begins. -/
theorem IsFormWord.first_ne {text : String} (h : IsFormWord text) {c : Char}
    (hc : isWordChar c = false) (rest rest' : List Char) : text.toList ++ rest ≠ c :: rest' := by
  obtain ⟨first, more, hcs⟩ := List.exists_cons_of_ne_nil
    (fun hnil : text.toList = [] => h.1 (String.toList_eq_nil_iff.mp hnil))
  rw [hcs]
  intro heq
  have hfirst := h.2 first (by rw [hcs]; exact List.mem_cons_self)
  rw [(List.cons.inj heq).1, hc] at hfirst
  cases hfirst

/-- A quoted text begins neither as a list nor as a word does. -/
theorem quoted_first_ne {text : String} {c : Char} (hc : c ≠ '"') (rest rest' : List Char) :
    (quoted text).toList ++ rest ≠ c :: rest' := by
  rw [toList_quoted]
  exact fun heq => hc (List.cons.inj heq).1.symm

mutual

/-- The form that a text begins with, and where it ends, is seen from the text. -/
theorem Lays.unique : ∀ (form : Form) {other : Form} {cs cs' rest rest' : List Char},
    Lays form cs → Lays other cs' → Breaks rest → Breaks rest' → cs ++ rest = cs' ++ rest' →
    form = other ∧ rest = rest'
  | .word text, other, cs, cs', rest, rest', h, hother, hrest, hrest', heq => by
    cases h with
    | word hword =>
      -- only a word begins with a character of words, and both end where the texts break
      cases hother with
      | word hword' =>
        obtain ⟨htext, heq⟩ := stretch_unique hword.2 hword'.2 hrest hrest' heq
        rw [String.toList_inj.mp htext]
        exact ⟨rfl, heq⟩
      | quote text' =>
        rw [toList_quoted] at heq
        exact absurd heq (hword.first_ne rfl _ _)
      | empty => exact absurd heq (hword.first_ne rfl _ _)
      | list => exact absurd heq (hword.first_ne rfl _ _)
  | .quote text, other, cs, cs', rest, rest', h, hother, hrest, hrest', heq => by
    cases h with
    | quote =>
      cases hother with
      | word hword' =>
        rw [toList_quoted] at heq
        exact absurd heq.symm (hword'.first_ne rfl _ _)
      | quote text' =>
        obtain ⟨rfl, hrests⟩ := quoted_unique heq
        exact ⟨rfl, hrests⟩
      | empty => exact absurd heq (quoted_first_ne (by decide) _ _)
      | list => exact absurd heq (quoted_first_ne (by decide) _ _)
  | .list [], other, cs, cs', rest, rest', h, hother, hrest, hrest', heq => by
    cases h with
    | empty =>
      cases hother with
      | word hword' => exact absurd heq.symm (hword'.first_ne rfl _ _)
      | quote text' => exact absurd heq.symm (quoted_first_ne (by decide) _ _)
      | empty => exact ⟨rfl, (List.cons.inj (List.cons.inj heq).2).2⟩
      | list hhead' hrest' =>
        -- a closing parenthesis is no head
        obtain ⟨first, more, rfl, -, hclose⟩ := hhead'.exists_first
        exact absurd (List.cons.inj (List.cons.inj heq).2).1.symm hclose
  | .list (head :: items), other, cs, cs', rest, rest', h, hother, hrest, hrest', heq => by
    cases h with
    | list hhead htail =>
      cases hother with
      | word hword' => exact absurd heq.symm (hword'.first_ne rfl _ _)
      | quote text' => exact absurd heq.symm (quoted_first_ne (by decide) _ _)
      | empty =>
        obtain ⟨first, more, rfl, -, hclose⟩ := hhead.exists_first
        exact absurd (List.cons.inj (List.cons.inj heq).2).1 hclose
      | list hhead' htail' =>
        simp only [List.cons_append, List.append_assoc, List.nil_append, List.cons.injEq,
          true_and] at heq
        -- the head ends where the rest of the list begins, and the rest at its parenthesis
        obtain ⟨rfl, heq⟩ := Lays.unique head hhead hhead' (htail.breaks _) (htail'.breaks _) heq
        obtain ⟨rfl, heq⟩ := LaysRest.unique items htail htail' heq
        exact ⟨rfl, heq⟩

/-- The forms that stand behind another one in a list are seen from the text. -/
theorem LaysRest.unique : ∀ (items : List Form) {others : List Form}
    {cs cs' rest rest' : List Char}, LaysRest items cs → LaysRest others cs' →
    cs ++ ')' :: rest = cs' ++ ')' :: rest' → items = others ∧ rest = rest'
  | [], others, cs, cs', rest, rest', h, hothers, heq => by
    cases h with
    | nil =>
      cases others with
      | nil =>
        cases hothers
        exact ⟨rfl, (List.cons.inj heq).2⟩
      | cons => exact absurd heq.symm hothers.first_ne
  | form :: items, others, cs, cs', rest, rest', h, hothers, heq => by
    cases others with
    | nil =>
      cases hothers
      exact absurd heq h.first_ne
    | cons =>
      cases h with
      | cons hgap hform hrest =>
        cases hothers with
        | cons hgap' hform' hrest' =>
          simp only [List.append_assoc] at heq
          -- both gaps end where the forms begin
          have hfirst : ∀ {form : Form} {cs more : List Char}, Lays form cs →
              ∀ c ∈ (cs ++ more).head?, isGapChar c = false := by
            intro form cs more hlays c hc
            obtain ⟨first, rest, rfl, hgap, -⟩ := hlays.exists_first
            cases hc
            exact hgap
          obtain ⟨-, heq⟩ := stretch_unique hgap.2 hgap'.2 (hfirst hform) (hfirst hform') heq
          obtain ⟨rfl, heq⟩ := Lays.unique form hform hform' (hrest.breaks _) (hrest'.breaks _) heq
          obtain ⟨rfl, heq⟩ := LaysRest.unique items hrest hrest' heq
          exact ⟨rfl, heq⟩

end

/-- A text lays out one form at most. -/
theorem Lays.form_unique {form other : Form} {cs : List Char} (h : Lays form cs)
    (hother : Lays other cs) : form = other := by
  have hnil : Breaks [] := nofun
  exact (Lays.unique form h hother hnil hnil rfl).1

/-! ## Parentheses -/

/-- Where a place in a text stands: outside quoted texts, inside one, or inside one behind a
backslash. -/
inductive Quoting where
  | outside
  | inside
  | escaped

/-- The characters outside quoted texts; the quotes belong to the quoted texts. -/
def unquoted : Quoting → List Char → List Char
  | _, [] => []
  | .outside, c :: rest =>
    if c = '"' then unquoted .inside rest else c :: unquoted .outside rest
  | .inside, c :: rest =>
    if c = '"' then unquoted .outside rest
    else if c = '\\' then unquoted .escaped rest
    else unquoted .inside rest
  | .escaped, _ :: rest => unquoted .inside rest

/-- The number of parentheses that are open behind a text, `opened` of them from before it; nothing
if one is closed that is not open. -/
def openAfter? (opened : Nat) : List Char → Option Nat
  | [] => some opened
  | c :: rest =>
    if c = '(' then openAfter? (opened + 1) rest
    else if c = ')' then if opened = 0 then none else openAfter? (opened - 1) rest
    else openAfter? opened rest

/-- Outside quoted texts, every parenthesis that the text opens it closes again, and no other. -/
def Balanced (cs : List Char) : Prop := openAfter? 0 (unquoted .outside cs) = some 0

instance (cs : List Char) : Decidable (Balanced cs) := inferInstanceAs (Decidable (_ = _))

/-- Behind the text as many parentheses are open as before it, whatever follows it. -/
def Level (cs : List Char) : Prop :=
  ∀ opened rest, openAfter? opened (unquoted .outside (cs ++ rest)) =
    openAfter? opened (unquoted .outside rest)

namespace Level

variable {cs cs' : List Char}

theorem nil : Level [] := fun _ _ => rfl

theorem append (h : Level cs) (h' : Level cs') : Level (cs ++ cs') := by
  intro opened rest
  rw [List.append_assoc, h, h']

theorem cons {c : Char} (hc : c ∉ ['(', ')', '"']) (h : Level cs) : Level (c :: cs) := by
  intro opened rest
  simp only [List.mem_cons, List.not_mem_nil, or_false, not_or] at hc
  obtain ⟨hopen, hclose, hquote⟩ := hc
  rw [List.cons_append, unquoted, if_neg hquote, openAfter?, if_neg hopen, if_neg hclose, h]

theorem of_forall (h : ∀ c ∈ cs, c ∉ ['(', ')', '"']) : Level cs := by
  induction cs with
  | nil => exact nil
  | cons c cs ih =>
    obtain ⟨hc, hcs⟩ := List.forall_mem_cons.mp h
    exact (ih hcs).cons hc

theorem parens (h : Level cs) : Level ('(' :: (cs ++ [')'])) := by
  intro opened rest
  rw [List.cons_append, List.append_assoc, unquoted, if_neg (by decide), openAfter?, if_pos rfl, h,
    List.cons_append, unquoted, if_neg (by decide), openAfter?, if_neg (by decide), if_pos rfl,
    if_neg (Nat.succ_ne_zero opened)]
  rfl

theorem balanced (h : Level cs) : Balanced cs := by
  have hlevel := h 0 []
  rw [List.append_nil] at hlevel
  exact hlevel

end Level

/-- A character between quotes neither closes the quotes nor leaves a backslash open. -/
theorem unquoted_stands {c : Char} {cs : List Char} (h : Stands c cs) (rest : List Char) :
    unquoted .inside (cs ++ rest) = unquoted .inside rest := by
  cases h with
  | letter => rfl
  | codePoint =>
    -- behind the letter of code points come a brace, digits and a brace
    have hdigits : ∀ ds : List Char, (∀ d ∈ ds, d ∉ ['\x7d', '"', '\\']) → ∀ rest,
        unquoted .inside (ds ++ rest) = unquoted .inside rest := by
      intro ds
      induction ds with
      | nil => exact fun _ _ => rfl
      | cons d ds ih =>
        intro h rest
        obtain ⟨hd, hds⟩ := List.forall_mem_cons.mp h
        simp only [List.mem_cons, List.not_mem_nil, or_false, not_or] at hd
        rw [List.cons_append, unquoted, if_neg hd.2.1, if_neg hd.2.2, ih hds]
    rw [codePointEscape, List.append_assoc, List.append_assoc]
    exact (hdigits _ (plain_of_mem_hexDigits c.toNat) _).trans rfl
  | plain hquote hbackslash =>
    rw [List.cons_append, unquoted, if_neg hquote, if_neg hbackslash]
    rfl

theorem level_quoted (text : String) : Level (quoted text).toList := by
  have hbody : ∀ (cs : List Char) rest, unquoted .inside (cs.flatMap quoteChar ++ rest) =
      unquoted .inside rest := by
    intro cs rest
    induction cs with
    | nil => rfl
    | cons c cs ih =>
      rw [List.flatMap_cons, List.append_assoc, unquoted_stands (stands_quoteChar c), ih]
  intro opened rest
  rw [toList_quoted, List.cons_append, List.append_assoc, unquoted, if_pos rfl, hbody]
  rfl

theorem isWordChar_plain {c : Char} (h : isWordChar c = true) : c ∉ ['(', ')', '"'] := by
  intro hmem
  simp only [List.mem_cons, List.not_mem_nil, or_false] at hmem
  rcases hmem with rfl | rfl | rfl <;> cases h

theorem isGapChar_plain {c : Char} (h : isGapChar c = true) : c ∉ ['(', ')', '"'] := by
  intro hmem
  simp only [List.mem_cons, List.not_mem_nil, or_false] at hmem
  rcases hmem with rfl | rfl | rfl <;> cases h

mutual

theorem Lays.level : ∀ (form : Form) {cs : List Char}, Lays form cs → Level cs
  | .word text, _, h => by
    cases h with
    | word h => exact .of_forall fun c hc => isWordChar_plain (h.2 c hc)
  | .quote text, _, h => by
    cases h
    exact level_quoted text
  | .list [], _, h => by
    cases h
    exact Level.nil.parens
  | .list (head :: items), _, h => by
    cases h with
    | list hhead hrest =>
      have hlevel := ((Lays.level head hhead).append (LaysRest.level items hrest)).parens
      rw [List.append_assoc] at hlevel
      exact hlevel

theorem LaysRest.level : ∀ (items : List Form) {cs : List Char}, LaysRest items cs → Level cs
  | [], _, h => by
    cases h
    exact .nil
  | form :: items, _, h => by
    cases h with
    | cons hgap hform hrest =>
      have hlevel : Level _ := .of_forall fun c hc => isGapChar_plain (hgap.2 c hc)
      exact hlevel.append ((Lays.level form hform).append (LaysRest.level items hrest))

end

/-- The parentheses of a layout match. -/
theorem Lays.balanced {form : Form} {cs : List Char} (h : Lays form cs) : Balanced cs :=
  (Lays.level form h).balanced

end StackScript.Text

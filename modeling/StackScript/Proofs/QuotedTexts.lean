import Mathlib.Data.Nat.Init
import Mathlib.Data.List.Basic
import StackScript.Text.Quoted

/-!
# Quoted texts read back

Between double quotes a character stands as itself, as a backslash with a letter, or as its code
point in braces (`Stands`). No way to stand is the start of another one, so that a quoted text tells
which text it quotes and where it ends (`quoted_unique`).
-/

namespace StackScript.Text

/-! ## Hexadecimal digits -/

theorem digitChar_inj : ∀ m < 16, ∀ n < 16, Nat.digitChar m = Nat.digitChar n → m = n := by
  decide

theorem hexDigits_of_lt {n : Nat} (h : n < 16) : hexDigits n = [Nat.digitChar n] :=
  Nat.toDigits_of_lt_base h

theorem hexDigits_of_le {n : Nat} (h : 16 ≤ n) :
    hexDigits n = hexDigits (n / 16) ++ [Nat.digitChar (n % 16)] :=
  Nat.toDigits_of_base_le (by decide) h

/-- The last digit of a number of several digits has others before it. -/
theorem hexDigits_ne_singleton {n : Nat} (h : 16 ≤ n) (c : Char) : hexDigits n ≠ [c] := by
  rw [hexDigits_of_le h]
  intro heq
  obtain ⟨hfront, -⟩ := List.append_inj' (heq.trans (List.nil_append _).symm) rfl
  exact Nat.toDigits_ne_nil hfront

theorem hexDigits_inj (m : Nat) : ∀ n, hexDigits m = hexDigits n → m = n := by
  induction m using Nat.strong_induction_on with
  | _ m ih =>
    intro n h
    rcases Nat.lt_or_ge m 16 with hm | hm <;> rcases Nat.lt_or_ge n 16 with hn | hn
    · rw [hexDigits_of_lt hm, hexDigits_of_lt hn] at h
      exact digitChar_inj m hm n hn (List.singleton_inj.mp h)
    · rw [hexDigits_of_lt hm] at h
      exact absurd h.symm (hexDigits_ne_singleton hn _)
    · rw [hexDigits_of_lt hn] at h
      exact absurd h (hexDigits_ne_singleton hm _)
    · rw [hexDigits_of_le hm, hexDigits_of_le hn] at h
      obtain ⟨hfront, hlast⟩ := List.append_inj' h rfl
      have hquotient := ih (m / 16) (by omega) _ hfront
      have hrest := digitChar_inj _ (Nat.mod_lt m (by decide)) _ (Nat.mod_lt n (by decide))
        (List.singleton_inj.mp hlast)
      rw [← Nat.div_add_mod m 16, ← Nat.div_add_mod n 16, hquotient, hrest]

/-- Digits are none of the characters that an escape or a quoted text ends with. -/
theorem digitChar_plain : ∀ n < 16, Nat.digitChar n ∉ ['\x7d', '"', '\\'] := by decide

theorem plain_of_mem_hexDigits (n : Nat) : ∀ c ∈ hexDigits n, c ∉ ['\x7d', '"', '\\'] := by
  induction n using Nat.strong_induction_on with
  | _ n ih =>
    intro c hc
    rcases Nat.lt_or_ge n 16 with hn | hn
    · rw [hexDigits_of_lt hn] at hc
      rw [List.mem_singleton.mp hc]
      exact digitChar_plain n hn
    · rw [hexDigits_of_le hn] at hc
      rcases List.mem_append.mp hc with hc | hc
      · exact ih (n / 16) (by omega) c hc
      · rw [List.mem_singleton.mp hc]
        exact digitChar_plain _ (Nat.mod_lt n (by decide))

/-! ## Stretches -/

/-- The stretch of characters of a kind at the start of a text, and what stands behind it. -/
theorem stretch_unique {kind : Char → Bool} {own other rest rest' : List Char}
    (hown : ∀ c ∈ own, kind c = true) (hother : ∀ c ∈ other, kind c = true)
    (hrest : ∀ c ∈ rest.head?, kind c = false) (hrest' : ∀ c ∈ rest'.head?, kind c = false)
    (h : own ++ rest = other ++ rest') : own = other ∧ rest = rest' := by
  induction own generalizing other with
  | nil =>
    cases other with
    | nil => exact ⟨rfl, h⟩
    | cons d other =>
      rw [List.nil_append] at h
      have hfalse := hrest d (by rw [h]; rfl)
      rw [hother d List.mem_cons_self] at hfalse
      cases hfalse
  | cons c own ih =>
    cases other with
    | nil =>
      rw [List.nil_append] at h
      have hfalse := hrest' c (by rw [← h]; rfl)
      rw [hown c List.mem_cons_self] at hfalse
      cases hfalse
    | cons d other =>
      obtain ⟨rfl, htail⟩ := List.cons.inj h
      obtain ⟨rfl, heq⟩ := ih (List.forall_mem_cons.mp hown).2
        (List.forall_mem_cons.mp hother).2 htail
      exact ⟨rfl, heq⟩

/-! ## Characters between quotes -/

/-- The characters that have a letter behind a backslash, with that letter. -/
def escapeLetters : List (Char × Char) :=
  [('"', '"'), ('\\', '\\'), ('\t', 't'), ('\r', 'r'), ('\n', 'n'), ('\x00', '0')]

/-- The ways in which characters stand between quotes. -/
inductive Stands : Char → List Char → Prop where
  | letter {c letter : Char} (h : (c, letter) ∈ escapeLetters) : Stands c ['\\', letter]
  | codePoint (c : Char) : Stands c (codePointEscape c)
  | plain {c : Char} (hquote : c ≠ '"') (hbackslash : c ≠ '\\') : Stands c [c]

theorem stands_quoteChar (c : Char) : Stands c (quoteChar c) := by
  unfold quoteChar
  split_ifs with hquote hbackslash htab hreturn hfeed hnull hhidden
  · exact .letter (by rw [hquote]; decide)
  · exact .letter (by rw [hbackslash]; decide)
  · exact .letter (by rw [htab]; decide)
  · exact .letter (by rw [hreturn]; decide)
  · exact .letter (by rw [hfeed]; decide)
  · exact .letter (by rw [hnull]; decide)
  · exact .codePoint c
  · exact .plain hquote hbackslash

/-- Two characters do not share a letter. -/
theorem escapeLetters_inj : ∀ pair ∈ escapeLetters, ∀ other ∈ escapeLetters,
    pair.2 = other.2 → pair.1 = other.1 := by decide

/-- The letter of code points is nobody else's. -/
theorem escapeLetters_ne_u : ∀ pair ∈ escapeLetters, pair.2 ≠ 'u' := by decide

theorem Stands.unique {c d : Char} {cs ds rest rest' : List Char} (hc : Stands c cs)
    (hd : Stands d ds) (h : cs ++ rest = ds ++ rest') : c = d ∧ rest = rest' := by
  cases hc with
  | letter hmem =>
    cases hd with
    | letter hmem' =>
      obtain ⟨-, h⟩ := List.cons.inj h
      obtain ⟨hletter, h⟩ := List.cons.inj h
      exact ⟨escapeLetters_inj _ hmem _ hmem' hletter, h⟩
    | codePoint =>
      obtain ⟨-, h⟩ := List.cons.inj h
      exact absurd (List.cons.inj h).1 (escapeLetters_ne_u _ hmem)
    | plain _ hbackslash => exact absurd (List.cons.inj h).1.symm hbackslash
  | codePoint =>
    cases hd with
    | letter hmem' =>
      obtain ⟨-, h⟩ := List.cons.inj h
      exact absurd (List.cons.inj h).1.symm (escapeLetters_ne_u _ hmem')
    | codePoint =>
      simp only [codePointEscape, List.cons_append, List.nil_append, List.append_assoc,
        List.cons.injEq, true_and] at h
      -- the digits end at the brace
      have hdigits : ∀ (n : Nat), ∀ c ∈ hexDigits n, (c != '\x7d') = true := by
        intro n c hc
        have hplain := plain_of_mem_hexDigits n c hc
        rw [bne_iff_ne]
        rintro rfl
        exact hplain List.mem_cons_self
      have hbrace : ∀ rest : List Char, ∀ c ∈ ('\x7d' :: rest).head?, (c != '\x7d') = false := by
        rintro rest _ ⟨⟩
        rfl
      obtain ⟨heq, h⟩ := stretch_unique (hdigits _) (hdigits _) (hbrace _) (hbrace _) h
      refine ⟨Char.ext (UInt32.toNat_inj.mp (hexDigits_inj _ _ heq)), (List.cons.inj h).2⟩
    | plain _ hbackslash => exact absurd (List.cons.inj h).1.symm hbackslash
  | plain hquote hbackslash =>
    cases hd with
    | letter => exact absurd (List.cons.inj h).1 hbackslash
    | codePoint => exact absurd (List.cons.inj h).1 hbackslash
    | plain => exact List.cons.inj h

/-- No character stands as the closing quote. -/
theorem Stands.ne_quote {c : Char} {cs rest rest' : List Char} (h : Stands c cs) :
    cs ++ rest ≠ '"' :: rest' := by
  cases h with
  | letter => exact nofun
  | codePoint => exact nofun
  | plain hquote _ => exact fun heq => hquote (List.cons.inj heq).1

/-! ## Quoted texts -/

theorem toList_quoted (text : String) :
    (quoted text).toList = '"' :: (text.toList.flatMap quoteChar ++ ['"']) := by
  rw [quoted, String.toList_ofList, List.cons_append]

theorem quoted_body_unique {own other rest rest' : List Char}
    (h : own.flatMap quoteChar ++ '"' :: rest = other.flatMap quoteChar ++ '"' :: rest') :
    own = other ∧ rest = rest' := by
  induction own generalizing other with
  | nil =>
    cases other with
    | nil => exact ⟨rfl, (List.cons.inj h).2⟩
    | cons d other =>
      rw [List.flatMap_cons, List.append_assoc] at h
      exact absurd h.symm (stands_quoteChar d).ne_quote
  | cons c own ih =>
    rw [List.flatMap_cons, List.append_assoc] at h
    cases other with
    | nil => exact absurd h (stands_quoteChar c).ne_quote
    | cons d other =>
      rw [List.flatMap_cons, List.append_assoc] at h
      obtain ⟨rfl, htail⟩ := (stands_quoteChar c).unique (stands_quoteChar d) h
      obtain ⟨rfl, heq⟩ := ih htail
      exact ⟨rfl, heq⟩

/-- A quoted text tells which text it quotes, and where it ends. -/
theorem quoted_unique {own other : String} {rest rest' : List Char}
    (h : (quoted own).toList ++ rest = (quoted other).toList ++ rest') :
    own = other ∧ rest = rest' := by
  simp only [toList_quoted, List.cons_append, List.append_assoc, List.nil_append] at h
  obtain ⟨heq, hrest⟩ := quoted_body_unique (List.cons.inj h).2
  exact ⟨String.toList_inj.mp heq, hrest⟩

end StackScript.Text

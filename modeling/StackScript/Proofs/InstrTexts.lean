import StackScript.Code.Instr
import StackScript.Proofs.Basics
import StackScript.Proofs.QuotedTexts

/-!
# The text of an instruction

An instruction stands in a listing as a word, with its operand behind it if it has one. No two kinds
of instructions have one word (`Instr.ctorIdx_eq_of_word`), and the operand tells the number, the
truth value or the text it is written for. Only a call has two names that are written as one, with a
dot between them. So the text tells the instruction, up to where the name of a class ends in that of
a call (`Instr.text_eq_iff`).
-/

namespace StackScript.Code

open StackScript.Text

namespace Instr

/-- The instructions are the same, or calls of one name with the same number of arguments. -/
inductive Alike : Instr → Instr → Prop where
  | same (instr : Instr) : Alike instr instr
  | call {cls method cls' method' : String} (argc : UInt16)
    (hname : cls ++ "." ++ method = cls' ++ "." ++ method') :
    Alike (.call cls method argc) (.call cls' method' argc)

/-! ## Words -/

/-- The words that instructions begin with, one for each kind. -/
def words : List String :=
  ["push.int", "push.bool", "push.str", "load", "store", "pop", "neg", "not", "add", "sub", "mul",
    "div", "mod", "concat", "eq", "ne", "lt", "le", "gt", "ge", "index", "length", "jump",
    "jump.false", "call", "puts", "raise", "return", "return.void"]

/-- The word that the instruction begins with. -/
def word (instr : Instr) : String := words.getD instr.ctorIdx ""

/-- Instructions with one word are of one kind. -/
theorem ctorIdx_eq_of_word {instr other : Instr} (h : instr.word = other.word) :
    instr.ctorIdx = other.ctorIdx := by
  have hindex : ∀ instr : Instr, words.idxOf instr.word = instr.ctorIdx := by
    intro instr
    cases instr <;> rfl
  rw [← hindex, ← hindex, h]

theorem word_mem (instr : Instr) : instr.word ∈ words := by
  cases instr <;> exact List.mem_of_elem_eq_true rfl

/-! ## Operands -/

/-- What stands behind the word. -/
def operand : Instr → String
  | pushInt value => " " ++ showInteger value
  | pushBool value => " " ++ toString value
  | pushStr value => " " ++ quoted value
  | load slot | store slot => " " ++ toString slot
  | jump place | jumpIfFalse place => " " ++ toString place
  | call cls method argc => " " ++ (cls ++ "." ++ method ++ "/" ++ toString argc)
  | _ => ""

theorem text_eq (instr : Instr) : instr.text = instr.word ++ instr.operand := by
  cases instr <;> rfl

/-- No word has a blank in it, and what stands behind it begins with one. -/
theorem word_operand_eq_of_text {instr other : Instr} (h : instr.text = other.text) :
    instr.word = other.word ∧ instr.operand = other.operand := by
  have hword : ∀ instr : Instr, ∀ c ∈ instr.word.toList, (c != ' ') = true := by
    intro instr
    have hwords : (words.all fun word => word.toList.all (· != ' ')) = true := by decide
    exact List.all_eq_true.mp (List.all_eq_true.mp hwords _ instr.word_mem)
  have hoperand : ∀ instr : Instr, ∀ c ∈ instr.operand.toList.head?, (c != ' ') = false := by
    intro instr c hc
    cases instr <;> simp [operand] at hc <;> rw [← hc] <;> rfl
  rw [text_eq, text_eq] at h
  have hchars := congrArg String.toList h
  rw [String.toList_append, String.toList_append] at hchars
  obtain ⟨hfirst, hrest⟩ :=
    stretch_unique (hword instr) (hword other) (hoperand instr) (hoperand other) hchars
  exact ⟨String.toList_inj.mp hfirst, String.toList_inj.mp hrest⟩

/-- A name with a number behind it tells both. -/
theorem counted_unique {name name' : String} {m n : Nat}
    (h : name ++ "/" ++ m.repr = name' ++ "/" ++ n.repr) : name = name' ∧ m = n := by
  -- from the right, the number is the stretch of digits before the slash
  have hchars := congrArg (fun text => text.toList.reverse) h
  simp only [String.toList_append, List.reverse_append] at hchars
  have hdigits : ∀ n : Nat, ∀ c ∈ n.repr.toList.reverse, c.isDigit = true :=
    fun n c hc => isDigit_of_mem_repr (List.mem_reverse.mp hc)
  have hslash : ∀ rest : List Char, ∀ c ∈ ("/".toList.reverse ++ rest).head?,
      c.isDigit = false := by
    rintro rest _ ⟨⟩
    rfl
  obtain ⟨hnumber, hname⟩ := stretch_unique (hdigits m) (hdigits n) (hslash _) (hslash _) hchars
  constructor
  · exact String.toList_inj.mp (List.reverse_inj.mp (List.append_cancel_left hname))
  · exact nat_eq_of_repr (String.toList_inj.mp (List.reverse_inj.mp hnumber))

/-- Instructions of one kind with one operand are alike. -/
theorem alike_of_operand {instr other : Instr} (hkind : instr.ctorIdx = other.ctorIdx)
    (hoperand : instr.operand = other.operand) : instr.Alike other := by
  have hcancel : ∀ {text text' : String}, " " ++ text = " " ++ text' → text = text' := by
    intro text text' h
    simpa using h
  cases instr with
  | pushInt value =>
    cases other with
    | pushInt value' =>
      rw [Int64.toInt_inj.mp (eq_of_numeral (hcancel hoperand))]
      exact .same _
    | _ => cases hkind
  | pushBool value =>
    cases other with
    | pushBool value' =>
      have hvalue : value = value' := by
        cases value <;> cases value' <;> first | rfl | exact absurd hoperand (by decide)
      rw [hvalue]
      exact .same _
    | _ => cases hkind
  | pushStr value =>
    cases other with
    | pushStr value' =>
      have hquoted := congrArg String.toList (hcancel hoperand)
      rw [← List.append_nil (quoted value).toList, ← List.append_nil (quoted value').toList]
        at hquoted
      rw [(quoted_unique hquoted).1]
      exact .same _
    | _ => cases hkind
  | load slot =>
    cases other with
    | load slot' =>
      rw [UInt16.toNat_inj.mp (nat_eq_of_repr (hcancel hoperand))]
      exact .same _
    | _ => cases hkind
  | store slot =>
    cases other with
    | store slot' =>
      rw [UInt16.toNat_inj.mp (nat_eq_of_repr (hcancel hoperand))]
      exact .same _
    | _ => cases hkind
  | jump place =>
    cases other with
    | jump place' =>
      rw [UInt32.toNat_inj.mp (nat_eq_of_repr (hcancel hoperand))]
      exact .same _
    | _ => cases hkind
  | jumpIfFalse place =>
    cases other with
    | jumpIfFalse place' =>
      rw [UInt32.toNat_inj.mp (nat_eq_of_repr (hcancel hoperand))]
      exact .same _
    | _ => cases hkind
  | call cls method argc =>
    cases other with
    | call cls' method' argc' =>
      obtain ⟨hname, hargc⟩ := counted_unique (hcancel hoperand)
      rw [UInt16.toNat_inj.mp hargc]
      exact .call argc' hname
    | _ => cases hkind
  -- the others are told by their words
  | _ => cases other <;> first | exact .same _ | cases hkind

/-- The text of an instruction tells it, up to where the class of a call ends in its name. -/
theorem text_eq_iff {instr other : Instr} : instr.text = other.text ↔ instr.Alike other := by
  constructor
  · intro h
    obtain ⟨hword, hoperand⟩ := word_operand_eq_of_text h
    exact alike_of_operand (ctorIdx_eq_of_word hword) hoperand
  · rintro (_ | ⟨argc, hname⟩)
    · rfl
    · rw [text_eq, text_eq, operand, operand, hname]
      rfl

end Instr

end StackScript.Code

import StackScript.Proofs.NestedLists
import StackScript.Proofs.SamePlaces
import StackScript.Proofs.WrittenTrees
import StackScript.Syntax.Sexpr

/-!
# The forms of expressions and statements

The dump of an expression or statement lays out a form that depends on the tree alone, not on the
indentation (`Expr.lays`, `Stmt.lays`). Written trees of one form are the same up to the places of
their nodes (`Expr.placeless_eq`, `Stmt.placeless_eq`): the word at the head of a list tells the
kind of the node, where two kinds share a word the number of items does, and no word is the start of
a longer one that means something else.
-/

namespace StackScript.Syntax

open StackScript.Grammar StackScript.Source StackScript.Text

/-! ## Words of a dump -/

/-- No character of a name ends a word of a dump. -/
theorem isWordChar_of_isNameChar {c : Char} (h : isNameChar c = true) : isWordChar c = true := by
  cases hc : isWordChar c with
  | true => rfl
  | false =>
    have hmem : c ∈ [' ', '\n', '(', ')', '"'] := by
      simp only [isWordChar, isGapChar] at hc
      simp only [List.mem_cons, List.not_mem_nil, or_false]
      by_contra hne
      simp_all
    simp only [List.mem_cons, List.not_mem_nil, or_false] at hmem
    rcases hmem with rfl | rfl | rfl | rfl | rfl <;> revert h <;> decide

/-- A name is one word in a dump. -/
theorem IsWord.isFormWord {word : String} (h : IsWord word) : IsFormWord word :=
  ⟨h.1, fun c hc => isWordChar_of_isNameChar (h.2 c hc)⟩

theorem IsWord.not_mem {word : String} (h : IsWord word) {c : Char} (hc : isNameChar c = false) :
    c ∉ word.toList := by
  intro hmem
  rw [h.2 c hmem] at hc
  cases hc

theorem isFormWord_numeral (n : Int) : IsFormWord (toString n) := by
  have hnat : ∀ m : Nat, IsFormWord m.repr := by
    intro m
    refine ⟨Nat.repr_ne_empty, fun c hc => isWordChar_of_isNameChar ?_⟩
    have hdigit := isDigit_of_mem_repr hc
    simp [isNameChar, Char.isAlphanum, hdigit]
  have hminus : IsFormWord "-" := by decide
  rw [Int.toString_eq_repr, Int.repr_eq_if]
  split
  · exact hnat _
  · exact hminus.append (hnat _)

/-! ## Trees as forms -/

/-- The word for the method that a call goes to. -/
def calleeText (receiver : Option Ident) (method : Ident) : String :=
  match receiver with
  | some owner => owner.name ++ "." ++ method.name
  | none => method.name

mutual

/-- The form that an expression is dumped as. -/
def Expr.form : Expr → Form
  | .int value _ => .list [.word "integer", .word (toString value.toInt)]
  | .bool value _ => .list [.word "boolean", .word (toString value)]
  | .string value _ => .list [.word "string", .quote value]
  | .var name _ => .word name.name
  | .call receiver method args _ _ =>
    .list (.word "call" :: .word (calleeText receiver method) :: argForms args)
  | .index array position _ => .list [.word "index", array.form, position.form]
  | .length value _ => .list [.word "length", value.form]
  | .unary op operand _ => .list [.word op.symbol, operand.form]
  | .binary op left right _ => .list [.word op.symbol, left.form, right.form]

/-- The forms that arguments are dumped as. -/
def argForms : List Expr → List Form
  | [] => []
  | arg :: args => arg.form :: argForms args

end

/-- What a call names is one word in a dump, with or without a class. -/
theorem isFormWord_callee {receiver : Option Ident} {method : Ident}
    (hreceiver : ∀ owner ∈ receiver, IsWord owner.name) (hmethod : IsWord method.name) :
    IsFormWord (calleeText receiver method) := by
  have hdot : IsFormWord "." := by decide
  cases receiver with
  | none => exact hmethod.isFormWord
  | some owner => exact ((hreceiver owner rfl).isFormWord.append hdot).append hmethod.isFormWord

mutual

/-- An expression is dumped as its form. -/
theorem Expr.lays : ∀ e : Expr, e.Written → Lays e.form e.sexpr.toList
  | .int value note, h => by
    refine (Lays.headed (by decide) (.blank (.word (isFormWord_numeral _)) .nil)).of_eq ?_
    have htype : note.type = none := h
    simp [Expr.sexpr, typeMark, htype]
  | .bool value note, h => by
    have hword : IsFormWord (toString value) := by cases value <;> decide
    refine (Lays.headed (by decide) (.blank (.word hword) .nil)).of_eq ?_
    have htype : note.type = none := h
    simp [Expr.sexpr, typeMark, htype]
  | .string value note, h => by
    refine (Lays.headed (by decide) (.blank (.quote value) .nil)).of_eq ?_
    have htype : note.type = none := h
    simp [Expr.sexpr, typeMark, htype]
  | .var name note, ⟨hname, htype⟩ => by
    refine (Lays.word hname.isFormWord).of_eq ?_
    simp [Expr.sexpr, typeMark, htype]
  | .call receiver method args target note, ⟨hreceiver, hmethod, hargs, htarget, htype⟩ => by
    have hcallee := isFormWord_callee hreceiver hmethod
    refine (Lays.headed (by decide) (.blank (.word hcallee) (args_lay args hargs))).of_eq ?_
    subst htarget
    cases receiver <;> simp [Expr.sexpr, typeMark, htype, calleeText]
  | .index array position note, ⟨harray, hposition, htype⟩ => by
    refine (Lays.headed (by decide) (.blank (array.lays harray)
      (.blank (position.lays hposition) .nil))).of_eq ?_
    simp [Expr.sexpr, typeMark, htype]
  | .length value note, ⟨hvalue, htype⟩ => by
    refine (Lays.headed (by decide) (.blank (value.lays hvalue) .nil)).of_eq ?_
    simp [Expr.sexpr, typeMark, htype]
  | .unary op operand note, ⟨hoperand, htype⟩ => by
    have hop : IsFormWord op.symbol := by cases op <;> decide
    refine (Lays.headed hop (.blank (operand.lays hoperand) .nil)).of_eq ?_
    simp [Expr.sexpr, typeMark, htype]
  | .binary op left right note, ⟨hleft, hright, htype⟩ => by
    have hop : IsFormWord op.symbol := by cases op <;> decide
    refine (Lays.headed hop (.blank (left.lays hleft) (.blank (right.lays hright) .nil))).of_eq ?_
    simp [Expr.sexpr, typeMark, htype]

theorem args_lay : ∀ args : List Expr, WrittenArgs args →
    LaysRest (argForms args) (argsSexpr args).toList
  | [], _ => .nil
  | arg :: args, ⟨harg, hargs⟩ => by
    refine (LaysRest.blank (arg.lays harg) (args_lay args hargs)).of_eq ?_
    simp [argsSexpr]

end

/-- Identifiers with one name are the same up to their places. -/
theorem Ident.placeless_eq {ident other : Ident} (h : ident.name = other.name) :
    ident.relabel placeless = other.relabel placeless := by
  rw [Ident.relabel, Ident.relabel, h]
  rfl

theorem Note.placeless_eq {note other : Note} (h : note.type = none) (h' : other.type = none) :
    note.relabel placeless = other.relabel placeless := by
  rw [Note.relabel, Note.relabel, h, h']
  rfl

/-- The word for a call tells the class, if one is named, and the method. -/
theorem calleeText_inj {receiver other : Option Ident} {method method' : Ident}
    (hreceiver : ∀ owner ∈ receiver, IsWord owner.name)
    (hother : ∀ owner ∈ other, IsWord owner.name) (hmethod : IsWord method.name)
    (hmethod' : IsWord method'.name) (h : calleeText receiver method = calleeText other method') :
    receiver.map (Ident.relabel placeless) = other.map (Ident.relabel placeless) ∧
      method.relabel placeless = method'.relabel placeless := by
  have hdot : isNameChar '.' = false := by decide
  have hmem : ∀ (owner : Ident) {method method' : Ident},
      owner.name ++ "." ++ method.name = method'.name → '.' ∈ method'.name.toList := by
    rintro owner method method' h
    rw [← h, String.toList_append, String.toList_append]
    exact List.mem_append_left _ (List.mem_append_right _ (by decide))
  cases receiver with
  | none =>
    cases other with
    | none => exact ⟨rfl, Ident.placeless_eq h⟩
    | some owner => exact absurd (hmem owner h.symm) (hmethod.not_mem hdot)
  | some owner =>
    cases other with
    | none => exact absurd (hmem owner h) (hmethod'.not_mem hdot)
    | some owner' =>
      have hchars := congrArg String.toList h
      simp only [calleeText, String.toList_append, List.append_assoc] at hchars
      -- the first dot is the one behind the class
      have hstop : ∀ rest : List Char, ∀ c ∈ (".".toList ++ rest).head?, isNameChar c = false := by
        rintro rest _ ⟨⟩
        exact hdot
      obtain ⟨howner, hrest⟩ := stretch_unique (hreceiver owner rfl).2 (hother owner' rfl).2
        (hstop _) (hstop _) hchars
      have hname := String.toList_inj.mp (List.append_cancel_left hrest)
      refine ⟨?_, Ident.placeless_eq hname⟩
      rw [Option.map_some, Option.map_some, Ident.placeless_eq (String.toList_inj.mp howner)]

mutual

/-- Expressions with one form are the same up to the places of their nodes. -/
theorem Expr.placeless_eq : ∀ (e : Expr) {other : Expr}, e.Written → other.Written →
    e.form = other.form → e.relabel placeless = other.relabel placeless
  | .int value note, other, h, h', heq => by
    cases other with
    | int value' note' =>
      simp only [Expr.form, Form.list.injEq, List.cons.injEq, Form.word.injEq, true_and,
        and_true] at heq
      rw [Expr.relabel, Expr.relabel, Int64.toInt_inj.mp (eq_of_numeral heq),
        Note.placeless_eq h h']
    -- everywhere below, trees of two kinds differ in the word at the head or in the number of items
    | unary op => cases op <;> simp [Expr.form, UnaryOp.symbol] at heq
    | _ => simp [Expr.form] at heq
  | .bool value note, other, h, h', heq => by
    cases other with
    | bool value' note' =>
      simp only [Expr.form, Form.list.injEq, List.cons.injEq, Form.word.injEq, true_and,
        and_true] at heq
      have hvalue : value = value' := by
        cases value <;> cases value' <;> first | rfl | exact absurd heq (by decide)
      rw [Expr.relabel, Expr.relabel, hvalue, Note.placeless_eq h h']
    | unary op => cases op <;> simp [Expr.form, UnaryOp.symbol] at heq
    | _ => simp [Expr.form] at heq
  | .string value note, other, h, h', heq => by
    cases other with
    | string value' note' =>
      simp only [Expr.form, Form.list.injEq, List.cons.injEq, Form.quote.injEq, true_and,
        and_true] at heq
      rw [Expr.relabel, Expr.relabel, heq, Note.placeless_eq h h']
    | unary op => cases op <;> simp [Expr.form, UnaryOp.symbol] at heq
    | _ => simp [Expr.form] at heq
  | .var name note, other, ⟨_, h⟩, h', heq => by
    cases other with
    | var name' note' =>
      rw [Expr.relabel, Expr.relabel, Ident.placeless_eq (Form.word.inj heq),
        Note.placeless_eq h h'.2]
    | _ => simp [Expr.form] at heq
  | .call receiver method args target note, other, ⟨hreceiver, hmethod, hargs, htarget, h⟩, h',
      heq => by
    cases other with
    | call receiver' method' args' target' note' =>
      obtain ⟨hreceiver', hmethod', hargs', htarget', h'⟩ := h'
      simp only [Expr.form, Form.list.injEq, List.cons.injEq, Form.word.injEq, true_and] at heq
      obtain ⟨hname, hmethods⟩ := calleeText_inj hreceiver hreceiver' hmethod hmethod' heq.1
      rw [Expr.relabel, Expr.relabel, hname, hmethods, args_placeless_eq args hargs hargs' heq.2,
        htarget, htarget', Note.placeless_eq h h']
    | unary op => cases op <;> simp [Expr.form, UnaryOp.symbol] at heq
    | binary op => cases op <;> simp [Expr.form, BinaryOp.symbol] at heq
    | _ => simp [Expr.form] at heq
  | .index array position note, other, ⟨harray, hposition, h⟩, h', heq => by
    cases other with
    | index array' position' note' =>
      obtain ⟨harray', hposition', h'⟩ := h'
      simp only [Expr.form, Form.list.injEq, List.cons.injEq, true_and, and_true] at heq
      rw [Expr.relabel, Expr.relabel, array.placeless_eq harray harray' heq.1,
        position.placeless_eq hposition hposition' heq.2, Note.placeless_eq h h']
    | binary op => cases op <;> simp [Expr.form, BinaryOp.symbol] at heq
    | _ => simp [Expr.form] at heq
  | .length value note, other, ⟨hvalue, h⟩, h', heq => by
    cases other with
    | length value' note' =>
      obtain ⟨hvalue', h'⟩ := h'
      simp only [Expr.form, Form.list.injEq, List.cons.injEq, true_and, and_true] at heq
      rw [Expr.relabel, Expr.relabel, value.placeless_eq hvalue hvalue' heq,
        Note.placeless_eq h h']
    | unary op => cases op <;> simp [Expr.form, UnaryOp.symbol] at heq
    | _ => simp [Expr.form] at heq
  | .unary op operand note, other, ⟨hoperand, h⟩, h', heq => by
    cases other with
    | unary op' operand' note' =>
      obtain ⟨hoperand', h'⟩ := h'
      simp only [Expr.form, Form.list.injEq, List.cons.injEq, Form.word.injEq, and_true] at heq
      have hop : op = op' := by
        cases op <;> cases op' <;> first | rfl | exact absurd heq.1 (by decide)
      rw [Expr.relabel, Expr.relabel, hop, operand.placeless_eq hoperand hoperand' heq.2,
        Note.placeless_eq h h']
    | var => simp [Expr.form] at heq
    | _ => cases op <;> simp [Expr.form, UnaryOp.symbol] at heq
  | .binary op left right note, other, ⟨hleft, hright, h⟩, h', heq => by
    cases other with
    | binary op' left' right' note' =>
      obtain ⟨hleft', hright', h'⟩ := h'
      simp only [Expr.form, Form.list.injEq, List.cons.injEq, Form.word.injEq, and_true] at heq
      -- operators between operands have symbols of their own; the minus sign before one has one
      -- item less behind it
      have hop : op = op' := by
        cases op <;> cases op' <;> first | rfl | exact absurd heq.1 (by decide)
      rw [Expr.relabel, Expr.relabel, hop, left.placeless_eq hleft hleft' heq.2.1,
        right.placeless_eq hright hright' heq.2.2, Note.placeless_eq h h']
    | var => simp [Expr.form] at heq
    | _ => cases op <;> simp [Expr.form, BinaryOp.symbol] at heq

theorem args_placeless_eq : ∀ (args : List Expr) {others : List Expr}, WrittenArgs args →
    WrittenArgs others → argForms args = argForms others →
    relabelExprs placeless args = relabelExprs placeless others
  | [], others, _, _, heq => by
    cases others with
    | nil => rfl
    | cons => cases heq
  | arg :: args, others, ⟨harg, hargs⟩, h', heq => by
    cases others with
    | nil => cases heq
    | cons other others =>
      obtain ⟨hother, hothers⟩ := h'
      obtain ⟨hfirst, hrest⟩ := List.cons.inj heq
      rw [relabelExprs, relabelExprs, arg.placeless_eq harg hother hfirst,
        args_placeless_eq args hargs hothers hrest]

end

/-- The words that expressions in lists begin with. -/
def exprHeads : List String :=
  ["integer", "boolean", "string", "call", "index", "length", "-", "!", "||", "&&", "==", "!=", "<",
    "<=", ">", ">=", "+", "*", "/", "%"]

/-- The word at the head of the form of an expression is one of those that expressions have. -/
theorem Expr.head_mem (e : Expr) {head : String} {items : List Form}
    (h : e.form = .list (.word head :: items)) : head ∈ exprHeads := by
  cases e with
  | var => cases h
  | unary op =>
    cases h
    cases op <;> decide
  | binary op =>
    cases h
    cases op <;> decide
  | _ =>
    cases h
    decide

/-! ## Statements -/

theorem toList_newLine (indent : Nat) :
    (newLine indent).toList = '\n' :: List.replicate indent ' ' := by
  have hpushn : ("".pushn ' ' indent).toList = List.replicate indent ' ' := by
    induction indent with
    | zero => rfl
    | succ n ih =>
      show (("".pushn ' ' n).push ' ').toList = _
      rw [String.toList_push, ih, List.replicate_succ']
  rw [newLine, String.toList_append, hpushn]
  rfl

/-- One more form, on a line of its own. -/
theorem LaysRest.line {form : Form} {items : List Form} {cs rest : List Char} (indent : Nat)
    (hform : Lays form cs) (hrest : LaysRest items rest) :
    LaysRest (form :: items) ((newLine indent).toList ++ (cs ++ rest)) := by
  refine .cons ?_ hform hrest
  rw [toList_newLine]
  refine ⟨nofun, List.forall_mem_cons.mpr ⟨rfl, fun c hc => ?_⟩⟩
  rw [List.eq_of_mem_replicate hc]
  rfl

mutual

/-- The form that a statement is dumped as. -/
def Stmt.form : Stmt → Form
  | .expr value _ => value.form
  | .assign target value _ => .list [.word "=", .word target.name, value.form]
  | .puts value _ => .list [.word "puts", value.form]
  | .raise value _ => .list [.word "raise", value.form]
  | .ret (some value) _ => .list [.word "return", value.form]
  | .ret none _ => .list [.word "return"]
  | .loop condition body _ => .list (.word "while" :: condition.form :: body.forms)
  | .cond chain _ => .list (.word "if" :: chain.forms)

/-- The forms that the statements of a block are dumped as. -/
def Block.forms : Block → List Form
  | .mk stmts _ => stmtForms stmts

/-- The forms that statements are dumped as. -/
def stmtForms : List Stmt → List Form
  | [] => []
  | stmt :: stmts => stmt.form :: stmtForms stmts

/-- The forms that branches are dumped as. -/
def Chain.forms : Chain → List Form
  | .done => []
  | .otherwise body => [.list (.word "else" :: body.forms)]
  | .branch condition body rest =>
    .list (.word "when" :: condition.form :: body.forms) :: rest.forms

end

mutual

/-- A statement is dumped as its form, whatever the indentation is. -/
theorem Stmt.lays : ∀ (stmt : Stmt) (indent : Nat), stmt.Written →
    Lays stmt.form (stmt.sexpr indent).toList
  | .expr value _, _, h => value.lays h
  | .assign target value _, _, ⟨htarget, hvalue⟩ => by
    refine (Lays.headed (by decide) (.blank (.word htarget.isFormWord)
      (.blank (value.lays hvalue) .nil))).of_eq ?_
    simp [Stmt.sexpr]
  | .puts value _, _, h => by
    refine (Lays.headed (by decide) (.blank (value.lays h) .nil)).of_eq ?_
    simp [Stmt.sexpr]
  | .raise value _, _, h => by
    refine (Lays.headed (by decide) (.blank (value.lays h) .nil)).of_eq ?_
    simp [Stmt.sexpr]
  | .ret (some value) _, _, h => by
    refine (Lays.headed (by decide) (.blank (value.lays (h value rfl)) .nil)).of_eq ?_
    simp [Stmt.sexpr]
  | .ret none _, _, _ => (Lays.headed (by decide) .nil).of_eq (by simp [Stmt.sexpr])
  | .loop condition body _, indent, ⟨hcondition, hbody⟩ => by
    refine (Lays.headed (by decide) (.blank (condition.lays hcondition)
      (body.lays (indent + 2) hbody))).of_eq ?_
    simp [Stmt.sexpr]
  | .cond chain _, indent, h => by
    refine (Lays.headed (by decide) (chain.lays (indent + 2) h)).of_eq ?_
    simp [Stmt.sexpr]

/-- The dump of a block lays out the forms of its statements. -/
theorem Block.lays : ∀ (block : Block) (indent : Nat), block.Written →
    LaysRest block.forms (block.sexpr indent).toList
  | .mk stmts _, indent, h => stmts_lay stmts indent h

theorem stmts_lay : ∀ (stmts : List Stmt) (indent : Nat), WrittenStmts stmts →
    LaysRest (stmtForms stmts) (stmtsSexpr indent stmts).toList
  | [], _, _ => .nil
  | stmt :: stmts, indent, ⟨hstmt, hstmts⟩ => by
    refine (LaysRest.line indent (stmt.lays indent hstmt) (stmts_lay stmts indent hstmts)).of_eq ?_
    simp [stmtsSexpr]

theorem Chain.lays : ∀ (chain : Chain) (indent : Nat), chain.Written →
    LaysRest chain.forms (chain.sexpr indent).toList
  | .done, _, _ => .nil
  | .otherwise body, indent, h => by
    refine (LaysRest.line indent (Lays.headed (by decide)
      (body.lays (indent + 2) h)) .nil).of_eq ?_
    simp [Chain.sexpr]
  | .branch condition body rest, indent, ⟨hcondition, hbody, hrest⟩ => by
    refine (LaysRest.line indent (Lays.headed (by decide) (.blank (condition.lays hcondition)
      (body.lays (indent + 2) hbody))) (rest.lays indent hrest)).of_eq ?_
    simp [Chain.sexpr]

end

/-- The words that statements in lists begin with. -/
def stmtHeads : List String := ["=", "puts", "raise", "return", "while", "if"] ++ exprHeads

/-- The word at the head of the form of a statement is one of those that statements have. -/
theorem Stmt.head_mem (stmt : Stmt) {head : String} {items : List Form}
    (h : stmt.form = .list (.word head :: items)) : head ∈ stmtHeads := by
  cases stmt with
  | expr value => exact List.mem_append_right _ (value.head_mem h)
  | ret value =>
    cases value <;>
    · cases h
      decide
  | _ =>
    cases h
    decide

mutual

/-- Statements with one form are the same up to the places of their nodes. -/
theorem Stmt.placeless_eq : ∀ (stmt : Stmt) {other : Stmt}, stmt.Written → other.Written →
    stmt.form = other.form → stmt.relabel placeless = other.relabel placeless
  | .expr value _, other, h, h', heq => by
    cases other with
    | expr value' =>
      rw [Stmt.relabel, Stmt.relabel, value.placeless_eq h h' heq]
      rfl
    | ret value' => cases value' <;> exact absurd (value.head_mem heq) (by decide)
    | _ => exact absurd (value.head_mem heq) (by decide)
  | .assign target value _, other, ⟨_, hvalue⟩, h', heq => by
    cases other with
    -- no expression has the head of a statement
    | expr value' => exact absurd (value'.head_mem heq.symm) (by decide)
    | assign target' value' =>
      simp only [Stmt.form, Form.list.injEq, List.cons.injEq, Form.word.injEq, true_and,
        and_true] at heq
      rw [Stmt.relabel, Stmt.relabel, Ident.placeless_eq heq.1,
        value.placeless_eq hvalue h'.2 heq.2]
      rfl
    | ret value' => cases value' <;> simp [Stmt.form] at heq
    | _ => simp [Stmt.form] at heq
  | .puts value _, other, h, h', heq => by
    cases other with
    | expr value' => exact absurd (value'.head_mem heq.symm) (by decide)
    | puts value' =>
      simp only [Stmt.form, Form.list.injEq, List.cons.injEq, true_and, and_true] at heq
      rw [Stmt.relabel, Stmt.relabel, value.placeless_eq h h' heq]
      rfl
    | ret value' => cases value' <;> simp [Stmt.form] at heq
    | _ => simp [Stmt.form] at heq
  | .raise value _, other, h, h', heq => by
    cases other with
    | expr value' => exact absurd (value'.head_mem heq.symm) (by decide)
    | raise value' =>
      simp only [Stmt.form, Form.list.injEq, List.cons.injEq, true_and, and_true] at heq
      rw [Stmt.relabel, Stmt.relabel, value.placeless_eq h h' heq]
      rfl
    | ret value' => cases value' <;> simp [Stmt.form] at heq
    | _ => simp [Stmt.form] at heq
  | .ret (some value) _, other, h, h', heq => by
    cases other with
    | expr value' => exact absurd (value'.head_mem heq.symm) (by decide)
    | ret value' =>
      cases value' with
      | none => simp [Stmt.form] at heq
      | some value' =>
        simp only [Stmt.form, Form.list.injEq, List.cons.injEq, true_and, and_true] at heq
        rw [Stmt.relabel, Stmt.relabel,
          value.placeless_eq (h value rfl) (h' value' rfl) heq]
        rfl
    | _ => simp [Stmt.form] at heq
  | .ret none _, other, _, _, heq => by
    cases other with
    | expr value' => exact absurd (value'.head_mem heq.symm) (by decide)
    | ret value' =>
      cases value' with
      | none => rfl
      | some value' => simp [Stmt.form] at heq
    | _ => simp [Stmt.form] at heq
  | .loop condition body _, other, ⟨hcondition, hbody⟩, h', heq => by
    cases other with
    | expr value' => exact absurd (value'.head_mem heq.symm) (by decide)
    | loop condition' body' =>
      simp only [Stmt.form, Form.list.injEq, List.cons.injEq, true_and] at heq
      rw [Stmt.relabel, Stmt.relabel, condition.placeless_eq hcondition h'.1 heq.1,
        body.placeless_eq hbody h'.2 heq.2]
      rfl
    | ret value' => cases value' <;> simp [Stmt.form] at heq
    | _ => simp [Stmt.form] at heq
  | .cond chain _, other, h, h', heq => by
    cases other with
    | expr value' => exact absurd (value'.head_mem heq.symm) (by decide)
    | cond chain' =>
      simp only [Stmt.form, Form.list.injEq, List.cons.injEq, true_and] at heq
      rw [Stmt.relabel, Stmt.relabel, chain.placeless_eq h h' heq]
      rfl
    | ret value' => cases value' <;> simp [Stmt.form] at heq
    | _ => simp [Stmt.form] at heq

/-- Blocks in words with the same forms are the same up to places. -/
theorem Block.placeless_eq : ∀ (block : Block) {other : Block}, block.Written → other.Written →
    block.forms = other.forms → block.relabel placeless = other.relabel placeless
  | .mk stmts _, .mk others _, h, h', heq => by
    rw [Block.relabel, Block.relabel, stmts_placeless_eq stmts h h' heq]
    rfl

theorem stmts_placeless_eq : ∀ (stmts : List Stmt) {others : List Stmt}, WrittenStmts stmts →
    WrittenStmts others → stmtForms stmts = stmtForms others →
    relabelStmts placeless stmts = relabelStmts placeless others
  | [], others, _, _, heq => by
    cases others with
    | nil => rfl
    | cons => cases heq
  | stmt :: stmts, others, ⟨hstmt, hstmts⟩, h', heq => by
    cases others with
    | nil => cases heq
    | cons other others =>
      obtain ⟨hfirst, hrest⟩ := List.cons.inj heq
      rw [relabelStmts, relabelStmts, stmt.placeless_eq hstmt h'.1 hfirst,
        stmts_placeless_eq stmts hstmts h'.2 hrest]

theorem Chain.placeless_eq : ∀ (chain : Chain) {other : Chain}, chain.Written → other.Written →
    chain.forms = other.forms → chain.relabel placeless = other.relabel placeless
  | .done, other, _, _, heq => by
    cases other with
    | done => rfl
    | otherwise => cases heq
    | branch => cases heq
  | .otherwise body, other, h, h', heq => by
    cases other with
    | done => cases heq
    | otherwise body' =>
      simp only [Chain.forms, List.cons.injEq, Form.list.injEq, true_and, and_true] at heq
      rw [Chain.relabel, Chain.relabel, body.placeless_eq h h' heq]
    | branch => simp [Chain.forms] at heq
  | .branch condition body rest, other, ⟨hcondition, hbody, hrest⟩, h', heq => by
    cases other with
    | done => cases heq
    | otherwise => simp [Chain.forms] at heq
    | branch condition' body' rest' =>
      obtain ⟨hcondition', hbody', hrest'⟩ := h'
      simp only [Chain.forms, List.cons.injEq, Form.list.injEq, true_and] at heq
      rw [Chain.relabel, Chain.relabel,
        condition.placeless_eq hcondition hcondition' heq.1.1,
        body.placeless_eq hbody hbody' heq.1.2, rest.placeless_eq hrest hrest' heq.2]

end

end StackScript.Syntax

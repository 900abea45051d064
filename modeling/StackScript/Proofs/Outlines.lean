import Mathlib.Data.List.Induction
import StackScript.Syntax.Tree

/-!
# Where the nodes of a tree stand

An outline is a tree reduced to where its nodes stand. It is faithful to a text (`Outline.Faithful`)
if every mark in it is that of a place in the text, every node stands inside the node around it, and
nodes side by side stand in order without overlap. Outlines that stand in order between two offsets
(`Outline.Lined`) can be put together, taken apart, and covered by one that reaches from the first
to the last of them (`Lined.merge`).
-/

namespace StackScript.Source

/-! ## Places in a text -/

/-- The mark is that of a place in the text: its offset counts the bytes before the place, its line
the line feeds before it and its column the characters after the last of them, each from one. -/
def Mark.Faithful (text : List Char) (mark : Mark) : Prop :=
  ∃ before after, text = before ++ after ∧ mark.offset = byteLength before ∧
    mark.line = before.count '\n' + 1 ∧
    mark.column = (before.reverse.takeWhile (· ≠ '\n')).length + 1

theorem byteLength_append (cs ds : List Char) :
    byteLength (cs ++ ds) = byteLength cs + byteLength ds := by
  induction cs with
  | nil => exact (Nat.zero_add _).symm
  | cons c cs ih => rw [List.cons_append, byteLength, byteLength, ih, Nat.add_assoc]

theorem Mark.after_append (mark : Mark) (cs ds : List Char) :
    mark.after (cs ++ ds) = (mark.after cs).after ds := List.foldl_append

theorem Mark.after_concat (mark : Mark) (cs : List Char) (c : Char) :
    mark.after (cs ++ [c]) = (mark.after cs).next c := by
  rw [Mark.after, List.foldl_append]
  rfl

/-- Counting characters one by one gives the line and the column of a place. -/
theorem Mark.line_and_column_after (cs : List Char) :
    (Mark.first.after cs).line = cs.count '\n' + 1 ∧
      (Mark.first.after cs).column = (cs.reverse.takeWhile (· ≠ '\n')).length + 1 := by
  induction cs using List.reverseRecOn with
  | nil => exact ⟨rfl, rfl⟩
  | append_singleton cs c ih =>
    obtain ⟨hline, hcolumn⟩ := ih
    rw [Mark.after_concat, Mark.next, List.count_append, List.reverse_append]
    by_cases hc : c = '\n'
    · subst hc
      simp [hline]
    · simp [hc, hline, hcolumn]

theorem Mark.faithful_after {text before after : List Char} (h : text = before ++ after) :
    (Mark.first.after before).Faithful text := by
  obtain ⟨hline, hcolumn⟩ := Mark.line_and_column_after before
  refine ⟨before, after, h, ?_, hline, hcolumn⟩
  rw [Mark.offset_after]
  exact Nat.zero_add _

/-- Places of one text with as many bytes before them have the same text before them. -/
theorem eq_of_byteLength {before before' after after' : List Char}
    (htext : before ++ after = before' ++ after') (h : byteLength before = byteLength before') :
    before = before' := by
  induction before generalizing before' with
  | nil =>
    cases before' with
    | nil => rfl
    | cons c cs =>
      have := c.utf8Size_pos
      simp only [byteLength] at h
      omega
  | cons c cs ih =>
    cases before' with
    | nil =>
      have := c.utf8Size_pos
      simp only [byteLength] at h
      omega
    | cons d ds =>
      obtain ⟨rfl, hmore⟩ := List.cons.inj htext
      rw [ih hmore (Nat.add_left_cancel h)]

/-- The offset of a place settles its line and its column. -/
theorem Mark.Faithful.unique {text : List Char} {a b : Mark} (ha : a.Faithful text)
    (hb : b.Faithful text) (h : a.offset = b.offset) : a = b := by
  obtain ⟨before, after, htext, hoffset, hline, hcolumn⟩ := ha
  obtain ⟨before', after', htext', hoffset', hline', hcolumn'⟩ := hb
  obtain rfl : before = before' :=
    eq_of_byteLength (htext.symm.trans htext') (hoffset.symm.trans (h.trans hoffset'))
  cases a
  cases b
  simp only [Mark.mk.injEq]
  exact ⟨h, hline.trans hline'.symm, hcolumn.trans hcolumn'.symm⟩

/-- The span is a stretch of the text. -/
structure Span.Faithful (text : List Char) (span : Span) : Prop where
  start : span.start.Faithful text
  stop : span.stop.Faithful text
  ordered : span.start.offset ≤ span.stop.offset

/-- The span that covers two, the first of which starts no later and stops no later, reaches from
the start of the first to the stop of the second. -/
theorem Span.Faithful.merge_eq {text : List Char} {a b : Span} (ha : a.Faithful text)
    (hb : b.Faithful text) (hstart : a.start.offset ≤ b.start.offset)
    (hstop : a.stop.offset ≤ b.stop.offset) : a.merge b = ⟨a.start, b.stop⟩ := by
  have hlast : (if b.stop.offset ≤ a.stop.offset then a.stop else b.stop) = b.stop := by
    split
    · exact ha.stop.unique hb.stop (Nat.le_antisymm hstop ‹_›)
    · rfl
  rw [Span.merge, if_pos hstart, hlast]

/-! ## Outlines -/

/-- A tree reduced to where its nodes stand. -/
inductive Outline where
  | node (span : Span) (parts : List Outline)

namespace Outline

/-- Where the outermost node stands. -/
def span : Outline → Span
  | node span _ => span

/-- Every node stands where its span says, inside the node around it, and after the nodes that come
before it there. -/
inductive Faithful (text : List Char) : Outline → Prop where
  | node {span : Span} {parts : List Outline} (hspan : span.Faithful text)
      (hinside : ∀ part ∈ parts, span.start.offset ≤ part.span.start.offset ∧
        part.span.stop.offset ≤ span.stop.offset)
      (hordered : parts.Pairwise fun a b => a.span.stop.offset ≤ b.span.start.offset)
      (hparts : ∀ part ∈ parts, part.Faithful text) : Faithful text (node span parts)

theorem Faithful.spanFaithful {text : List Char} {outline : Outline} (h : outline.Faithful text) :
    outline.span.Faithful text := by
  cases h with
  | node hspan _ _ _ => exact hspan

/-- The outlines are faithful, and stand one after the other between the offsets. -/
inductive Lined (text : List Char) : Nat → List Outline → Nat → Prop where
  | nil {low high : Nat} (h : low ≤ high) : Lined text low [] high
  | cons {low high : Nat} {first : Outline} {rest : List Outline}
      (hlow : low ≤ first.span.start.offset) (hfirst : first.Faithful text)
      (hrest : Lined text first.span.stop.offset rest high) : Lined text low (first :: rest) high

/-- The outlines stand in order inside the one, if that is faithful. -/
def Holds (text : List Char) (outline : Outline) (outlines : List Outline) : Prop :=
  outline.Faithful text → Lined text outline.span.start.offset outlines outline.span.stop.offset

namespace Lined

variable {text : List Char} {low mid high : Nat} {first second : Outline}
  {outlines others : List Outline}

theorem le (h : Lined text low outlines high) : low ≤ high := by
  induction h with
  | nil h => exact h
  | cons hlow hfirst _ ih => exact Nat.le_trans hlow (Nat.le_trans hfirst.spanFaithful.ordered ih)

/-- The offset in front may be earlier. -/
theorem earlier (h : Lined text mid outlines high) (hle : low ≤ mid) :
    Lined text low outlines high := by
  cases h with
  | nil h => exact .nil (Nat.le_trans hle h)
  | cons hlow hfirst hrest => exact .cons (Nat.le_trans hle hlow) hfirst hrest

theorem append (h : Lined text low outlines mid) (hothers : Lined text mid others high) :
    Lined text low (outlines ++ others) high := by
  induction h with
  | nil h => exact hothers.earlier h
  | cons hlow hfirst _ ih => exact .cons hlow hfirst (ih hothers)

theorem append_inv (h : Lined text low (outlines ++ others) high) :
    ∃ mid, Lined text low outlines mid ∧ Lined text mid others high := by
  induction outlines generalizing low with
  | nil => exact ⟨low, .nil (Nat.le_refl low), h⟩
  | cons first rest ih =>
    cases h with
    | cons hlow hfirst hrest =>
      obtain ⟨mid, hrest, hothers⟩ := ih hrest
      exact ⟨mid, .cons hlow hfirst hrest, hothers⟩

/-- What the first outline holds may take its place, and what stands wherever the rest does, the
place of the rest. -/
theorem replace {more : List Outline} (h : Lined text low (first :: outlines) high)
    (hothers : first.Holds text others)
    (hmore : ∀ {mid}, Lined text mid outlines high → Lined text mid more high) :
    Lined text low (others ++ more) high := by
  cases h with
  | cons hlow hfirst hrest => exact ((hothers hfirst).earlier hlow).append (hmore hrest)

/-- What the first outline holds stands between the offsets. -/
theorem head (h : Lined text low (first :: outlines) high) (hothers : first.Holds text others) :
    Lined text low others high := by
  have hmore := h.replace hothers fun hrest => .nil hrest.le
  rwa [List.append_nil] at hmore

/-- What the first two outlines hold stands between the offsets. -/
theorem heads {more : List Outline} (h : Lined text low (first :: second :: outlines) high)
    (hothers : first.Holds text others) (hmore : second.Holds text more) :
    Lined text low (others ++ more) high := h.replace hothers fun hrest => hrest.head hmore

/-- Two outlines stand between the start of the first and the stop of the second. -/
theorem pair (h : Lined text low [first, second] high) :
    Lined text first.span.start.offset [first, second] second.span.stop.offset := by
  cases h with
  | cons _ hfirst hrest =>
    cases hrest with
    | cons hnext hsecond _ =>
      exact .cons (Nat.le_refl _) hfirst (.cons hnext hsecond (.nil (Nat.le_refl _)))

theorem tail (h : Lined text low (first :: outlines) high) : Lined text low outlines high := by
  cases h with
  | cons hlow hfirst hrest => exact hrest.earlier (Nat.le_trans hlow hfirst.spanFaithful.ordered)

theorem faithful (h : Lined text low outlines high) :
    ∀ outline ∈ outlines, outline.Faithful text := by
  induction h with
  | nil _ => exact List.forall_mem_nil _
  | cons _ hfirst _ ih => exact List.forall_mem_cons.mpr ⟨hfirst, ih⟩

/-- Outlines in order between two offsets stand between them. -/
theorem inside (h : Lined text low outlines high) :
    ∀ outline ∈ outlines, low ≤ outline.span.start.offset ∧ outline.span.stop.offset ≤ high := by
  induction h with
  | nil _ => exact List.forall_mem_nil _
  | @cons low high first rest hlow hfirst hrest ih =>
    refine List.forall_mem_cons.mpr ⟨⟨hlow, hrest.le⟩, fun outline houtline => ?_⟩
    obtain ⟨hstart, hstop⟩ := ih outline houtline
    exact ⟨Nat.le_trans hlow (Nat.le_trans hfirst.spanFaithful.ordered hstart), hstop⟩

/-- Outlines in order do not overlap. -/
theorem pairwise (h : Lined text low outlines high) :
    outlines.Pairwise fun a b => a.span.stop.offset ≤ b.span.start.offset := by
  induction h with
  | nil _ => exact .nil
  | cons _ _ hrest ih => exact .cons (fun outline houtline => (hrest.inside outline houtline).1) ih

/-- A node is faithful if what is inside it stands in order. -/
theorem node_faithful {span : Span} (hspan : span.Faithful text)
    (h : Lined text span.start.offset outlines span.stop.offset) :
    (node span outlines).Faithful text := .node hspan h.inside h.pairwise h.faithful

/-- A node that reaches from one outline to the next one may stand in place of both, with whatever
stands in order between its ends inside it. -/
theorem merge (h : Lined text low [first, second] high)
    (hothers : Lined text first.span.start.offset others second.span.stop.offset) :
    Lined text low [.node (first.span.merge second.span) others] high := by
  cases h with
  | cons hlow hfirst hrest =>
    cases hrest with
    | cons hnext hsecond hlast =>
      have hfirstSpan := hfirst.spanFaithful
      have hsecondSpan := hsecond.spanFaithful
      have hmerged := hfirstSpan.merge_eq hsecondSpan
        (Nat.le_trans hfirstSpan.ordered hnext) (Nat.le_trans hnext hsecondSpan.ordered)
      have hspan : (first.span.merge second.span).Faithful text := by
        rw [hmerged]
        exact ⟨hfirstSpan.start, hsecondSpan.stop, hothers.le⟩
      rw [hmerged] at hspan ⊢
      exact .cons hlow (node_faithful hspan hothers) (.nil hlast.le)

end Lined

/-- What is inside a faithful node stands in order. -/
theorem Faithful.lined {text : List Char} {span : Span} {parts : List Outline}
    (h : (Outline.node span parts).Faithful text) :
    Lined text span.start.offset parts span.stop.offset := by
  cases h with
  | node hspan hinside hordered hparts =>
    have hle := hspan.ordered
    -- the next outline starts after the last one stopped, not only inside the node
    generalize span.start.offset = low at hinside hle
    induction parts generalizing low with
    | nil => exact .nil hle
    | cons first rest ih =>
      obtain ⟨hfirst, hrest⟩ := List.forall_mem_cons.mp hinside
      obtain ⟨hfaithful, hmore⟩ := List.forall_mem_cons.mp hparts
      obtain ⟨hnext, hordered⟩ := List.pairwise_cons.mp hordered
      refine .cons hfirst.1 hfaithful (ih hordered hmore _ ?_ hfirst.2)
      exact fun part hpart => ⟨hnext part hpart, (hrest part hpart).2⟩

namespace Holds

variable {text : List Char} {outline : Outline} {span : Span} {parts outlines : List Outline}

theorem self : outline.Holds text [outline] := fun h =>
  .cons (Nat.le_refl _) h (.nil (Nat.le_refl _))

/-- A node holds what stands where its parts do. -/
theorem of_parts (h : Lined text span.start.offset parts span.stop.offset →
    Lined text span.start.offset outlines span.stop.offset) :
    (node span parts).Holds text outlines := fun hfaithful => h hfaithful.lined

/-- A node of the same span holds what the outline holds. -/
theorem node (h : outline.Holds text outlines) : outline.Holds text [.node outline.span outlines] :=
  fun hfaithful => self (Lined.node_faithful hfaithful.spanFaithful (h hfaithful))

end Holds

end Outline

end StackScript.Source

namespace StackScript.Syntax

open StackScript.Source

/-! ## Outlines of syntax trees -/

/-- The outline of a node with no nodes inside. -/
def leaf (span : Span) : Outline := .node span []

/-- The outline of a name. -/
def Ident.outline (ident : Ident) : Outline := leaf ident.span

/-- The outline of a type annotation. -/
def TypeRef.outline (ref : TypeRef) : Outline := leaf ref.span

/-- The outline of a parameter: its name and its type. -/
def Param.outline (param : Param) : Outline :=
  .node param.span [param.name.outline, param.type.outline]

mutual

/-- The outline of an expression: its operands, or the names and the arguments of a call. -/
def Expr.outline : Expr → Outline
  | .int _ note | .bool _ note | .string _ note => leaf note.span
  | .var name note => .node note.span [name.outline]
  | .call receiver method args _ note =>
    .node note.span (receiver.toList.map Ident.outline ++ method.outline :: exprOutlines args)
  | .index array position note => .node note.span [array.outline, position.outline]
  | .length value note => .node note.span [value.outline]
  | .unary _ operand note => .node note.span [operand.outline]
  | .binary _ left right note => .node note.span [left.outline, right.outline]

/-- The outlines of expressions. -/
def exprOutlines : List Expr → List Outline
  | [] => []
  | value :: values => value.outline :: exprOutlines values

end

mutual

/-- The outline of a statement: its names, expressions and blocks. -/
def Stmt.outline : Stmt → Outline
  | .expr value span | .puts value span | .raise value span => .node span [value.outline]
  | .assign target value span => .node span [target.outline, value.outline]
  | .cond chain span => .node span chain.outlines
  | .loop condition body span => .node span [condition.outline, body.outline]
  | .ret value span => .node span (value.toList.map Expr.outline)

/-- The outline of a block: its statements. -/
def Block.outline : Block → Outline
  | .mk stmts span => .node span (stmtOutlines stmts)

/-- The outlines of statements. -/
def stmtOutlines : List Stmt → List Outline
  | [] => []
  | stmt :: stmts => stmt.outline :: stmtOutlines stmts

/-- The outlines of the conditions and blocks of a conditional. -/
def Chain.outlines : Chain → List Outline
  | .done => []
  | .otherwise body => [body.outline]
  | .branch condition body rest => condition.outline :: body.outline :: rest.outlines

end

/-- The outline of a method: its name, parameters, return type and body. -/
def Method.outline (method : Method) : Outline :=
  .node method.span (method.name.outline :: (method.params.map Param.outline ++
    (method.ret.toList.map TypeRef.outline ++ [method.body.outline])))

mutual

/-- The outline of a class: its name and its members. -/
def ClassDef.outline : ClassDef → Outline
  | .mk name members _ span => .node span (name.outline :: memberOutlines members)

/-- The outlines of members. -/
def memberOutlines : List Member → List Outline
  | [] => []
  | .method m :: members => m.outline :: memberOutlines members
  | .nested c :: members => c.outline :: memberOutlines members

end

/-- The outline of an item. -/
def Item.outline : Item → Outline
  | .cls c => c.outline
  | .method m => m.outline
  | .stmt s => s.outline

/-- The outline of a package declaration. -/
def Package.outline (package : Package) : Outline := leaf package.span

/-- The outline of a unit: its package declaration and its items. -/
def Program.outline (program : Program) : Outline :=
  .node program.span (program.package.toList.map Package.outline ++
    program.items.map Item.outline)

/-! ## Outlines and spans -/

theorem holds_leaf {text : List Char} {outline : Outline} :
    outline.Holds text [leaf outline.span] :=
  Outline.Holds.node fun h => .nil h.spanFaithful.ordered

@[simp] theorem Expr.outline_span (e : Expr) : e.outline.span = e.span := by
  cases e <;> rfl

end StackScript.Syntax

import StackScript.Proofs.Confluence
import StackScript.Proofs.Relabelling
import StackScript.Typing.Keeping

/-!
# Typing a tree that is typed already

Typing reads nothing of the types and call targets that a tree carries: what it finds is what it
finds in the bare tree (`Site.infer_bare`). What it writes replaces what an earlier typing wrote,
even one that knew less, so that typing the result of the earlier one is typing the tree
(`Site.infer_infer`). The first needs that no fault leaves an old call target standing, the second
that both typings find the same targets (`Site.SameCallees`).
-/

namespace StackScript.Typing

open StackScript.Source StackScript.Syntax

/-! ## What typing writes -/

/-- To use an expression as a value writes nothing into it. -/
theorem Typed.expr_asValue (typed : Typed) : typed.asValue.expr = typed.expr := by
  unfold Typed.asValue
  split <;> rfl

/-- What is written into a local is its type. -/
theorem typeVar_expr (locals : Locals) (name : Ident) (note : Note) :
    (typeVar locals name note).expr =
      (Expr.var name note).setType (typeVar locals name note).type := by
  unfold typeVar
  split <;> rfl

/-- What is written into an element is its type, besides what its parts have. -/
theorem typeIndex_expr (array position : Typed) (note : Note) :
    (typeIndex array position note).expr = (Expr.index array.expr position.expr note).setType
      (typeIndex array position note).type := by
  unfold typeIndex
  simp only
  split <;> rfl

theorem typeLength_expr (value : Typed) (note : Note) :
    (typeLength value note).expr =
      (Expr.length value.expr note).setType (typeLength value note).type := by
  unfold typeLength
  simp only
  split <;> rfl

theorem typeUnary_expr (op : UnaryOp) (operand : Typed) (note : Note) :
    (typeUnary op operand note).expr =
      (Expr.unary op operand.expr note).setType (typeUnary op operand note).type := by
  unfold typeUnary
  simp only
  split
  · rfl
  · split <;> rfl

theorem typeBinary_expr (op : BinaryOp) (left right : Typed) (note : Note) :
    (typeBinary op left right note).expr =
      (Expr.binary op left.expr right.expr note).setType (typeBinary op left right note).type := by
  unfold typeBinary
  simp only
  split
  · split <;> rfl
  · rfl

/-- The class that a call goes to and its method there, or the fault of the target. -/
def Site.goal (site : Site) (receiver : Option Ident) (method : Ident) :
    Except (TypeFault × Span) (String × Option MethodEntry) :=
  (site.target receiver method).map fun found => (found.1, found.2.bind (·.method? method.name))

/-- A call is typed from the method that it reaches. -/
theorem Site.call_eq (site : Site) (receiver : Option Ident) (method : Ident) (args : List Typed)
    (resolved : Option String) (note : Note) :
    site.call receiver method args resolved note =
      typeCall (site.goal receiver method) receiver method args resolved note := by
  rw [Site.goal]
  rcases htarget : site.target receiver method with ⟨fault, span⟩ | ⟨cls, entry⟩
  · simp only [Site.call, htarget]
    rfl
  · cases hm : entry.bind (·.method? method.name) <;>
      simp only [Site.call, htarget, Except.map, hm] <;> rfl

/-- The class that a call goes to, if it has the method. -/
def Site.callee? (site : Site) (receiver : Option Ident) (method : Ident) : Option String :=
  match site.target receiver method with
  | .error _ => none
  | .ok (cls, entry) => (entry.bind (·.method? method.name)).map fun _ => cls

/-- A call keeps the target that it has, unless it finds one. -/
theorem Site.call_expr (site : Site) (receiver : Option Ident) (method : Ident)
    (args : List Typed) (resolved : Option String) (note : Note) :
    (site.call receiver method args resolved note).expr =
      (Expr.call receiver method (args.map Typed.expr)
        ((site.callee? receiver method).or resolved) note).setType
          (site.call receiver method args resolved note).type := by
  rcases htarget : site.target receiver method with ⟨fault, span⟩ | ⟨cls, entry⟩
  · simp only [Site.call, Site.callee?, htarget]
    rfl
  · cases hm : entry.bind (·.method? method.name) <;>
      simp only [Site.call, Site.callee?, htarget, hm] <;> rfl

/-! ## What typing reads -/

section

variable {site : Site} {locals : Locals}

theorem typeVar_note (name : Ident) (note : Note) (type : Option Ty) :
    typeVar locals name ⟨note.span, type⟩ = typeVar locals name note := by
  unfold typeVar
  split <;> rfl

theorem typeIndex_note (array position : Typed) (note : Note) (type : Option Ty) :
    typeIndex array position ⟨note.span, type⟩ = typeIndex array position note := by
  unfold typeIndex
  simp only
  split <;> rfl

theorem typeLength_note (value : Typed) (note : Note) (type : Option Ty) :
    typeLength value ⟨note.span, type⟩ = typeLength value note := by
  unfold typeLength
  simp only
  split <;> rfl

theorem typeUnary_note (op : UnaryOp) (operand : Typed) (note : Note) (type : Option Ty) :
    typeUnary op operand ⟨note.span, type⟩ = typeUnary op operand note := by
  unfold typeUnary
  simp only
  split
  · rfl
  · split <;> rfl

theorem typeBinary_note (op : BinaryOp) (left right : Typed) (note : Note) (type : Option Ty) :
    typeBinary op left right ⟨note.span, type⟩ = typeBinary op left right note := by
  unfold typeBinary
  simp only
  split
  · split <;> rfl
  · rfl

/-- The type that a call had is not read. -/
theorem typeCall_note (target : Except (TypeFault × Span) (String × Option MethodEntry))
    (receiver : Option Ident) (method : Ident) (args : List Typed) (resolved : Option String)
    (note : Note) (type : Option Ty) :
    typeCall target receiver method args resolved ⟨note.span, type⟩ =
      typeCall target receiver method args resolved note := by
  unfold typeCall
  simp only
  split <;> rfl

/-- Nor is it when the method is looked for. -/
theorem Site.call_note (receiver : Option Ident) (method : Ident) (args : List Typed)
    (resolved : Option String) (note : Note) (type : Option Ty) :
    site.call receiver method args resolved ⟨note.span, type⟩ =
      site.call receiver method args resolved note := by
  rw [Site.call_eq, typeCall_note, Site.call_eq]

/-- Of the target that a call has, nothing is left when it finds one. -/
theorem Site.call_resolved (receiver : Option Ident) (method : Ident) (args : List Typed)
    (resolved : Option String) (note : Note) :
    site.call receiver method args ((site.callee? receiver method).or resolved) note =
      site.call receiver method args resolved note := by
  rcases htarget : site.target receiver method with ⟨fault, span⟩ | ⟨cls, entry⟩
  · simp only [Site.call, Site.callee?, htarget]
    rfl
  · cases hm : entry.bind (·.method? method.name) with
    | none =>
      simp only [Site.call, Site.callee?, htarget, hm]
      rfl
    | some m => simp only [Site.call, htarget, hm]

end

/-! ## Expressions -/

section

variable {site before after : Site} {locals : Locals}

mutual

/-- Typing an expression writes only types and targets. -/
theorem Site.bare_infer (site : Site) (locals : Locals) : ∀ e : Expr,
    (site.infer locals e).expr.relabel bare = e.relabel bare
  | .int _ _ => rfl
  | .bool _ _ => rfl
  | .string _ _ => rfl
  | .var name note => by rw [Site.infer, typeVar_expr, Expr.bare_setType]
  | .call receiver method args resolved note => by
    rw [Site.infer, Site.call_expr, Expr.bare_setType, Expr.relabel, Expr.relabel,
      Site.bare_inferValues site locals args]
    rfl
  | .index array position note => by
    rw [Site.infer, typeIndex_expr, Expr.bare_setType, Expr.relabel, Expr.relabel,
      Typed.expr_asValue, Typed.expr_asValue, Site.bare_infer site locals array,
      Site.bare_infer site locals position]
  | .length value note => by
    rw [Site.infer, typeLength_expr, Expr.bare_setType, Expr.relabel, Expr.relabel,
      Typed.expr_asValue, Site.bare_infer site locals value]
  | .unary op operand note => by
    rw [Site.infer, typeUnary_expr, Expr.bare_setType, Expr.relabel, Expr.relabel,
      Typed.expr_asValue, Site.bare_infer site locals operand]
  | .binary op left right note => by
    rw [Site.infer, typeBinary_expr, Expr.bare_setType, Expr.relabel, Expr.relabel,
      Typed.expr_asValue, Typed.expr_asValue, Site.bare_infer site locals left,
      Site.bare_infer site locals right]

theorem Site.bare_inferValues (site : Site) (locals : Locals) : ∀ es : List Expr,
    relabelExprs bare ((site.inferValues locals es).map Typed.expr) = relabelExprs bare es
  | [] => rfl
  | e :: es => by
    rw [Site.inferValues, List.map_cons, relabelExprs, relabelExprs, Typed.expr_asValue,
      Site.bare_infer site locals e, Site.bare_inferValues site locals es]

end

/-- Both sites find the same targets. -/
def Site.SameCallees (before after : Site) : Prop :=
  ∀ receiver method, before.callee? receiver method = after.callee? receiver method

mutual

/-- Typing an expression that was typed where calls have the same targets replaces all that was
written into it. -/
theorem Site.infer_infer (h : before.SameCallees after) (locals earlier : Locals) : ∀ e : Expr,
    after.infer locals (before.infer earlier e).expr = after.infer locals e
  | .int _ _ => rfl
  | .bool _ _ => rfl
  | .string _ _ => rfl
  | .var name note => by
    rw [Site.infer, typeVar_expr]
    exact typeVar_note name note _
  | .call receiver method args resolved note => by
    rw [Site.infer, Site.call_expr, h]
    refine (Site.call_note _ _ _ _ note _).trans ?_
    rw [Site.inferValues_inferValues h locals earlier args]
    exact Site.call_resolved _ _ _ _ _
  | .index array position note => by
    rw [Site.infer, typeIndex_expr]
    refine (typeIndex_note _ _ note _).trans ?_
    rw [Typed.expr_asValue, Typed.expr_asValue, Site.infer_infer h locals earlier array,
      Site.infer_infer h locals earlier position]
    rfl
  | .length value note => by
    rw [Site.infer, typeLength_expr]
    refine (typeLength_note _ note _).trans ?_
    rw [Typed.expr_asValue, Site.infer_infer h locals earlier value]
    rfl
  | .unary op operand note => by
    rw [Site.infer, typeUnary_expr]
    refine (typeUnary_note _ _ note _).trans ?_
    rw [Typed.expr_asValue, Site.infer_infer h locals earlier operand]
    rfl
  | .binary op left right note => by
    rw [Site.infer, typeBinary_expr]
    refine (typeBinary_note _ _ _ note _).trans ?_
    rw [Typed.expr_asValue, Typed.expr_asValue, Site.infer_infer h locals earlier left,
      Site.infer_infer h locals earlier right]
    rfl

theorem Site.inferValues_inferValues (h : before.SameCallees after) (locals earlier : Locals) :
    ∀ es : List Expr,
      after.inferValues locals ((before.inferValues earlier es).map Typed.expr) =
        after.inferValues locals es
  | [] => rfl
  | e :: es => by
    rw [Site.inferValues, List.map_cons, Site.inferValues, Typed.expr_asValue,
      Site.infer_infer h locals earlier e, Site.inferValues_inferValues h locals earlier es]
    rfl

end

/-- Both typings find the same. They come to the same expression, too, if that has no fault. -/
structure Typed.Alike (typed other : Typed) : Prop where
  type : typed.type = other.type
  found : typed.found = other.found
  span : typed.expr.span = other.expr.span
  expr : other.found.faults = [] → typed.expr = other.expr

namespace Typed.Alike

variable {typed other : Typed}

theorem refl (typed : Typed) : typed.Alike typed := ⟨rfl, rfl, rfl, fun _ => rfl⟩

/-- Expressions that are the same once their type is written into them. -/
theorem mk' {e e' : Expr} {type : Option Ty} {found : Findings} (hspan : e.span = e'.span)
    (h : found.faults = [] → e.setType type = e'.setType type) :
    (Typed.mk' e type found).Alike (Typed.mk' e' type found) := by
  refine ⟨rfl, rfl, ?_, h⟩
  rw [Typed.mk', Typed.mk', Expr.span_setType, Expr.span_setType, hspan]

/-- Used as values, they find the same, too. -/
theorem asValue (h : typed.Alike other) : typed.asValue.Alike other.asValue := by
  unfold Typed.asValue
  rw [h.type]
  split
  · refine ⟨rfl, ?_, h.span, fun hfaults => ?_⟩
    · rw [h.found, h.span]
    · simp at hfaults
  · exact h

end Typed.Alike

/-- Elements with parts that are typed alike are typed alike. -/
theorem typeIndex_alike {array position array' position' : Typed} (ha : array.Alike array')
    (hp : position.Alike position') (note : Note) :
    (typeIndex array position note).Alike (typeIndex array' position' note) := by
  have hpositions : positionFindings position = positionFindings position' := by
    unfold positionFindings
    rw [hp.type, hp.span]
  have hexpr : (array'.found ++ position'.found ++ positionFindings position').faults = [] →
      array.expr = array'.expr ∧ position.expr = position'.expr := by
    intro hfaults
    simp only [Findings.faults_append, List.append_eq_nil_iff] at hfaults
    exact ⟨ha.expr hfaults.1.1, hp.expr hfaults.1.2⟩
  unfold typeIndex
  simp only [ha.type, ha.found, hp.found, hpositions, ha.span]
  split
  · refine .mk' rfl fun hfaults => ?_
    rw [(hexpr hfaults).1, (hexpr hfaults).2]
  · refine .mk' rfl fun hfaults => ?_
    rw [(hexpr hfaults).1, (hexpr hfaults).2]
  · refine .mk' rfl fun hfaults => ?_
    simp at hfaults

theorem typeLength_alike {value value' : Typed} (h : value.Alike value') (note : Note) :
    (typeLength value note).Alike (typeLength value' note) := by
  unfold typeLength
  simp only [h.type, h.found]
  split
  · exact .mk' rfl fun hfaults => by rw [h.expr hfaults]
  · exact .mk' rfl fun hfaults => by rw [h.expr hfaults]
  · exact .mk' rfl fun hfaults => by rw [h.expr hfaults]
  · exact .mk' rfl fun hfaults => by simp at hfaults

theorem typeUnary_alike {operand operand' : Typed} (h : operand.Alike operand') (op : UnaryOp)
    (note : Note) : (typeUnary op operand note).Alike (typeUnary op operand' note) := by
  unfold typeUnary
  simp only [h.type, h.found]
  split
  · exact .mk' rfl fun hfaults => by rw [h.expr hfaults]
  · split
    · exact .mk' rfl fun hfaults => by rw [h.expr hfaults]
    · exact .mk' rfl fun hfaults => by simp at hfaults

/-- Operations on operands that are typed alike are typed alike. -/
theorem typeBinary_alike {left right left' right' : Typed} (hl : left.Alike left')
    (hr : right.Alike right') (op : BinaryOp) (note : Note) :
    (typeBinary op left right note).Alike (typeBinary op left' right' note) := by
  have hexpr : (left'.found ++ right'.found).faults = [] →
      left.expr = left'.expr ∧ right.expr = right'.expr := by
    intro hfaults
    simp only [Findings.faults_append, List.append_eq_nil_iff] at hfaults
    exact ⟨hl.expr hfaults.1, hr.expr hfaults.2⟩
  unfold typeBinary
  simp only [hl.type, hl.found, hr.type, hr.found]
  split
  · split
    · refine .mk' rfl fun hfaults => ?_
      rw [(hexpr hfaults).1, (hexpr hfaults).2]
    · exact .mk' rfl fun hfaults => by simp at hfaults
  · refine .mk' rfl fun hfaults => ?_
    rw [(hexpr hfaults).1, (hexpr hfaults).2]

/-- What is found in arguments, in order. -/
def argsFound (args : List Typed) : Findings :=
  args.foldr (fun arg found => arg.found ++ found) {}

section Arguments

variable {args args' : List Typed} (h : List.Forall₂ Typed.Alike args args')

include h

/-- The same is found in arguments that are typed alike. -/
theorem argsFound_alike : argsFound args = argsFound args' := by
  induction h with
  | nil => rfl
  | cons harg _ ih => rw [argsFound, List.foldr_cons, harg.found, ← argsFound, ih]; rfl

/-- Arguments that are typed alike and have no fault are the same. -/
theorem exprs_alike (hfaults : (argsFound args').faults = []) :
    args.map Typed.expr = args'.map Typed.expr := by
  induction h with
  | nil => rfl
  | cons harg _ ih =>
    rw [argsFound, List.foldr_cons, ← argsFound, Findings.faults_append,
      List.append_eq_nil_iff] at hfaults
    rw [List.map_cons, List.map_cons, harg.expr hfaults.1, ih hfaults.2]

theorem argumentFaults_alike (cls method : String) (number : Nat) (params : List (Option Ty)) :
    argumentFaults cls method number params args =
      argumentFaults cls method number params args' := by
  induction h generalizing number params with
  | nil => cases params with
    | nil => rfl
    | cons param params => cases param <;> rfl
  | cons harg _ ih =>
    cases params with
    | nil => rfl
    | cons param params =>
      cases param with
      | none => exact ih _ _
      | some expected => rw [argumentFaults, argumentFaults, harg.type, harg.span, ih]

/-- A method is called in vain for the same reasons. -/
theorem callFindings_alike (cls : String) (entry : MethodEntry) (span : Span) :
    callFindings cls entry args span = callFindings cls entry args' span := by
  rw [callFindings, callFindings, h.length_eq, argumentFaults_alike h]

/-- A call finds the same whatever target it has, and has the target that it finds. -/
theorem typeCall_alike (target : Except (TypeFault × Span) (String × Option MethodEntry))
    (receiver : Option Ident) (method : Ident) (resolved : Option String) (note : Note) :
    (typeCall target receiver method args resolved note).Alike
      (typeCall target receiver method args' none note) := by
  have hfound := argsFound_alike h
  unfold argsFound at hfound
  unfold typeCall
  simp only [hfound, callFindings_alike h]
  split
  · exact .mk' rfl fun hfaults => by simp at hfaults
  · exact .mk' rfl fun hfaults => by simp at hfaults
  · refine .mk' rfl fun hfaults => ?_
    rw [Findings.faults_append, List.append_eq_nil_iff] at hfaults
    rw [exprs_alike h hfaults.1]

end Arguments

mutual

/-- **Typing reads no types and no targets.** An expression is typed as its bare form is; the one
trace of what it carried may be left by a fault. -/
theorem Site.infer_bare (site : Site) (locals : Locals) : ∀ e : Expr,
    (site.infer locals e).Alike (site.infer locals (e.relabel bare))
  | .int _ _ => .refl _
  | .bool _ _ => .refl _
  | .string _ _ => .refl _
  | .var name note => by
    rw [Expr.relabel, Site.infer, Site.infer, Note.relabel]
    exact (typeVar_note name note none).symm ▸ .refl _
  | .call receiver method args resolved note => by
    rw [Expr.relabel, Site.infer, Site.infer, map_relabel_bare]
    rw [Site.call_eq, Site.call_eq]
    exact (typeCall_note _ receiver method _ _ note none).symm ▸
      typeCall_alike (Site.inferValues_bare site locals args) _ receiver method resolved note
  | .index array position note => by
    rw [Expr.relabel, Site.infer, Site.infer]
    exact (typeIndex_note _ _ note none).symm ▸
      typeIndex_alike (Site.infer_bare site locals array).asValue
        (Site.infer_bare site locals position).asValue note
  | .length value note => by
    rw [Expr.relabel, Site.infer, Site.infer]
    exact (typeLength_note _ note none).symm ▸
      typeLength_alike (Site.infer_bare site locals value).asValue note
  | .unary op operand note => by
    rw [Expr.relabel, Site.infer, Site.infer]
    exact (typeUnary_note op _ note none).symm ▸
      typeUnary_alike (Site.infer_bare site locals operand).asValue op note
  | .binary op left right note => by
    rw [Expr.relabel, Site.infer, Site.infer]
    exact (typeBinary_note op _ _ note none).symm ▸
      typeBinary_alike (Site.infer_bare site locals left).asValue
        (Site.infer_bare site locals right).asValue op note

theorem Site.inferValues_bare (site : Site) (locals : Locals) : ∀ es : List Expr,
    List.Forall₂ Typed.Alike (site.inferValues locals es)
      (site.inferValues locals (relabelExprs bare es))
  | [] => .nil
  | e :: es => .cons (Site.infer_bare site locals e).asValue (Site.inferValues_bare site locals es)

end

end

end StackScript.Typing

import StackScript.Proofs.Confluence
import StackScript.Proofs.Generating

/-!
# What a body waits for

The return type of a method stays open only because of calls in its body to methods whose return
types are open, too (`Site.exists_pendingTarget`); nothing else that is wrong with a body holds it
up. What a call waits for is settled when the batch is declared: as more return types are found,
some calls have nothing to wait for any more, but none has something else to wait for
(`Site.Refines.pendingTarget`).
-/

namespace StackScript.Typing

open StackScript.Session StackScript.Source StackScript.Syntax

/-! ## Pending calls -/

/-- The class and the name of the method that a call waits for: the one it goes to, if the return
type of that one is not found yet. -/
def Site.pendingTarget? (site : Site) : Expr → Option (String × String)
  | .call receiver method _ _ _ =>
    match site.target receiver method with
    | .error _ => none
    | .ok (cls, entry) =>
      match entry.bind (·.method? method.name) with
      | none => none
      | some m => if m.ret = .pending then some (cls, method.name) else none
  | _ => none

/-- A call to a method with an open return type waits for that method. -/
theorem Site.pendingTarget?_call {site : Site} {receiver : Option Ident} {method : Ident}
    {cls : String} {entry : Option ClassEntry} {m : MethodEntry}
    (htarget : site.target receiver method = .ok (cls, entry))
    (hm : entry.bind (·.method? method.name) = some m) (hret : m.ret = .pending)
    (args : List Expr) (resolved : Option String) (note : Note) :
    site.pendingTarget? (.call receiver method args resolved note) = some (cls, method.name) := by
  simp only [pendingTarget?, htarget, hm, if_pos hret]

/-- Only calls wait, and only for methods whose return types are not found yet. -/
theorem Site.pendingTarget?_eq_some {site : Site} {e : Expr} {x : String × String}
    (h : site.pendingTarget? e = some x) :
    ∃ receiver method args resolved note entry m,
      e = .call receiver method args resolved note ∧ x.2 = method.name ∧
        site.target receiver method = .ok (x.1, entry) ∧
        entry.bind (·.method? method.name) = some m ∧ m.ret = .pending := by
  cases e with
  | call receiver method args resolved note =>
    simp only [pendingTarget?] at h
    split at h
    · cases h
    · rename_i cls entry htarget
      split at h
      · cases h
      · rename_i m hm
        split at h
        · rename_i hret
          cases h
          exact ⟨receiver, method, args, resolved, note, entry, m, rfl, rfl, htarget, hm, hret⟩
        · cases h
  | _ => cases h

/-- A method that is waited for is on record, without a return type. Classes from outside declare
the return types of their methods. -/
theorem Site.method?_of_pendingTarget {site : Site} {e : Expr} {x : String × String}
    (h : site.pendingTarget? e = some x) :
    ∃ m, site.registry.method? x.1 x.2 = some m ∧ m.ret = .pending := by
  obtain ⟨receiver, method, args, resolved, note, entry, m, rfl, hname, htarget, hm, hret⟩ :=
    pendingTarget?_eq_some h
  obtain ⟨hm', hoffers⟩ := site.offers_of_target htarget hm
  rw [hname, ← hm']
  cases hoffers with
  | onRecord hentry => exact ⟨m, hentry, hret⟩
  | outside _ _ _ hentry =>
    obtain ⟨sig, -, rfl⟩ := ClassEntry.mem_ofSig (List.mem_of_find?_eq_some hentry)
    cases hret

/-- What a call waits for with more knowledge, it waits for with less. -/
theorem Site.Refines.pendingTarget {before after : Site} (h : before.Refines after) {e : Expr}
    {x : String × String} (hx : after.pendingTarget? e = some x) :
    before.pendingTarget? e = some x := by
  obtain ⟨receiver, method, args, resolved, note, entry, m, rfl, hname, htarget, hm, hret⟩ :=
    Site.pendingTarget?_eq_some hx
  obtain ⟨found, old, hbefore, hold, ⟨ret, rfl, hsettles⟩, -⟩ := h.target htarget hm
  have hpending : old.ret = .pending := hsettles.pending_of_pending hret
  rw [Site.pendingTarget?_call hbefore hold hpending, ← hname]

/-! ## Findings and the expressions they are of -/

/-- The fault is that a return type could not be found. -/
def TypeFault.IsIncomplete : TypeFault → Prop
  | .incompleteInference _ _ => True
  | _ => False

/-- The findings are of the expressions: something is waited for only if one of them waits for it,
and no fault is about return types that could not be found. -/
structure Findings.Of (site : Site) (parts : List Expr) (found : Findings) : Prop where
  faults : ∀ f ∈ found.faults, ¬ f.1.IsIncomplete
  pending : found.pending = true → ∃ part ∈ parts, (site.pendingTarget? part).isSome = true

section

variable {site : Site} {parts : List Expr}

namespace Findings.Of

theorem mono {found : Findings} (h : found.Of site parts) {more : List Expr}
    (hmore : parts ⊆ more) : found.Of site more := by
  refine ⟨h.faults, fun hpending => ?_⟩
  obtain ⟨part, hpart, htarget⟩ := h.pending hpending
  exact ⟨part, hmore hpart, htarget⟩

/-- Findings of the same parts are together of these parts. -/
theorem append {a b : Findings} (ha : a.Of site parts) (hb : b.Of site parts) :
    (a ++ b).Of site parts := by
  refine ⟨fun f hf => ?_, fun hpending => ?_⟩
  · exact (List.mem_append.mp hf).elim (ha.faults f) (hb.faults f)
  · rw [pending_append, Bool.or_eq_true] at hpending
    exact hpending.elim ha.pending hb.pending

/-- What is found in some expressions and then in others is of all of them. -/
theorem join {a b : Findings} {others : List Expr} (ha : a.Of site parts) (hb : b.Of site others) :
    (a ++ b).Of site (parts ++ others) :=
  (ha.mono (List.subset_append_left ..)).append (hb.mono (List.subset_append_right ..))

theorem empty : Findings.Of site parts {} := ⟨fun _ hf => (nomatch hf), fun h => (nomatch h)⟩

theorem fault {f : TypeFault} (h : ¬ f.IsIncomplete) (span : Span) :
    (Findings.fault f span).Of site parts := by
  refine ⟨fun found hfound => ?_, fun hpending => nomatch hpending⟩
  cases List.mem_singleton.mp hfound
  exact h

theorem returned (t : Ty) : (Findings.returned t).Of site parts :=
  ⟨fun _ hf => (nomatch hf), fun h => (nomatch h)⟩

end Findings.Of

/-! ## Expressions -/

theorem Typed.asValue_of {typed : Typed} (h : typed.found.Of site parts) :
    typed.asValue.found.Of site parts := by
  unfold Typed.asValue
  split
  · exact h.append (.fault id _)
  · exact h

theorem typeVar_of (locals : Locals) (name : Ident) (note : Note) :
    (typeVar locals name note).found.Of site parts := by
  unfold typeVar
  split
  · exact .empty
  · exact .fault id _

theorem typeUnary_of {operand : Typed} (h : operand.found.Of site parts) (op : UnaryOp)
    (note : Note) : (typeUnary op operand note).found.Of site parts := by
  unfold typeUnary
  simp only
  split
  · exact h
  · split
    · exact h
    · exact h.append (.fault id _)

theorem typeBinary_of {left right : Typed} {others : List Expr} (hl : left.found.Of site parts)
    (hr : right.found.Of site others) (op : BinaryOp) (note : Note) :
    (typeBinary op left right note).found.Of site (parts ++ others) := by
  unfold typeBinary
  simp only
  split
  · split
    · exact hl.join hr
    · exact (hl.join hr).append (.fault id _)
  · exact hl.join hr

theorem typeLength_of {value : Typed} (h : value.found.Of site parts) (note : Note) :
    (typeLength value note).found.Of site parts := by
  unfold typeLength
  simp only
  split
  · exact h
  · exact h
  · exact h
  · exact h.append (.fault id _)

theorem positionFindings_of (position : Typed) : (positionFindings position).Of site parts := by
  unfold positionFindings
  split
  · exact .empty
  · exact .empty
  · exact .fault id _

theorem typeIndex_of {array position : Typed} {others : List Expr}
    (ha : array.found.Of site parts) (hp : position.found.Of site others) (note : Note) :
    (typeIndex array position note).found.Of site (parts ++ others) := by
  have hfound := (ha.join hp).append (positionFindings_of position)
  unfold typeIndex
  simp only
  split
  · exact hfound
  · exact hfound
  · exact hfound.append (.fault id _)

theorem argumentFaults_of (cls method : String) (number : Nat) (params : List (Option Ty))
    (args : List Typed) : (argumentFaults cls method number params args).Of site parts := by
  fun_induction argumentFaults cls method number params args with
  | case1 number params arg args rest found hfound ih => exact ih
  | case2 number expected params arg args rest found hfound hne context ih =>
    exact .append (.fault id _) ih
  | case3 number expected params arg args rest hnone ih => exact ih
  | case4 number params head args ih => exact ih
  | case5 => exact .empty

/-- What a call finds beside its arguments is of the call. -/
theorem callFindings_of {entry : MethodEntry}
    (h : entry.ret = .pending → ∃ part ∈ parts, (site.pendingTarget? part).isSome = true)
    (cls : String) (args : List Typed) (span : Span) :
    (callFindings cls entry args span).Of site parts := by
  unfold callFindings
  apply Findings.Of.append
  · split
    · exact argumentFaults_of ..
    · exact .fault id _
  · exact ⟨fun _ hf => (nomatch hf), fun hpending => h (of_decide_eq_true hpending)⟩

/-- That a name means no class is another fault than an open return type. -/
theorem not_isIncomplete_of_lookup {registry : Registry} {externals : Externals}
    {name inside : String} {fault : TypeFault}
    (h : registry.lookup externals name inside = .error fault) : ¬ fault.IsIncomplete := by
  unfold Registry.lookup at h
  split at h
  · cases h
  · simp only at h
    split at h
    · cases h
    · split at h
      · cases h
      · unfold Registry.lookupOutside at h
        split at h
        · cases h
        · split at h
          · cases h
          · cases h
            exact id
      · cases h
        exact id

/-- The fault of the target of a call is about names. -/
theorem Site.not_isIncomplete_of_target {receiver : Option Ident} {method : Ident}
    {fault : TypeFault × Span} (h : site.target receiver method = .error fault) :
    ¬ fault.1.IsIncomplete := by
  unfold Site.target at h
  split at h
  · split at h
    · cases h
    · rename_i hlookup
      cases h
      exact not_isIncomplete_of_lookup hlookup
  · split at h
    · cases h
    · cases h
      exact id

/-- What is found in a call is of its arguments or of the call itself. -/
theorem Site.call_of {args : List Typed} (h : (inArguments args).Of site parts)
    (receiver : Option Ident) (method : Ident) (exprs : List Expr) (resolved : Option String)
    (note : Note) :
    (site.call receiver method args resolved note).found.Of site
      (.call receiver method exprs resolved note :: parts) := by
  have hargs := h.mono (List.subset_cons_self (.call receiver method exprs resolved note) parts)
  unfold Site.call
  simp only
  split
  · rename_i fault span htarget
    exact .append (.fault (Site.not_isIncomplete_of_target htarget) _) hargs
  · rename_i cls entry htarget
    split
    · exact hargs.append (.fault id _)
    · rename_i m hm
      refine hargs.append (callFindings_of (fun hret => ?_) cls args note.span)
      refine ⟨_, List.mem_cons_self, ?_⟩
      rw [Site.pendingTarget?_call htarget hm hret]
      rfl

mutual

/-- What is found in an expression is of it and of the expressions in it. -/
theorem Site.infer_of (site : Site) (locals : Locals) :
    ∀ e, (site.infer locals e).found.Of site (exprParts e)
  | .int _ _ | .bool _ _ | .string _ _ => .empty
  | .var name note => typeVar_of locals name note
  | .call receiver method args resolved note =>
    Site.call_of (Site.inferValues_of site locals args) receiver method args resolved note
  | .index array position note =>
    (typeIndex_of (Typed.asValue_of (Site.infer_of site locals array))
      (Typed.asValue_of (Site.infer_of site locals position)) note).mono
      (List.subset_cons_self ..)
  | .length value note =>
    (typeLength_of (Typed.asValue_of (Site.infer_of site locals value)) note).mono
      (List.subset_cons_self ..)
  | .unary op operand note =>
    (typeUnary_of (Typed.asValue_of (Site.infer_of site locals operand)) op note).mono
      (List.subset_cons_self ..)
  | .binary op left right note =>
    (typeBinary_of (Typed.asValue_of (Site.infer_of site locals left))
      (Typed.asValue_of (Site.infer_of site locals right)) op note).mono
      (List.subset_cons_self ..)

/-- What is found in arguments is of the expressions in them. -/
theorem Site.inferValues_of (site : Site) (locals : Locals) :
    ∀ es, (inArguments (site.inferValues locals es)).Of site (argsParts es)
  | [] => .empty
  | e :: es =>
    (Typed.asValue_of (Site.infer_of site locals e)).join (Site.inferValues_of site locals es)

end

theorem Site.value_of (site : Site) (locals : Locals) (e : Expr) :
    (site.value locals e).found.Of site (exprParts e) :=
  Typed.asValue_of (site.infer_of locals e)

theorem Site.condition_of (site : Site) (locals : Locals) (e : Expr) :
    (site.condition locals e).found.Of site (exprParts e) := by
  have hvalue := site.value_of locals e
  unfold Site.condition
  simp only
  split
  · exact hvalue
  · exact hvalue
  · exact hvalue.append (.fault id _)

/-! ## Statements -/

theorem assign_of (locals : Locals) (name : String) (type : Option Ty) (span : Span) :
    (assign locals name type span).2.Of site parts := by
  unfold assign
  split
  · split
    · exact .empty
    · exact .fault id _
  · exact .empty
  · exact .empty
  · exact .empty

theorem Site.returnFindings_of (found : Ty) (span : Span) :
    (site.returnFindings found span).Of site parts := by
  unfold Site.returnFindings
  split
  · exact .returned _
  · split
    · exact .returned _
    · exact .append (.fault id _) (.returned _)

theorem Site.valueFindings_of (typed : Typed) (span : Span) :
    (site.valueFindings typed span).Of site parts := by
  unfold Site.valueFindings
  split
  · exact Site.returnFindings_of ..
  · exact .empty

mutual

/-- What is found in a statement is of the expressions in it. -/
theorem Site.stmt_of (site : Site) :
    ∀ (stmt : Stmt) (locals : Locals), (site.stmt locals stmt).2.2.Of site (stmtParts stmt)
  | .expr value _, locals => site.infer_of locals value
  | .assign _ value _, locals => (site.value_of locals value).append (assign_of ..)
  | .cond chain _, locals => Site.chain_of site chain locals
  | .loop condition body _, locals =>
    (site.condition_of locals condition).join (Site.block_of site body locals)
  | .ret (some value) _, locals =>
    (site.value_of locals value).append (Site.valueFindings_of ..)
  | .ret none _, _ => Site.returnFindings_of ..
  | .puts value _, locals => site.value_of locals value
  | .raise value _, locals => site.value_of locals value

theorem Site.block_of (site : Site) :
    ∀ (block : Block) (locals : Locals), (site.block locals block).2.2.Of site (blockParts block)
  | .mk stmts _, locals => Site.stmts_of site stmts locals

theorem Site.stmts_of (site : Site) :
    ∀ (stmts : List Stmt) (locals : Locals),
      (site.stmts locals stmts).2.2.Of site (stmtsParts stmts)
  | [], _ => .empty
  | stmt :: rest, locals => (Site.stmt_of site stmt locals).join (Site.stmts_of site rest _)

theorem Site.chain_of (site : Site) :
    ∀ (chain : Chain) (locals : Locals), (site.chain locals chain).2.2.Of site (chainParts chain)
  | .done, _ => .empty
  | .otherwise body, locals => Site.block_of site body locals
  | .branch condition body rest, locals =>
    ((site.condition_of locals condition).join (Site.block_of site body locals)).join
      (Site.chain_of site rest _)

end

/-! ## Bodies -/

theorem Site.implicitReturn_of (typed : Typed) : (site.implicitReturn typed).Of site parts := by
  unfold Site.implicitReturn
  split
  · exact .returned _
  · exact .empty
  · exact .empty
  · split
    · exact .empty
    · exact .fault id _

/-- What is found in the statements of a body is of the expressions in them. -/
theorem Site.bodyStmts_of (site : Site) (locals : Locals) (stmts : List Stmt) :
    (site.bodyStmts locals stmts).2.Of site (stmtsParts stmts) := by
  fun_induction Site.bodyStmts site locals stmts with
  | case1 => exact .empty
  | case2 locals value span typed =>
    have hvalue := (site.infer_of locals value).append (Site.implicitReturn_of typed)
    exact hvalue.mono (List.subset_append_left _ [])
  | case3 locals stmt rest _ stmt' after found hstmt rest' more hrest ih =>
    have hfirst := site.stmt_of stmt locals
    rw [hstmt] at hfirst
    rw [hrest] at ih
    exact hfirst.join ih

/-- That a body ends without a value is another fault than an open return type. -/
theorem Site.missingReturn_of (m : Method) : (site.missingReturn m).Of site parts := by
  unfold Site.missingReturn
  split
  · split
    · exact .fault id _
    · exact .empty
  · exact .empty

/-- What is found in a body is of the expressions in it. -/
theorem Site.body_of (site : Site) (m : Method) (types : List (Option Ty)) :
    (site.body m types).2.Of site (blockParts m.body) := by
  obtain ⟨stmts, span, hbody⟩ : ∃ stmts span, m.body = .mk stmts span := by
    cases m.body with
    | mk stmts span => exact ⟨stmts, span, rfl⟩
  have hstmts := site.bodyStmts_of (paramLocals m.params types) stmts
  simp only [Site.body, hbody, Block.stmts, blockParts]
  exact (Site.missingReturn_of m).append hstmts

/-- A body that settles on no return type has a call to wait for. -/
theorem Site.exists_pendingTarget {m : Method} {types : List (Option Ty)}
    (h : (site.body m types).2.settled? = none) :
    ∃ part ∈ blockParts m.body, ∃ x, site.pendingTarget? part = some x := by
  have hpending : (site.body m types).2.pending = true := by
    unfold Findings.settled? at h
    split at h
    · cases h
    · split at h
      · assumption
      · cases h
  obtain ⟨part, hpart, htarget⟩ := (site.body_of m types).pending hpending
  exact ⟨part, hpart, Option.isSome_iff_exists.mp htarget⟩

end

end StackScript.Typing

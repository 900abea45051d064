import StackScript.Proofs.Basics
import StackScript.Proofs.Declaring
import StackScript.Proofs.WrittenTypes

/-!
# What inference settles

Rounds of inference only ever replace a return type that is not known yet by an inferred one
(`settles_settle`), so every method of a batch stays on record with the types that it was declared
with (`settled_infer`). As long as no class from outside the batch returns an array of `void`,
every type that is found on the way has a written form (`writable_infer`).
-/

namespace StackScript.Typing

open StackScript.Source StackScript.Syntax

/-! ## What calls reach -/

/-- A call can reach the method in the class: the class on record has it, or there is no such class
on record and one from outside the batch has it. -/
inductive Offers (registry : Registry) (externals : Externals) (cls : String)
    (entry : MethodEntry) : Prop where
  | onRecord (hentry : registry.method? cls entry.name = some entry)
  | outside {name : String} {sig : ClassSig} (hname : sig.name = cls)
      (hnew : registry.has cls = false) (hsig : externals name = some sig)
      (hentry : (ClassEntry.ofSig sig).method? entry.name = some entry)

theorem ClassEntry.name_of_method? {cls : ClassEntry} {name : String} {entry : MethodEntry}
    (h : cls.method? name = some entry) : entry.name = name := by
  simpa using List.find?_some h

/-- A method is found under its own name. -/
theorem Registry.name_of_method? {registry : Registry} {cls name : String} {entry : MethodEntry}
    (h : registry.method? cls name = some entry) : entry.name = name := by
  obtain ⟨found, -, hfound⟩ := Option.bind_eq_some_iff.mp h
  exact ClassEntry.name_of_method? hfound

/-- Putting a method in adds it and no other. -/
theorem mem_putMethod {entry found : MethodEntry} {methods : List MethodEntry}
    (h : found ∈ putMethod entry methods) : found = entry ∨ found ∈ methods := by
  induction methods with
  | nil => exact .inl (List.mem_singleton.mp h)
  | cons first rest ih =>
    rw [putMethod] at h
    split at h
    · rcases List.mem_cons.mp h with h | h
      · exact .inl h
      · exact .inr (List.mem_cons_of_mem _ h)
    · rcases List.mem_cons.mp h with h | h
      · exact .inr (h ▸ List.mem_cons_self)
      · exact (ih h).imp_right (List.mem_cons_of_mem _)

/-- A class of which only the signature is known has the methods of the signature. -/
theorem ClassEntry.mem_ofSig {sig : ClassSig} {entry : MethodEntry}
    (h : entry ∈ (ClassEntry.ofSig sig).methods) : ∃ m ∈ sig.methods, entry = .ofSig m := by
  -- over whatever stands in the record so far, for the fold to go through
  have key : ∀ (sigs : List MethodSig) (methods : List MethodEntry),
      entry ∈ sigs.foldl (fun methods m => putMethod (.ofSig m) methods) methods →
        entry ∈ methods ∨ ∃ m ∈ sigs, entry = .ofSig m := by
    intro sigs
    induction sigs with
    | nil => exact fun _ h => .inl h
    | cons first rest ih =>
      intro methods h
      rcases ih _ h with h | ⟨m, hm, rfl⟩
      · rcases mem_putMethod h with rfl | h
        · exact .inr ⟨first, List.mem_cons_self, rfl⟩
        · exact .inl h
      · exact .inr ⟨m, List.mem_cons_of_mem _ hm, rfl⟩
  rcases key sig.methods [] h with h | h
  · cases h
  · exact h

/-- What is found outside has a signature there. -/
theorem lookupOutside_eq_ok {externals : Externals} {name inPackage : String}
    {found : Registry.Meaning}
    (h : Registry.lookupOutside externals name inPackage = .ok found) :
    ∃ name sig, externals name = some sig ∧ found = .outside sig := by
  unfold Registry.lookupOutside at h
  split at h
  · rename_i sig hsig
    cases h
    exact ⟨inPackage, sig, hsig, rfl⟩
  · split at h
    · rename_i sig hsig
      cases h
      exact ⟨name, sig, hsig, rfl⟩
    · cases h

/-- A class that is not on record comes from outside. -/
theorem lookup_eq_outside {registry : Registry} {externals : Externals} {name inside : String}
    {sig : ClassSig} (h : registry.lookup externals name inside = .ok (.outside sig)) :
    ∃ name, externals name = some sig := by
  unfold Registry.lookup at h
  split at h
  · cases h
  · simp only at h
    split at h
    · cases h
    · split at h
      · cases h
      · -- the ways before this one find a class on record
        obtain ⟨name, found, hfound, heq⟩ := lookupOutside_eq_ok h
        cases heq
        exact ⟨name, hfound⟩
      · cases h

/-- The method that the target of a call has is one that its class offers. -/
theorem Site.offers_of_target {site : Site} {receiver : Option Ident} {method : Ident}
    {cls : String} {entry : Option ClassEntry} {m : MethodEntry}
    (h : site.target receiver method = .ok (cls, entry))
    (hm : entry.bind (·.method? method.name) = some m) :
    m.name = method.name ∧ Offers site.registry site.externals cls m := by
  obtain ⟨found, rfl, hfound⟩ := Option.bind_eq_some_iff.mp hm
  have hname : m.name = method.name := ClassEntry.name_of_method? hfound
  refine ⟨hname, ?_⟩
  -- an entry that the registry itself gives is on record, whichever way it was reached
  have recorded : ∀ {owner}, site.registry.class? owner = some found →
      Offers site.registry site.externals owner m := fun hcls =>
    .onRecord (by rw [Registry.method?_of_class? hcls, hname, hfound])
  unfold Site.target at h
  split at h
  · split at h
    · rename_i meaning hmeaning
      simp only [Except.ok.injEq, Prod.mk.injEq] at h
      obtain ⟨rfl, hentry⟩ := h
      -- a class from outside is enrolled under the name in its signature, which may be on record
      -- already; then the class on record is the one that answers
      cases meaning with
      | onRecord owner => exact recorded hentry
      | outside sig =>
        obtain ⟨name, hsig⟩ := lookup_eq_outside hmeaning
        simp only [Registry.entry?, Registry.class?_enroll] at hentry
        cases hold : site.registry.class? sig.name with
        | some old =>
          simp only [hold, Option.some_or, Option.some.injEq] at hentry
          exact recorded (hold.trans (congrArg some hentry))
        | none =>
          simp only [hold, Option.none_or, ClassEntry.ofSig, if_true, Option.some.injEq] at hentry
          have hnew : site.registry.has sig.name = false := by simp [Registry.has, hold]
          refine .outside rfl hnew hsig ?_
          rw [hname, ← hfound, ← hentry]
          rfl
    · cases h
  · split at h
    · rename_i owner _ _
      simp only [Except.ok.injEq, Prod.mk.injEq] at h
      obtain ⟨rfl, hentry⟩ := h
      exact recorded hentry
    · cases h

/-! ## Types with a written form -/

/-- The types of a method on record have written forms, as far as they are known. -/
structure MethodEntry.Writable (entry : MethodEntry) : Prop where
  ret : ∀ t, entry.ret.known? = some t → t.isWritable = true
  params : ∀ t, some t ∈ entry.params → t.isWritable = true

/-- The types of all methods on record have written forms. -/
def Registry.Writable (registry : Registry) : Prop :=
  ∀ cls name entry, registry.method? cls name = some entry → entry.Writable

/-- No method of a class from outside returns an array of `void`. -/
def WritableReturns (externals : Externals) : Prop :=
  ∀ name sig, externals name = some sig → ∀ m ∈ sig.methods, m.ret.isWritable = true

/-- An annotation is a text, so its type has a written form. -/
theorem methodEntry_writable (file : String) (m : Method) : (methodEntry file m).Writable where
  ret t h := by
    simp only [methodEntry] at h
    split at h
    · cases h
    · split at h
      · rename_i type htype
        cases h
        exact Ty.isWritable_of_ofParts? htype
      · cases h
  params t h := by
    obtain ⟨param, -, hparam⟩ := List.mem_map.mp h
    exact Ty.isWritable_of_ofParts? hparam

/-- The return type of a method on offer has a written form. -/
theorem Offers.writable {registry : Registry} {externals : Externals} {cls : String}
    {entry : MethodEntry} (h : Offers registry externals cls entry) (hreg : registry.Writable)
    (hext : WritableReturns externals) {t : Ty} (ht : entry.ret.known? = some t) :
    t.isWritable = true := by
  cases h with
  | onRecord hentry => exact (hreg _ _ _ hentry).ret t ht
  | outside hname hnew hsig hentry =>
    obtain ⟨m, hm, rfl⟩ := ClassEntry.mem_ofSig (List.mem_of_find?_eq_some hentry)
    cases ht
    exact hext _ _ hsig m hm

namespace Findings

@[simp] theorem faults_append (a b : Findings) : (a ++ b).faults = a.faults ++ b.faults := rfl

@[simp] theorem returns_append (a b : Findings) : (a ++ b).returns = a.returns ++ b.returns := rfl

@[simp] theorem faults_fault (f : TypeFault) (span : Span) :
    (fault f span).faults = [(f, span)] := rfl

@[simp] theorem returns_fault (f : TypeFault) (span : Span) : (fault f span).returns = [] := rfl

@[simp] theorem faults_returned (t : Ty) : (returned t).faults = [] := rfl

@[simp] theorem returns_returned (t : Ty) : (returned t).returns = [t] := rfl

/-- The types of all returned values have written forms. -/
def Writable (found : Findings) : Prop := ∀ t ∈ found.returns, t.isWritable = true

theorem Writable.append {a b : Findings} (ha : a.Writable) (hb : b.Writable) :
    (a ++ b).Writable := fun t ht => (List.mem_append.mp ht).elim (ha t) (hb t)

/-- What returns nothing returns nothing without a written form. -/
theorem writable_of_returns {found : Findings} (h : found.returns = []) : found.Writable :=
  fun t ht => by simp [h] at ht

theorem writable_returned {t : Ty} (h : t.isWritable = true) : (returned t).Writable :=
  fun _ hs => (List.mem_singleton.mp hs) ▸ h

end Findings

/-- The types of locals have written forms, as far as they are known. -/
def Locals.Writable (locals : Locals) : Prop :=
  ∀ name t, (name, some t) ∈ locals → t.isWritable = true

/-- The type of an expression has a written form, if it is known, and nothing is returned on the
way. -/
structure Typed.Writable (typed : Typed) : Prop where
  type : ∀ t, typed.type = some t → t.isWritable = true
  returns : typed.found.returns = []

namespace Typed.Writable

theorem mk' {expr : Expr} {type : Option Ty} {found : Findings}
    (htype : ∀ t, type = some t → t.isWritable = true) (hfound : found.returns = []) :
    (Typed.mk' expr type found).Writable := ⟨htype, hfound⟩

/-- Without a type there is only what was found. -/
theorem untyped {expr : Expr} {found : Findings} (hfound : found.returns = []) :
    (Typed.mk' expr none found).Writable := ⟨fun _ h => (nomatch h), hfound⟩

theorem plain {expr : Expr} {t : Ty} {found : Findings} (ht : t.isWritable = true)
    (hfound : found.returns = []) : (Typed.mk' expr (some t) found).Writable :=
  ⟨fun _ h => Option.some.inj h ▸ ht, hfound⟩

/-- To use an expression as a value adds no returned type. -/
theorem asValue {typed : Typed} (h : typed.Writable) : typed.asValue.Writable := by
  unfold Typed.asValue
  split
  · exact ⟨fun _ h => (nomatch h), by simp [h.returns]⟩
  · exact h

end Typed.Writable

/-! ## Expressions -/

/-- A local has the type that is known of it. -/
theorem typeVar_writable {locals : Locals} (h : locals.Writable) (name : Ident) (note : Note) :
    (typeVar locals name note).Writable := by
  unfold typeVar
  split
  · rename_i type hlookup
    exact .mk' (fun t ht => h _ t (ht ▸ lookup_mem hlookup)) rfl
  · exact .untyped rfl

/-- The element of an array that can be written can be written. -/
theorem typeIndex_writable {array position : Typed} (ha : array.Writable)
    (hp : position.Writable) (note : Note) : (typeIndex array position note).Writable := by
  have hbad : (positionFindings position).returns = [] := by
    unfold positionFindings
    split <;> rfl
  have hfound : (array.found ++ position.found ++ positionFindings position).returns = [] := by
    simp [ha.returns, hp.returns, hbad]
  unfold typeIndex
  simp only
  split
  · exact .untyped hfound
  · rename_i element htype
    exact .plain (Ty.isWritable_of_array (ha.type _ htype)) hfound
  · exact .untyped (by simpa using hfound)

theorem typeLength_writable {value : Typed} (h : value.Writable) (note : Note) :
    (typeLength value note).Writable := by
  unfold typeLength
  simp only
  split
  · exact .untyped h.returns
  · exact .plain rfl h.returns
  · exact .plain rfl h.returns
  · exact .untyped (by simp [h.returns])

/-- Operators give types of the language only. -/
theorem unaryType?_writable {op : UnaryOp} {operand t : Ty} (h : unaryType? op operand = some t) :
    t.isWritable = true := by
  unfold unaryType? at h
  split at h <;> cases h <;> rfl

theorem typeUnary_writable {operand : Typed} (h : operand.Writable) (op : UnaryOp) (note : Note) :
    (typeUnary op operand note).Writable := by
  unfold typeUnary
  simp only
  split
  · exact .untyped h.returns
  · split
    · rename_i result hresult
      exact .plain (unaryType?_writable hresult) h.returns
    · exact .untyped (by simp [h.returns])

theorem binaryType?_writable {op : BinaryOp} {left right t : Ty}
    (h : binaryType? op left right = some t) : t.isWritable = true := by
  unfold binaryType? at h
  split at h <;> (repeat' split at h) <;> cases h <;> rfl

theorem typeBinary_writable {left right : Typed} (hl : left.Writable) (hr : right.Writable)
    (op : BinaryOp) (note : Note) : (typeBinary op left right note).Writable := by
  have hfound : (left.found ++ right.found).returns = [] := by simp [hl.returns, hr.returns]
  unfold typeBinary
  simp only
  split
  · split
    · rename_i result hresult
      exact .plain (binaryType?_writable hresult) hfound
    · exact .untyped (by simpa using hfound)
  · exact .untyped hfound

/-- Arguments may be at fault; they return nothing. -/
theorem returns_argumentFaults (cls method : String) (number : Nat) (params : List (Option Ty))
    (args : List Typed) : (argumentFaults cls method number params args).returns = [] := by
  fun_induction argumentFaults cls method number params args with
  | case1 number params arg args rest found hfound ih => exact ih
  | case2 number expected params arg args rest found hfound hne context ih => simpa using ih
  | case3 number expected params arg args rest hnone ih => exact ih
  | case4 number params head args ih => exact ih
  | case5 => rfl

theorem returns_callFindings (cls : String) (entry : MethodEntry) (args : List Typed)
    (span : Span) : (callFindings cls entry args span).returns = [] := by
  unfold callFindings
  split <;> simp [returns_argumentFaults]

/-- Expressions return nothing, however many there are. -/
theorem returns_foldr {args : List Typed} (h : ∀ arg ∈ args, arg.Writable) :
    (args.foldr (fun arg found => arg.found ++ found) ({} : Findings)).returns = [] := by
  induction args with
  | nil => rfl
  | cons arg rest ih =>
    have hrest := ih fun a ha => h a (List.mem_cons_of_mem _ ha)
    simp [(h arg List.mem_cons_self).returns, hrest]

/-- The registry of a site and the classes from outside keep to written types. -/
structure Site.Writable (site : Site) : Prop where
  registry : site.registry.Writable
  externals : WritableReturns site.externals

variable {site : Site} {locals : Locals}

/-- A call has the return type of a method on offer. -/
theorem Site.call_writable (hs : site.Writable) {args : List Typed}
    (hargs : ∀ arg ∈ args, arg.Writable) (receiver : Option Ident) (method : Ident)
    (resolved : Option String) (note : Note) :
    (site.call receiver method args resolved note).Writable := by
  have hfound := returns_foldr hargs
  unfold Site.call
  simp only
  split
  · exact .untyped (by simp [hfound])
  · rename_i cls entry htarget
    split
    · exact .untyped (by simp [hfound])
    · rename_i m hm
      obtain ⟨-, hoffers⟩ := Site.offers_of_target htarget hm
      exact .mk' (fun t ht => hoffers.writable hs.registry hs.externals ht)
        (by simp [hfound, returns_callFindings])

mutual

/-- The types of expressions have written forms, from those of the locals on. -/
theorem Site.infer_writable (hs : site.Writable) (hl : locals.Writable) :
    ∀ e, (site.infer locals e).Writable
  | .int _ _ => .plain rfl rfl
  | .bool _ _ => .plain rfl rfl
  | .string _ _ => .plain rfl rfl
  | .var name note => typeVar_writable hl name note
  | .call receiver method args resolved note =>
    Site.call_writable hs (Site.inferValues_writable hs hl args) receiver method resolved note
  | .index array position note =>
    typeIndex_writable (Site.infer_writable hs hl array).asValue
      (Site.infer_writable hs hl position).asValue note
  | .length value note => typeLength_writable (Site.infer_writable hs hl value).asValue note
  | .unary op operand note =>
    typeUnary_writable (Site.infer_writable hs hl operand).asValue op note
  | .binary op left right note =>
    typeBinary_writable (Site.infer_writable hs hl left).asValue
      (Site.infer_writable hs hl right).asValue op note

theorem Site.inferValues_writable (hs : site.Writable) (hl : locals.Writable) :
    ∀ es, ∀ typed ∈ site.inferValues locals es, typed.Writable
  | [], _, h => nomatch h
  | e :: es, typed, h => by
    rcases List.mem_cons.mp h with rfl | h
    · exact (Site.infer_writable hs hl e).asValue
    · exact Site.inferValues_writable hs hl es typed h

end

/-! ## Statements -/

theorem Site.value_writable (hs : site.Writable) (hl : locals.Writable) (e : Expr) :
    (site.value locals e).Writable := (Site.infer_writable hs hl e).asValue

/-- A condition is a value with at most one fault more. -/
theorem Site.condition_writable (hs : site.Writable) (hl : locals.Writable) (e : Expr) :
    (site.condition locals e).Writable := by
  have h := Site.value_writable hs hl e
  unfold Site.condition
  simp only
  split
  · exact h
  · exact h
  · exact ⟨h.type, by simp [h.returns]⟩

/-- One more local of a type that can be written. -/
theorem Locals.Writable.cons (hl : locals.Writable) {name : String} {type : Option Ty}
    (ht : ∀ t, type = some t → t.isWritable = true) : Locals.Writable ((name, type) :: locals) := by
  intro name' t h
  rcases List.mem_cons.mp h with h | h
  · simp only [Prod.mk.injEq] at h
    exact ht t h.2.symm
  · exact hl name' t h

/-- An assignment gives a local the type of its value, and returns nothing. -/
theorem assign_writable (hl : locals.Writable) {type : Option Ty}
    (ht : ∀ t, type = some t → t.isWritable = true) (name : String) (span : Span) :
    (assign locals name type span).1.Writable ∧ (assign locals name type span).2.returns = [] := by
  unfold assign
  split
  · split
    · exact ⟨hl, rfl⟩
    · exact ⟨hl, rfl⟩
  · exact ⟨hl.cons ht, rfl⟩
  · exact ⟨hl.cons ht, rfl⟩
  · exact ⟨hl, rfl⟩

/-- What a statement returns is the type of its value. -/
theorem Site.returnFindings_writable (site : Site) {t : Ty} (ht : t.isWritable = true)
    (span : Span) : (site.returnFindings t span).Writable := by
  unfold Site.returnFindings
  split
  · exact Findings.writable_returned ht
  · split
    · exact Findings.writable_returned ht
    · exact .append (Findings.writable_of_returns rfl) (Findings.writable_returned ht)

theorem Site.valueFindings_writable (site : Site) {typed : Typed} (h : typed.Writable)
    (span : Span) : (site.valueFindings typed span).Writable := by
  unfold Site.valueFindings
  split
  · rename_i t ht
    exact Site.returnFindings_writable site (h.type t ht) span
  · exact Findings.writable_of_returns rfl

theorem Typed.Writable.found {typed : Typed} (h : typed.Writable) : typed.found.Writable :=
  Findings.writable_of_returns h.returns

mutual

/-- What statements return and assign has types with written forms. -/
theorem Site.stmt_writable (hs : site.Writable) : ∀ (stmt : Stmt) {locals : Locals},
    locals.Writable →
      (site.stmt locals stmt).2.1.Writable ∧ (site.stmt locals stmt).2.2.Writable
  | .expr value _, _, hl => ⟨hl, (Site.infer_writable hs hl value).found⟩
  | .assign target value _, _, hl =>
    have hvalue := Site.value_writable hs hl value
    have hassign := assign_writable hl hvalue.type target.name _
    ⟨hassign.1, hvalue.found.append (Findings.writable_of_returns hassign.2)⟩
  | .cond chain _, _, hl => Site.chain_writable hs chain hl
  | .loop condition body _, _, hl =>
    have hbody := Site.block_writable hs body hl
    ⟨hbody.1, (Site.condition_writable hs hl condition).found.append hbody.2⟩
  | .ret (some value) span, _, hl =>
    have hvalue := Site.value_writable hs hl value
    ⟨hl, hvalue.found.append (Site.valueFindings_writable site hvalue span)⟩
  | .ret none span, _, hl => ⟨hl, Site.returnFindings_writable site rfl span⟩
  | .puts value _, _, hl => ⟨hl, (Site.value_writable hs hl value).found⟩
  | .raise value _, _, hl => ⟨hl, (Site.value_writable hs hl value).found⟩

theorem Site.block_writable (hs : site.Writable) : ∀ (block : Block) {locals : Locals},
    locals.Writable →
      (site.block locals block).2.1.Writable ∧ (site.block locals block).2.2.Writable
  | .mk stmts _, _, hl => Site.stmts_writable hs stmts hl

theorem Site.stmts_writable (hs : site.Writable) : ∀ (stmts : List Stmt) {locals : Locals},
    locals.Writable →
      (site.stmts locals stmts).2.1.Writable ∧ (site.stmts locals stmts).2.2.Writable
  | [], _, hl => ⟨hl, Findings.writable_of_returns rfl⟩
  | stmt :: rest, _, hl =>
    have hstmt := Site.stmt_writable hs stmt hl
    have hrest := Site.stmts_writable hs rest hstmt.1
    ⟨hrest.1, hstmt.2.append hrest.2⟩

theorem Site.chain_writable (hs : site.Writable) : ∀ (chain : Chain) {locals : Locals},
    locals.Writable →
      (site.chain locals chain).2.1.Writable ∧ (site.chain locals chain).2.2.Writable
  | .done, _, hl => ⟨hl, Findings.writable_of_returns rfl⟩
  | .otherwise body, _, hl => Site.block_writable hs body hl
  | .branch condition body rest, _, hl =>
    have hbody := Site.block_writable hs body hl
    have hrest := Site.chain_writable hs rest hbody.1
    ⟨hrest.1, ((Site.condition_writable hs hl condition).found.append hbody.2).append hrest.2⟩

end

/-! ## Bodies -/

/-- The value at the end of a body is returned as if a statement did it. -/
theorem Site.implicitReturn_writable (site : Site) {typed : Typed} (h : typed.Writable) :
    (site.implicitReturn typed).Writable := by
  unfold Site.implicitReturn
  split
  · rename_i t _ ht
    exact Findings.writable_returned (h.type t ht)
  · exact Findings.writable_of_returns rfl
  · exact Findings.writable_of_returns rfl
  · split <;> exact Findings.writable_of_returns rfl

/-- All that a body returns has a written form. -/
theorem Site.bodyStmts_writable (hs : site.Writable) (hl : locals.Writable) (stmts : List Stmt) :
    (site.bodyStmts locals stmts).2.Writable := by
  fun_induction Site.bodyStmts site locals stmts with
  | case1 => exact Findings.writable_of_returns rfl
  | case2 locals value span typed =>
    have htyped := Site.infer_writable hs hl value
    exact htyped.found.append (Site.implicitReturn_writable site htyped)
  | case3 locals stmt rest _ stmt' after found hstmt rest' more hrest ih =>
    have h := Site.stmt_writable hs stmt hl
    rw [hstmt] at h
    rw [hrest] at ih
    exact h.2.append (ih h.1)

/-- The locals at the start of a body have the types of its parameters. -/
theorem paramLocals_writable {params : List Param} {types : List (Option Ty)}
    (h : ∀ t, some t ∈ types → t.isWritable = true) :
    Locals.Writable (paramLocals params types) := by
  intro name t hmem
  exact h t (List.of_mem_zip (List.mem_reverse.mp hmem)).2

theorem Site.body_writable (hs : site.Writable) (m : Method) {types : List (Option Ty)}
    (h : ∀ t, some t ∈ types → t.isWritable = true) : (site.body m types).2.Writable := by
  have hmissing : (site.missingReturn m).returns = [] := by
    unfold Site.missingReturn
    split
    · split <;> rfl
    · rfl
  exact .append (Findings.writable_of_returns hmissing)
    (Site.bodyStmts_writable hs (paramLocals_writable h) m.body.stmts)

/-- So has the type that a body settles on. -/
theorem Findings.settled?_writable {found : Findings} (h : found.Writable) {t : Ty}
    (ht : found.settled? = some t) : t.isWritable = true := by
  unfold Findings.settled? at ht
  split at ht
  · rename_i hreturns
    cases ht
    exact h t (hreturns ▸ List.mem_cons_self)
  · split at ht
    · cases ht
    · cases ht
      rfl

/-! ## Rounds -/

/-- A return type either stays or is found. -/
def ReturnState.SettlesTo (before after : ReturnState) : Prop :=
  after = before ∨ before = .pending ∧ ∃ t, after = .inferred t

/-- What is settled is settled for good. -/
theorem ReturnState.SettlesTo.trans {a b c : ReturnState} (hab : a.SettlesTo b)
    (hbc : b.SettlesTo c) : a.SettlesTo c := by
  rcases hab with rfl | ⟨ha, t, rfl⟩
  · exact hbc
  · rcases hbc with rfl | ⟨hb, -⟩
    · exact .inr ⟨ha, t, rfl⟩
    · cases hb

/-- The registries agree on everything but return types that were still to be found. -/
structure Settles (before after : Registry) : Prop where
  has : ∀ name, after.has name = before.has name
  keeps : ∀ {cls name entry}, before.method? cls name = some entry →
    ∃ ret, after.method? cls name = some { entry with ret } ∧ entry.ret.SettlesTo ret
  adds : ∀ {cls name}, before.method? cls name = none → after.method? cls name = none

theorem Settles.refl (registry : Registry) : Settles registry registry :=
  ⟨fun _ => rfl, fun h => ⟨_, h, .inl rfl⟩, fun h => h⟩

theorem Settles.trans {a b c : Registry} (hab : Settles a b) (hbc : Settles b c) :
    Settles a c where
  has name := (hbc.has name).trans (hab.has name)
  keeps h := by
    obtain ⟨ret, hb, hret⟩ := hab.keeps h
    obtain ⟨last, hc, hlast⟩ := hbc.keeps hb
    exact ⟨last, hc, hret.trans hlast⟩
  adds h := hbc.adds (hab.adds h)

/-- Setting a return type changes one method on record and no other. -/
theorem Registry.method?_setReturn (registry : Registry) (cls method : String) (ret : ReturnState)
    (name other : String) :
    (registry.setReturn cls method ret).method? name other =
      (registry.method? name other).map fun entry =>
        if name = cls ∧ other = method then { entry with ret } else entry := by
  rw [method?, setReturn, class?_modify _ _ (by exact fun _ => rfl), method?]
  cases hfound : registry.class? name with
  | none => rfl
  | some found =>
    rw [Option.map_some, Option.bind_some, Option.bind_some, name_of_class? hfound]
    by_cases hname : name = cls
    · -- methods are found by name, and a new return type leaves the names alone
      have hnames : ((fun entry : MethodEntry => decide (entry.name = other)) ∘
          fun entry => if entry.name = method then { entry with ret } else entry)
          = fun entry => decide (entry.name = other) := by
        funext entry
        by_cases h : entry.name = method <;> simp [h]
      simp only [hname, if_true, ClassEntry.method?, List.find?_map, hnames, true_and]
      cases hentry : found.methods.find? (fun entry => decide (entry.name = other)) with
      | none => rfl
      | some entry =>
        have hother : entry.name = other := by simpa using List.find?_some hentry
        rw [Option.map_some, Option.map_some, hother]
    · simp [hname]

/-- A pending return type may be set. -/
theorem settles_setReturn {registry : Registry} {cls name : String} {entry : MethodEntry} (t : Ty)
    (h : registry.method? cls name = some entry) (hret : entry.ret = .pending) :
    Settles registry (registry.setReturn cls name (.inferred t)) where
  has other := Registry.has_modify registry cls (by exact fun _ => rfl) other
  keeps {cls' name' found} hfound := by
    rw [Registry.method?_setReturn, hfound, Option.map_some]
    by_cases heq : cls' = cls ∧ name' = name
    · obtain ⟨rfl, rfl⟩ := heq
      cases hfound.symm.trans h
      rw [if_pos ⟨rfl, rfl⟩]
      exact ⟨.inferred t, rfl, .inr ⟨hret, t, rfl⟩⟩
    · rw [if_neg heq]
      exact ⟨found.ret, rfl, .inl rfl⟩
  adds hnone := by rw [Registry.method?_setReturn, hnone, Option.map_none]

/-- Return types that are set have written forms, if the one does. -/
theorem writable_setReturn {registry : Registry} (h : registry.Writable) (cls name : String)
    {t : Ty} (ht : t.isWritable = true) :
    (registry.setReturn cls name (.inferred t)).Writable := by
  intro cls' name' entry hentry
  rw [Registry.method?_setReturn] at hentry
  obtain ⟨found, hfound, rfl⟩ := Option.map_eq_some_iff.mp hentry
  split
  · exact ⟨fun _ hs => Option.some.inj hs ▸ ht, (h _ _ _ hfound).params⟩
  · exact h _ _ _ hfound

/-- Settling a method changes nothing, or records the type that its body settles on. -/
theorem settleMethod_cases (externals : Externals) (registry : Registry) (file cls : String)
    (m : Method) :
    settleMethod externals registry (file, cls, m) = registry ∨
      ∃ entry t, registry.method? cls m.name.name = some entry ∧ entry.ret = .pending ∧
        ((siteOf externals registry file cls m none).body m entry.params).2.settled? = some t ∧
        settleMethod externals registry (file, cls, m)
          = registry.setReturn cls m.name.name (.inferred t) := by
  unfold settleMethod
  simp only
  split
  · exact .inl rfl
  · rename_i entry hentry
    split
    · rename_i hpending
      split
      · rename_i t ht
        exact .inr ⟨entry, t, (Registry.methodAt?_eq_some.mp hentry).1, hpending, ht, rfl⟩
      · exact .inl rfl
    · exact .inl rfl

/-- Settling one method changes at most its return type, and only a pending one. -/
theorem settles_settleMethod (externals : Externals) (registry : Registry) (place : MethodPlace) :
    Settles registry (settleMethod externals registry place) := by
  obtain ⟨file, cls, m⟩ := place
  rcases settleMethod_cases externals registry file cls m with h | ⟨entry, t, hentry, hret, -, h⟩
  · rw [h]
    exact .refl registry
  · rw [h]
    exact settles_setReturn t hentry hret

/-- A settled return type is one that a body returns. -/
theorem writable_settleMethod {externals : Externals} (hext : WritableReturns externals)
    {registry : Registry} (h : registry.Writable) (place : MethodPlace) :
    (settleMethod externals registry place).Writable := by
  obtain ⟨file, cls, m⟩ := place
  rcases settleMethod_cases externals registry file cls m with heq | ⟨entry, t, hentry, -, ht, heq⟩
  · rw [heq]
    exact h
  · rw [heq]
    -- the type comes out of the body, which is typed against the registry before the step
    have hs : (siteOf externals registry file cls m none).Writable := ⟨h, hext⟩
    have hbody := Site.body_writable hs m (h _ _ _ hentry).params
    exact writable_setReturn h cls _ (Findings.settled?_writable hbody ht)

/-- What settling each of the methods keeps holds after all rounds. -/
theorem settle_induction {externals : Externals} (Keeps : Registry → Prop)
    {places : List MethodPlace}
    (step : ∀ registry, ∀ place ∈ places, Keeps registry →
      Keeps (settleMethod externals registry place))
    {registry : Registry} (h : Keeps registry) : Keeps (settle externals places registry) := by
  -- a round goes once over all places; rounds go on until one of them changes nothing
  have round : ∀ registry, Keeps registry → Keeps (settleRound externals places registry) := by
    unfold settleRound
    intro registry h
    exact List.foldlRecOn places (settleMethod externals) h
      fun after hafter place hplace => step after place hplace hafter
  have rounds : ∀ n registry, Keeps registry →
      Keeps (settleRounds externals places n registry) := by
    intro n
    induction n with
    | zero => exact fun _ h => h
    | succ n ih =>
      intro registry h
      simp only [settleRounds]
      split
      · -- nothing new was found, so this round is the last one
        exact round registry h
      · exact ih _ (round registry h)
  exact rounds _ registry h

/-- All rounds together keep the record. -/
theorem settles_settle (externals : Externals) (registry : Registry) (places : List MethodPlace) :
    Settles registry (settle externals places registry) :=
  settle_induction (Settles registry)
    (fun after place _ hafter => hafter.trans (settles_settleMethod externals after place))
    (.refl registry)

/-- All rounds together keep to written types. -/
theorem writable_settle {externals : Externals} (hext : WritableReturns externals)
    {registry : Registry} (h : registry.Writable) (places : List MethodPlace) :
    (settle externals places registry).Writable :=
  settle_induction Registry.Writable
    (fun _ place _ hafter => writable_settleMethod hext hafter place) h

/-! ## The record after all rounds -/

/-- The registry is the record of declarations, none of which is at fault, with some return types
found. -/
structure Settled (found : List (String × Declaration)) (registry : Registry) : Prop where
  method : ∀ {file cls m}, (file, Declaration.method cls m) ∈ found →
    ∃ ret, registry.method? cls m.name.name = some { methodEntry file m with ret } ∧
      (methodEntry file m).ret.SettlesTo ret
  typed : ∀ {file cls m}, (file, Declaration.method cls m) ∈ found →
    annotationFaults file (m.params.map (·.type) ++ m.ret.toList) = []
  source : ∀ {cls name entry}, registry.method? cls name = some entry →
    ∃ file m, (file, Declaration.method cls m) ∈ found ∧
      entry = { methodEntry file m with ret := entry.ret }
  classes : ∀ name, registry.has name = true ↔
    ∃ file package enclosing, (file, Declaration.cls name package enclosing) ∈ found

theorem Records.writable {found : List (String × Declaration)} {registry : Registry}
    (h : Records found registry) : registry.Writable := by
  intro cls name entry hentry
  obtain ⟨file, m, -, rfl⟩ := h.source hentry
  exact methodEntry_writable file m

/-- What was declared is on record after settling, too, and at most return types are known in
addition. -/
theorem Records.settled {found : List (String × Declaration)} {before after : Registry}
    (h : Records found before) (hs : Settles before after) : Settled found after where
  method hm := hs.keeps (h.method hm)
  typed hm := h.typed hm
  source {cls name entry} hentry := by
    -- rounds add no methods, so the one found now was there before them
    cases hold : before.method? cls name with
    | none =>
      rw [hs.adds hold] at hentry
      cases hentry
    | some old =>
      obtain ⟨ret, hret, -⟩ := hs.keeps hold
      obtain ⟨file, m, hm, rfl⟩ := h.source hold
      cases hret.symm.trans hentry
      exact ⟨file, m, hm, rfl⟩
  classes name := by rw [hs.has, h.classes]

/-- The registry that a batch is typed against, if its declarations are not at fault. -/
theorem settled_infer (externals : Externals) {batch : List Program}
    (h : (declareAll batch).2 = []) :
    Settled (batchDeclarations batch) (infer externals batch).registry :=
  (records_declareAll h).settled (settles_settle externals _ (batchMethods batch))

/-- After inference, all types on record have written forms. -/
theorem writable_infer {externals : Externals} (hext : WritableReturns externals)
    {batch : List Program} (h : (declareAll batch).2 = []) :
    (infer externals batch).registry.Writable :=
  writable_settle hext (records_declareAll h).writable (batchMethods batch)

end StackScript.Typing

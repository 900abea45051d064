import StackScript.Proofs.Keeping
import StackScript.Proofs.ScopeWalks
import StackScript.Proofs.WrittenBodies

/-!
# Typing with classes from outside on record

Typing that keeps the classes from outside that it finds types what stands in a body as typing does
that looks them up anew (`Site.bodyKeeping_eq`). What is on record besides (`Keeps`) is nobody's
scope, so a call without a class finds the same method; and a call on a class reaches the same one,
which has the methods that it has outside (`Keeps.method?_meant`). This needs that calls name
classes by words, as texts do, and that classes from outside go by the names that they are asked by.
-/

namespace StackScript.Typing

open StackScript.Source StackScript.Syntax

/-! ## Calls with classes from outside on record -/

namespace Registry

/-- A class that a name means, and that is no class from outside, is on record. -/
theorem has_of_lookup {registry : Registry} {externals : Externals} {name inside found : String}
    (h : registry.lookup externals name inside = .ok (.onRecord found)) :
    registry.has found = true := by
  unfold lookup at h
  split at h
  · rename_i nested hnested
    cases h
    exact List.find?_some hnested
  · simp only at h
    split at h
    · rename_i hpackage
      cases h
      exact hpackage
    · split at h
      · rename_i only hnames
        cases h
        have hmem : found ∈ registry.namesakes name := hnames ▸ List.mem_singleton_self found
        obtain ⟨entry, hentry, rfl⟩ := List.mem_map.mp (List.mem_filter.mp hmem).1
        rw [has, class?, List.find?_isSome]
        exact ⟨entry, (List.mem_filter.mp hentry).1, decide_eq_true rfl⟩
      · obtain ⟨_, _, -, houtside⟩ := lookupOutside_eq_ok h
        cases houtside
      · cases h

/-- What is on record stays on record when a name is resolved. -/
theorem has_resolve {registry : Registry} {cls : String} (h : registry.has cls = true)
    (externals : Externals) (name inside : String) :
    (registry.resolve externals name inside).1.has cls = true := by
  obtain ⟨entry, hentry⟩ := has_iff.mp h
  rw [resolve]
  split
  · exact h
  · exact h
  · rw [has, class?_enroll, hentry]
    rfl

/-- A name is resolved to the class that it means. -/
theorem resolve_snd (registry : Registry) (externals : Externals) (name inside : String) :
    (registry.resolve externals name inside).2 =
      (registry.lookup externals name inside).map Meaning.name := by
  rw [resolve]
  cases registry.lookup externals name inside with
  | error fault => rfl
  | ok meaning => cases meaning <;> rfl

/-- What a name is resolved to is on record afterwards. -/
theorem has_of_resolve {registry : Registry} {externals : Externals} {name inside found : String}
    (h : (registry.resolve externals name inside).2 = .ok found) :
    (registry.resolve externals name inside).1.has found = true := by
  rw [resolve] at h ⊢
  split at h
  · cases h
  · rename_i hlookup
    cases h
    exact has_of_lookup hlookup
  · rename_i sig _
    cases h
    have hname : (ClassEntry.ofSig sig).name = sig.name := rfl
    rw [has, class?_enroll, hname, if_pos rfl]
    cases registry.class? sig.name <;> rfl

/-- The class around a class on record is on record. -/
def Rooted (registry : Registry) : Prop :=
  ∀ entry ∈ registry.classes, ∀ outer, entry.enclosing = some outer → registry.has outer = true

/-- All scopes of a class on record are on record. -/
theorem Rooted.has_of_enclosed {registry : Registry} (h : registry.Rooted) {cls : String}
    {scopes : List String} (hscopes : Enclosed registry cls scopes)
    (hcls : registry.has cls = true) : ∀ scope ∈ scopes, registry.has scope = true := by
  induction hscopes with
  | outermost _ => exact List.forall_mem_singleton.mpr hcls
  | inside haround _ ih =>
    obtain ⟨entry, hentry, houter⟩ := around?_eq_some.mp haround
    have hhas := h entry (List.mem_of_find?_eq_some hentry) _ houter
    exact List.forall_mem_cons.mpr ⟨hcls, ih hhas⟩

end Registry

namespace Keeps

variable {externals : Externals} {registry later : Registry}

/-- A class of the batch has the same methods in both. -/
theorem method?_eq (h : Keeps externals registry later) {cls : String}
    (hhas : registry.has cls = true) (method : String) :
    later.method? cls method = registry.method? cls method := by
  rw [Registry.method?, h.class?_eq hhas, Registry.method?]

/-- A method of the batch is on record at the same place, and no other method is. -/
theorem methodAt?_eq (h : Keeps externals registry later) (cls method file : String)
    (span : Span) :
    later.methodAt? cls method file span = registry.methodAt? cls method file span := by
  cases hhas : registry.has cls with
  | true => rw [Registry.methodAt?, h.method?_eq hhas, Registry.methodAt?]
  | false =>
    have hnone : registry.methodAt? cls method file span = none := by
      rw [Option.eq_none_iff_forall_ne_some]
      intro entry hentry
      have hfound := Registry.has_of_method? (Registry.methodAt?_eq_some.mp hentry).1
      rw [hhas] at hfound
      cases hfound
    rw [hnone, Option.eq_none_iff_forall_ne_some]
    intro entry hentry
    obtain ⟨hmethod, horigin⟩ := Registry.methodAt?_eq_some.mp hentry
    obtain ⟨owner, howner, hmethod⟩ := Option.bind_eq_some_iff.mp hmethod
    -- what is kept besides has no methods of the batch
    cases h.kept_of_class? hhas howner
    obtain ⟨m, -, rfl⟩ := ClassEntry.mem_ofSig (List.mem_of_find?_eq_some hmethod)
    cases horigin

/-- A call without a class finds the same method. -/
theorem localMethod?_eq (h : Keeps externals registry later) (hnesting : Nesting registry)
    {cls : String} (hscopes : ∀ scope ∈ registry.scopes cls, registry.has scope = true)
    (method : String) : later.localMethod? cls method = registry.localMethod? cls method := by
  rw [Registry.localMethod?, h.scopes_eq hnesting, Registry.localMethod?]
  generalize registry.scopes cls = scopes at hscopes
  induction scopes with
  | nil => rfl
  | cons scope scopes ih =>
    obtain ⟨hscope, hmore⟩ := List.forall_mem_cons.mp hscopes
    rw [List.findSome?_cons, List.findSome?_cons, h.method?_eq hscope, ih hmore]

/-- A class that a name means has the same methods once it is on record. -/
theorem method?_meant (h : Keeps externals registry later)
    (hnamed : ∀ name sig, externals name = some sig → sig.name = name) {name inside : String}
    {meaning : Registry.Meaning} (hmeaning : registry.lookup externals name inside = .ok meaning)
    (hhas : later.has meaning.name = true) (method : String) :
    later.method? meaning.name method = (registry.entry? meaning).bind (·.method? method) := by
  rw [method?_of_meaning]
  cases meaning with
  | onRecord cls => exact h.method?_eq (Registry.has_of_lookup hmeaning) method
  | outside sig =>
    have hname : (Registry.Meaning.outside sig).name = sig.name := rfl
    simp only [hname] at hhas ⊢
    cases hold : registry.has sig.name with
    | true => rw [h.method?_eq hold, if_pos rfl]
    | false =>
      obtain ⟨entry, hentry⟩ := Registry.has_iff.mp hhas
      have hkey := Registry.name_of_class? hentry
      rw [Registry.method?_of_class? hentry, if_neg Bool.false_ne_true]
      cases h.kept_of_class? hold hentry with
      | @mk package simple kept _ hsig hkept _ _ =>
        -- one name is asked for, so there is one answer
        obtain ⟨asked, hasked⟩ := lookup_eq_outside hmeaning
        have hkey : kept.name = sig.name := hkey
        rw [← hkept, hkey, hnamed asked sig hasked, hasked] at hsig
        cases hsig
        rfl

end Keeps

/-! ## Sites -/

/-- The second site is the first one with classes from outside on record besides. -/
inductive Site.Ahead (site : Site) : Site → Prop where
  | mk {later : Registry} (h : Keeps site.externals site.registry later) :
    Site.Ahead site { site with registry := later }

theorem Site.Ahead.exists_eq {site ahead : Site} (h : site.Ahead ahead) : ∃ later,
    Keeps site.externals site.registry later ∧ ahead = { site with registry := later } := by
  obtain ⟨h⟩ := h
  exact ⟨_, h, rfl⟩

/-- Typing that keeps comes to the same, and to a site with classes from outside besides. -/
structure Site.Follows (site : Site) {α : Type} (typed : α) (kept : α × Site) : Prop where
  typed : kept.1 = typed
  ahead : site.Ahead kept.2

/-- A site in a class of a batch: the classes on record are nested in classes on record, and its own
is on record with all of those around it. External classes go by the names they are asked by. -/
structure Site.Grounded (site : Site) : Prop where
  named : ∀ name sig, site.externals name = some sig → sig.name = name
  nesting : Nesting site.registry
  scopes : ∀ scope ∈ site.registry.scopes site.cls, site.registry.has scope = true

section

variable {site : Site} (hsite : site.Grounded)

/-- A class that is found before the arguments are typed is on record after them. -/
theorem Site.has_valuesKeeping (locals : Locals) (args : List Expr) {ahead : Site} {cls : String}
    (h : ahead.registry.has cls = true) :
    (Site.valuesKeeping locals args ahead).2.registry.has cls = true := by
  refine Site.valuesKeeping_keeps (P := fun ahead => ahead.registry.has cls = true)
    (fun ahead receiver method h => ?_) locals args ahead h
  unfold Site.seek
  split
  · exact Registry.has_resolve h _ _ _
  · split <;> exact h

include hsite

/-- Looking for the class of a call keeps at most one more class. -/
theorem Site.Grounded.seek_ahead {receiver : Option Ident}
    (hreceiver : ∀ owner ∈ receiver, PlainName owner.name) (method : Ident) {ahead : Site}
    (h : site.Ahead ahead) : site.Ahead (ahead.seek receiver method).2 := by
  obtain ⟨hkeeps⟩ := h
  unfold Site.seek
  split
  · exact .mk (hkeeps.resolve hsite.named (hreceiver _ rfl) site.cls)
  · split <;> exact .mk hkeeps

/-- The target of a call is looked for before its arguments are typed, and is the one that it
has. -/
theorem Site.Grounded.reached_eq {receiver : Option Ident}
    (hreceiver : ∀ owner ∈ receiver, PlainName owner.name) (method : Ident) {ahead last : Site}
    (h : site.Ahead ahead) (hlast : site.Ahead last)
    (hhas : ∀ cls, (ahead.seek receiver method).2.registry.has cls = true →
      last.registry.has cls = true) :
    last.reached method (ahead.seek receiver method).1 = site.goal receiver method := by
  obtain ⟨hkeeps⟩ := h
  obtain ⟨hlast⟩ := hlast
  unfold Site.seek at hhas ⊢
  unfold Site.goal Site.target Site.reached
  cases receiver with
  | some written =>
    -- the class is resolved before the arguments are typed and its method is looked up after them,
    -- so what they bring along must leave the class as it is
    have hanswer := hkeeps.resolve_eq hsite.nesting (hreceiver written rfl) site.cls
    rw [Registry.resolve_snd site.registry] at hanswer
    cases hlookup : site.registry.lookup site.externals written.name site.cls with
    | error fault =>
      rw [hlookup] at hanswer
      simp only [hanswer, hlookup, Except.map, Except.mapError]
    | ok meaning =>
      rw [hlookup] at hanswer
      have hmeant := hlast.method?_meant hsite.named hlookup
        (hhas _ (Registry.has_of_resolve hanswer)) method.name
      simp only [hanswer, hlookup, Except.map, Except.mapError, hmeant]
  | none =>
    have hlocal := hkeeps.localMethod?_eq hsite.nesting hsite.scopes method.name
    simp only [hlocal]
    cases hfound : site.registry.localMethod? site.cls method.name with
    | none => rfl
    | some found =>
      obtain ⟨scope, -, hscope⟩ := List.exists_of_findSome?_eq_some hfound
      obtain ⟨entry, hentry, rfl⟩ := Option.map_eq_some_iff.mp hscope
      have howner := hlast.method?_eq (Registry.has_of_method? hentry) method.name
      simp only [Except.map, howner]
      rfl

end

/-! ## Expressions -/

section

variable {site : Site}

mutual

/-- An expression is typed as it is where no class from outside is on record. -/
theorem Site.inferKeeping_eq (hsite : site.Grounded) (locals : Locals) : ∀ (e : Expr)
    {ahead : Site}, (e.relabel bare).Written → site.Ahead ahead →
      site.Follows (site.infer locals e) (Site.inferKeeping locals e ahead)
  | .int _ _, _, _, h => ⟨rfl, h⟩
  | .bool _ _, _, _, h => ⟨rfl, h⟩
  | .string _ _, _, _, h => ⟨rfl, h⟩
  | .var _ _, _, _, h => ⟨rfl, h⟩
  | .call receiver method args resolved note, ahead, hwords, h => by
    simp only [Expr.relabel, Expr.Written] at hwords
    have hreceiver : ∀ owner ∈ receiver, PlainName owner.name := fun owner howner =>
      (hwords.1 (owner.relabel bare) (Option.mem_map_of_mem _ howner)).2
    obtain ⟨hargs, hlast⟩ := Site.valuesKeeping_eq hsite locals args hwords.2.2.1
      (hsite.seek_ahead hreceiver method h)
    refine ⟨?_, hlast⟩
    -- the class was on record before the arguments were typed, and still is
    have hreached := hsite.reached_eq hreceiver method h hlast
      fun _ => Site.has_valuesKeeping locals args
    rw [Site.infer, Site.call_eq, ← hreached, ← hargs]
    rfl
  | .index array position note, ahead, hwords, h => by
    simp only [Expr.relabel, Expr.Written] at hwords
    obtain ⟨harray, h⟩ := Site.inferKeeping_eq hsite locals array hwords.1 h
    obtain ⟨hposition, h⟩ := Site.inferKeeping_eq hsite locals position hwords.2.1 h
    refine ⟨?_, h⟩
    rw [Site.infer, ← harray, ← hposition]
    rfl
  | .length value note, ahead, hwords, h => by
    simp only [Expr.relabel, Expr.Written] at hwords
    obtain ⟨hvalue, h⟩ := Site.inferKeeping_eq hsite locals value hwords.1 h
    refine ⟨?_, h⟩
    rw [Site.infer, ← hvalue]
    rfl
  | .unary op operand note, ahead, hwords, h => by
    simp only [Expr.relabel, Expr.Written] at hwords
    obtain ⟨hoperand, h⟩ := Site.inferKeeping_eq hsite locals operand hwords.1 h
    refine ⟨?_, h⟩
    rw [Site.infer, ← hoperand]
    rfl
  | .binary op left right note, ahead, hwords, h => by
    simp only [Expr.relabel, Expr.Written] at hwords
    obtain ⟨hleft, h⟩ := Site.inferKeeping_eq hsite locals left hwords.1 h
    obtain ⟨hright, h⟩ := Site.inferKeeping_eq hsite locals right hwords.2.1 h
    refine ⟨?_, h⟩
    rw [Site.infer, ← hleft, ← hright]
    rfl

theorem Site.valuesKeeping_eq (hsite : site.Grounded) (locals : Locals) : ∀ (es : List Expr)
    {ahead : Site}, WrittenArgs (relabelExprs bare es) → site.Ahead ahead →
      site.Follows (site.inferValues locals es) (Site.valuesKeeping locals es ahead)
  | [], _, _, h => ⟨rfl, h⟩
  | e :: es, ahead, hwords, h => by
    simp only [relabelExprs, WrittenArgs] at hwords
    obtain ⟨he, h⟩ := Site.inferKeeping_eq hsite locals e hwords.1 h
    obtain ⟨hes, h⟩ := Site.valuesKeeping_eq hsite locals es hwords.2 h
    refine ⟨?_, h⟩
    rw [Site.inferValues, ← he, ← hes]
    rfl

end

variable (hsite : site.Grounded) (locals : Locals)

include hsite

theorem Site.valueKeeping_eq (e : Expr) {ahead : Site} (hwords : (e.relabel bare).Written)
    (h : site.Ahead ahead) :
    site.Follows (site.value locals e) (Site.valueKeeping locals e ahead) := by
  obtain ⟨he, h⟩ := Site.inferKeeping_eq hsite locals e hwords h
  refine ⟨?_, h⟩
  rw [Site.value, ← he]
  rfl

theorem Site.conditionKeeping_eq (e : Expr) {ahead : Site} (hwords : (e.relabel bare).Written)
    (h : site.Ahead ahead) :
    site.Follows (site.condition locals e) (Site.conditionKeeping locals e ahead) := by
  obtain ⟨he, h⟩ := Site.valueKeeping_eq hsite locals e hwords h
  refine ⟨?_, h⟩
  rw [Site.condition, ← he]
  rfl

end

/-! ## Statements -/

/-- What is expected of a value does not depend on what is on record. -/
theorem Site.Ahead.valueFindings_eq {site ahead : Site} (h : site.Ahead ahead) (typed : Typed)
    (span : Span) : ahead.valueFindings typed span = site.valueFindings typed span := by
  obtain ⟨-⟩ := h
  rfl

theorem Site.Ahead.returnFindings_eq {site ahead : Site} (h : site.Ahead ahead) (found : Ty)
    (span : Span) : ahead.returnFindings found span = site.returnFindings found span := by
  obtain ⟨-⟩ := h
  rfl

theorem Site.Ahead.implicitReturn_eq {site ahead : Site} (h : site.Ahead ahead) (typed : Typed) :
    ahead.implicitReturn typed = site.implicitReturn typed := by
  obtain ⟨-⟩ := h
  rfl

section

variable {site : Site}

mutual

/-- A statement is typed as it is where no class from outside is on record. -/
theorem Site.stmtKeeping_eq (hsite : site.Grounded) : ∀ (stmt : Stmt) (locals : Locals)
    {ahead : Site}, (stmt.relabel bare).Written → site.Ahead ahead →
      site.Follows (site.stmt locals stmt) (Site.stmtKeeping locals stmt ahead)
  | .expr value span, locals, ahead, hwords, h => by
    obtain ⟨hvalue, h⟩ := Site.inferKeeping_eq hsite locals value hwords h
    refine ⟨?_, h⟩
    rw [Site.stmt, ← hvalue]
    rfl
  | .assign target value span, locals, ahead, hwords, h => by
    obtain ⟨hvalue, h⟩ := Site.valueKeeping_eq hsite locals value hwords.2 h
    refine ⟨?_, h⟩
    rw [Site.stmt, ← hvalue]
    rfl
  | .cond chain span, locals, ahead, hwords, h => by
    obtain ⟨hchain, h⟩ := Site.chainKeeping_eq hsite chain locals hwords h
    refine ⟨?_, h⟩
    rw [Site.stmt, ← hchain]
    rfl
  | .loop condition body span, locals, ahead, hwords, h => by
    obtain ⟨hcondition, h⟩ := Site.conditionKeeping_eq hsite locals condition hwords.1 h
    obtain ⟨hbody, h⟩ := Site.blockKeeping_eq hsite body locals hwords.2 h
    refine ⟨?_, h⟩
    rw [Site.stmt, ← hcondition, ← hbody]
    rfl
  | .ret (some value) span, locals, ahead, hwords, h => by
    obtain ⟨hvalue, h⟩ := Site.valueKeeping_eq hsite locals value (hwords _ rfl) h
    refine ⟨?_, h⟩
    rw [Site.stmt, ← hvalue, ← h.valueFindings_eq]
    rfl
  | .ret none span, locals, ahead, _, h => by
    refine ⟨?_, h⟩
    rw [Site.stmt, ← h.returnFindings_eq]
    rfl
  | .puts value span, locals, ahead, hwords, h => by
    obtain ⟨hvalue, h⟩ := Site.valueKeeping_eq hsite locals value hwords h
    refine ⟨?_, h⟩
    rw [Site.stmt, ← hvalue]
    rfl
  | .raise value span, locals, ahead, hwords, h => by
    obtain ⟨hvalue, h⟩ := Site.valueKeeping_eq hsite locals value hwords h
    refine ⟨?_, h⟩
    rw [Site.stmt, ← hvalue]
    rfl

theorem Site.blockKeeping_eq (hsite : site.Grounded) : ∀ (block : Block) (locals : Locals)
    {ahead : Site}, (block.relabel bare).Written → site.Ahead ahead →
      site.Follows (site.block locals block) (Site.blockKeeping locals block ahead)
  | .mk stmts span, locals, ahead, hwords, h => by
    obtain ⟨hstmts, h⟩ := Site.stmtsKeeping_eq hsite stmts locals hwords h
    refine ⟨?_, h⟩
    rw [Site.block, ← hstmts]
    rfl

theorem Site.stmtsKeeping_eq (hsite : site.Grounded) : ∀ (stmts : List Stmt) (locals : Locals)
    {ahead : Site}, WrittenStmts (relabelStmts bare stmts) → site.Ahead ahead →
      site.Follows (site.stmts locals stmts) (Site.stmtsKeeping locals stmts ahead)
  | [], _, _, _, h => ⟨rfl, h⟩
  | stmt :: rest, locals, ahead, hwords, h => by
    obtain ⟨hstmt, h⟩ := Site.stmtKeeping_eq hsite stmt locals hwords.1 h
    obtain ⟨hrest, h⟩ := Site.stmtsKeeping_eq hsite rest (Site.stmtKeeping locals stmt ahead).1.2.1
      hwords.2 h
    refine ⟨?_, h⟩
    rw [Site.stmts, ← hstmt]
    simp only [← hrest]
    rfl

theorem Site.chainKeeping_eq (hsite : site.Grounded) : ∀ (chain : Chain) (locals : Locals)
    {ahead : Site}, (chain.relabel bare).Written → site.Ahead ahead →
      site.Follows (site.chain locals chain) (Site.chainKeeping locals chain ahead)
  | .done, _, _, _, h => ⟨rfl, h⟩
  | .otherwise body, locals, ahead, hwords, h => by
    obtain ⟨hbody, h⟩ := Site.blockKeeping_eq hsite body locals hwords h
    refine ⟨?_, h⟩
    rw [Site.chain, ← hbody]
    rfl
  | .branch condition body rest, locals, ahead, hwords, h => by
    obtain ⟨hcondition, h⟩ := Site.conditionKeeping_eq hsite locals condition hwords.1 h
    obtain ⟨hbody, h⟩ := Site.blockKeeping_eq hsite body locals hwords.2.1 h
    obtain ⟨hrest, h⟩ := Site.chainKeeping_eq hsite rest (Site.blockKeeping locals body
      (Site.conditionKeeping locals condition ahead).2).1.2.1 hwords.2.2 h
    refine ⟨?_, h⟩
    rw [Site.chain, ← hcondition, ← hbody]
    simp only [← hrest]
    rfl

end

end

/-! ## Bodies -/

section

variable {site : Site} (hsite : site.Grounded)

include hsite

theorem Site.bodyStmtsKeeping_eq (stmts : List Stmt) (locals : Locals) {ahead : Site}
    (hwords : WrittenStmts (relabelStmts bare stmts)) (h : site.Ahead ahead) :
    site.Follows (site.bodyStmts locals stmts) (Site.bodyStmtsKeeping locals stmts ahead) := by
  induction stmts generalizing locals ahead with
  | nil => exact ⟨rfl, h⟩
  | cons stmt rest ih =>
    rcases isLast_cases stmt rest with hlast | ⟨value, span, rfl, rfl⟩
    · obtain ⟨hstmt, h⟩ := Site.stmtKeeping_eq hsite stmt locals hwords.1 h
      obtain ⟨hrest, h⟩ := ih _ hwords.2 h
      rw [Site.bodyStmtsKeeping_cons locals hlast, Site.bodyStmts_cons site locals hlast, ← hstmt,
        ← hrest]
      exact ⟨rfl, h⟩
    · obtain ⟨hvalue, h⟩ := Site.inferKeeping_eq hsite locals value hwords.1 h
      refine ⟨?_, h⟩
      rw [Site.bodyStmts, ← hvalue, ← h.implicitReturn_eq]
      rfl

/-- **A body is typed as it is where no class from outside is on record.** -/
theorem Site.bodyKeeping_eq {m : Method} (hwords : (m.body.relabel bare).Written)
    (types : List (Option Ty)) {ahead : Site} (h : site.Ahead ahead) :
    site.Follows (site.body m types) (ahead.bodyKeeping m types) := by
  have hstmts : WrittenStmts (relabelStmts bare m.body.stmts) := by
    rw [← Block.stmts_relabel]
    exact Block.written_iff.mp hwords
  obtain ⟨hbody, hlast⟩ := Site.bodyStmtsKeeping_eq hsite m.body.stmts
    (paramLocals m.params types) hstmts h
  refine ⟨?_, hlast⟩
  obtain ⟨-⟩ := h
  rw [Site.body, ← hbody]
  rfl

end

end StackScript.Typing

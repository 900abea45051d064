import StackScript.Proofs.CallSites
import StackScript.Proofs.Following

/-!
# Locals at run time

A method has a slot for each of its parameters and for each name that its body assigns, in source
order. The slots hold the store: each name that has a value has it in its slot, of the type that the
name has by the end of the body, and all other slots hold the lack of a value.
-/

namespace StackScript.Code

open StackScript.Source StackScript.Syntax StackScript.Typing

/-! ## Names with slots -/

mutual

/-- The names that a statement assigns, in source order. -/
def stmtNames : Stmt → List String
  | .expr _ _ | .ret _ _ | .puts _ _ | .raise _ _ => []
  | .assign target _ _ => [target.name]
  | .cond chain _ => chainNames chain
  | .loop _ body _ => blockNames body

/-- The names that a block assigns. -/
def blockNames : Block → List String
  | .mk stmts _ => stmtsNames stmts

/-- The names that statements assign. -/
def stmtsNames : List Stmt → List String
  | [] => []
  | stmt :: rest => stmtNames stmt ++ stmtsNames rest

/-- The names that the branches of a conditional assign. -/
def chainNames : Chain → List String
  | .done => []
  | .otherwise body => blockNames body
  | .branch _ body rest => blockNames body ++ chainNames rest

end

/-- The names with slots after more names got theirs. -/
def addSlots (slots : Slots) (names : List String) : Slots := names.foldl addSlot slots

/-- The parameters and locals of a method, each once. -/
def methodNames (m : Method) : Slots :=
  addSlots [] (m.params.map (·.name.name) ++ stmtsNames m.body.stmts)

section

variable {slots : Slots} {name : String} {names more : List String}

theorem addSlots_append : addSlots slots (names ++ more) = addSlots (addSlots slots names) more :=
  List.foldl_append

theorem nodup_addSlot (h : slots.Nodup) : (addSlot slots name).Nodup := by
  unfold addSlot
  split
  · exact h
  · rename_i hnew
    -- the name is added only because it is not there
    refine List.nodup_append.mpr ⟨h, List.pairwise_singleton _ name, ?_⟩
    rintro other hother _ hname rfl
    rw [List.mem_singleton.mp hname] at hother
    exact hnew (by simpa using hother)

theorem nodup_addSlots (h : slots.Nodup) : (addSlots slots names).Nodup := by
  induction names generalizing slots with
  | nil => exact h
  | cons name rest ih => exact ih (nodup_addSlot h)

theorem prefix_addSlot : slots <+: addSlot slots name := by
  unfold addSlot
  split
  · exact List.prefix_rfl
  · exact List.prefix_append slots [name]

/-- Slots for more names are added behind those that there are. -/
theorem prefix_addSlots : slots <+: addSlots slots names := by
  induction names generalizing slots with
  | nil => exact List.prefix_rfl
  | cons name rest ih => exact prefix_addSlot.trans ih

/-- Slots are only ever added. -/
theorem prefix_of_slots {after : Slots} (h : after = addSlots slots names) : slots <+: after :=
  h ▸ prefix_addSlots

/-- Distinct names have slots in their own order. -/
theorem addSlots_of_nodup (h : (slots ++ names).Nodup) : addSlots slots names = slots ++ names := by
  induction names generalizing slots with
  | nil => exact (List.append_nil slots).symm
  | cons name rest ih =>
    have hnew : addSlot slots name = slots ++ [name] := by
      rw [addSlot, if_neg]
      intro hmem
      exact (List.nodup_append.mp h).2.2 name (by simpa using hmem) name List.mem_cons_self rfl
    have hrest : ((slots ++ [name]) ++ rest).Nodup := by
      rwa [List.append_assoc]
    rw [addSlots, List.foldl_cons, hnew]
    exact (ih hrest).trans (by rw [List.append_assoc, List.singleton_append])

/-- Distinct parameters come first among the names of a method. -/
theorem prefix_methodNames {m : Method} (h : (m.params.map (·.name.name)).Nodup) :
    m.params.map (·.name.name) <+: methodNames m := by
  have hfirst : addSlots [] (m.params.map (·.name.name)) = m.params.map (·.name.name) :=
    addSlots_of_nodup h
  rw [methodNames, addSlots_append, hfirst]
  exact prefix_addSlots

end

section

variable {file : String}

mutual

/-- Code is made with a slot for each name that is assigned. -/
theorem slots_stmtCode : ∀ (stmt : Stmt) {slots : Slots} {place : Nat} {emitted : Emitted},
    stmtCode file slots place stmt = .ok emitted → emitted.slots = addSlots slots (stmtNames stmt)
  | .expr value span, _, _, _, hcode => by
    simp only [stmtCode, bind_eq_ok, pure_eq_ok] at hcode
    obtain ⟨_, -, _, -, rfl⟩ := hcode
    rfl
  | .assign target value span, _, _, _, hcode => by
    simp only [stmtCode, bind_eq_ok, pure_eq_ok] at hcode
    obtain ⟨_, -, rfl⟩ := hcode
    rfl
  | .cond chain span, _, _, _, hcode => by
    simp only [stmtCode, bind_eq_ok, pure_eq_ok] at hcode
    obtain ⟨emitted, hchain, rfl⟩ := hcode
    rw [slots_markLine, stmtNames]
    exact slots_chainCode chain hchain
  | .loop condition body span, _, _, _, hcode => by
    simp only [stmtCode, bind_eq_ok, pure_eq_ok] at hcode
    obtain ⟨_, -, inner, hinner, rfl⟩ := hcode
    rw [slots_markLine, slots_append, slots_plain, stmtNames]
    exact slots_blockCode body hinner
  | .ret (some value) span, _, _, _, hcode => by
    simp only [stmtCode, bind_eq_ok, pure_eq_ok] at hcode
    obtain ⟨_, -, rfl⟩ := hcode
    rfl
  | .ret none _, _, _, _, hcode => by
    cases hcode
    rfl
  | .puts value span, _, _, _, hcode => by
    simp only [stmtCode, bind_eq_ok, pure_eq_ok] at hcode
    obtain ⟨_, -, rfl⟩ := hcode
    rfl
  | .raise value span, _, _, _, hcode => by
    simp only [stmtCode, bind_eq_ok, pure_eq_ok] at hcode
    obtain ⟨_, -, rfl⟩ := hcode
    rfl

/-- The code of a block adds slots for the names that are assigned in it. -/
theorem slots_blockCode : ∀ (block : Block) {slots : Slots} {place : Nat} {emitted : Emitted},
    blockCode file slots place block = .ok emitted →
      emitted.slots = addSlots slots (blockNames block)
  | .mk stmts _, _, _, _, hcode => slots_stmtsCode stmts hcode

theorem slots_stmtsCode : ∀ (stmts : List Stmt) {slots : Slots} {place : Nat} {emitted : Emitted},
    stmtsCode file slots place stmts = .ok emitted →
      emitted.slots = addSlots slots (stmtsNames stmts)
  | [], _, _, _, hcode => by
    cases hcode
    rfl
  | stmt :: rest, _, _, _, hcode => by
    simp only [stmtsCode, bind_eq_ok, pure_eq_ok] at hcode
    obtain ⟨first, hfirst, others, hothers, rfl⟩ := hcode
    rw [slots_append, slots_stmtsCode rest hothers, slots_stmtCode stmt hfirst, ← addSlots_append]
    rfl

theorem slots_chainCode : ∀ (chain : Chain) {slots : Slots} {place : Nat} {emitted : Emitted},
    chainCode file slots place chain = .ok emitted →
      emitted.slots = addSlots slots (chainNames chain)
  | .done, _, _, _, hcode => by
    cases hcode
    rfl
  | .otherwise body, _, _, _, hcode => slots_blockCode body hcode
  | .branch condition body rest, _, _, _, hcode => by
    simp only [chainCode, bind_eq_ok, pure_eq_ok] at hcode
    obtain ⟨_, -, taken, htaken, others, hothers, rfl⟩ := hcode
    rw [slots_append, slots_chainCode rest hothers, slots_blockCode body htaken, ← addSlots_append]
    rfl

end

theorem slots_bodyCode {ret : Ty} (stmts : List Stmt) {slots : Slots} {place : Nat}
    {emitted : Emitted} (hcode : bodyCode file ret slots place stmts = .ok emitted) :
    emitted.slots = addSlots slots (stmtsNames stmts) := by
  induction stmts generalizing slots place emitted with
  | nil =>
    cases hcode
    rfl
  | cons stmt rest ih =>
    rcases isLast_cases stmt rest with hlast | ⟨value, span, rfl, rfl⟩
    · rw [bodyCode_cons hlast] at hcode
      simp only [bind_eq_ok, pure_eq_ok] at hcode
      obtain ⟨first, hfirst, others, hothers, rfl⟩ := hcode
      rw [slots_append, ih hothers, slots_stmtCode stmt hfirst, ← addSlots_append]
      rfl
    · -- a bare expression at the end assigns nothing, whether its value is owed or dropped
      rw [bodyCode] at hcode
      split at hcode
      · exact slots_stmtCode (.expr value span) hcode
      · simp only [bind_eq_ok, pure_eq_ok] at hcode
        obtain ⟨_, -, rfl⟩ := hcode
        rfl

/-- The body of a method ends with slots for the names of the method. -/
theorem slots_methodBody {m : Method} {ret : Ty} {body : Emitted}
    (hbody : bodyCode file ret ((m.params.map (·.name.name)).foldl addSlot []) 0 m.body.stmts
      = .ok body) : body.slots = methodNames m := by
  rw [slots_bodyCode _ hbody, methodNames, addSlots_append]
  rfl

end

end StackScript.Code

namespace StackScript.Typing

open StackScript.Syntax

/-! ## Contexts that grow -/

/-- Every local of the one context is in the other one, with its type. -/
def Context.Within (Γ Δ : Context) : Prop :=
  ∀ name t, Γ.lookup name = some t → Δ.lookup name = some t

theorem Context.Within.refl (Γ : Context) : Γ.Within Γ := fun _ _ h => h

theorem Context.Within.trans {Γ Δ Θ : Context} (h : Γ.Within Δ) (h' : Δ.Within Θ) : Γ.Within Θ :=
  fun name t hname => h' name t (h name t hname)

/-- A context is within one that declares a name it does not have. -/
theorem Context.within_declare {Γ : Context} {name : String} (h : Γ.lookup name = none) (t : Ty) :
    Γ.Within ((name, t) :: Γ) := by
  intro other s hother
  have hne : other ≠ name := by
    rintro rfl
    rw [h] at hother
    cases hother
  rwa [Code.lookup_cons_ne t hne]

section

variable {offers : Offering} {ret : Ty}

mutual

/-- Statements add locals and change none. -/
theorem StmtHasTy.within : ∀ {stmt : Stmt} {Γ Δ : Context}, StmtHasTy offers ret Γ stmt Δ →
    Γ.Within Δ
  | _, Γ, _, .expr _ => .refl Γ
  | _, Γ, _, .assign _ _ _ => .refl Γ
  | _, _, _, .declare _ _ hlocal => Context.within_declare hlocal _
  | _, _, _, .cond hchain => hchain.within
  | _, _, _, .loop _ hbody => hbody.within
  | _, Γ, _, .ret _ _ => .refl Γ
  | _, Γ, _, .retVoid _ => .refl Γ
  | _, Γ, _, .puts _ _ => .refl Γ
  | _, Γ, _, .raise _ _ => .refl Γ

theorem BlockHasTy.within : ∀ {block : Block} {Γ Δ : Context}, BlockHasTy offers ret Γ block Δ →
    Γ.Within Δ
  | _, _, _, .mk hstmts => hstmts.within

theorem StmtsHaveTy.within : ∀ {stmts : List Stmt} {Γ Δ : Context},
    StmtsHaveTy offers ret Γ stmts Δ → Γ.Within Δ
  | _, Γ, _, .nil => .refl Γ
  | _, _, _, .cons hstmt hrest => hstmt.within.trans hrest.within

theorem ChainHasTy.within : ∀ {chain : Chain} {Γ Δ : Context}, ChainHasTy offers ret Γ chain Δ →
    Γ.Within Δ
  | _, Γ, _, .done => .refl Γ
  | _, _, _, .otherwise hbody => hbody.within
  | _, _, _, .branch _ hbody hrest => hbody.within.trans hrest.within

end

theorem BodyHasTy.within {stmts : List Stmt} {Γ Δ : Context} (h : BodyHasTy offers ret Γ stmts Δ) :
    Γ.Within Δ := by
  induction h with
  | nil => exact .refl _
  | value _ _ => exact .refl _
  | cons _ hstmt _ ih => exact hstmt.within.trans ih

end

end StackScript.Typing

namespace StackScript.Machine

open StackScript.Code StackScript.Meaning StackScript.Syntax StackScript.Typing

/-! ## Pairs at one place of two lists -/

/-- Two lists have a pair in common where they have its parts at one place. -/
theorem mem_zip_iff {α β : Type} {xs : List α} {ys : List β} {x : α} {y : β} :
    (x, y) ∈ xs.zip ys ↔ ∃ i : Nat, xs[i]? = some x ∧ ys[i]? = some y := by
  simp only [List.mem_iff_getElem?, List.getElem?_zip_eq_some]

/-! ## Slots that hold a store -/

/-- The store is of the types of the context, and the slots hold it. -/
structure Matches (Θ : Context) (slots : Slots) (store : Store) (locals : Array Value) :
    Prop where
  typed : ∀ {name v}, store.lookup name = some v → ∃ t, Θ.lookup name = some t ∧ v.HasTy t
  held : ∀ {i : Nat} {name : String}, slots[i]? = some name →
    locals[i]? = some ((store.lookup name).getD .void)

/-- The slot of a name is its place among all names with slots. -/
theorem getElem?_of_slotOf? {slots all : Slots} (hstarts : slots <+: all)
    (hlength : all.length ≤ 65535) {name : String} {slot : UInt16}
    (h : slotOf? slots name = some slot) : all[slot.toNat]? = some name := by
  obtain ⟨i, hi, rfl⟩ := Option.map_eq_some_iff.mp h
  obtain ⟨hlt, hget, -⟩ := List.idxOf?_eq_some_iff.mp hi
  have hall : i < all.length := Nat.lt_of_lt_of_le hlt hstarts.length_le
  -- slots have two bytes, so that a place is its own slot only below their bound
  have hslot : (UInt16.ofNat i).toNat = i :=
    toNat_ofNat_of_le (Nat.le_of_lt (Nat.lt_of_lt_of_le hall hlength))
  rw [hslot, List.getElem?_eq_some_iff]
  exact ⟨hall, by rw [← hstarts.getElem hlt, hget]⟩

namespace Matches

variable {Θ : Context} {slots all : Slots} {store : Store} {locals : Array Value}

/-- A local that has no value yet is one whose slot holds none. -/
theorem load (h : Matches Θ all store locals) (hstarts : slots <+: all)
    (hlength : all.length ≤ 65535) {name : String} {slot : UInt16}
    (hslot : slotOf? slots name = some slot) :
    locals[slot.toNat]? = some ((store.lookup name).getD .void) :=
  h.held (getElem?_of_slotOf? hstarts hlength hslot)

/-- A value of the right type goes to the store and to the slot of its name. -/
theorem assign (h : Matches Θ all store locals) (hall : all.Nodup) {i : Nat} {name : String}
    (hi : all[i]? = some name) {t : Ty} (ht : Θ.lookup name = some t) {v : Value}
    (hv : v.HasTy t) : Matches Θ all ((name, v) :: store) (locals.setIfInBounds i v) where
  typed {other w} hother := by
    by_cases heq : other = name
    · rw [heq, List.lookup_cons_self] at hother
      cases hother
      exact ⟨t, heq ▸ ht, hv⟩
    · rw [List.lookup_cons, beq_false_of_ne heq] at hother
      exact h.typed hother
  held {j other} hj := by
    by_cases heq : other = name
    · -- all slots have different names, so the slot of the name is the one that is written
      have hij : i = j := (List.getElem?_inj (List.getElem?_eq_some_iff.mp hi).1 hall).mp
        (hi.trans (heq ▸ hj).symm)
      have hbound : i < locals.size := (Array.getElem?_eq_some_iff.mp (h.held hi)).1
      rw [heq, List.lookup_cons_self, ← hij, Array.getElem?_setIfInBounds_self_of_lt hbound]
      rfl
    · have hij : i ≠ j := by
        rintro rfl
        exact heq (Option.some.inj (hj.symm.trans hi))
      rw [List.lookup_cons, beq_false_of_ne heq, Array.getElem?_setIfInBounds_ne hij]
      exact h.held hj

end Matches

theorem Value.HaveTys.getElem? {vs : List Value} {ts : List Ty} (h : HaveTys vs ts) {i : Nat}
    {v : Value} (hv : vs[i]? = some v) : ∃ t, ts[i]? = some t ∧ v.HasTy t := by
  induction h generalizing i with
  | nil => cases hv
  | cons hfirst _ ih =>
    cases i with
    | zero =>
      cases hv
      exact ⟨_, rfl, hfirst⟩
    | succ i => exact ih hv

/-- At the start of a method its slots hold the arguments. -/
theorem matches_start {offers : Offering} {m : Method} {sig : MethodSig}
    (hsig : MethodHasSig offers m sig) (hdistinct : (m.params.map (·.name.name)).Nodup)
    {code : MethodCode} (hlocals : code.locals.toNat = (methodNames m).length) {args : List Value}
    (hargs : Value.HaveTys args sig.params) {Θ : Context}
    (hΘ : (startContext m sig.params).Within Θ) :
    Matches Θ (methodNames m) ((m.params.map (·.name.name)).zip args) (startLocals code args) := by
  have hparams : (m.params.map (·.name.name)).length = sig.params.length := by
    have hlength := congrArg List.length hsig.params
    rwa [List.length_map, List.length_map, ← List.length_map (·.name.name)] at hlength
  have hcount := hparams.trans hargs.length.symm
  have hstore : (((m.params.map (·.name.name)).zip args).map Prod.fst).Nodup := by
    rwa [List.map_fst_zip (Nat.le_of_eq hcount)]
  have hcontext : (((m.params.map (·.name.name)).zip sig.params).map Prod.fst).Nodup := by
    rwa [List.map_fst_zip (Nat.le_of_eq hparams)]
  -- parameters have the first slots, in their own order
  have hslot : ∀ {j : Nat} {name : String}, (m.params.map (·.name.name))[j]? = some name →
      (methodNames m)[j]? = some name := by
    intro j name hj
    obtain ⟨hlt, rfl⟩ := List.getElem?_eq_some_iff.mp hj
    exact List.prefix_iff_getElem?.mp (prefix_methodNames hdistinct) j hlt
  refine ⟨fun {name v} hname => ?_, fun {i name} hi => ?_⟩
  · obtain ⟨i, hi, hv⟩ := mem_zip_iff.mp (lookup_mem hname)
    obtain ⟨t, ht, hvt⟩ := hargs.getElem? hv
    refine ⟨t, hΘ name t ?_, hvt⟩
    rw [startContext, lookup_eq_some_iff_mem, List.mem_reverse]
    · exact mem_zip_iff.mpr ⟨i, hi, ht⟩
    · rw [List.map_reverse]
      exact (List.reverse_perm _).nodup_iff.mpr hcontext
  · have hbound : i < (methodNames m).length := (List.getElem?_eq_some_iff.mp hi).1
    rw [startLocals, List.getElem?_toArray]
    by_cases hparam : i < args.length
    · -- the slot of a parameter
      have hname : (m.params.map (·.name.name))[i]? = some name := by
        rw [List.getElem?_eq_getElem (hcount ▸ hparam), ← hslot (List.getElem?_eq_getElem _), hi]
      have hvalue : ((m.params.map (·.name.name)).zip args).lookup name = some args[i] :=
        (lookup_eq_some_iff_mem hstore).mpr
          (mem_zip_iff.mpr ⟨i, hname, List.getElem?_eq_getElem hparam⟩)
      rw [List.getElem?_append_left hparam, List.getElem?_eq_getElem hparam, hvalue]
      rfl
    · -- the slot of another local
      have hnew : ((m.params.map (·.name.name)).zip args).lookup name = none := by
        refine List.lookup_eq_none_iff.mpr fun ⟨other, v⟩ hpair => ?_
        obtain ⟨j, hj, hv⟩ := mem_zip_iff.mp hpair
        have hjargs : j < args.length := (List.getElem?_eq_some_iff.mp hv).1
        rw [bne_iff_ne]
        rintro rfl
        have hsame : i = j := (List.getElem?_inj hbound (nodup_addSlots .nil)).mp
          (hi.trans (hslot hj).symm)
        exact hparam (hsame ▸ hjargs)
      rw [hnew, List.getElem?_append_right (Nat.le_of_not_lt hparam), List.getElem?_replicate_of_lt]
      · rfl
      · omega

end StackScript.Machine

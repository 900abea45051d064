import StackScript.Proofs.Emitting
import StackScript.Session.Production

/-!
# Generating a batch that passed inference

After an inference without diagnostics nothing is missing from the trees that code is made from
(`isCompleteMethod_of_hasSig`), and no fault comes up in any class file. So all that can end a
generation is the sink itself or a second class of one name (`generation_is_clean`).
-/

namespace StackScript.Session

open StackScript.Code StackScript.Files StackScript.Syntax StackScript.Typing

/-! ## Handing over -/

section

variable {σ : Type} {accept : Sink σ}

theorem deliver_append (delivery : Delivery σ) (xs ys : List Product) :
    deliver accept delivery (xs ++ ys) =
      match deliver accept delivery xs with
      | (after, .error fault) => (after, .error fault)
      | (after, .ok ()) => deliver accept after ys := by
  induction xs generalizing delivery with
  | nil => rfl
  | cons product rest ih =>
    rw [List.cons_append, deliver, deliver]
    split
    · rfl
    · split
      · rfl
      · rw [ih]

/-- Handing over ends at a name that came before, or where the sink refuses a product. -/
theorem deliver_error {delivery after : Delivery σ} {products : List Product}
    {fault : SessionFault} (h : deliver accept delivery products = (after, .error fault)) :
    (∃ name, fault = .duplicateClass name ∧
      1 < (delivery.seen ++ products.map Product.name).count name) ∨
    ∃ sink product, (accept sink product).2 = .error fault := by
  induction products generalizing delivery with
  | nil => cases h
  | cons product rest ih =>
    rw [deliver] at h
    split at h
    · rename_i hseen
      -- the name was handed over before, and here it is for the second time
      have hmem : product.name ∈ delivery.seen := by simpa using hseen
      have hcount : 0 < delivery.seen.count product.name := List.count_pos_iff.mpr hmem
      have htwice :
          1 < (delivery.seen ++ (product :: rest).map Product.name).count product.name := by
        rw [List.count_append, List.map_cons, List.count_cons_self]
        omega
      cases h
      exact .inl ⟨product.name, rfl, htwice⟩
    · split at h
      · rename_i hrefused
        cases h
        exact .inr ⟨delivery.sink, product, by rw [hrefused]⟩
      · rcases ih h with ⟨name, rfl, hcount⟩ | hrefused
        · refine .inl ⟨name, rfl, ?_⟩
          simp only [List.map_cons, List.count_append, List.count_cons] at hcount ⊢
          omega
        · exact .inr hrefused

/-- A sink that takes everything is handed all products exactly when their names are distinct and
new. -/
theorem deliver_ok_iff (htakes : ∀ sink product, (accept sink product).2 = .ok ())
    (delivery : Delivery σ) (products : List Product) :
    (deliver accept delivery products).2 = .ok () ↔
      (products.map Product.name).Nodup ∧
        ∀ name ∈ products.map Product.name, name ∉ delivery.seen := by
  induction products generalizing delivery with
  | nil => simp [deliver]
  | cons product rest ih =>
    rw [deliver]
    by_cases hseen : delivery.seen.contains product.name = true
    · rw [if_pos hseen]
      have hmem : product.name ∈ delivery.seen := by simpa using hseen
      simp [hmem]
    · rw [if_neg hseen]
      have hnew : product.name ∉ delivery.seen := by simpa using hseen
      -- the sink refuses nothing, so only a name that was seen can stop the rest
      have htaken := htakes delivery.sink product
      split
      · rename_i hrefused
        rw [hrefused] at htaken
        cases htaken
      · rw [ih]
        simp only [List.map_cons, List.nodup_cons, List.mem_cons, not_or, forall_eq_or_imp]
        constructor
        · rintro ⟨hnodup, hrest⟩
          exact ⟨⟨fun hmem => (hrest _ hmem).1 rfl, hnodup⟩, hnew,
            fun name hname => (hrest name hname).2⟩
        · rintro ⟨⟨hfirst, hnodup⟩, -, hrest⟩
          exact ⟨hnodup, fun name hname => ⟨fun e => hfirst (e ▸ hname), hrest name hname⟩⟩

variable {disk : Disk} {settings : Settings}

/-- The products of a batch. -/
def batchProducts (options : Options) (batch : List Program) : List Product :=
  batch.flatMap fun program => (generate options program).made

/-- What is told of a unit changes nothing about handing it over. -/
theorem handed_deliverUnit (disk : Disk) (delivery : Delivery σ) (program : Program) :
    ((deliverUnit disk settings accept delivery program).1,
      (deliverUnit disk settings accept delivery program).2.result) =
      handUnit settings accept delivery program := rfl

/-- Without a fault of generation, a unit is handed over product by product. -/
theorem handUnit_eq {program : Program}
    (h : (unitClassFiles settings.codeOptions program).fault = none) (delivery : Delivery σ) :
    handUnit settings accept delivery program =
      deliver accept delivery (generate settings.codeOptions program).made := by
  have hfault : (generate settings.codeOptions program).fault = none := h
  rw [handUnit]
  simp only [hfault]
  rcases deliver accept delivery (generate settings.codeOptions program).made with
    ⟨after, fault | ⟨⟨⟩⟩⟩ <;> rfl

/-- Without faults of generation, a batch is handed over product by product. -/
theorem handed_deliverBatch {batch : List Program}
    (h : ∀ program ∈ batch, (unitClassFiles settings.codeOptions program).fault = none)
    (delivery : Delivery σ) :
    ((deliverBatch disk settings accept delivery batch).1,
      (deliverBatch disk settings accept delivery batch).2.result) =
      deliver accept delivery (batchProducts settings.codeOptions batch) := by
  induction batch generalizing delivery with
  | nil => rfl
  | cons program rest ih =>
    obtain ⟨hprogram, hrest⟩ := List.forall_mem_cons.mp h
    rw [batchProducts, List.flatMap_cons, deliver_append, ← handUnit_eq hprogram,
      ← handed_deliverUnit disk, deliverBatch]
    dsimp only
    cases hresult : (deliverUnit disk settings accept delivery program).2.result with
    | error fault => simp [hresult]
    | ok done =>
      simp only [Phase.andThen, hresult]
      exact ih hrest _

theorem result_deliverBatch {batch : List Program}
    (h : ∀ program ∈ batch, (unitClassFiles settings.codeOptions program).fault = none)
    (delivery : Delivery σ) :
    (deliverBatch disk settings accept delivery batch).2.result =
      (deliver accept delivery (batchProducts settings.codeOptions batch)).2 :=
  congrArg Prod.snd (handed_deliverBatch h delivery)

/-- A unit is handed over without a fault only if none came up in its class files. -/
theorem fault_of_deliverBatch {batch : List Program} {delivery : Delivery σ}
    (h : (deliverBatch disk settings accept delivery batch).2.result = .ok ()) :
    ∀ program ∈ batch, (unitClassFiles settings.codeOptions program).fault = none := by
  induction batch generalizing delivery with
  | nil => simp
  | cons program rest ih =>
    rw [deliverBatch] at h
    have hunit : (deliverUnit disk settings accept delivery program).2.result = .ok () := by
      cases hunit : (deliverUnit disk settings accept delivery program).2.result with
      | ok done => rfl
      | error fault => simp [hunit] at h
    have hrest : (deliverBatch disk settings accept
        (deliverUnit disk settings accept delivery program).1 rest).2.result = .ok () := by
      simpa [hunit, Phase.andThen] using h
    refine List.forall_mem_cons.mpr ⟨?_, ih hrest⟩
    have hunit : (handUnit settings accept delivery program).2 = .ok () := hunit
    unfold handUnit at hunit
    simp only at hunit
    split at hunit
    · cases hunit
    · split at hunit
      · assumption
      · cases hunit

end

/-! ## Products and definitions -/

/-- The names of the products of a unit are those of its definitions. -/
theorem names_generate {options : Options} {program : Program}
    (h : (unitClassFiles options program).fault = none) :
    (generate options program).made.map Product.name
      = (unitDefinitions program).map Definition.name := by
  have hgathered := isGathered_of_fault h
  rw [generate, Made.map, List.map_map]
  rw [unitClassFiles_eq options hgathered] at h ⊢
  have hmade := Made.made_each h
  -- from here on only matters that the files were made of the definitions one by one
  generalize (Made.each (Definition.classFile options) (unitDefinitions program)).made = files
    at hmade ⊢
  generalize unitDefinitions program = found at hmade ⊢
  induction found generalizing files with
  | nil =>
    cases files with
    | nil => rfl
    | cons file files => cases hmade
  | cons d rest ih =>
    cases files with
    | nil => cases hmade
    | cons file files =>
      simp only [List.map_cons, List.cons.injEq] at hmade
      simp only [List.map_cons, ← name_of_classFile hmade.1, ← ih files hmade.2]
      rfl

theorem names_batchProducts {options : Options} {batch : List Program}
    (h : ∀ program ∈ batch, (unitClassFiles options program).fault = none) :
    (batchProducts options batch).map Product.name
      = (batchDefinitions batch).map Definition.name := by
  rw [batchProducts, batchDefinitions, List.map_flatMap, List.map_flatMap]
  induction batch with
  | nil => rfl
  | cons program rest ih =>
    rw [List.flatMap_cons, List.flatMap_cons, names_generate (h program List.mem_cons_self),
      ih fun p hp => h p (List.mem_cons_of_mem _ hp)]

/-! ## Complete trees -/

mutual

/-- An expression and all expressions in it. -/
def exprParts : Expr → List Expr
  | .int value note => [.int value note]
  | .bool value note => [.bool value note]
  | .string value note => [.string value note]
  | .var name note => [.var name note]
  | .call receiver method args target note =>
    .call receiver method args target note :: argsParts args
  | .index array position note =>
    .index array position note :: (exprParts array ++ exprParts position)
  | .length value note => .length value note :: exprParts value
  | .unary op operand note => .unary op operand note :: exprParts operand
  | .binary op left right note =>
    .binary op left right note :: (exprParts left ++ exprParts right)

/-- Expressions and all expressions in them. -/
def argsParts : List Expr → List Expr
  | [] => []
  | e :: es => exprParts e ++ argsParts es

end

mutual

/-- All expressions in a statement. -/
def stmtParts : Stmt → List Expr
  | .expr value _ | .assign _ value _ | .puts value _ | .raise value _ | .ret (some value) _ =>
    exprParts value
  | .ret none _ => []
  | .cond chain _ => chainParts chain
  | .loop condition body _ => exprParts condition ++ blockParts body

/-- All expressions in a block. -/
def blockParts : Block → List Expr
  | .mk stmts _ => stmtsParts stmts

/-- All expressions in statements. -/
def stmtsParts : List Stmt → List Expr
  | [] => []
  | stmt :: rest => stmtParts stmt ++ stmtsParts rest

/-- All expressions in the branches of a conditional. -/
def chainParts : Chain → List Expr
  | .done => []
  | .otherwise body => blockParts body
  | .branch condition body rest => exprParts condition ++ blockParts body ++ chainParts rest

end

/-- The type is read back from its written form. -/
def IsReadBack (t : Ty) : Prop := Ty.parse? t.text = some t

/-- The expression carries a type that is read back, and its class if it is a call. -/
structure IsCompleteExpr (e : Expr) : Prop where
  type : ∃ t, e.type = some t ∧ IsReadBack t
  target : ∀ receiver method args target note,
    e = .call receiver method args target note → target.isSome = true

/-- Nothing that code is made from is missing in the method: it has a return type, its expressions
are complete, and there is code for it, with a slot for every local that is read. -/
structure IsCompleteMethod (m : Method) : Prop where
  ret : ∃ t, m.retType = some t ∧ IsReadBack t
  exprs : ∀ e ∈ blockParts m.body, IsCompleteExpr e
  code : ∀ file, ∃ code, methodCode file m = .ok code

section

variable {offers : Offering} {ret : Ty}

theorem isCompleteExpr_of_hasTy (hoffers : offers.Writable) {Γ : Context} (hΓ : Γ.Writable)
    {e : Expr} {t : Ty} (h : HasTy offers Γ e t) : IsCompleteExpr e where
  type := ⟨t, h.note, Ty.parse?_text_of_isWritable (h.writable hoffers hΓ)⟩
  target receiver method args target note he := by
    subst he
    cases h with
    | call => rfl

mutual

/-- The expressions in a typed expression are typed. -/
theorem exprParts_typed {Γ : Context} : ∀ (e : Expr) {t : Ty}, HasTy offers Γ e t →
    ∀ part ∈ exprParts e, ∃ s, HasTy offers Γ part s
  | .int .., t, h => List.forall_mem_singleton.mpr ⟨t, h⟩
  | .bool .., t, h => List.forall_mem_singleton.mpr ⟨t, h⟩
  | .string .., t, h => List.forall_mem_singleton.mpr ⟨t, h⟩
  | .var .., t, h => List.forall_mem_singleton.mpr ⟨t, h⟩
  | .call receiver method args target note, t, h => by
    rw [exprParts, List.forall_mem_cons]
    refine ⟨⟨t, h⟩, ?_⟩
    cases h with
    | call _ _ hargs => exact argsParts_typed args hargs
  | .index array position note, t, h => by
    rw [exprParts, List.forall_mem_cons, List.forall_mem_append]
    refine ⟨⟨t, h⟩, ?_⟩
    cases h with
    | index _ harray hposition =>
      exact ⟨exprParts_typed array harray, exprParts_typed position hposition⟩
  | .length value note, t, h => by
    rw [exprParts, List.forall_mem_cons]
    refine ⟨⟨t, h⟩, ?_⟩
    cases h with
    | length _ hvalue _ => exact exprParts_typed value hvalue
  | .unary op operand note, t, h => by
    rw [exprParts, List.forall_mem_cons]
    refine ⟨⟨t, h⟩, ?_⟩
    cases h with
    | unary _ hoperand _ => exact exprParts_typed operand hoperand
  | .binary op left right note, t, h => by
    rw [exprParts, List.forall_mem_cons, List.forall_mem_append]
    refine ⟨⟨t, h⟩, ?_⟩
    cases h with
    | binary _ hleft hright _ _ _ =>
      exact ⟨exprParts_typed left hleft, exprParts_typed right hright⟩

theorem argsParts_typed {Γ : Context} : ∀ (es : List Expr) {ts : List Ty},
    HaveTys offers Γ es ts → ∀ part ∈ argsParts es, ∃ s, HasTy offers Γ part s
  | [], _, _ => by simp [argsParts]
  | e :: es, _, h => by
    cases h with
    | cons he _ hes =>
      rw [argsParts, List.forall_mem_append]
      exact ⟨exprParts_typed e he, argsParts_typed es hes⟩

end

/-- What holds of locals still holds when one more is there, with the type of a value. -/
def KeptByValues (offers : Offering) (Holds : Context → Prop) : Prop :=
  ∀ ⦃Γ⦄ (name : String) {value : Expr} {t : Ty}, Holds Γ → HasTy offers Γ value t → t ≠ .void →
    Holds ((name, t) :: Γ)

/-- The expression is typed by locals that something holds of. -/
def TypedWhere (offers : Offering) (Holds : Context → Prop) (e : Expr) : Prop :=
  ∃ Γ t, Holds Γ ∧ HasTy offers Γ e t

theorem exprParts_typedWhere {Holds : Context → Prop} {Γ : Context} (hΓ : Holds Γ) {e : Expr}
    {t : Ty} (h : HasTy offers Γ e t) : ∀ part ∈ exprParts e, TypedWhere offers Holds part := by
  intro part hpart
  obtain ⟨s, hs⟩ := exprParts_typed e h part hpart
  exact ⟨Γ, s, hΓ, hs⟩

section

variable {Holds : Context → Prop}

mutual

/-- The expressions in a typed statement are typed, and what holds of the locals before it holds
after it. -/
theorem stmtParts_typed (hkept : KeptByValues offers Holds) : ∀ (stmt : Stmt) {Γ Δ : Context},
    StmtHasTy offers ret Γ stmt Δ → Holds Γ →
      (∀ part ∈ stmtParts stmt, TypedWhere offers Holds part) ∧ Holds Δ
  | .expr value _, _, _, h, hΓ => by
    cases h with
    | expr hvalue => exact ⟨exprParts_typedWhere hΓ hvalue, hΓ⟩
  | .assign target value _, _, _, h, hΓ => by
    cases h with
    | assign hvalue _ _ => exact ⟨exprParts_typedWhere hΓ hvalue, hΓ⟩
    | declare hvalue ht _ => exact ⟨exprParts_typedWhere hΓ hvalue, hkept _ hΓ hvalue ht⟩
  | .cond chain _, _, _, h, hΓ => by
    cases h with
    | cond hchain => exact chainParts_typed hkept chain hchain hΓ
  | .loop condition body _, _, _, h, hΓ => by
    cases h with
    | loop hcondition hbody =>
      have hparts := blockParts_typed hkept body hbody hΓ
      rw [stmtParts, List.forall_mem_append]
      exact ⟨⟨exprParts_typedWhere hΓ hcondition, hparts.1⟩, hparts.2⟩
  | .ret (some value) _, _, _, h, hΓ => by
    cases h with
    | ret hvalue _ => exact ⟨exprParts_typedWhere hΓ hvalue, hΓ⟩
  | .ret none _, _, _, h, hΓ => by
    cases h with
    | retVoid _ => exact ⟨by simp [stmtParts], hΓ⟩
  | .puts value _, _, _, h, hΓ => by
    cases h with
    | puts hvalue _ => exact ⟨exprParts_typedWhere hΓ hvalue, hΓ⟩
  | .raise value _, _, _, h, hΓ => by
    cases h with
    | raise hvalue _ => exact ⟨exprParts_typedWhere hΓ hvalue, hΓ⟩

theorem blockParts_typed (hkept : KeptByValues offers Holds) : ∀ (block : Block) {Γ Δ : Context},
    BlockHasTy offers ret Γ block Δ → Holds Γ →
      (∀ part ∈ blockParts block, TypedWhere offers Holds part) ∧ Holds Δ
  | .mk stmts _, _, _, h, hΓ => by
    cases h with
    | mk hstmts => exact stmtsParts_typed hkept stmts hstmts hΓ

theorem stmtsParts_typed (hkept : KeptByValues offers Holds) :
    ∀ (stmts : List Stmt) {Γ Δ : Context}, StmtsHaveTy offers ret Γ stmts Δ → Holds Γ →
      (∀ part ∈ stmtsParts stmts, TypedWhere offers Holds part) ∧ Holds Δ
  | [], _, _, h, hΓ => by
    cases h with
    | nil => exact ⟨by simp [stmtsParts], hΓ⟩
  | stmt :: rest, _, _, h, hΓ => by
    cases h with
    | cons hstmt hrest =>
      have hfirst := stmtParts_typed hkept stmt hstmt hΓ
      have hothers := stmtsParts_typed hkept rest hrest hfirst.2
      rw [stmtsParts, List.forall_mem_append]
      exact ⟨⟨hfirst.1, hothers.1⟩, hothers.2⟩

theorem chainParts_typed (hkept : KeptByValues offers Holds) :
    ∀ (chain : Chain) {Γ Δ : Context}, ChainHasTy offers ret Γ chain Δ → Holds Γ →
      (∀ part ∈ chainParts chain, TypedWhere offers Holds part) ∧ Holds Δ
  | .done, _, _, h, hΓ => by
    cases h with
    | done => exact ⟨by simp [chainParts], hΓ⟩
  | .otherwise body, _, _, h, hΓ => by
    cases h with
    | otherwise hbody => exact blockParts_typed hkept body hbody hΓ
  | .branch condition body rest, _, _, h, hΓ => by
    cases h with
    | branch hcondition hbody hrest =>
      have htaken := blockParts_typed hkept body hbody hΓ
      have hothers := chainParts_typed hkept rest hrest htaken.2
      rw [chainParts, List.forall_mem_append, List.forall_mem_append]
      exact ⟨⟨⟨exprParts_typedWhere hΓ hcondition, htaken.1⟩, hothers.1⟩, hothers.2⟩

end

theorem bodyParts_typed (hkept : KeptByValues offers Holds) {stmts : List Stmt} {Γ Δ : Context}
    (h : BodyHasTy offers ret Γ stmts Δ) (hΓ : Holds Γ) :
    ∀ part ∈ stmtsParts stmts, TypedWhere offers Holds part := by
  induction h with
  | nil => simp [stmtsParts]
  | value hvalue _ =>
    rw [stmtsParts, List.forall_mem_append]
    exact ⟨exprParts_typedWhere hΓ hvalue, by simp [stmtsParts]⟩
  | cons _ hstmt _ ih =>
    have hfirst := stmtParts_typed hkept _ hstmt hΓ
    rw [stmtsParts, List.forall_mem_append]
    exact ⟨hfirst.1, ih hfirst.2⟩

/-- The expressions in a typed method are typed, by locals of which everything holds that holds of
its parameters and is kept by values. -/
theorem methodParts_typed (hkept : KeptByValues offers Holds) {m : Method} {sig : MethodSig}
    (h : MethodHasSig offers m sig) (hstart : Holds (startContext m sig.params)) :
    ∀ part ∈ blockParts m.body, TypedWhere offers Holds part := by
  obtain ⟨Δ, hbody⟩ := h.body
  have hparts := bodyParts_typed hkept hbody hstart
  cases hm : m.body with
  | mk stmts span =>
    rw [hm] at hparts
    exact hparts

end

/-- A typed method is complete if the types that methods return have written forms. -/
theorem isCompleteMethod_of_hasSig (hoffers : offers.Writable) {m : Method} {sig : MethodSig}
    (h : MethodHasSig offers m sig) (hret : sig.ret.isWritable = true) : IsCompleteMethod m where
  ret := ⟨sig.ret, h.ret, Ty.parse?_text_of_isWritable hret⟩
  exprs := by
    have hkept : KeptByValues offers Context.Writable :=
      fun Γ name value t hΓ hvalue _ =>
        Context.Writable.declare hΓ name (hvalue.writable hoffers hΓ)
    intro part hpart
    obtain ⟨Γ, t, hΓ, htyped⟩ := methodParts_typed hkept h (writable_startContext h) part hpart
    exact isCompleteExpr_of_hasTy hoffers hΓ htyped
  code := methodCode_ok hoffers h hret

end

/-! ## The whole generation -/

/-- In a gathered unit there is no loose code. -/
theorem isGathered_gather (program : Program) : IsGathered program.gather := by
  intro item hitem
  obtain ⟨c, -, rfl⟩ := List.mem_map.mp hitem
  exact ⟨c, rfl⟩

/-- After an inference without diagnostics every method of the batch is complete, no fault comes up
in the class files of its units, and what is handed over ends only at the sink's own refusal or at
a second class of one name. For a sink that takes everything it ends exactly when two definitions
of the batch have one name. -/
theorem generation_is_clean {externals : Externals} (hexternals : WritableReturns externals)
    (programs : List Program)
    (hclean : (infer externals (programs.map Program.gather)).diagnostics = []) :
    let batch := programs.map Program.gather
    let typed := (infer externals batch).batch
    let names := (batchDefinitions batch).map Definition.name
    (∀ file cls m, (file, Declaration.method cls m) ∈ batchDeclarations typed →
      IsCompleteMethod m) ∧
    (∀ program ∈ typed, ∀ options, (unitClassFiles options program).fault = none) ∧
    (∀ (σ : Type) (disk : Disk) (settings : Settings) (accept : Sink σ) (sink : σ)
        (fault : SessionFault),
      (deliverBatch disk settings accept { sink } typed).2.result = .error fault →
        (∃ name, fault = .duplicateClass name ∧ 1 < names.count name) ∨
        ∃ sink product, (accept sink product).2 = .error fault) ∧
    (∀ (σ : Type) (disk : Disk) (settings : Settings) (accept : Sink σ) (sink : σ),
      (∀ sink product, (accept sink product).2 = .ok ()) →
        ((deliverBatch disk settings accept { sink } typed).2.result = .ok () ↔ names.Nodup)) := by
  intro batch typed names
  have hoffers := offering_writable hexternals hclean
  have hgathered : ∀ program ∈ batch, IsGathered program := by
    intro program hprogram
    obtain ⟨before, -, rfl⟩ := List.mem_map.mp hprogram
    exact isGathered_gather before
  -- what the judgement types has code, so no class file is at fault
  have hfault : ∀ program ∈ typed, ∀ options, (unitClassFiles options program).fault = none :=
    fun program hprogram options =>
      fault_unitClassFiles hexternals hgathered hclean hprogram options
  -- products, definitions and declarations go by the same names in the same order
  have hnames : ∀ options, (batchProducts options typed).map Product.name = names :=
    fun options => (names_batchProducts fun program hprogram =>
      hfault program hprogram options).trans (names_infer externals batch)
  refine ⟨fun file cls m hm => ?_, hfault, ?_, ?_⟩
  · obtain ⟨sig, hsig, hoffer⟩ := methodHasSig_of_infer hclean hm
    exact isCompleteMethod_of_hasSig hoffers hsig (hoffers cls sig hoffer)
  · intro σ disk settings accept sink fault h
    rw [result_deliverBatch fun program hprogram => hfault program hprogram _] at h
    rcases deliver_error (Prod.ext rfl h) with ⟨name, rfl, hcount⟩ | hrefused
    · rw [List.nil_append, hnames] at hcount
      exact .inl ⟨name, rfl, hcount⟩
    · exact .inr hrefused
  · intro σ disk settings accept sink htakes
    rw [result_deliverBatch fun program hprogram => hfault program hprogram _]
    simp only [deliver_ok_iff htakes, hnames]
    simp

/-- A script with a method `twice(n: int)` of the value `n + n`, which prints `twice(21)`. -/
def twiceScript : Program where
  source := inlineName
  package := none
  items :=
    [.method
      { name := ⟨"twice", default⟩
        isStatic := false
        params := [⟨⟨"n", default⟩, ⟨"int", 0, default⟩, default⟩]
        ret := none
        body := .mk [.expr (.binary .add (.var ⟨"n", default⟩ default)
          (.var ⟨"n", default⟩ default) default) default] default
        span := default },
      .stmt (.puts (.call none ⟨"twice", default⟩ [.int 21 default] none default) default)]
  span := default

theorem generation_of_twiceScript :
    (infer .nothing ([twiceScript].map Program.gather)).diagnostics = [] ∧
    ∀ disk settings, (deliverBatch disk settings keep { sink := [] }
      (infer .nothing ([twiceScript].map Program.gather)).batch).2.result = .ok () := by
  have hclean : (infer .nothing ([twiceScript].map Program.gather)).diagnostics = [] := by
    decide +kernel
  refine ⟨hclean, fun disk settings => ?_⟩
  have hexternals : WritableReturns .nothing := by
    intro name sig hsig
    cases hsig
  have h := generation_is_clean hexternals [twiceScript] hclean
  exact (h.2.2.2 _ disk settings keep [] fun _ _ => rfl).mpr (by decide +kernel)

end StackScript.Session

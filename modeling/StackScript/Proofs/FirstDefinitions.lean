import StackScript.Proofs.Declaring

/-!
# Which definitions are registered

A class may be reopened, in its unit or in another one, and a method may be defined again. Whatever
is wrong with the declarations of a batch, the registry has for every class and method name the
annotations of the first definition that the batch has for them, and nothing else
(`method?_declareAll_first`). A class is always declared before its methods, so none of them is
refused for want of its class.
-/

namespace StackScript.Typing

open StackScript.Source StackScript.Syntax

/-! ## Definitions of a batch -/

/-- The place defines the method of that name in the class. -/
def Defines (cls name : String) (place : MethodPlace) : Prop :=
  place.2.1 = cls ∧ place.2.2.name.name = name

instance (cls name : String) (place : MethodPlace) : Decidable (Defines cls name place) :=
  inferInstanceAs (Decidable (_ ∧ _))

/-- The first of the places that defines the method of that name in the class. -/
def firstDefinition? (places : List MethodPlace) (cls name : String) : Option MethodPlace :=
  places.find? (Defines cls name)

/-- The definition that a batch starts with for a method. -/
theorem firstDefinition?_eq_some {places : List MethodPlace} {cls name : String}
    {place : MethodPlace} (h : firstDefinition? places cls name = some place) :
    place ∈ places ∧ Defines cls name place :=
  ⟨List.mem_of_find?_eq_some h, by simpa using List.find?_some h⟩

/-! ## Classes come before their methods -/

/-- Every method is of a class that is known or was declared before it. -/
def Prepared (known : String → Bool) : List Declaration → Prop
  | [] => True
  | .cls name _ _ :: rest => Prepared (fun cls => known cls || decide (name = cls)) rest
  | .method cls _ :: rest => known cls = true ∧ Prepared known rest

theorem Prepared.mono {ds : List Declaration} {known more : String → Bool} (h : Prepared known ds)
    (hmore : ∀ cls, known cls = true → more cls = true) : Prepared more ds := by
  induction ds generalizing known more with
  | nil => trivial
  | cons d rest ih =>
    cases d with
    | cls name package enclosing =>
      apply ih h
      intro cls hcls
      rw [Bool.or_eq_true] at hcls ⊢
      exact hcls.imp_left (hmore cls)
    | method cls m => exact ⟨hmore cls h.1, ih h.2 hmore⟩

/-- Declarations in a row are prepared if both parts are. -/
theorem Prepared.append {xs ys : List Declaration} {known : String → Bool}
    (hx : Prepared known xs) (hy : Prepared known ys) : Prepared known (xs ++ ys) := by
  induction xs generalizing known with
  | nil => exact hy
  | cons d rest ih =>
    cases d with
    | cls name package enclosing =>
      apply ih hx
      -- what was known stays known after one more class
      exact hy.mono fun cls hcls => by rw [hcls, Bool.true_or]
    | method cls m => exact ⟨hx.1, ih hx.2 hy⟩

theorem prepared_flatMap {α : Type} {known : String → Bool} {f : α → List Declaration}
    {xs : List α} (h : ∀ x ∈ xs, Prepared known (f x)) : Prepared known (xs.flatMap f) := by
  induction xs with
  | nil => trivial
  | cons x rest ih =>
    obtain ⟨hx, hrest⟩ := List.forall_mem_cons.mp h
    rw [List.flatMap_cons]
    exact hx.append (ih hrest)

mutual

theorem prepared_declarations (known : String → Bool) (package : Option String) :
    ∀ (enclosing : Option String) (c : ClassDef), Prepared known (declarations package enclosing c)
  | enclosing, .mk name members _ _ =>
    prepared_memberDeclarations _ package (qualify package enclosing name.name) members (by simp)

theorem prepared_memberDeclarations (known : String → Bool) (package : Option String) :
    ∀ (cls : String) (members : List Member), known cls = true →
      Prepared known (memberDeclarations package cls members)
  | _, [], _ => trivial
  | cls, .method _ :: rest, h => ⟨h, prepared_memberDeclarations known package cls rest h⟩
  | cls, .nested c :: rest, h =>
    (prepared_declarations known package (some cls) c).append
      (prepared_memberDeclarations known package cls rest h)

end

/-- In a batch, every method comes after its class. -/
theorem prepared_batchDeclarations (known : String → Bool) (batch : List Program) :
    Prepared known ((batchDeclarations batch).map Prod.snd) := by
  rw [batchDeclarations, List.map_flatMap]
  apply prepared_flatMap
  intro program _
  rw [unitDeclarations, List.map_map]
  simp only [Function.comp_def, List.map_id']
  exact prepared_flatMap fun c _ => prepared_declarations known program.packageName none c

/-! ## What declaring leaves on record -/

/-- A method is refused only where its class is unknown or has one of its name. -/
theorem Registry.declareMethod_eq_error {registry : Registry} {cls : String} {method : MethodEntry}
    {fault : TypeFault} (h : registry.declareMethod cls method = .error fault) :
    registry.has cls = false ∧ fault = .unknownClass cls ∨
      (registry.method? cls method.name).isSome = true ∧
        fault = .duplicateMethod cls method.name := by
  unfold declareMethod at h
  split at h
  · rename_i hnone
    cases h
    exact .inl ⟨by rw [has, hnone]; rfl, rfl⟩
  · rename_i entry hentry
    split at h
    · rename_i hold
      cases h
      exact .inr ⟨by rwa [method?_of_class? hentry], rfl⟩
    · cases h

theorem has_declare_class (made : Declared) (file cls : String)
    (package enclosing : Option String) :
    (declare made (file, .cls cls package enclosing)).1.has =
      fun name => made.1.has name || decide (cls = name) :=
  funext fun name => Registry.has_declareClass made.1 cls package enclosing name

theorem has_declare_method (made : Declared) (file cls : String) (m : Method) :
    (declare made (file, .method cls m)).1.has = made.1.has := by
  simp only [declare]
  split
  · rename_i after hok
    exact funext fun name => Registry.has_declareMethod hok name
  · rfl

/-- Declaring a method of a class on record puts it there, unless one of that name is there. -/
theorem method?_declare_method {made : Declared} {owner : String} (howner : made.1.has owner = true)
    (file : String) (m : Method) (cls name : String) :
    (declare made (file, .method owner m)).1.method? cls name =
      (made.1.method? cls name).or
        (if Defines cls name (file, owner, m) then some (methodEntry file m) else none) := by
  simp only [declare]
  split
  · rename_i after hok
    rw [Registry.method?_declareMethod hok]
    by_cases hdef : Defines cls name (file, owner, m)
    · -- a method of that name would have been in the way
      obtain ⟨-, hnew, -⟩ := Registry.declareMethod_eq_ok hok
      obtain ⟨rfl, rfl⟩ := hdef
      have hnew : made.1.method? owner m.name.name = none := hnew
      have hself : (methodEntry file m).name = m.name.name := rfl
      rw [if_pos ⟨rfl, hself⟩, if_pos ⟨rfl, rfl⟩]
      exact (congrArg (Option.or · _) hnew).symm
    · rw [if_neg hdef, Option.or_none]
      exact if_neg hdef
  · rename_i fault herror
    by_cases hdef : Defines cls name (file, owner, m)
    · obtain ⟨rfl, rfl⟩ := hdef
      rcases Registry.declareMethod_eq_error herror with ⟨hnot, -⟩ | ⟨hold, -⟩
      · rw [howner] at hnot
        cases hnot
      · exact (Option.or_of_isSome hold).symm
    · rw [if_neg hdef, Option.or_none]

/-- Declarations leave what was on record, and add what is defined first for each name. -/
theorem method?_foldl_declare {found : List (String × Declaration)} {made : Declared}
    (h : Prepared made.1.has (found.map Prod.snd)) (cls name : String) :
    (found.foldl declare made).1.method? cls name =
      (made.1.method? cls name).or
        ((firstDefinition? (found.filterMap Declaration.place?) cls name).map
          fun place => methodEntry place.1 place.2.2) := by
  induction found generalizing made with
  | nil => exact (Option.or_none ..).symm
  | cons d rest ih =>
    obtain ⟨file, d⟩ := d
    rw [List.foldl_cons]
    cases d with
    | cls owner package enclosing =>
      rw [ih (by rw [has_declare_class]; exact h)]
      congr 1
      exact Registry.method?_declareClass ..
    | method owner m =>
      obtain ⟨howner, hrest⟩ := h
      rw [ih (by rw [has_declare_method]; exact hrest), method?_declare_method howner,
        Option.or_assoc]
      congr 1
      simp only [firstDefinition?, List.filterMap_cons, Declaration.place?, List.find?_cons]
      by_cases hdef : Defines cls name (file, owner, m)
      · rw [if_pos hdef, decide_eq_true hdef]
        rfl
      · rw [if_neg hdef, decide_eq_false hdef, Option.none_or]

/-- **The registry of a batch has for every method the annotations of its first definition**, and no
other methods. No declaration needs to be right for this. -/
theorem method?_declareAll_first (batch : List Program) (cls name : String) :
    (declareAll batch).1.method? cls name =
      (firstDefinition? (batchMethods batch) cls name).map
        fun place => methodEntry place.1 place.2.2 := by
  rw [declareAll, method?_foldl_declare (prepared_batchDeclarations _ batch)]
  rfl

end StackScript.Typing

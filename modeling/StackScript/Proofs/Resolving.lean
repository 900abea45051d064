import Mathlib.Data.List.Perm.Subperm
import StackScript.Proofs.Reordering

/-!
# Resolving class names, one after another

Resolving a class name keeps a class that it found outside the batch, in the registry that the next
name is resolved against. What a name means does not depend on it (`resolve_after_resolving`): a
class from outside is kept under the name of a top-level class, so it is nowhere nested; it is no
batch class, so it is nobody's namesake; and where it is taken for a class of the package, it is the
class that would have been found outside again (`Keeps.resolve_eq`).
-/

namespace StackScript.Typing

open StackScript.Source StackScript.Syntax

/-! ## The rules of resolution -/

/-- The qualified name of the class around a class on record. -/
def Registry.around? (registry : Registry) (cls : String) : Option String :=
  (registry.class? cls).bind (·.enclosing)

/-- The class, followed by all classes around it from the inside to the outside. -/
inductive Enclosed (registry : Registry) : String → List String → Prop where
  | outermost {cls : String} (h : registry.around? cls = none) : Enclosed registry cls [cls]
  | inside {cls outer : String} {scopes : List String} (h : registry.around? cls = some outer)
      (hmore : Enclosed registry outer scopes) : Enclosed registry cls (cls :: scopes)

/-- The name that a class has in the package of the class `inside`. -/
def Registry.packaged (registry : Registry) (name inside : String) : String :=
  qualify ((registry.class? inside).bind (·.package)) none name

/-- No class of that name is nested in a class or in one around it. -/
def NowhereNested (registry : Registry) (name inside : String) : Prop :=
  ∀ scopes, Enclosed registry inside scopes →
    ∀ scope ∈ scopes, registry.has (scope ++ "$" ++ name) = false

/-- The list has the classes on record with that simple name, in the order of the record. -/
structure Namesakes (registry : Registry) (name : String) (found : List String) : Prop where
  mem_iff : ∀ cls, cls ∈ found ↔ registry.has cls = true ∧ simpleName cls = name
  inOrder : found.Sublist (registry.classes.map ClassEntry.name)

/-- Neither a nested class nor one of the package goes before other classes of the name. -/
structure NotNearby (registry : Registry) (name inside : String) : Prop where
  nested : NowhereNested registry name inside
  package : registry.has (registry.packaged name inside) = false

/-- No class on record goes before classes from outside. -/
structure NotOnRecord (registry : Registry) (name inside : String) : Prop
    extends NotNearby registry name inside where
  namesakes : Namesakes registry name []

/-- What a class name is resolved to inside a class, by the first rule that applies. -/
inductive ResolvesTo (registry : Registry) (externals : Externals) (name inside : String) :
    Except TypeFault String → Prop where
  | nested {near far : List String} {scope : String}
      (henclosed : Enclosed registry inside (near ++ scope :: far))
      (hnear : ∀ nearer ∈ near, registry.has (nearer ++ "$" ++ name) = false)
      (h : registry.has (scope ++ "$" ++ name) = true) :
      ResolvesTo registry externals name inside (.ok (scope ++ "$" ++ name))
  | ofPackage (hnested : NowhereNested registry name inside)
      (h : registry.has (registry.packaged name inside) = true) :
      ResolvesTo registry externals name inside (.ok (registry.packaged name inside))
  | namesake {only : String} (hother : NotNearby registry name inside)
      (h : Namesakes registry name [only]) : ResolvesTo registry externals name inside (.ok only)
  | ambiguous {candidates : List String} (hother : NotNearby registry name inside)
      (h : Namesakes registry name candidates) (hseveral : 2 ≤ candidates.length) :
      ResolvesTo registry externals name inside (.error (.ambiguousClass name candidates))
  | outsidePackage {sig : ClassSig} (hother : NotOnRecord registry name inside)
      (h : externals (registry.packaged name inside) = some sig) :
      ResolvesTo registry externals name inside (.ok sig.name)
  | outside {sig : ClassSig} (hother : NotOnRecord registry name inside)
      (hpackage : externals (registry.packaged name inside) = none)
      (h : externals name = some sig) : ResolvesTo registry externals name inside (.ok sig.name)
  | unknown (hother : NotOnRecord registry name inside)
      (hpackage : externals (registry.packaged name inside) = none)
      (h : externals name = none) :
      ResolvesTo registry externals name inside (.error (.unknownClass name))

/-! ## Scopes -/

/-- The class around a class has a shorter name. -/
def Nesting (registry : Registry) : Prop :=
  ∀ entry ∈ registry.classes, ∀ outer, entry.enclosing = some outer →
    outer.length < entry.name.length

theorem Registry.around?_eq_some {registry : Registry} {cls outer : String} :
    registry.around? cls = some outer ↔
      ∃ entry, registry.class? cls = some entry ∧ entry.enclosing = some outer :=
  Option.bind_eq_some_iff

/-- A class has one list of scopes around it. -/
theorem Enclosed.unique {registry : Registry} {cls : String} {scopes scopes' : List String}
    (h : Enclosed registry cls scopes) (h' : Enclosed registry cls scopes') : scopes = scopes' := by
  induction h generalizing scopes' with
  | outermost hnone =>
    cases h' with
    | outermost _ => rfl
    | inside hsome _ =>
      rw [hnone] at hsome
      cases hsome
  | inside hsome _ ih =>
    cases h' with
    | outermost hnone =>
      rw [hnone] at hsome
      cases hsome
    | inside hsome' hmore =>
      rw [hsome] at hsome'
      cases hsome'
      rw [ih hmore]

/-- The scopes of a class depend only on what is around each class. -/
theorem Enclosed.congr {registry other : Registry} (haround : registry.around? = other.around?)
    {cls : String} {scopes : List String} (h : Enclosed registry cls scopes) :
    Enclosed other cls scopes := by
  induction h with
  | outermost hnone => exact .outermost (haround ▸ hnone)
  | inside hsome _ ih => exact .inside (haround ▸ hsome) ih

namespace Nesting

variable {registry : Registry}

/-- The classes on record that may be around a class, or be the class itself. -/
def reach (registry : Registry) (cls : String) : Nat :=
  registry.classes.countP fun entry => entry.name.length ≤ cls.length

/-- Fewer classes may be around the class that is around a class. -/
theorem reach_lt (h : Nesting registry) {cls outer : String}
    (haround : registry.around? cls = some outer) : reach registry outer < reach registry cls := by
  obtain ⟨entry, hentry, henclosing⟩ := Registry.around?_eq_some.mp haround
  have hmem : entry ∈ registry.classes := List.mem_of_find?_eq_some hentry
  have hname := Registry.name_of_class? hentry
  have hshorter := h entry hmem outer henclosing
  rw [hname] at hshorter
  obtain ⟨before, after, hsplit⟩ := List.append_of_mem hmem
  have hbelow : ∀ classes : List ClassEntry,
      classes.countP (fun e => e.name.length ≤ outer.length) ≤
        classes.countP (fun e => e.name.length ≤ cls.length) := by
    intro classes
    refine List.countP_mono_left fun e _ he => ?_
    simp only [decide_eq_true_eq] at he ⊢
    omega
  -- the class itself counts, and it does not count for the class around it
  have hbefore := hbelow before
  have hafter := hbelow after
  have hcls : entry.name.length ≤ cls.length := by rw [hname]
  have houter : ¬ entry.name.length ≤ outer.length := by rw [hname]; omega
  simp only [reach, hsplit, List.countP_append, List.countP_cons, hcls, houter, decide_true,
    decide_false, if_true]
  simp only [Bool.false_eq_true, if_false]
  omega

theorem enclosed_scopesFrom (h : Nesting registry) {fuel : Nat} {cls : String}
    (hfuel : reach registry cls < fuel) : Enclosed registry cls (registry.scopesFrom fuel cls) := by
  induction fuel generalizing cls with
  | zero => exact absurd hfuel (Nat.not_lt_zero _)
  | succ fuel ih =>
    rw [Registry.scopesFrom]
    cases haround : registry.around? cls with
    | none =>
      rw [Registry.around?] at haround
      rw [haround]
      exact .outermost haround
    | some outer =>
      have hless := h.reach_lt haround
      have hmore : Enclosed registry outer (registry.scopesFrom fuel outer) := ih (by omega)
      rw [Registry.around?] at haround
      rw [haround]
      exact .inside haround hmore

/-- The scopes of a class are the class and all classes around it. -/
theorem enclosed_scopes (h : Nesting registry) (cls : String) :
    Enclosed registry cls (registry.scopes cls) :=
  h.enclosed_scopesFrom (Nat.lt_succ_of_le List.countP_le_length)

/-- The scopes of a class are those that it is nested in. -/
theorem scopes_eq (h : Nesting registry) {cls : String} {scopes : List String}
    (henclosed : Enclosed registry cls scopes) : registry.scopes cls = scopes :=
  (h.enclosed_scopes cls).unique henclosed

end Nesting

/-! ## The rules hold -/

/-- What declaring a batch puts on record: every class once, and none from outside. -/
structure OfBatch (registry : Registry) : Prop where
  nesting : Nesting registry
  nodup : (registry.classes.map ClassEntry.name).Nodup
  batch : ∀ entry ∈ registry.classes, entry.isExternal = false

/-- Some of the entries of a list without repetitions, in its order, are what a filter keeps. -/
theorem eq_filter_of_sublist {found all : List String} {p : String → Bool} (hnodup : all.Nodup)
    (hsub : found.Sublist all) (hmem : ∀ x, x ∈ found ↔ x ∈ all ∧ p x = true) :
    found = all.filter p := by
  have hkept : found.filter p = found :=
    List.filter_eq_self.mpr fun x hx => ((hmem x).mp hx).2
  have hsub' : found.Sublist (all.filter p) := hkept ▸ hsub.filter p
  have hback : all.filter p ⊆ found := fun x hx => (hmem x).mpr (List.mem_filter.mp hx)
  exact hsub'.eq_of_length_le (List.Nodup.subperm (hnodup.filter p) hback).length_le

namespace OfBatch

variable {registry : Registry} {externals : Externals} {name inside : String}

theorem mem_names_iff {cls : String} :
    cls ∈ registry.classes.map ClassEntry.name ↔ registry.has cls = true := by
  rw [Registry.has, Registry.class?, List.find?_isSome, List.mem_map]
  simp only [decide_eq_true_eq]

theorem namesakes_eq (h : OfBatch registry) (name : String) : registry.namesakes name =
    (registry.classes.map ClassEntry.name).filter (simpleName · = name) := by
  have hall : registry.batchClasses = registry.classes :=
    List.filter_eq_self.mpr fun entry hentry => by rw [h.batch entry hentry]; rfl
  rw [Registry.namesakes, hall]

theorem namesakes_iff (h : OfBatch registry) {found : List String} :
    Namesakes registry name found ↔ registry.namesakes name = found := by
  rw [h.namesakes_eq]
  constructor
  · intro hfound
    refine (eq_filter_of_sublist h.nodup hfound.inOrder fun cls => ?_).symm
    rw [hfound.mem_iff, mem_names_iff, decide_eq_true_eq]
  · rintro rfl
    refine ⟨fun cls => ?_, List.filter_sublist⟩
    rw [List.mem_filter, mem_names_iff, decide_eq_true_eq]

theorem nowhereNested_iff (h : OfBatch registry) : NowhereNested registry name inside ↔
    ((registry.scopes inside).map (· ++ "$" ++ name)).find? registry.has = none := by
  rw [List.find?_eq_none, List.forall_mem_map]
  simp only [Bool.not_eq_true]
  constructor
  · exact fun hnested => hnested _ (h.nesting.enclosed_scopes inside)
  · intro hnone scopes hscopes
    rw [← h.nesting.scopes_eq hscopes]
    exact hnone

theorem notNearby_iff (h : OfBatch registry) : NotNearby registry name inside ↔
    ((registry.scopes inside).map (· ++ "$" ++ name)).find? registry.has = none ∧
      registry.has (registry.packaged name inside) = false := by
  rw [← h.nowhereNested_iff]
  exact ⟨fun hother => ⟨hother.nested, hother.package⟩, fun hother => ⟨hother.1, hother.2⟩⟩

theorem lookup_of_notNearby (h : OfBatch registry) (hother : NotNearby registry name inside) :
    registry.lookup externals name inside =
      match registry.namesakes name with
      | [only] => .ok (.onRecord only)
      | [] => Registry.lookupOutside externals name (registry.packaged name inside)
      | candidates => .error (.ambiguousClass name candidates) := by
  obtain ⟨hnested, hpackage⟩ := h.notNearby_iff.mp hother
  rw [Registry.packaged] at hpackage ⊢
  rw [Registry.lookup, hnested]
  rcases registry.namesakes name with _ | ⟨only, _ | ⟨other, rest⟩⟩
  all_goals simp only [hpackage, Bool.false_eq_true, if_false]

/-- The rules tell what a name is resolved to. -/
theorem resolve_of_resolvesTo (h : OfBatch registry) {result : Except TypeFault String}
    (hresult : ResolvesTo registry externals name inside result) :
    (registry.resolve externals name inside).2 = result := by
  cases hresult with
  | @nested near far scope henclosed hnear hhas =>
    have hfound : ((registry.scopes inside).map (· ++ "$" ++ name)).find? registry.has =
        some (scope ++ "$" ++ name) := by
      rw [h.nesting.scopes_eq henclosed, List.map_append, List.find?_append,
        List.find?_eq_none.mpr, List.map_cons, List.find?_cons_of_pos hhas]
      · rfl
      · rw [List.forall_mem_map]
        exact fun nearer hnearer => by rw [hnear nearer hnearer]; exact Bool.false_ne_true
    rw [Registry.resolve, Registry.lookup, hfound]
  | ofPackage hnested hhas =>
    rw [Registry.packaged] at hhas ⊢
    rw [Registry.resolve, Registry.lookup, h.nowhereNested_iff.mp hnested]
    simp only [hhas, if_true]
  | namesake hother honly =>
    rw [Registry.resolve, h.lookup_of_notNearby hother, h.namesakes_iff.mp honly]
  | @ambiguous candidates hother hnames hseveral =>
    rw [Registry.resolve, h.lookup_of_notNearby hother, h.namesakes_iff.mp hnames]
    match candidates, hseveral with
    | _ :: _ :: _, _ => rfl
  | outsidePackage hother hsig =>
    rw [Registry.resolve, h.lookup_of_notNearby hother.toNotNearby,
      h.namesakes_iff.mp hother.namesakes]
    simp only [Registry.lookupOutside, hsig]
  | outside hother hpackage hsig =>
    rw [Registry.resolve, h.lookup_of_notNearby hother.toNotNearby,
      h.namesakes_iff.mp hother.namesakes]
    simp only [Registry.lookupOutside, hpackage, hsig]
  | unknown hother hpackage hnone =>
    rw [Registry.resolve, h.lookup_of_notNearby hother.toNotNearby,
      h.namesakes_iff.mp hother.namesakes]
    simp only [Registry.lookupOutside, hpackage, hnone]

/-- One of the rules applies to every name. -/
theorem exists_resolvesTo (h : OfBatch registry) (externals : Externals) (name inside : String) :
    ∃ result, ResolvesTo registry externals name inside result := by
  cases hnested : ((registry.scopes inside).map (· ++ "$" ++ name)).find? registry.has with
  | some found =>
    obtain ⟨hhas, before, after, hsplit, hbefore⟩ := List.find?_eq_some_iff_append.mp hnested
    obtain ⟨near, more, hscopes, rfl, hmore⟩ := List.map_eq_append_iff.mp hsplit
    obtain ⟨scope, far, rfl, rfl, -⟩ := List.map_eq_cons_iff.mp hmore
    refine ⟨_, .nested (hscopes ▸ h.nesting.enclosed_scopes inside) (fun nearer hnearer => ?_) hhas⟩
    exact (Bool.not_eq_true' _).mp (hbefore _ (List.mem_map_of_mem hnearer))
  | none =>
    have hnested := h.nowhereNested_iff.mpr hnested
    cases hpackage : registry.has (registry.packaged name inside) with
    | true => exact ⟨_, .ofPackage hnested hpackage⟩
    | false =>
      have hother : NotNearby registry name inside := ⟨hnested, hpackage⟩
      have hnames := h.namesakes_iff.mpr (rfl : registry.namesakes name = _)
      match hfound : registry.namesakes name with
      | [only] => exact ⟨_, .namesake hother (hfound ▸ hnames)⟩
      | _ :: _ :: _ =>
        exact ⟨_, .ambiguous hother (hfound ▸ hnames) (Nat.le_add_left 2 _)⟩
      | [] =>
        have hnone : NotOnRecord registry name inside := ⟨hother, hfound ▸ hnames⟩
        cases hsig : externals (registry.packaged name inside) with
        | some sig => exact ⟨_, .outsidePackage hnone hsig⟩
        | none =>
          cases hbare : externals name with
          | some sig => exact ⟨_, .outside hnone hsig hbare⟩
          | none => exact ⟨_, .unknown hnone hsig hbare⟩

/-- A name is resolved to exactly what the rules say. -/
theorem resolvesTo_iff (h : OfBatch registry) {result : Except TypeFault String} :
    ResolvesTo registry externals name inside result ↔
      (registry.resolve externals name inside).2 = result := by
  refine ⟨h.resolve_of_resolvesTo, ?_⟩
  rintro rfl
  obtain ⟨result, hresult⟩ := h.exists_resolvesTo externals name inside
  rw [h.resolve_of_resolvesTo hresult]
  exact hresult

end OfBatch

/-! ## What resolving keeps -/

/-- An entry that resolving keeps: a class from outside, found under the name of a top-level class
whose simple name no batch class has. -/
inductive Kept (externals : Externals) (registry : Registry) : ClassEntry → Prop where
  | mk {package : Option String} {name : String} {sig : ClassSig} (hplain : PlainName name)
      (hsig : externals (qualify package none name) = some sig)
      (hnamed : sig.name = qualify package none name) (hnamesakes : registry.namesakes name = [])
      (hfree : registry.has sig.name = false) : Kept externals registry (.ofSig sig)

/-- The later registry has what resolving keeps, after the classes of the first one. -/
def Keeps (externals : Externals) (registry later : Registry) : Prop :=
  ∃ kept, later.classes = registry.classes ++ kept ∧ ∀ entry ∈ kept, Kept externals registry entry

theorem Keeps.refl (externals : Externals) (registry : Registry) :
    Keeps externals registry registry :=
  ⟨[], (List.append_nil _).symm, fun _ hentry => nomatch hentry⟩

theorem qualify_top_inj_name {package package' : Option String} {name name' : String}
    (h : PlainName name) (h' : PlainName name')
    (heq : qualify package none name = qualify package' none name') : name = name' := by
  obtain rfl := qualify_top_inj h h' heq
  cases package with
  | none => exact heq
  | some package =>
    have heq := congrArg String.toList heq
    rw [toList_qualify_top, toList_qualify_top] at heq
    exact String.toList_inj.mp (List.cons.inj (List.append_cancel_left heq)).2

section

variable {externals : Externals} {registry later : Registry}

theorem Kept.isExternal {entry : ClassEntry} (h : Kept externals registry entry) :
    entry.isExternal = true := by
  cases h
  rfl

namespace Keeps

/-- A class of the batch is the same in both. -/
theorem class?_eq (h : Keeps externals registry later) {cls : String}
    (hhas : registry.has cls = true) : later.class? cls = registry.class? cls := by
  obtain ⟨kept, hclasses, -⟩ := h
  obtain ⟨entry, hentry⟩ := Registry.has_iff.mp hhas
  rw [hentry, Registry.class?, hclasses, List.find?_append, ← Registry.class?, hentry]
  rfl

/-- A class that the batch does not have was kept. -/
theorem kept_of_class? (h : Keeps externals registry later) {cls : String}
    (hhas : registry.has cls = false) {entry : ClassEntry}
    (hentry : later.class? cls = some entry) : Kept externals registry entry := by
  obtain ⟨kept, hclasses, hkept⟩ := h
  rw [Registry.has, Option.isSome_eq_false_iff, Option.isNone_iff_eq_none] at hhas
  rw [Registry.class?, hclasses, List.find?_append, ← Registry.class?, hhas] at hentry
  exact hkept entry (List.mem_of_find?_eq_some hentry)

/-- A class that is kept has the signature that is known outside. -/
theorem outside_of_class? (h : Keeps externals registry later) {cls : String}
    (hhas : registry.has cls = false) {entry : ClassEntry}
    (hentry : later.class? cls = some entry) :
    ∃ sig, externals cls = some sig ∧ entry = .ofSig sig := by
  have hcls := Registry.name_of_class? hentry
  cases h.kept_of_class? hhas hentry with
  | @mk _ _ sig _ hsig hname _ _ =>
    have hcls : sig.name = cls := hcls
    exact ⟨sig, by rw [← hcls, hname, hsig], rfl⟩

theorem has_of_has (h : Keeps externals registry later) {cls : String}
    (hhas : registry.has cls = true) : later.has cls = true := by
  rw [Registry.has, h.class?_eq hhas]
  exact hhas

/-- What no class from outside has is the same in both. -/
theorem bind_class?_eq (h : Keeps externals registry later) {field : ClassEntry → Option String}
    (hfield : ∀ sig, field (.ofSig sig) = none) (cls : String) :
    (later.class? cls).bind field = (registry.class? cls).bind field := by
  cases hhas : registry.has cls with
  | true => rw [h.class?_eq hhas]
  | false =>
    have hnone : registry.class? cls = none := by
      rwa [Registry.has, Option.isSome_eq_false_iff, Option.isNone_iff_eq_none] at hhas
    rw [hnone]
    cases hentry : later.class? cls with
    | none => rfl
    | some entry =>
      cases h.kept_of_class? hhas hentry
      exact hfield _

theorem around?_eq (h : Keeps externals registry later) : later.around? = registry.around? :=
  funext (h.bind_class?_eq fun _ => rfl)

theorem packaged_eq (h : Keeps externals registry later) (name inside : String) :
    later.packaged name inside = registry.packaged name inside := by
  rw [Registry.packaged, h.bind_class?_eq fun _ => rfl, Registry.packaged]

theorem nesting (h : Keeps externals registry later) (hnesting : Nesting registry) :
    Nesting later := by
  obtain ⟨kept, hclasses, hkept⟩ := h
  intro entry hentry outer houter
  rw [hclasses] at hentry
  rcases List.mem_append.mp hentry with hentry | hentry
  · exact hnesting entry hentry outer houter
  · cases hkept entry hentry
    cases houter

/-- Every class has the same scopes in both. -/
theorem scopes_eq (h : Keeps externals registry later) (hnesting : Nesting registry)
    (cls : String) : later.scopes cls = registry.scopes cls := by
  have hlater := (h.nesting hnesting).enclosed_scopes cls
  exact (hnesting.scopes_eq (hlater.congr h.around?_eq)).symm

theorem batchClasses_eq (h : Keeps externals registry later) :
    later.batchClasses = registry.batchClasses := by
  obtain ⟨kept, hclasses, hkept⟩ := h
  have hnone : kept.filter (!·.isExternal) = [] :=
    List.filter_eq_nil_iff.mpr fun entry hentry => by simp [(hkept entry hentry).isExternal]
  rw [Registry.batchClasses, hclasses, List.filter_append, hnone, List.append_nil,
    Registry.batchClasses]

theorem namesakes_eq (h : Keeps externals registry later) (name : String) :
    later.namesakes name = registry.namesakes name := by
  rw [Registry.namesakes, h.batchClasses_eq, Registry.namesakes]

/-- No class that is kept has the name of a nested class. -/
theorem has_nested_eq (h : Keeps externals registry later) {name : String} (hname : PlainName name)
    (scope : String) : later.has (scope ++ "$" ++ name) = registry.has (scope ++ "$" ++ name) := by
  cases hhas : registry.has (scope ++ "$" ++ name) with
  | true => exact h.has_of_has hhas
  | false =>
    refine Bool.eq_false_iff.mpr fun hlater => ?_
    obtain ⟨entry, hentry⟩ := Registry.has_iff.mp hlater
    have hnested := Registry.name_of_class? hentry
    cases h.kept_of_class? hhas hentry with
    | @mk package _ sig hplain _ hnamed _ _ =>
      have htop : qualify package none _ = qualify none (some scope) name :=
        hnamed.symm.trans hnested
      exact qualify_top_ne_nested hplain hname htop

/-- A class that is kept under a name in a package would be found there outside. -/
theorem outside_of_has (h : Keeps externals registry later) {package : Option String}
    {name : String} (hname : PlainName name)
    (hhas : registry.has (qualify package none name) = false)
    (hlater : later.has (qualify package none name) = true) :
    registry.namesakes name = [] ∧ ∃ sig, externals (qualify package none name) = some sig ∧
      sig.name = qualify package none name := by
  obtain ⟨entry, hentry⟩ := Registry.has_iff.mp hlater
  have hkey := Registry.name_of_class? hentry
  cases h.kept_of_class? hhas hentry with
  | @mk _ _ sig hplain hsig hnamed hnamesakes _ =>
    have hkey : sig.name = qualify package none name := hkey
    obtain rfl := qualify_top_inj_name hplain hname (hnamed.symm.trans hkey)
    exact ⟨hnamesakes, sig, by rw [← hkey, hnamed, hsig], hkey⟩

/-- A name means the same in both registries, save that a class of the package may be on record in
the later one where the first one finds it outside. -/
theorem lookup_cases (h : Keeps externals registry later) (hnesting : Nesting registry)
    {name : String} (hname : PlainName name) (inside : String) :
    later.lookup externals name inside = registry.lookup externals name inside ∨
      ∃ sig, registry.lookup externals name inside = .ok (.outside sig) ∧
        later.lookup externals name inside = .ok (.onRecord sig.name) := by
  have hhas : later.has ∘ (· ++ "$" ++ name) = registry.has ∘ (· ++ "$" ++ name) :=
    funext (h.has_nested_eq hname)
  have hpackage := h.packaged_eq name inside
  rw [Registry.packaged, Registry.packaged] at hpackage
  rw [Registry.lookup, Registry.lookup, h.scopes_eq hnesting, List.find?_map, List.find?_map, hhas,
    hpackage, h.namesakes_eq]
  cases (registry.scopes inside).find? (registry.has ∘ (· ++ "$" ++ name)) with
  | some nested => exact .inl rfl
  | none =>
    simp only [Option.map_none]
    cases hfirst : registry.has (qualify ((registry.class? inside).bind (·.package)) none name) with
    | true => simp only [h.has_of_has hfirst, if_true, true_or]
    | false =>
      cases hlater : later.has (qualify ((registry.class? inside).bind (·.package)) none name) with
      | false => exact .inl rfl
      | true =>
        obtain ⟨hnamesakes, sig, hsig, hkey⟩ := h.outside_of_has hname hfirst hlater
        refine .inr ⟨sig, ?_, ?_⟩
        · simp only [hnamesakes, Registry.lookupOutside, hsig, Bool.false_eq_true, if_false]
        · simp only [hkey, if_true]

/-- Every name is resolved to the same in both registries. -/
theorem resolve_eq (h : Keeps externals registry later) (hnesting : Nesting registry)
    {name : String} (hname : PlainName name) (inside : String) :
    (later.resolve externals name inside).2 = (registry.resolve externals name inside).2 := by
  rw [Registry.resolve, Registry.resolve]
  rcases h.lookup_cases hnesting hname inside with hsame | ⟨sig, hfirst, hlater⟩
  · rw [hsame]
    cases registry.lookup externals name inside with
    | error fault => rfl
    | ok meaning => cases meaning <;> rfl
  · rw [hfirst, hlater]

/-- What is found outside is found under the name of a top-level class, and no batch class has its
simple name. -/
theorem outside_of_lookup {name inside : String} {sig : ClassSig}
    (h : registry.lookup externals name inside = .ok (.outside sig)) :
    registry.namesakes name = [] ∧
      ∃ package, externals (qualify package none name) = some sig := by
  rw [Registry.lookup] at h
  split at h
  · cases h
  · simp only at h
    split at h
    · cases h
    · split at h
      · cases h
      · rename_i hnone
        rw [Registry.lookupOutside] at h
        refine ⟨hnone, ?_⟩
        split at h
        · rename_i hsig
          cases h
          exact ⟨_, hsig⟩
        · split at h
          · rename_i hsig
            cases h
            exact ⟨none, hsig⟩
          · cases h
      · cases h

/-- Resolving one more name keeps at most one more class. -/
theorem resolve (h : Keeps externals registry later)
    (hnamed : ∀ name sig, externals name = some sig → sig.name = name) {name : String}
    (hname : PlainName name) (inside : String) :
    Keeps externals registry (later.resolve externals name inside).1 := by
  rw [Registry.resolve]
  cases hlookup : later.lookup externals name inside with
  | error fault => exact h
  | ok meaning =>
    cases meaning with
    | onRecord found => exact h
    | outside sig =>
      obtain ⟨hnone, package, hsig⟩ := outside_of_lookup hlookup
      rw [h.namesakes_eq] at hnone
      simp only [Registry.enroll]
      split
      · exact h
      · rename_i hnew
        have hfree : registry.has sig.name = false :=
          Bool.eq_false_iff.mpr fun hhas => hnew (h.has_of_has hhas)
        obtain ⟨kept, hclasses, hkept⟩ := h
        refine ⟨kept ++ [.ofSig sig], ?_, ?_⟩
        · rw [hclasses, List.append_assoc]
        · refine List.forall_mem_append.mpr ⟨hkept, List.forall_mem_singleton.mpr ?_⟩
          exact .mk hname hsig (hnamed _ sig hsig) hnone hfree

end Keeps

/-- The registry after class names were resolved one after another, each inside a class. -/
def Registry.resolveAll (registry : Registry) (externals : Externals)
    (requests : List (String × String)) : Registry :=
  requests.foldl (fun registry request => (registry.resolve externals request.1 request.2).1)
    registry

/-- What is kept in a row of requests was asked for. -/
theorem Keeps.resolveAll (h : Keeps externals registry later)
    (hnamed : ∀ name sig, externals name = some sig → sig.name = name)
    {requests : List (String × String)} (hplain : ∀ request ∈ requests, PlainName request.1) :
    Keeps externals registry (later.resolveAll externals requests) := by
  induction requests generalizing later with
  | nil => exact h
  | cons request rest ih =>
    obtain ⟨hfirst, hrest⟩ := List.forall_mem_cons.mp hplain
    exact ih (h.resolve hnamed hfirst request.2) hrest

end

/-! ## The classes of a batch -/

/-- A class is named after its package, or after the class around it. -/
def Declaration.Named : Declaration → Prop
  | .cls name package enclosing => ∃ simple, name = qualify package enclosing simple
  | .method _ _ => True

mutual

theorem named_declarations (package : Option String) : ∀ (enclosing : Option String)
    (c : ClassDef), ∀ d ∈ declarations package enclosing c, d.Named
  | _, .mk name members _ _ =>
    List.forall_mem_cons.mpr ⟨⟨name.name, rfl⟩, named_memberDeclarations package _ members⟩

theorem named_memberDeclarations (package : Option String) : ∀ (cls : String)
    (members : List Member), ∀ d ∈ memberDeclarations package cls members, d.Named
  | _, [] => fun _ hd => nomatch hd
  | cls, .method _ :: rest =>
    List.forall_mem_cons.mpr ⟨trivial, named_memberDeclarations package cls rest⟩
  | cls, .nested c :: rest =>
    List.forall_mem_append.mpr
      ⟨named_declarations package (some cls) c, named_memberDeclarations package cls rest⟩

end

theorem named_batchDeclarations {batch : List Program} :
    ∀ d ∈ batchDeclarations batch, d.2.Named := by
  intro d hd
  obtain ⟨program, -, hd⟩ := List.mem_flatMap.mp hd
  obtain ⟨declaration, hdeclaration, rfl⟩ := List.mem_map.mp hd
  obtain ⟨c, -, hdeclaration⟩ := List.mem_flatMap.mp hdeclaration
  exact named_declarations _ none c _ hdeclaration

theorem ofBatch_declareAll (batch : List Program) : OfBatch (declareAll batch).1 := by
  have declared : ∀ entry ∈ (declareAll batch).1.classes, entry.isExternal = false ∧ ∃ file,
      (file, Declaration.cls entry.name entry.package entry.enclosing) ∈
        batchDeclarations batch := by
    intro entry hentry
    have hheader : entry.header ∈ (declareAll batch).1.headers := List.mem_map_of_mem hentry
    exact declared_of_mem_headers hheader
  refine ⟨fun entry hentry outer houter => ?_, ?_, fun entry hentry => (declared entry hentry).1⟩
  · obtain ⟨-, file, hd⟩ := declared entry hentry
    obtain ⟨simple, hsimple⟩ := named_batchDeclarations _ hd
    rw [houter] at hsimple
    rw [hsimple]
    exact length_lt_qualify _ _ _
  · have hnodup := nodup_headers_declareAll batch
    rwa [Registry.headers, List.map_map] at hnodup

/-- **What a class name is resolved to does not depend on the names resolved before it**, whatever
classes from outside were kept on the way: it is what it would be in the registry of the batch, by
the first of the rules that applies there. A class that is kept neither hides a class of the batch
nor changes it, and has the signature that is known outside. -/
theorem resolve_after_resolving {externals : Externals}
    (hnamed : ∀ name sig, externals name = some sig → sig.name = name) (batch : List Program)
    {requests : List (String × String)} (hplain : ∀ request ∈ requests, PlainName request.1)
    {name : String} (hname : PlainName name) (inside : String) :
    let declared := (declareAll batch).1
    let later := declared.resolveAll externals requests
    let answer := (later.resolve externals name inside).2
    answer = (declared.resolve externals name inside).2 ∧
    (∀ result, ResolvesTo declared externals name inside result ↔ answer = result) ∧
    later.batchClasses = declared.classes ∧
    (∀ cls, declared.has cls = true → later.class? cls = declared.class? cls) ∧
    ∀ cls entry, declared.has cls = false → later.class? cls = some entry →
      ∃ sig, externals cls = some sig ∧ entry = .ofSig sig := by
  intro declared later answer
  have hbatch : OfBatch declared := ofBatch_declareAll batch
  have hkeeps : Keeps externals declared later :=
    (Keeps.refl externals declared).resolveAll hnamed hplain
  have hanswer : answer = (declared.resolve externals name inside).2 :=
    hkeeps.resolve_eq hbatch.nesting hname inside
  refine ⟨hanswer, fun result => ?_, ?_, fun cls => hkeeps.class?_eq,
    fun cls entry hnew hentry => hkeeps.outside_of_class? hnew hentry⟩
  · rw [hanswer]
    exact hbatch.resolvesTo_iff
  · rw [hkeeps.batchClasses_eq]
    exact List.filter_eq_self.mpr fun entry hentry => by rw [hbatch.batch entry hentry]; rfl

/-- Two units of different packages. -/
def packagedUnits : List Program :=
  [("main", "package app\nclass Main\n  class Util\n  end\nend\n"),
    ("lib", "package lib\nclass Helper\nend\n")].filterMap fun unit =>
      (readUnit true unit.1 unit.2).toOption

/-- A class outside of no package, and one of the same simple name in a package. -/
def integerHosts : Externals := .ofList [⟨"app.Integer", []⟩, ⟨"Integer", []⟩]

theorem name_of_integerHosts (name : String) (sig : ClassSig) (h : integerHosts name = some sig) :
    sig.name = name := by
  simpa using List.find?_some h

/-- Class names of units, each with the class that it is resolved in. -/
def packagedRequests : List (String × String) :=
  [("Integer", "app.Main"), ("Util", "app.Main$Util"), ("Helper", "app.Main")]

theorem resolve_after_resolving_integer :
    let declared := (declareAll packagedUnits).1
    let later := declared.resolveAll integerHosts packagedRequests
    later.has "app.Integer" = true ∧ declared.has "app.Integer" = false ∧
      (later.resolve integerHosts "Integer" "lib.Helper").2 = .ok "Integer" ∧
      (later.resolve integerHosts "Integer" "app.Main$Util").2 = .ok "app.Integer" := by
  have hplain : ∀ request ∈ packagedRequests, PlainName request.1 := by decide
  have hname : PlainName "Integer" := by decide
  have hresolve := fun inside =>
    (resolve_after_resolving name_of_integerHosts packagedUnits hplain hname inside).1
  refine ⟨by decide +kernel, by decide +kernel, ?_, ?_⟩
  · exact (hresolve "lib.Helper").trans (by decide +kernel)
  · exact (hresolve "app.Main$Util").trans (by decide +kernel)

end StackScript.Typing

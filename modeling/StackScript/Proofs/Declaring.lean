import StackScript.Typing.Batch

/-!
# What declaring a batch records

Declaring a batch without a fault puts every method of the batch on record under its class, with
its annotations as types, and nothing else (`records_declareAll`). A second method of one name in
a class, and an annotation that names no type, are faults.
-/

namespace StackScript.Typing

open StackScript.Source StackScript.Syntax

/-! ## Classes on record -/

namespace Registry

variable {registry : Registry} {name : String}

theorem name_of_class? {entry : ClassEntry} (h : registry.class? name = some entry) :
    entry.name = name := by
  simpa using List.find?_some h

theorem has_iff : registry.has name = true ↔ ∃ entry, registry.class? name = some entry := by
  rw [has, Option.isSome_iff_exists]

/-- An entry is found after it was added, unless its name was taken before. -/
theorem class?_enroll (registry : Registry) (entry : ClassEntry) (name : String) :
    (registry.enroll entry).class? name =
      (registry.class? name).or (if entry.name = name then some entry else none) := by
  by_cases h : registry.has entry.name = true
  · rw [enroll, if_pos h]
    by_cases hn : entry.name = name
    · obtain ⟨found, hfound⟩ := has_iff.mp h
      rw [← hn, hfound]
      rfl
    · rw [if_neg hn, Option.or_none]
  · rw [enroll, if_neg h]
    by_cases hn : entry.name = name <;> simp [class?, List.find?_append, hn]

theorem class?_modify (registry : Registry) (cls : String) {change : ClassEntry → ClassEntry}
    (hchange : ∀ entry, (change entry).name = entry.name) (name : String) :
    (registry.modify cls change).class? name =
      (registry.class? name).map fun entry => if entry.name = cls then change entry else entry := by
  -- classes are found by name, and the change leaves the names alone
  have hnames : ((fun entry : ClassEntry => decide (entry.name = name)) ∘
      fun entry => if entry.name = cls then change entry else entry)
      = fun entry => decide (entry.name = name) := by
    funext entry
    by_cases h : entry.name = cls <;> simp [h, hchange]
  simp only [class?, modify, List.find?_map, hnames]

theorem has_modify (registry : Registry) (cls : String) {change : ClassEntry → ClassEntry}
    (hchange : ∀ entry, (change entry).name = entry.name) (name : String) :
    (registry.modify cls change).has name = registry.has name := by
  rw [has, class?_modify registry cls hchange, Option.isSome_map, has]

theorem method?_of_class? {entry : ClassEntry} (h : registry.class? name = some entry)
    (method : String) : registry.method? name method = entry.method? method := by
  rw [method?, h, Option.bind_some]

/-- Only a class on record has methods on record. -/
theorem has_of_method? {method : String} {entry : MethodEntry}
    (h : registry.method? name method = some entry) : registry.has name = true := by
  obtain ⟨cls, hcls, -⟩ := Option.bind_eq_some_iff.mp h
  exact has_iff.mpr ⟨cls, hcls⟩

theorem methodAt?_eq_some {cls method file : String} {span : Span} {entry : MethodEntry} :
    registry.methodAt? cls method file span = some entry ↔
      registry.method? cls method = some entry ∧ entry.origin = some (file, span) := by
  simp [methodAt?, Option.filter_eq_some_iff]

/-- A class that is declared is on record, and its methods are those it had before. -/
theorem method?_declareClass (registry : Registry) (cls : String)
    (package enclosing : Option String) (name method : String) :
    (registry.declareClass cls package enclosing).method? name method
      = registry.method? name method := by
  rw [method?, declareClass, class?_enroll, method?]
  by_cases h : cls = name
  · cases registry.class? name <;> simp [h, ClassEntry.method?]
  · simp [h]

theorem has_declareClass (registry : Registry) (cls : String) (package enclosing : Option String)
    (name : String) :
    (registry.declareClass cls package enclosing).has name
      = (registry.has name || decide (cls = name)) := by
  rw [has, declareClass, class?_enroll, has]
  by_cases h : cls = name <;> cases registry.class? name <;> simp [h]

theorem declareMethod_eq_ok {cls : String} {method : MethodEntry} {after : Registry}
    (h : registry.declareMethod cls method = .ok after) :
    registry.has cls = true ∧ registry.method? cls method.name = none ∧
      after = registry.modify cls fun entry =>
        { entry with methods := entry.methods ++ [method] } := by
  unfold declareMethod at h
  split at h
  · cases h
  · rename_i entry hentry
    split at h
    · cases h
    · rename_i hnew
      refine ⟨has_iff.mpr ⟨entry, hentry⟩, ?_, ?_⟩
      · rw [method?_of_class? hentry]
        simpa using hnew
      · simpa using h.symm

/-- Once declared, a method is found under its class, and all others are where they were. -/
theorem method?_declareMethod {cls : String} {entry : MethodEntry} {after : Registry}
    (h : registry.declareMethod cls entry = .ok after) (name method : String) :
    after.method? name method =
      if cls = name ∧ entry.name = method then some entry else registry.method? name method := by
  obtain ⟨hcls, hnew, rfl⟩ := declareMethod_eq_ok h
  rw [method?, class?_modify _ _ (by exact fun _ => rfl), method?]
  cases hfound : registry.class? name with
  | none =>
    -- the class of the method is on record, so it is not this one
    have hne : cls ≠ name := by
      rintro rfl
      simp [has, hfound] at hcls
    simp [hne]
  | some found =>
    by_cases hname : cls = name
    · subst hname
      have hown : found.name = cls := name_of_class? hfound
      rw [method?_of_class? hfound] at hnew
      by_cases hm : entry.name = method
      · subst hm
        -- no method of this name stands before the new one, so the search gets to it
        simp only [Option.map_some, if_pos hown, Option.bind_some, ClassEntry.method?,
          List.find?_append]
        simp only [ClassEntry.method?] at hnew
        simp [hnew]
      · simp [hown, hm, ClassEntry.method?, List.find?_append]
    · have hown : ¬ found.name = cls := fun e => hname (e.symm.trans (name_of_class? hfound))
      simp [hown, hname]

theorem has_declareMethod {cls : String} {entry : MethodEntry} {after : Registry}
    (h : registry.declareMethod cls entry = .ok after) (name : String) :
    after.has name = registry.has name := by
  obtain ⟨-, -, rfl⟩ := declareMethod_eq_ok h
  exact has_modify registry cls (by exact fun _ => rfl) name

end Registry

/-! ## The record of a batch -/

/-- The registry is the record of declarations, none of which is at fault. -/
structure Records (found : List (String × Declaration)) (registry : Registry) : Prop where
  /-- Every method is on record as it is annotated. -/
  method : ∀ {file cls m}, (file, Declaration.method cls m) ∈ found →
    registry.method? cls m.name.name = some (methodEntry file m)
  /-- Every annotation names a type. -/
  typed : ∀ {file cls m}, (file, Declaration.method cls m) ∈ found →
    annotationFaults file (m.params.map (·.type) ++ m.ret.toList) = []
  /-- Every method on record was declared. -/
  source : ∀ {cls name entry}, registry.method? cls name = some entry →
    ∃ file m, (file, Declaration.method cls m) ∈ found ∧ entry = methodEntry file m
  /-- The classes on record are those that were declared. -/
  classes : ∀ name, registry.has name = true ↔
    ∃ file package enclosing, (file, Declaration.cls name package enclosing) ∈ found

theorem records_nothing : Records [] {} where
  method h := nomatch h
  typed h := nomatch h
  source h := nomatch h
  classes name := by simp [Registry.has, Registry.class?]

/-- A class that is declared is on record with what there was. -/
theorem Records.declareClass {found : List (String × Declaration)} {registry : Registry}
    (hrec : Records found registry) (file name : String) (package enclosing : Option String) :
    Records (found ++ [(file, .cls name package enclosing)])
      (registry.declareClass name package enclosing) where
  method {file' cls m} h := by
    have h : (file', Declaration.method cls m) ∈ found := by simpa using h
    exact (Registry.method?_declareClass ..).trans (hrec.method h)
  typed h := hrec.typed (by simpa using h)
  source {cls m entry} h := by
    have h : registry.method? cls m = some entry :=
      (Registry.method?_declareClass ..).symm.trans h
    obtain ⟨file, m, hm, rfl⟩ := hrec.source h
    exact ⟨file, m, List.mem_append_left _ hm, rfl⟩
  classes cls := by
    simp only [Registry.has_declareClass, Bool.or_eq_true, decide_eq_true_eq, hrec.classes cls]
    constructor
    · rintro (⟨file', p, e, h⟩ | rfl)
      · exact ⟨file', p, e, List.mem_append_left _ h⟩
      · exact ⟨file, package, enclosing, by simp⟩
    · rintro ⟨file', p, e, h⟩
      rcases List.mem_append.mp h with h | h
      · exact .inl ⟨file', p, e, h⟩
      · simp only [List.mem_singleton, Prod.mk.injEq, Declaration.cls.injEq] at h
        exact .inr h.2.1.symm

/-- A method whose annotations all name types is on record with what there was, once its class has
taken it. -/
theorem Records.declareMethod {found : List (String × Declaration)} {registry after : Registry}
    (hrec : Records found registry) {file cls : String} {m : Method}
    (hok : registry.declareMethod cls (methodEntry file m) = .ok after)
    (htyped : annotationFaults file (m.params.map (·.type) ++ m.ret.toList) = []) :
    Records (found ++ [(file, .method cls m)]) after where
  method {file' cls' m'} h := by
    rw [Registry.method?_declareMethod hok]
    rcases List.mem_append.mp h with h | h
    · -- an earlier method of this name would have made this one a duplicate
      have hold := hrec.method h
      rw [if_neg, hold]
      rintro ⟨rfl, hname⟩
      obtain ⟨-, hnew, -⟩ := Registry.declareMethod_eq_ok hok
      rw [hname, hold] at hnew
      cases hnew
    · simp only [List.mem_singleton, Prod.mk.injEq, Declaration.method.injEq] at h
      obtain ⟨rfl, rfl, rfl⟩ := h
      exact if_pos ⟨rfl, rfl⟩
  typed {file' cls' m'} h := by
    rcases List.mem_append.mp h with h | h
    · exact hrec.typed h
    · simp only [List.mem_singleton, Prod.mk.injEq, Declaration.method.injEq] at h
      obtain ⟨rfl, -, rfl⟩ := h
      exact htyped
  source {cls' name entry} h := by
    rw [Registry.method?_declareMethod hok] at h
    split at h
    · rename_i heq
      obtain ⟨rfl, -⟩ := heq
      exact ⟨file, m, by simp, (Option.some.inj h).symm⟩
    · obtain ⟨file', m', hm, rfl⟩ := hrec.source h
      exact ⟨file', m', List.mem_append_left _ hm, rfl⟩
  classes name := by
    rw [Registry.has_declareMethod hok, hrec.classes]
    simp

/-- A declaration without a fault was preceded by none, and the record includes it. -/
theorem Records.declare {found : List (String × Declaration)} {made : Declared}
    (hrec : Records found made.1) (d : String × Declaration) (hd : (declare made d).2 = []) :
    Records (found ++ [d]) (declare made d).1 := by
  obtain ⟨registry, faults⟩ := made
  obtain ⟨file, d⟩ := d
  cases d with
  | cls name package enclosing => exact hrec.declareClass file name package enclosing
  | method cls m =>
    simp only [Typing.declare] at hd ⊢
    -- a declaration that is refused is a fault, so this one went through
    cases hok : registry.declareMethod cls (methodEntry file m) with
    | error fault => simp [hok] at hd
    | ok after =>
      simp only [hok, List.append_eq_nil_iff] at hd
      exact hrec.declareMethod hok hd.2

theorem faults_of_declare {made : Declared} {d : String × Declaration}
    (h : (declare made d).2 = []) : made.2 = [] := by
  obtain ⟨file, d⟩ := d
  cases d with
  | cls name package enclosing => exact h
  | method cls m =>
    simp only [declare] at h
    split at h <;> simp_all

theorem faults_of_foldl_declare {found : List (String × Declaration)} {made : Declared}
    (h : (found.foldl declare made).2 = []) : made.2 = [] := by
  induction found generalizing made with
  | nil => exact h
  | cons d rest ih => exact faults_of_declare (ih h)

/-- Declarations that go on from a record make a record, unless one of them is at fault. -/
theorem Records.foldl {before found : List (String × Declaration)} {made : Declared}
    (hrec : Records before made.1) (h : (found.foldl Typing.declare made).2 = []) :
    Records (before ++ found) (found.foldl Typing.declare made).1 := by
  induction found generalizing before made with
  | nil => simpa using hrec
  | cons d rest ih =>
    -- faults are only ever added, so none was there after the first declaration
    have hd : (Typing.declare made d).2 = [] := faults_of_foldl_declare h
    have := ih (hrec.declare d hd) h
    rwa [List.append_assoc, List.singleton_append] at this

/-- A batch that is declared without a fault has the record of its declarations. -/
theorem records_declareAll {batch : List Program} (h : (declareAll batch).2 = []) :
    Records (batchDeclarations batch) (declareAll batch).1 :=
  records_nothing.foldl h

end StackScript.Typing

import StackScript.Proofs.Confluence
import StackScript.Proofs.FirstDefinitions
import StackScript.Proofs.QualifiedNames

/-!
# Declaring units in another order

A batch is declared without a fault exactly when its annotations name types and no class has two
methods of one name (`faults_declareAll_iff`), so in every order of its units or in none. What it
records is the same in every order, up to the order of the classes (`refines_declareAll`).
-/

namespace StackScript.Typing

open StackScript.Source StackScript.Syntax

/-! ## Declaring without a fault -/

/-- The class of a method and its name. -/
def methodKey (place : MethodPlace) : String × String := (place.2.1, place.2.2.name.name)

/-- The classes and names of the methods among declarations. -/
def methodKeys (found : List (String × Declaration)) : List (String × String) :=
  (found.filterMap Declaration.place?).map methodKey

theorem methodKeys_cons_method (file cls : String) (m : Method)
    (rest : List (String × Declaration)) :
    methodKeys ((file, .method cls m) :: rest) = (cls, m.name.name) :: methodKeys rest := rfl

/-- Declarations without a fault are of new methods, each of them declared once. -/
theorem nodup_of_foldl_declare {found : List (String × Declaration)} {made : Declared}
    (h : (found.foldl declare made).2 = []) : (methodKeys found).Nodup ∧
      ∀ key ∈ methodKeys found, made.1.method? key.1 key.2 = none := by
  induction found generalizing made with
  | nil => exact ⟨List.nodup_nil, fun _ hkey => nomatch hkey⟩
  | cons d rest ih =>
    obtain ⟨file, d⟩ := d
    obtain ⟨hnodup, hnew⟩ := ih h
    cases d with
    | cls name package enclosing =>
      refine ⟨hnodup, fun key hkey => ?_⟩
      rw [← hnew key hkey]
      exact (Registry.method?_declareClass ..).symm
    | method cls m =>
      have hd : (declare made (file, .method cls m)).2 = [] := faults_of_foldl_declare h
      simp only [declare] at hd hnew
      cases hok : made.1.declareMethod cls (methodEntry file m) with
      | error fault => simp [hok] at hd
      | ok after =>
        simp only [hok] at hnew
        obtain ⟨-, hfree, -⟩ := Registry.declareMethod_eq_ok hok
        rw [methodKeys_cons_method]
        constructor
        · refine List.nodup_cons.mpr ⟨fun hmem => ?_, hnodup⟩
          have hnone := hnew _ hmem
          rw [Registry.method?_declareMethod hok, if_pos ⟨rfl, rfl⟩] at hnone
          cases hnone
        · refine List.forall_mem_cons.mpr ⟨hfree, fun key hkey => ?_⟩
          have hnone := hnew key hkey
          rw [Registry.method?_declareMethod hok] at hnone
          split at hnone
          · cases hnone
          · exact hnone

/-- A class on record takes a method that it does not have yet. -/
theorem Registry.declareMethod_ok {registry : Registry} {cls : String} {method : MethodEntry}
    (hcls : registry.has cls = true) (hnew : registry.method? cls method.name = none) :
    ∃ after, registry.declareMethod cls method = .ok after := by
  obtain ⟨entry, hentry⟩ := has_iff.mp hcls
  rw [method?_of_class? hentry] at hnew
  simp only [declareMethod, hentry, hnew]
  exact ⟨_, rfl⟩

/-- Methods that are new, each of them declared once and after its class, are no fault. -/
theorem foldl_declare_of_nodup {found : List (String × Declaration)} {made : Declared}
    (hprepared : Prepared made.1.has (found.map Prod.snd)) (hmade : made.2 = [])
    (htyped : ∀ {file cls m}, (file, Declaration.method cls m) ∈ found →
      annotationFaults file (m.params.map (·.type) ++ m.ret.toList) = [])
    (hnodup : (methodKeys found).Nodup)
    (hnew : ∀ key ∈ methodKeys found, made.1.method? key.1 key.2 = none) :
    (found.foldl declare made).2 = [] := by
  induction found generalizing made with
  | nil => exact hmade
  | cons d rest ih =>
    obtain ⟨file, d⟩ := d
    have htyped' := fun {file cls m} hm => @htyped file cls m (List.mem_cons_of_mem _ hm)
    cases d with
    | cls name package enclosing =>
      refine ih ?_ hmade htyped' hnodup fun key hkey => ?_
      · rw [has_declare_class]
        exact hprepared
      · rw [← hnew key hkey]
        exact Registry.method?_declareClass ..
    | method cls m =>
      obtain ⟨hcls, hprepared⟩ := hprepared
      rw [methodKeys_cons_method] at hnodup hnew
      obtain ⟨hfresh, hnodup⟩ := List.nodup_cons.mp hnodup
      obtain ⟨hfree, hnew⟩ := List.forall_mem_cons.mp hnew
      obtain ⟨after, hok⟩ := Registry.declareMethod_ok hcls
        (show made.1.method? cls (methodEntry file m).name = none from hfree)
      have hstep : declare made (file, .method cls m) = (after, []) := by
        simp only [declare, hok, hmade, htyped List.mem_cons_self, List.append_nil]
      rw [List.foldl_cons, hstep]
      refine ih ?_ rfl htyped' hnodup fun key hkey => ?_
      · have hknown : after.has = made.1.has :=
          funext fun name => Registry.has_declareMethod hok name
        rw [hknown]
        exact hprepared
      · rw [Registry.method?_declareMethod hok, if_neg, hnew key hkey]
        rintro ⟨rfl, hname⟩
        exact hfresh (by rw [show m.name.name = key.2 from hname]; exact hkey)

/-- A batch is declared without a fault exactly when its annotations name types, and no class has
two methods of one name. -/
theorem faults_declareAll_iff {batch : List Program} : (declareAll batch).2 = [] ↔
    (∀ {file cls m}, (file, Declaration.method cls m) ∈ batchDeclarations batch →
      annotationFaults file (m.params.map (·.type) ++ m.ret.toList) = []) ∧
    (methodKeys (batchDeclarations batch)).Nodup := by
  constructor
  · intro h
    exact ⟨fun hm => (records_declareAll h).typed hm, (nodup_of_foldl_declare h).1⟩
  · rintro ⟨htyped, hnodup⟩
    exact foldl_declare_of_nodup (prepared_batchDeclarations _ batch) rfl htyped hnodup
      fun _ _ => rfl

/-! ## Headers on record -/

/-- A declaration leaves the headers as they are, or adds that of a class with a new name. -/
theorem headers_declare (made : Declared) (d : String × Declaration) :
    (declare made d).1.headers = made.1.headers ∨
      ∃ file name package enclosing, d = (file, .cls name package enclosing) ∧
        made.1.has name = false ∧
        (declare made d).1.headers = made.1.headers ++ [⟨name, package, enclosing, false⟩] := by
  obtain ⟨file, d⟩ := d
  cases d with
  | cls name package enclosing =>
    simp only [declare, Registry.declareClass, Registry.headers_enroll]
    cases hhas : made.1.has name with
    | true => exact .inl (if_pos rfl)
    | false => exact .inr ⟨file, name, package, enclosing, rfl, hhas, rfl⟩
  | method cls m =>
    refine .inl ?_
    simp only [declare]
    split
    · rename_i after hok
      obtain ⟨-, -, rfl⟩ := Registry.declareMethod_eq_ok hok
      exact Registry.headers_modify _ _ fun _ => rfl
    · rfl

theorem mem_headers_foldl {found : List (String × Declaration)} {made : Declared}
    {header : Header} (h : header ∈ (found.foldl declare made).1.headers) :
    header ∈ made.1.headers ∨ header.isExternal = false ∧
      ∃ file, (file, Declaration.cls header.name header.package header.enclosing) ∈ found := by
  induction found generalizing made with
  | nil => exact .inl h
  | cons d rest ih =>
    rcases ih h with h | ⟨hbatch, file, h⟩
    · rcases headers_declare made d with hsame | ⟨file, name, package, enclosing, rfl, -, hnew⟩
      · exact .inl (hsame ▸ h)
      · rw [hnew] at h
        rcases List.mem_append.mp h with h | h
        · exact .inl h
        · rw [List.mem_singleton.mp h]
          exact .inr ⟨rfl, file, List.mem_cons_self⟩
    · exact .inr ⟨hbatch, file, List.mem_cons_of_mem _ h⟩

/-- Every class is on record once. -/
theorem nodup_headers_foldl {found : List (String × Declaration)} {made : Declared}
    (h : (made.1.headers.map Header.name).Nodup) :
    ((found.foldl declare made).1.headers.map Header.name).Nodup := by
  induction found generalizing made with
  | nil => exact h
  | cons d rest ih =>
    apply ih
    rcases headers_declare made d with hsame | ⟨file, name, package, enclosing, rfl, hfree, hnew⟩
    · rw [hsame]
      exact h
    · rw [hnew]
      exact Registry.nodup_headers_concat h hfree

theorem nodup_headers_declareAll (batch : List Program) :
    ((declareAll batch).1.headers.map Header.name).Nodup := nodup_headers_foldl List.nodup_nil

/-- Every class on record was declared in the batch. -/
theorem declared_of_mem_headers {batch : List Program} {header : Header}
    (h : header ∈ (declareAll batch).1.headers) : header.isExternal = false ∧
      ∃ file, (file, Declaration.cls header.name header.package header.enclosing) ∈
        batchDeclarations batch :=
  (mem_headers_foldl h).resolve_left fun hnone => nomatch hnone

theorem mem_headers_declareAll {batch : List Program}
    (hplain : ∀ program ∈ batch, program.Plain) (h : (declareAll batch).2 = []) {header : Header} :
    header ∈ (declareAll batch).1.headers ↔ header.isExternal = false ∧ ∃ file,
      (file, Declaration.cls header.name header.package header.enclosing) ∈
        batchDeclarations batch := by
  refine ⟨declared_of_mem_headers, ?_⟩
  rintro ⟨hbatch, file, hd⟩
  have hhas := ((records_declareAll h).classes header.name).mpr ⟨file, _, _, hd⟩
  rw [← Registry.isSome_find?_headers] at hhas
  obtain ⟨found, hfound⟩ := Option.isSome_iff_exists.mp hhas
  have hname : found.name = header.name := by simpa using List.find?_some hfound
  have hmem := List.mem_of_find?_eq_some hfound
  obtain ⟨hbatch', file', hd'⟩ := declared_of_mem_headers hmem
  -- the header on record has the name of this one, and so its package and the class around it
  have hformed := formed_batchDeclarations hplain
  obtain ⟨hpackage, henclosing⟩ := Qualified.unique (hformed _ hd') (hformed _ hd) hname
  have hsame : found = header := by
    cases found
    cases header
    simp_all
  exact hsame ▸ hmem

/-! ## Other orders -/

section

variable {batch batch' : List Program}

theorem batchDeclarations_perm (h : batch.Perm batch') :
    (batchDeclarations batch).Perm (batchDeclarations batch') := h.flatMap_right _

theorem faults_declareAll_of_perm (h : batch.Perm batch') (hclean : (declareAll batch).2 = []) :
    (declareAll batch').2 = [] := by
  have hperm := batchDeclarations_perm h
  obtain ⟨htyped, hnodup⟩ := faults_declareAll_iff.mp hclean
  refine faults_declareAll_iff.mpr ⟨fun hm => htyped (hperm.mem_iff.mpr hm), ?_⟩
  exact ((hperm.filterMap _).map _).nodup hnodup

theorem method?_declareAll (h : batch.Perm batch') (hclean : (declareAll batch).2 = [])
    {cls name : String} {entry : MethodEntry}
    (hentry : (declareAll batch).1.method? cls name = some entry) :
    (declareAll batch').1.method? cls name = some entry := by
  obtain ⟨file, m, hm, rfl⟩ := (records_declareAll hclean).source hentry
  have hname : m.name.name = name := Registry.name_of_method? hentry
  rw [← hname]
  have hclean' := faults_declareAll_of_perm h hclean
  exact (records_declareAll hclean').method ((batchDeclarations_perm h).mem_iff.mp hm)

/-- In another order of the units, the same classes and methods are on record. -/
theorem refines_declareAll (hplain : ∀ program ∈ batch, program.Plain) (h : batch.Perm batch')
    (hclean : (declareAll batch).2 = []) : (declareAll batch).1.Refines (declareAll batch').1 := by
  have hperm := batchDeclarations_perm h
  have hclean' := faults_declareAll_of_perm h hclean
  have hplain' : ∀ program ∈ batch', program.Plain := fun program hp =>
    hplain program (h.mem_iff.mpr hp)
  have hnodup := nodup_headers_declareAll batch
  have hnodup' := nodup_headers_declareAll batch'
  refine ⟨⟨?_, hnodup⟩, ⟨fun name => ?_, fun {cls name entry} hentry => ?_, fun hnone => ?_⟩⟩
  · refine (List.perm_ext_iff_of_nodup hnodup.of_map hnodup'.of_map).mpr fun header => ?_
    rw [mem_headers_declareAll hplain hclean, mem_headers_declareAll hplain' hclean']
    simp only [hperm.mem_iff]
  · rw [Bool.eq_iff_iff, (records_declareAll hclean').classes, (records_declareAll hclean).classes]
    simp only [hperm.mem_iff]
  · exact ⟨entry.ret, method?_declareAll h hclean hentry, .inl rfl⟩
  · refine Option.eq_none_iff_forall_ne_some.mpr fun entry hentry => ?_
    have hbefore := method?_declareAll h.symm hclean' hentry
    rw [hnone] at hbefore
    cases hbefore

end

/-! ## Methods in their places -/

theorem mem_batchMethods {batch : List Program} {file cls : String} {m : Method} :
    (file, cls, m) ∈ batchMethods batch ↔
      (file, Declaration.method cls m) ∈ batchDeclarations batch := by
  rw [batchMethods, List.mem_filterMap]
  constructor
  · rintro ⟨⟨file', d⟩, hd, hplace⟩
    cases d with
    | cls name package enclosing => cases hplace
    | method owner m' =>
      cases hplace
      exact hd
  · intro hd
    exact ⟨_, hd, rfl⟩

/-- The methods of a batch that is declared without a fault are on record, each under a name of its
own. -/
theorem placed_declareAll {batch : List Program} (h : (declareAll batch).2 = []) :
    Placed (batchMethods batch) (declareAll batch).1 where
  method hm := (records_declareAll h).method (mem_batchMethods.mp hm)
  unique {file file' cls m m'} hm hm' hname := by
    have hnodup : ((batchMethods batch).map methodKey).Nodup := (faults_declareAll_iff.mp h).2
    have hkey : methodKey (file, cls, m) = methodKey (file', cls, m') := by
      rw [methodKey, methodKey, hname]
    cases List.inj_on_of_nodup_map hnodup hm hm' hkey
    exact ⟨rfl, rfl⟩

end StackScript.Typing

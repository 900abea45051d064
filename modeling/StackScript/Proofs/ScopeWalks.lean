import StackScript.Proofs.Resolving

/-!
# Walks from scope to scope

A class name, and a call without a class, are looked up in a class and then in the classes around
it, one after another. Such a search goes where the entries lead it (`Walks`), and comes to an end
because the class around a class has a shorter name. So it is for every nested class of a batch,
whatever the batch declares twice: the class around it is declared too, and gives it its name and
its package (`inside_batchDeclarations`). What is put on record later is nowhere nested
(`Grows.headers`), so the searches end in every later registry as well, and come to no class twice
(`scope_walks_end`).
-/

namespace StackScript.Typing

open StackScript.Source StackScript.Syntax

/-! ## Searches -/

section Searches

variable {registry : Registry} {α : Type} {probe : String → Option α}

/-- How a search runs from a class on, with the classes that it comes to and what it gives: it stops
at the first class where `probe` gives something, and goes on with the class around it elsewhere. -/
inductive Walks (registry : Registry) (probe : String → Option α) :
    String → List String → Option α → Prop where
  | found {cls : String} {a : α} (h : probe cls = some a) : Walks registry probe cls [cls] (some a)
  | outermost {cls : String} (h : probe cls = none) (haround : registry.around? cls = none) :
      Walks registry probe cls [cls] none
  | outward {cls outer : String} {visited : List String} {result : Option α}
      (h : probe cls = none) (haround : registry.around? cls = some outer)
      (hmore : Walks registry probe outer visited result) :
      Walks registry probe cls (cls :: visited) result

/-- There is one way to go. -/
theorem Walks.unique {cls : String} {visited visited' : List String} {result result' : Option α}
    (h : Walks registry probe cls visited result)
    (h' : Walks registry probe cls visited' result') : visited = visited' ∧ result = result' := by
  induction h generalizing visited' result' with
  | found h =>
    cases h' with
    | found h' =>
      rw [h] at h'
      exact ⟨rfl, h'⟩
    | outermost h' _ | outward h' _ _ =>
      rw [h] at h'
      cases h'
  | outermost h haround =>
    cases h' with
    | found h' =>
      rw [h] at h'
      cases h'
    | outermost _ _ => exact ⟨rfl, rfl⟩
    | outward _ haround' _ =>
      rw [haround] at haround'
      cases haround'
  | outward h haround _ ih =>
    cases h' with
    | found h' =>
      rw [h] at h'
      cases h'
    | outermost _ haround' =>
      rw [haround] at haround'
      cases haround'
    | outward _ haround' hmore' =>
      rw [haround] at haround'
      cases haround'
      obtain ⟨rfl, rfl⟩ := ih hmore'
      exact ⟨rfl, rfl⟩

/-- Where the scopes of a class are listed, the search from it ends with the first of them that has
something. -/
theorem Enclosed.walks {cls : String} {scopes : List String} (h : Enclosed registry cls scopes)
    (probe : String → Option α) :
    ∃ visited, Walks registry probe cls visited (scopes.findSome? probe) := by
  induction h with
  | @outermost cls haround =>
    rw [List.findSome?_cons]
    cases hprobe : probe cls with
    | some a => exact ⟨[cls], .found hprobe⟩
    | none => exact ⟨[cls], .outermost hprobe haround⟩
  | @inside cls outer scopes haround _ ih =>
    obtain ⟨visited, hmore⟩ := ih
    rw [List.findSome?_cons]
    cases hprobe : probe cls with
    | some a => exact ⟨[cls], .found hprobe⟩
    | none => exact ⟨cls :: visited, .outward hprobe haround hmore⟩

theorem Nesting.length_lt (h : Nesting registry) {cls outer : String}
    (haround : registry.around? cls = some outer) : outer.length < cls.length := by
  obtain ⟨entry, hentry, henclosing⟩ := Registry.around?_eq_some.mp haround
  rw [← Registry.name_of_class? hentry]
  exact h entry (List.mem_of_find?_eq_some hentry) outer henclosing

/-- The names get shorter on the way. -/
theorem Walks.length_le (hnesting : Nesting registry) {cls : String} {visited : List String}
    {result : Option α} (h : Walks registry probe cls visited result) :
    ∀ scope ∈ visited, scope.length ≤ cls.length := by
  induction h with
  | found _ => exact List.forall_mem_singleton.mpr (Nat.le_refl _)
  | outermost _ _ => exact List.forall_mem_singleton.mpr (Nat.le_refl _)
  | outward _ haround _ ih =>
    have hshorter := hnesting.length_lt haround
    exact List.forall_mem_cons.mpr ⟨Nat.le_refl _, fun scope hscope =>
      (ih scope hscope).trans hshorter.le⟩

/-- A search comes to no class twice. -/
theorem Walks.nodup (hnesting : Nesting registry) {cls : String} {visited : List String}
    {result : Option α} (h : Walks registry probe cls visited result) : visited.Nodup := by
  induction h with
  | found _ => exact List.nodup_singleton _
  | outermost _ _ => exact List.nodup_singleton _
  | outward _ haround hmore ih =>
    refine List.nodup_cons.mpr ⟨fun hmem => ?_, ih⟩
    -- all that follows has a shorter name than the class
    have hshorter := hnesting.length_lt haround
    have hback := hmore.length_le hnesting _ hmem
    omega

/-- The search ends with the result, and comes to no class twice. -/
structure Ends (registry : Registry) (probe : String → Option α) (cls : String)
    (result : Option α) : Prop where
  ends : ∃ visited, Walks registry probe cls visited result
  once : ∀ visited found, Walks registry probe cls visited found → visited.Nodup ∧ found = result

theorem Nesting.ends (h : Nesting registry) (probe : String → Option α) (cls : String) :
    Ends registry probe cls ((registry.scopes cls).findSome? probe) := by
  obtain ⟨visited, hwalk⟩ := (h.enclosed_scopes cls).walks probe
  exact ⟨⟨visited, hwalk⟩, fun visited' found hwalk' =>
    ⟨hwalk'.nodup h, (hwalk'.unique hwalk).2⟩⟩

end Searches

namespace Registry

/-- The class of that name that is nested in the scope, if there is one. -/
def nestedIn? (registry : Registry) (name scope : String) : Option String :=
  if registry.has (scope ++ "$" ++ name) then some (scope ++ "$" ++ name) else none

/-- The method of that name that the scope has itself, if there is one. -/
def ownMethod? (registry : Registry) (method scope : String) : Option (String × MethodEntry) :=
  (registry.method? scope method).map fun entry => (scope, entry)

/-- The nested class that goes before all others is the first one on the way outward. -/
theorem findSome?_nestedIn? (registry : Registry) (name : String) (scopes : List String) :
    scopes.findSome? (registry.nestedIn? name) =
      (scopes.map (· ++ "$" ++ name)).find? registry.has := by
  induction scopes with
  | nil => rfl
  | cons scope scopes ih =>
    rw [List.map_cons, List.findSome?_cons, nestedIn?]
    cases hhas : registry.has (scope ++ "$" ++ name) with
    | true => rw [List.find?_cons_of_pos hhas, if_pos rfl]
    | false =>
      rw [List.find?_cons_of_neg (by simp [hhas]), if_neg Bool.false_ne_true]
      exact ih

end Registry

/-! ## Classes around classes -/

/-- A nested class has the class around it among the declarations, in the same package. -/
def Declaration.Inside (found : List Declaration) : Declaration → Prop
  | .cls _ package (some outer) => ∃ around, .cls outer package around ∈ found
  | _ => True

mutual

theorem inside_declarations {found : List Declaration} (package : Option String) :
    ∀ (enclosing : Option String) (c : ClassDef),
      (∀ outer, enclosing = some outer → ∃ around, .cls outer package around ∈ found) →
        declarations package enclosing c ⊆ found →
          ∀ d ∈ declarations package enclosing c, d.Inside found
  | enclosing, .mk name members _ _, houter, hfound => by
    obtain ⟨hself, hmembers⟩ := List.cons_subset.mp hfound
    refine List.forall_mem_cons.mpr ⟨?_, ?_⟩
    · cases enclosing with
      | none => trivial
      | some outer => exact houter outer rfl
    · exact inside_memberDeclarations package _ members ⟨enclosing, hself⟩ hmembers

theorem inside_memberDeclarations {found : List Declaration} (package : Option String) :
    ∀ (cls : String) (members : List Member), (∃ around, .cls cls package around ∈ found) →
      memberDeclarations package cls members ⊆ found →
        ∀ d ∈ memberDeclarations package cls members, d.Inside found
  | _, [], _, _ => fun _ hd => nomatch hd
  | cls, .method _ :: rest, hcls, hfound => by
    have hrest := (List.cons_subset.mp hfound).2
    exact List.forall_mem_cons.mpr ⟨trivial, inside_memberDeclarations package cls rest hcls hrest⟩
  | cls, .nested c :: rest, hcls, hfound => by
    obtain ⟨hnested, hrest⟩ := List.append_subset.mp hfound
    refine List.forall_mem_append.mpr ⟨?_, inside_memberDeclarations package cls rest hcls hrest⟩
    exact inside_declarations package (some cls) c (fun _ h => Option.some.inj h ▸ hcls) hnested

end

/-- The class around a class of a batch is declared in the batch. -/
theorem inside_batchDeclarations (batch : List Program) :
    ∀ d ∈ batchDeclarations batch, d.2.Inside ((batchDeclarations batch).map Prod.snd) := by
  intro d hd
  obtain ⟨program, hprogram, hd⟩ := List.mem_flatMap.mp hd
  obtain ⟨declaration, hdeclaration, rfl⟩ := List.mem_map.mp hd
  obtain ⟨c, hc, hdeclaration⟩ := List.mem_flatMap.mp hdeclaration
  refine inside_declarations _ none c (fun _ h => nomatch h) (fun other hother => ?_) _ hdeclaration
  refine List.mem_map.mpr ⟨(program.source, other), ?_, rfl⟩
  refine List.mem_flatMap.mpr ⟨program, hprogram, ?_⟩
  exact List.mem_map_of_mem (List.mem_flatMap.mpr ⟨c, hc, hother⟩)

/-- A class is on record once it was declared, whatever is declared besides. -/
theorem has_foldl_declare {found : List (String × Declaration)} {made : Declared} {name : String}
    (h : made.1.has name = true ∨
      ∃ package enclosing, Declaration.cls name package enclosing ∈ found.map Prod.snd) :
    (found.foldl declare made).1.has name = true := by
  induction found generalizing made with
  | nil =>
    rcases h with h | ⟨_, _, hnone⟩
    · exact h
    · cases hnone
  | cons d rest ih =>
    obtain ⟨file, d⟩ := d
    apply ih
    cases d with
    | cls other package enclosing =>
      rw [has_declare_class, Bool.or_eq_true, decide_eq_true_eq]
      rcases h with h | ⟨package', enclosing', h⟩
      · exact .inl (.inl h)
      · rcases List.mem_cons.mp h with hfirst | hrest
        · cases hfirst
          exact .inl (.inr rfl)
        · exact .inr ⟨package', enclosing', hrest⟩
    | method cls m =>
      rw [has_declare_method]
      rcases h with h | ⟨package, enclosing, h⟩
      · exact .inl h
      · rcases List.mem_cons.mp h with hfirst | hrest
        · cases hfirst
        · exact .inr ⟨package, enclosing, hrest⟩

/-! ## Later registries -/

/-- How a registry goes on: class names are resolved against it, each with some classes from outside
in sight, and the return types of methods are settled. -/
inductive Grows (registry : Registry) : Registry → Prop where
  | none : Grows registry registry
  | resolve {later : Registry} (h : Grows registry later) (externals : Externals)
      (name inside : String) : Grows registry (later.resolve externals name inside).1
  | settle {later : Registry} (h : Grows registry later) (cls method : String)
      (ret : ReturnState) : Grows registry (later.setReturn cls method ret)

/-- Resolving a name adds at most a class from outside whose name is not on record. -/
theorem Registry.headers_resolve (registry : Registry) (externals : Externals)
    (name inside : String) :
    (registry.resolve externals name inside).1.headers = registry.headers ∨
      ∃ sig, registry.has (ClassEntry.ofSig sig).header.name = false ∧
        (registry.resolve externals name inside).1.headers =
          registry.headers ++ [(ClassEntry.ofSig sig).header] := by
  rw [resolve]
  cases registry.lookup externals name inside with
  | error fault => exact .inl rfl
  | ok meaning =>
    cases meaning with
    | onRecord found => exact .inl rfl
    | outside sig =>
      simp only [headers_enroll]
      cases hhas : registry.has (ClassEntry.ofSig sig).name with
      | true => exact .inl (if_pos rfl)
      | false => exact .inr ⟨sig, hhas, if_neg Bool.false_ne_true⟩

/-- What is added later is nowhere nested, and is added once. -/
theorem Grows.headers {registry later : Registry} (h : Grows registry later)
    (hnodup : (registry.headers.map Header.name).Nodup) :
    (later.headers.map Header.name).Nodup ∧
      ∃ added, later.headers = registry.headers ++ added ∧
        ∀ header ∈ added, header.enclosing = .none := by
  induction h with
  | none => exact ⟨hnodup, [], (List.append_nil _).symm, List.forall_mem_nil _⟩
  | @resolve later _ externals name inside ih =>
    rcases later.headers_resolve externals name inside with hsame | ⟨sig, hfree, hnew⟩
    · rw [hsame]
      exact ih
    · obtain ⟨hlater, added, hheaders, hadded⟩ := ih
      refine ⟨hnew ▸ Registry.nodup_headers_concat hlater hfree,
        added ++ [(ClassEntry.ofSig sig).header], ?_, ?_⟩
      · rw [hnew, hheaders, List.append_assoc]
      · exact List.forall_mem_append.mpr ⟨hadded, List.forall_mem_singleton.mpr rfl⟩
  | settle _ cls method ret ih =>
    rw [Registry.headers_setReturn]
    exact ih

/-! ## Walks end -/

theorem Registry.class?_eq_some_iff {registry : Registry}
    (hnodup : (registry.headers.map Header.name).Nodup) {name : String} {entry : ClassEntry} :
    registry.class? name = some entry ↔ entry ∈ registry.classes ∧ entry.name = name := by
  rw [headers, List.map_map] at hnodup
  exact find?_key_eq_some_iff hnodup

section Later

variable {batch : List Program} {later : Registry} (h : Grows (declareAll batch).1 later)

include h

/-- A nested class that is on record later was declared in the batch. -/
theorem Grows.declared {entry : ClassEntry} (hentry : entry ∈ later.classes) {outer : String}
    (houter : entry.enclosing = some outer) : ∃ file,
      (file, Declaration.cls entry.name entry.package (some outer)) ∈ batchDeclarations batch := by
  obtain ⟨-, added, hheaders, hadded⟩ := h.headers (nodup_headers_declareAll batch)
  have hheader : entry.header ∈ later.headers := List.mem_map_of_mem hentry
  rw [hheaders] at hheader
  rcases List.mem_append.mp hheader with hheader | hheader
  · obtain ⟨-, file, hd⟩ := declared_of_mem_headers hheader
    exact ⟨file, houter ▸ hd⟩
  · -- what was added later is nowhere nested
    cases (hadded _ hheader).symm.trans houter

/-- The class around a nested class is on record, as it was declared in the batch. -/
theorem Grows.around {file name outer : String} {package : Option String}
    (hd : (file, Declaration.cls name package (some outer)) ∈ batchDeclarations batch) :
    ∃ around file, later.class? outer = some around ∧
      (file, Declaration.cls outer around.package around.enclosing) ∈ batchDeclarations batch := by
  obtain ⟨hnodup, added, hheaders, -⟩ := h.headers (nodup_headers_declareAll batch)
  obtain ⟨around, haround⟩ := inside_batchDeclarations batch _ hd
  have hhas : (declareAll batch).1.has outer = true := has_foldl_declare (.inr ⟨_, _, haround⟩)
  obtain ⟨entry, hentry⟩ := Registry.has_iff.mp hhas
  have hname := Registry.name_of_class? hentry
  have hheader : entry.header ∈ (declareAll batch).1.headers :=
    List.mem_map_of_mem (List.mem_of_find?_eq_some hentry)
  -- the later registry has an entry with the header of the first one
  have hlater : entry.header ∈ later.headers := by
    rw [hheaders]
    exact List.mem_append_left _ hheader
  obtain ⟨found, hfound, hsame⟩ := List.mem_map.mp hlater
  have hfoundName : found.name = outer := (congrArg Header.name hsame).trans hname
  have hdeclared : found.header ∈ (declareAll batch).1.headers := hsame ▸ hheader
  obtain ⟨-, file, hd⟩ := declared_of_mem_headers hdeclared
  have hclass := (Registry.class?_eq_some_iff hnodup).mpr ⟨hfound, hfoundName⟩
  exact ⟨found, file, hclass, hfoundName ▸ hd⟩

/-- The class around a class has a shorter name, since the name of the class is made from it. -/
theorem Grows.nesting : Nesting later := by
  intro entry hentry outer houter
  obtain ⟨file, hd⟩ := h.declared hentry houter
  obtain ⟨simple, hsimple⟩ := named_batchDeclarations _ hd
  rw [hsimple]
  exact length_lt_qualify _ _ _

/-- **Walks from scope to scope end in every registry that a batch leads to**, however it is nested
and reopened, and whatever is resolved later. Every entry is found under its own name. An entry with
a class around it has that class on record, and a name that is made from its name; with class names
as units have them, what is added is a plain name, and both have one package. So the search for a
nested class and the search for a method without a class end with what they look for, and come to no
class twice. -/
theorem scope_walks_end :
    (∀ name entry, later.class? name = some entry ↔ entry ∈ later.classes ∧ entry.name = name) ∧
    (∀ entry ∈ later.classes, ∀ outer, entry.enclosing = some outer →
      ∃ around simple, later.class? outer = some around ∧ entry.name = outer ++ "$" ++ simple ∧
        ((∀ program ∈ batch, program.Plain) →
          PlainName simple ∧ around.package = entry.package)) ∧
    (∀ name inside, Ends later (later.nestedIn? name) inside
      (((later.scopes inside).map (· ++ "$" ++ name)).find? later.has)) ∧
    ∀ cls method, Ends later (later.ownMethod? method) cls (later.localMethod? cls method) := by
  obtain ⟨hnodup, -⟩ := h.headers (nodup_headers_declareAll batch)
  have hnesting := h.nesting
  refine ⟨fun name entry => Registry.class?_eq_some_iff hnodup, ?_, fun name inside => ?_,
    fun cls method => hnesting.ends _ cls⟩
  · intro entry hentry outer houter
    obtain ⟨file, hd⟩ := h.declared hentry houter
    obtain ⟨simple, hsimple⟩ := named_batchDeclarations _ hd
    obtain ⟨around, file', haround, hd'⟩ := h.around hd
    refine ⟨around, simple, haround, hsimple, fun hplain => ?_⟩
    have hformed := formed_batchDeclarations hplain
    obtain ⟨⟨_, houtside⟩, hsimplePlain⟩ := (hformed _ hd).nested_inv
    exact ⟨hsimplePlain simple hsimple, ((hformed _ hd').unique houtside rfl).1⟩
  · rw [← Registry.findSome?_nestedIn?]
    exact hnesting.ends _ inside

end Later

/-- A class that two units of a package have, the second one with a class in the nested class. -/
def reopenedUnits : List Program :=
  [("first", "package app\nclass Main\n  class Util\n  end\nend\n"),
    ("second", "package app\nclass Main\n  class Util\n    class Deep\n    end\n  end\nend\n")
    ].filterMap fun unit => (readUnit true unit.1 unit.2).toOption

theorem scope_walks_end_reopenedUnits :
    let later := ((declareAll reopenedUnits).1.resolve integerHosts "Integer" "app.Main$Util").1
    later.has "app.Integer" = true ∧
      (∃ around, later.class? "app.Main$Util" = some around ∧ around.package = some "app") ∧
      Ends later (later.nestedIn? "Util") "app.Main$Util$Deep" (some "app.Main$Util") ∧
      Ends later (later.nestedIn? "Integer") "app.Main$Util$Deep" none := by
  intro later
  have hgrows : Grows (declareAll reopenedUnits).1 later :=
    .resolve .none integerHosts "Integer" "app.Main$Util"
  obtain ⟨hnames, haround, hnested, -⟩ := scope_walks_end hgrows
  have hplain : ∀ program ∈ reopenedUnits, program.Plain := by
    intro program hprogram
    obtain ⟨unit, -, hunit⟩ := List.mem_filterMap.mp hprogram
    cases hread : readUnit true unit.1 unit.2 with
    | error fault =>
      rw [hread] at hunit
      cases hunit
    | ok found =>
      rw [hread] at hunit
      cases hunit
      exact plain_readUnit hread
  have hcomputed : later.has "app.Integer" = true ∧
      later.class? "app.Main$Util$Deep" =
        some ⟨"app.Main$Util$Deep", some "app", some "app.Main$Util", [], false⟩ ∧
      ((later.scopes "app.Main$Util$Deep").map (· ++ "$" ++ "Util")).find? later.has =
        some "app.Main$Util" ∧
      ((later.scopes "app.Main$Util$Deep").map (· ++ "$" ++ "Integer")).find? later.has =
        none := by decide +kernel
  obtain ⟨hkept, hdeep, hutil, hinteger⟩ := hcomputed
  obtain ⟨around, _, hclass, -, hrest⟩ := haround _ ((hnames _ _).mp hdeep).1 "app.Main$Util" rfl
  refine ⟨hkept, ⟨around, hclass, (hrest hplain).2⟩, ?_, ?_⟩
  · rw [← hutil]
    exact hnested "Util" "app.Main$Util$Deep"
  · rw [← hinteger]
    exact hnested "Integer" "app.Main$Util$Deep"

end StackScript.Typing

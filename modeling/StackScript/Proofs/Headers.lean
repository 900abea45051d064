import Mathlib.Data.List.Nodup
import StackScript.Proofs.Settling

/-!
# What class names mean

What a class name means inside a class depends on the headers of the classes on record: their
names, packages, the classes around them, and whether they come from outside. It depends neither on
their order nor on their methods (`lookup_eq_ok_iff`). Two registries with the same headers differ
at most in how an ambiguous name lists its candidates.
-/

namespace StackScript.Typing

open StackScript.Source StackScript.Syntax

/-! ## Headers -/

/-- What is on record of a class apart from its methods. -/
structure Header where
  name : String
  package : Option String
  enclosing : Option String
  isExternal : Bool

/-- The class without its methods. -/
def ClassEntry.header (entry : ClassEntry) : Header :=
  ⟨entry.name, entry.package, entry.enclosing, entry.isExternal⟩

namespace Registry

/-- The classes on record without their methods. -/
def headers (registry : Registry) : List Header := registry.classes.map ClassEntry.header

theorem map_header_class? (registry : Registry) (name : String) :
    (registry.class? name).map ClassEntry.header = registry.headers.find? (·.name = name) := by
  rw [class?, headers, List.find?_map]
  rfl

theorem isSome_find?_headers (registry : Registry) (name : String) :
    (registry.headers.find? (·.name = name)).isSome = registry.has name := by
  rw [← map_header_class?, Option.isSome_map, has]

/-- A change that keeps the header of a class keeps all headers. -/
theorem headers_modify (registry : Registry) (name : String) {change : ClassEntry → ClassEntry}
    (hchange : ∀ entry, (change entry).header = entry.header) :
    (registry.modify name change).headers = registry.headers := by
  rw [headers, modify, List.map_map, headers]
  apply List.map_congr_left
  intro entry _
  by_cases hname : entry.name = name
  · rw [Function.comp_apply, if_pos hname, hchange]
  · rw [Function.comp_apply, if_neg hname]

/-- Return types are no part of headers. -/
theorem headers_setReturn (registry : Registry) (cls method : String) (ret : ReturnState) :
    (registry.setReturn cls method ret).headers = registry.headers :=
  headers_modify registry cls fun _ => rfl

/-- A class that is added has its header behind the others. -/
theorem headers_enroll (registry : Registry) (entry : ClassEntry) :
    (registry.enroll entry).headers =
      if registry.has entry.name then registry.headers else registry.headers ++ [entry.header] := by
  rw [enroll]
  split
  · rfl
  · rw [headers, List.map_append, List.map_singleton, headers]

/-- One more header whose name is not on record leaves the names unique. -/
theorem nodup_headers_concat {registry : Registry} {header : Header}
    (h : (registry.headers.map Header.name).Nodup) (hfree : registry.has header.name = false) :
    ((registry.headers ++ [header]).map Header.name).Nodup := by
  rw [List.map_append]
  refine List.Nodup.append h (List.nodup_singleton _) ?_
  intro other hother hnew
  -- a name among the headers is that of a class on record
  obtain ⟨found, hfound, rfl⟩ := List.mem_map.mp hother
  have hsame : found.name = header.name := List.mem_singleton.mp hnew
  rw [← isSome_find?_headers, ← hsame, Option.isSome_eq_false_iff, Option.isNone_iff_eq_none,
    List.find?_eq_none] at hfree
  exact hfree found hfound (decide_eq_true rfl)

end Registry

/-! ## Registries of the same classes -/

/-- The registries have the same classes on record, apart from their order and their methods. -/
structure SameClasses (before after : Registry) : Prop where
  headers : before.headers.Perm after.headers
  nodup : (before.headers.map Header.name).Nodup

namespace SameClasses

variable {before after : Registry}

theorem trans {last : Registry} (h : SameClasses before after) (hnext : SameClasses after last) :
    SameClasses before last :=
  ⟨h.headers.trans hnext.headers, h.nodup⟩

theorem symm (h : SameClasses before after) : SameClasses after before :=
  ⟨h.headers.symm, (h.headers.map Header.name).nodup h.nodup⟩

/-- Both find the same header by a name. -/
theorem find?_eq (h : SameClasses before after) (name : String) :
    before.headers.find? (·.name = name) = after.headers.find? (·.name = name) := by
  apply Option.ext
  intro header
  rw [find?_key_eq_some_iff h.nodup, find?_key_eq_some_iff h.symm.nodup, h.headers.mem_iff]

/-- A class has the same header in both. -/
theorem header_eq (h : SameClasses before after) (name : String) :
    (before.class? name).map ClassEntry.header = (after.class? name).map ClassEntry.header := by
  rw [Registry.map_header_class?, Registry.map_header_class?, h.find?_eq]

/-- Both have the same classes on record. -/
theorem has_eq (h : SameClasses before after) (name : String) :
    before.has name = after.has name := by
  rw [← Registry.isSome_find?_headers, ← Registry.isSome_find?_headers, h.find?_eq]

theorem package_eq (h : SameClasses before after) (name : String) :
    (before.class? name).bind (·.package) = (after.class? name).bind (·.package) := by
  have hheader := congrArg (Option.bind · Header.package) (h.header_eq name)
  rwa [Option.bind_map, Option.bind_map] at hheader

theorem enclosing_eq (h : SameClasses before after) (name : String) :
    (before.class? name).bind (·.enclosing) = (after.class? name).bind (·.enclosing) := by
  have hheader := congrArg (Option.bind · Header.enclosing) (h.header_eq name)
  rwa [Option.bind_map, Option.bind_map] at hheader

theorem length_eq (h : SameClasses before after) :
    before.classes.length = after.classes.length := by
  have hlength := h.headers.length_eq
  rwa [Registry.headers, Registry.headers, List.length_map, List.length_map] at hlength

theorem scopesFrom_eq (h : SameClasses before after) (fuel : Nat) (name : String) :
    before.scopesFrom fuel name = after.scopesFrom fuel name := by
  induction fuel generalizing name with
  | zero => rfl
  | succ fuel ih =>
    rw [Registry.scopesFrom, Registry.scopesFrom, h.enclosing_eq]
    cases (after.class? name).bind (·.enclosing) with
    | none => rfl
    | some outer => simp only [ih]

/-- A class has the same classes around it in both. -/
theorem scopes_eq (h : SameClasses before after) (name : String) :
    before.scopes name = after.scopes name := by
  rw [Registry.scopes, Registry.scopes, h.length_eq, h.scopesFrom_eq]

theorem namesakes_eq (registry : Registry) (name : String) :
    registry.namesakes name =
      ((registry.headers.filter (!·.isExternal)).map Header.name).filter (simpleName · = name) := by
  have hbatch : registry.headers.filter (!·.isExternal) =
      registry.batchClasses.map ClassEntry.header := by
    rw [Registry.headers, List.filter_map]
    rfl
  rw [hbatch, List.map_map]
  rfl

/-- Both have the same namesakes, perhaps in another order. -/
theorem namesakes_perm (h : SameClasses before after) (name : String) :
    (before.namesakes name).Perm (after.namesakes name) := by
  rw [namesakes_eq, namesakes_eq]
  exact ((h.headers.filter _).map _).filter _

/-- A name that has a meaning in one of them has it in the other. -/
theorem lookup_of_eq_ok (h : SameClasses before after) {externals : Externals}
    {name inside : String} {meaning : Registry.Meaning}
    (hlookup : before.lookup externals name inside = .ok meaning) :
    after.lookup externals name inside = .ok meaning := by
  have hhas : before.has = after.has := funext h.has_eq
  unfold Registry.lookup at hlookup ⊢
  rw [h.scopes_eq, h.package_eq, hhas] at hlookup
  split at hlookup
  · exact hlookup
  · simp only at hlookup ⊢
    split at hlookup
    · rename_i hpackage
      rw [if_pos hpackage]
      exact hlookup
    · rename_i hpackage
      rw [if_neg hpackage]
      have hperm := h.namesakes_perm name
      -- one candidate is the same candidate, and several are a fault in any order
      cases hnames : before.namesakes name with
      | nil =>
        rw [hnames] at hperm hlookup
        rw [List.nil_perm.mp hperm]
        exact hlookup
      | cons first rest =>
        rw [hnames] at hperm hlookup
        cases rest with
        | nil =>
          rw [List.perm_singleton.mp hperm.symm]
          exact hlookup
        | cons second rest => cases hlookup

theorem lookup_eq_ok_iff (h : SameClasses before after) {externals : Externals}
    {name inside : String} {meaning : Registry.Meaning} :
    before.lookup externals name inside = .ok meaning ↔
      after.lookup externals name inside = .ok meaning :=
  ⟨h.lookup_of_eq_ok, h.symm.lookup_of_eq_ok⟩

end SameClasses

end StackScript.Typing

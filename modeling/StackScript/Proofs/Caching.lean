import StackScript.Proofs.Courses

/-!
# The cache is stable

A loader answers calls one after the other, some of which fail and some of which may not end. Its
moments are the states between two changes, inside of calls as well as between them. From one
moment to a later one the cache only grows at its end, a cached name keeps its unit, and a link
that was made keeps leading to the unit that is cached under its name. Only a link that a unit had
when the source handed it out can lead elsewhere, until the loader links that reference itself.
-/

namespace StackScript.Loading

open StackScript.Code StackScript.Machine

namespace Loader

variable {σ : Type} {source : Ambient σ} {loader : Loader σ}

/-! ## Names -/

theorem names_change (loader : Loader σ) (change : Change σ) :
    (loader.change change).names = loader.names ++ change.newName?.toList := by
  cases change with
  | loaded name unit ambient => rfl
  | refused name ambient => exact (List.append_nil _).symm
  | linked inside reference target => exact (List.append_nil _).symm
  | brokenOff inside => exact (List.append_nil _).symm

/-- The cached names are those that got a unit, in that order. -/
theorem names_changeAll (loader : Loader σ) (changes : List (Change σ)) :
    (loader.changeAll changes).names = loader.names ++ changes.filterMap Change.newName? := by
  induction changes generalizing loader with
  | nil => exact (List.append_nil _).symm
  | cons first changes ih =>
    rw [changeAll_cons, ih, names_change, List.append_assoc]
    cases hname : first.newName? with
    | none => rw [List.filterMap_cons_none hname]; rfl
    | some name => rw [List.filterMap_cons_some hname]; rfl

/-! ## Links -/

/-- A unit is linked to the unit that is cached under the name of the link. -/
def HoldsLink (loader : Loader σ) (inside : UnitId) (reference : String) (target : UnitId) : Prop :=
  loader.names[target]? = some reference ∧
    ∃ unit, loader.pool.unit? inside = some unit ∧ unit.links.lookup reference = some target

theorem Formed.holdsLink_link (h : Formed loader) {inside target : UnitId} {reference : String}
    (hinside : inside < loader.names.length) (htarget : loader.names[target]? = some reference) :
    HoldsLink (loader.link inside reference target) inside reference target := by
  obtain ⟨unit, hunit⟩ := h.present inside hinside
  refine ⟨htarget, unit.link reference target, ?_, ?_⟩
  · rw [Loader.link, unit?_link, if_pos rfl, hunit, Option.map_some]
  · rw [lookup_link, if_pos rfl]

/-- No allowed change takes a link away or turns it to another unit. -/
theorem HoldsLink.change {inside target : UnitId} {reference : String}
    (h : HoldsLink loader inside reference target) (hformed : Formed loader) {change : Change σ}
    (hallowed : Allowed source loader change) :
    HoldsLink (loader.change change) inside reference target := by
  obtain ⟨htarget, unit, hunit, hlookup⟩ := h
  refine ⟨(hformed.grows_change hallowed).getElem? htarget, ?_⟩
  cases hallowed with
  | refused _ _ => exact ⟨unit, hunit, hlookup⟩
  | loaded _ _ =>
    refine ⟨unit, ?_, hlookup⟩
    simp only [Loader.change, Loader.insert, unit?_add, Pool.nextId, hformed.size]
    rw [if_neg (Nat.ne_of_lt (hformed.lt_of_unit? hunit)), hunit]
  | @linked other dest name hother hdest =>
    simp only [Loader.change, Loader.link, unit?_link, hunit]
    split
    · refine ⟨unit.link name dest, rfl, ?_⟩
      rw [lookup_link]
      split
      · -- the reference is linked again, to the only unit that is cached under it
        rename_i hname
        have hid := (idOf?_eq_some_iff hformed.nodup).mpr htarget
        rw [hname, (idOf?_eq_some_iff hformed.nodup).mpr hdest] at hid
        exact hid
      · exact hlookup
    · exact ⟨unit, rfl, hlookup⟩
  | brokenOff _ => exact ⟨unit, hunit, hlookup⟩

theorem HoldsLink.changeAll {inside target : UnitId} {reference : String}
    (h : HoldsLink loader inside reference target) (hformed : Formed loader)
    {changes : List (Change σ)} (hruns : Runs source loader changes) :
    HoldsLink (loader.changeAll changes) inside reference target := by
  induction hruns with
  | nil => exact h
  | cons hfirst _ ih => exact ih (h.change hformed hfirst) (hformed.change hfirst)

/-- Every link that was made is held. -/
theorem Formed.holdsLink_of_mem (h : Formed loader) {changes : List (Change σ)}
    (hruns : Runs source loader changes) {inside target : UnitId} {reference : String}
    (hmem : .linked inside reference target ∈ changes) :
    HoldsLink (loader.changeAll changes) inside reference target := by
  induction hruns with
  | nil => exact absurd hmem List.not_mem_nil
  | cons hfirst hrest ih =>
    rcases List.mem_cons.mp hmem with rfl | hmem
    · cases hfirst with
      | linked hinside htarget =>
        exact (h.holdsLink_link hinside htarget).changeAll (h.link _ _ _) hrest
    · exact ih (h.change hfirst) hmem

/-- The unit with the number had the link already when it was handed out. -/
def CameWith (changes : List (Change σ)) (loader : Loader σ) (id : UnitId) (reference : String)
    (target : UnitId) : Prop :=
  ∃ name unit ambient, .loaded name unit ambient ∈ changes ∧ loader.names[id]? = some name ∧
    unit.links.lookup reference = some target

/-- Every link leads to the unit that is cached under its name, or came with its unit. -/
def Accounted (changes : List (Change σ)) (loader : Loader σ) : Prop :=
  ∀ id unit reference target, loader.pool.unit? id = some unit →
    unit.links.lookup reference = some target →
    loader.names[target]? = some reference ∨ CameWith changes loader id reference target

theorem Accounted.change {earlier : List (Change σ)} (h : Accounted earlier loader)
    (hformed : Formed loader) {change : Change σ} (hallowed : Allowed source loader change) :
    Accounted (earlier ++ [change]) (loader.change change) := by
  have hgrows := hformed.grows_change hallowed
  -- a link that was there before is accounted for as it was
  have hold : ∀ {id unit reference target}, loader.pool.unit? id = some unit →
      unit.links.lookup reference = some target →
      (loader.change change).names[target]? = some reference ∨
        CameWith (earlier ++ [change]) (loader.change change) id reference target := by
    intro id unit reference target hunit hlookup
    rcases h _ _ _ _ hunit hlookup with htarget | ⟨name, made, ambient, hmem, hname, hmade⟩
    · exact .inl (hgrows.getElem? htarget)
    · exact .inr ⟨name, made, ambient, List.mem_append_left _ hmem, hgrows.getElem? hname, hmade⟩
  intro id found reference target hfound hlookup
  cases hallowed with
  | refused _ _ => exact hold hfound hlookup
  | @loaded name unit next _ _ =>
    simp only [Loader.change, Loader.insert, unit?_add, Pool.nextId, hformed.size] at hfound
    split at hfound
    · rename_i hid
      obtain rfl := Option.some.inj hfound
      refine .inr ⟨name, _, next.ambient, List.mem_append_right _ List.mem_cons_self, ?_,
        hlookup⟩
      rw [hid]
      exact List.getElem?_concat_length
    · exact hold hfound hlookup
  | @linked inside dest other _ hdest =>
    simp only [Loader.change, Loader.link, unit?_link] at hfound
    split at hfound
    · obtain ⟨unit, hunit, rfl⟩ := Option.map_eq_some_iff.mp hfound
      rw [lookup_link] at hlookup
      split at hlookup
      · rename_i hname
        cases hlookup
        exact .inl (hname ▸ hdest)
      · exact hold hunit hlookup
    · exact hold hfound hlookup
  | brokenOff _ => exact hold hfound hlookup

theorem Accounted.changeAll {earlier changes : List (Change σ)} (h : Accounted earlier loader)
    (hformed : Formed loader) (hruns : Runs source loader changes) :
    Accounted (earlier ++ changes) (loader.changeAll changes) := by
  induction hruns generalizing earlier with
  | nil => rwa [List.append_nil]
  | @cons loader first changes hfirst _ ih =>
    have hnext := ih (h.change hformed hfirst) (hformed.change hfirst)
    rwa [List.append_assoc] at hnext

/-! ## Moments -/

/-- The loader after the first changes of calls one after the other. -/
def moment (source : Ambient σ) (calls : List (Nat × String)) (loader : Loader σ) (n : Nat) :
    Loader σ :=
  loader.changeAll ((changesOf source calls loader).take n)

/-- What happens up to a moment is a run. -/
theorem Formed.runs_take (h : Formed loader) (source : Ambient σ) (calls : List (Nat × String))
    (n : Nat) : Runs source loader ((changesOf source calls loader).take n) := by
  have hall := runs_changesOf source calls h
  rw [← List.take_append_drop n (changesOf source calls loader)] at hall
  exact hall.of_append.1

/-- From one moment to a later one there is a run. -/
theorem Formed.runs_moment (h : Formed loader) (source : Ambient σ)
    (calls : List (Nat × String)) (n k : Nat) :
    ∃ changes, Runs source (loader.moment source calls n) changes ∧
      loader.moment source calls (n + k) = (loader.moment source calls n).changeAll changes := by
  have hruns := h.runs_take source calls (n + k)
  rw [List.take_add] at hruns
  refine ⟨_, hruns.of_append.2, ?_⟩
  rw [moment, List.take_add, changeAll_append]
  rfl

/-- The loader that calls leave is the moment after their changes, whatever is called behind
them. -/
theorem resolveEach_eq_moment {done todo : List (Nat × String)} {after : Loader σ}
    {answers : List (Except LoadFault UnitId)}
    (h : resolveEach source done loader = some (after, answers)) :
    after = loader.moment source (done ++ todo) (changesOf source done loader).length := by
  rw [moment, changesOf_append h, List.take_left, ← eq_changeAll_of_resolveEach h]

/-- Whatever is called on a new loader and however the calls end, from any moment to any later one:
names are only appended to the cache; the cached names are those that got a unit, each once; a
cached name keeps its number, and resolving it again gives that number, which stands for a unit of
the same class still, and changes nothing; every link that was made is held and leads to the unit
that is cached under its name; and so does every other link, unless its unit came with it from the
source and the loader has not linked that name in it. The loaders between the calls are such
moments. -/
theorem cache_is_stable (source : Ambient σ) (batch : Batch) (ambient : σ)
    (calls : List (Nat × String)) (n k : Nat) :
    let start : Loader σ := { batch, ambient }
    let changes := changesOf source calls start
    let early := start.moment source calls n
    let late := start.moment source calls (n + k)
    early.names <+: late.names ∧
    late.names = (changes.take (n + k)).filterMap Change.newName? ∧
    late.names.Nodup ∧
    (∀ name id, early.idOf? name = some id →
      late.idOf? name = some id ∧
      (∀ depth, late.resolveFrom source (depth + 1) name = some (late, .ok id)) ∧
      ∃ unit later, early.pool.unit? id = some unit ∧ late.pool.unit? id = some later ∧
        later.body = unit.body) ∧
    (∀ inside reference target, .linked inside reference target ∈ changes.take n →
      late.HoldsLink inside reference target) ∧
    (∀ id unit reference target, late.pool.unit? id = some unit →
      unit.links.lookup reference = some target →
      late.idOf? reference = some target ∨
        CameWith (changes.take (n + k)) late id reference target ∧
          ∀ other, .linked id reference other ∉ changes.take (n + k)) ∧
    ∀ done todo after answers, calls = done ++ todo →
      resolveEach source done start = some (after, answers) →
        after = start.moment source calls (changesOf source done start).length := by
  intro start changes early late
  have hstart : Formed start := formed_start batch ambient
  have hearly : Formed early := hstart.changeAll (hstart.runs_take source calls n)
  have hlate : Formed late := hstart.changeAll (hstart.runs_take source calls (n + k))
  obtain ⟨between, hbetween, heq⟩ := hstart.runs_moment source calls n k
  have heq : late = early.changeAll between := heq
  have hgrows : Grows early late := heq ▸ hearly.grows_changeAll hbetween
  refine ⟨hgrows.names, names_changeAll _ _, hlate.nodup, ?_, ?_, ?_, ?_⟩
  · intro name id hid
    have hname := (idOf?_eq_some_iff hearly.nodup).mp hid
    have hsame := (idOf?_eq_some_iff hlate.nodup).mpr (hgrows.getElem? hname)
    refine ⟨hsame, fun depth => by rw [resolveFrom, hsame], ?_⟩
    obtain ⟨unit, hunit⟩ := hearly.present id (List.getElem?_eq_some_iff.mp hname).1
    obtain ⟨later, hlater, hbody⟩ := hgrows.body hunit
    exact ⟨unit, later, hunit, hlater, hbody⟩
  · intro inside reference target hmem
    have hheld := hstart.holdsLink_of_mem (hstart.runs_take source calls n) hmem
    exact heq ▸ hheld.changeAll hearly hbetween
  · intro id unit reference target hunit hlookup
    have hruns := hstart.runs_take source calls (n + k)
    have hnone : Accounted [] start := by
      rintro _ _ _ _ ⟨⟩
    rcases hnone.changeAll hstart hruns _ _ _ _ hunit hlookup with htarget | hcame
    · exact .inl ((idOf?_eq_some_iff hlate.nodup).mpr htarget)
    · by_cases hmade : ∃ other, .linked id reference other ∈ changes.take (n + k)
      · -- the loader has put its own link in the place of the one that came
        obtain ⟨other, hmem⟩ := hmade
        obtain ⟨htarget, found, hfound, hother⟩ := hstart.holdsLink_of_mem hruns hmem
        obtain rfl := Option.some.inj (hunit.symm.trans hfound)
        obtain rfl := Option.some.inj (hlookup.symm.trans hother)
        exact .inl ((idOf?_eq_some_iff hlate.nodup).mpr htarget)
      · exact .inr ⟨hcame, not_exists.mp hmade⟩
  · rintro done todo after answers rfl hdone
    exact resolveEach_eq_moment hdone

/-- A source that hands out a lamp whose switch is the lamp itself, and a switch. -/
def touchLampSource : Ambient Unit := fun _ name =>
  let made := fun links : List (String × UnitId) => LoadedUnit.mk (.compiled
    { magic := ClassFile.rightMagic, target := .v1, name, sourceFile := "lamp",
      references := [], methods := [], extensions := [] }) links
  if name = "Lamp" then ((), .ok (made [("Switch", 0)]))
  else if name = "Switch" then ((), .ok (made []))
  else ((), .error (.notFound name))

/-- Not every link leads to the unit that is cached under its name: the lamp keeps the link that it
came with, also when there is another switch. -/
theorem touchLamp_keeps_its_switch :
    ¬ ∀ (source : Ambient Unit) (batch : Batch) (calls : List (Nat × String))
        (loader : Loader Unit) (answers : List (Except LoadFault UnitId)),
      resolveEach source calls { batch, ambient := () } = some (loader, answers) →
        ∀ id unit reference target, loader.pool.unit? id = some unit →
          unit.links.lookup reference = some target → loader.idOf? reference = some target := by
  intro h
  have hswitch := h touchLampSource [] [(1, "Lamp"), (1, "Switch")] _ _ rfl 0 _ "Switch" 0 rfl rfl
  revert hswitch
  decide

end Loader

end StackScript.Loading

import StackScript.Loading.Loader

/-!
# Loading links everything

When a batch and its surroundings have a unit for every name of a set, and all references of those
units are in the set again, then every name of the set resolves, with steps for as many names as
there are left to load (`resolveFrom_ok`). References may go in circles. What was loaded before
stays as it is, and all units that come in have all their references linked, each to the unit that
is cached under its name.
-/

namespace StackScript.Loading

open StackScript.Code StackScript.Machine

/-! ## Pools -/

theorem unit?_add (pool : Pool) (unit : LoadedUnit) (id : UnitId) :
    (pool.add unit).unit? id = if id = pool.nextId then some unit else pool.unit? id := by
  unfold Pool.add Pool.unit? Pool.nextId
  rw [Array.getElem?_push]
  split <;> rfl

/-- Linking a unit changes its own links and no other unit. -/
theorem unit?_link (pool : Pool) (inside : UnitId) (name : String) (target id : UnitId) :
    (pool.link inside name target).unit? id =
      if id = inside then (pool.unit? id).map (·.link name target) else pool.unit? id := by
  unfold Pool.link Pool.unit?
  rw [Array.getElem?_modify]
  by_cases h : inside = id
  · rw [if_pos h, if_pos h.symm]
    cases pool.units[id]? with
    | none => rfl
    | some slot => rfl
  · rw [if_neg h, if_neg (Ne.symm h)]

theorem getElem?_append_of_some {α : Type} {xs ys : List α} {i : Nat} {a : α}
    (h : xs[i]? = some a) : (xs ++ ys)[i]? = some a := by
  rw [List.getElem?_append_left (List.getElem?_eq_some_iff.mp h).1, h]

theorem size_link (pool : Pool) (inside : UnitId) (name : String) (target : UnitId) :
    (pool.link inside name target).units.size = pool.units.size :=
  Array.size_modify

theorem lookup_link (unit : LoadedUnit) (name : String) (target : UnitId) (other : String) :
    (unit.link name target).links.lookup other =
      if other = name then some target else unit.links.lookup other := by
  unfold LoadedUnit.link
  rw [List.lookup_cons]
  by_cases h : other = name
  · simp [h]
  · rw [beq_false_of_ne h, if_neg h]
    simp only
    -- the older links of the name are dropped, and those of other names stay
    induction unit.links with
    | nil => rfl
    | cons link rest ih =>
      obtain ⟨key, value⟩ := link
      by_cases hkey : key = name
      · have hother : (other == key) = false := beq_false_of_ne fun e => h (e.trans hkey)
        rw [List.filter_cons_of_neg (by simp [hkey]), ih, List.lookup_cons, hother]
      · rw [List.filter_cons_of_pos (by simp [hkey]), List.lookup_cons, List.lookup_cons, ih]

/-- All references of the unit are linked. -/
def IsLinked (unit : LoadedUnit) : Prop :=
  ∀ reference ∈ unit.references, ∃ target, unit.links.lookup reference = some target

/-! ## The cache -/

namespace Loader

variable {σ : Type}

/-- A batch and its surroundings have the same unit for a name whenever they are asked, not linked
yet, or never have one. -/
structure Steady (source : Ambient σ) (batch : Batch) (ambient : σ)
    (unitOf : String → Except LoadFault LoadedUnit) : Prop where
  materialise : ∀ {loader : Loader σ} (name : String), loader.batch = batch →
    loader.ambient = ambient → loader.materialise source name = (loader, unitOf name)
  unlinked : ∀ {name unit}, unitOf name = .ok unit → unit.links = []

/-- The cache holds one unit for each name, with links to the units of the linked names. -/
structure Sound (batch : Batch) (ambient : σ) (unitOf : String → Except LoadFault LoadedUnit)
    (loader : Loader σ) : Prop where
  batch : loader.batch = batch
  ambient : loader.ambient = ambient
  size : loader.pool.units.size = loader.names.length
  nodup : loader.names.Nodup
  unit : ∀ {id name}, loader.names[id]? = some name → ∃ unit made,
    loader.pool.unit? id = some unit ∧ unitOf name = .ok made ∧ unit.body = made.body
  links : ∀ {id unit}, loader.pool.unit? id = some unit → ∀ {name target},
    unit.links.lookup name = some target → loader.names[target]? = some name

variable {source : Ambient σ} {batch : Batch} {ambient : σ}
  {unitOf : String → Except LoadFault LoadedUnit} {loader after last : Loader σ}

/-- With each name once, the number of a name is the place where it stands. -/
theorem idOf?_eq_some_iff (hnodup : loader.names.Nodup) {name : String} {id : UnitId} :
    loader.idOf? name = some id ↔ loader.names[id]? = some name := by
  rw [idOf?, List.idxOf?_eq_some_iff]
  constructor
  · rintro ⟨hid, hname, -⟩
    rw [List.getElem?_eq_getElem hid, hname]
  · intro hname
    obtain ⟨hid, hget⟩ := List.getElem?_eq_some_iff.mp hname
    refine ⟨hid, hget, fun j hj hother => ?_⟩
    -- a name stands in the cache once, so no earlier place holds it
    have hlt : j < loader.names.length := Nat.lt_trans hj hid
    have heq := (List.getElem_inj hnodup).mp (hother.trans hget.symm)
    omega

theorem Sound.idOf?_eq_some (h : Sound batch ambient unitOf loader) {name : String}
    {id : UnitId} : loader.idOf? name = some id ↔ loader.names[id]? = some name :=
  idOf?_eq_some_iff h.nodup

theorem Sound.unit?_of_le (h : Sound batch ambient unitOf loader) {id : UnitId}
    (hid : loader.names.length ≤ id) : loader.pool.unit? id = none := by
  rw [Pool.unit?, Array.getElem?_eq_none (h.size ▸ hid)]
  rfl

theorem Sound.mem_names (h : Sound batch ambient unitOf loader) {name : String}
    (hname : name ∈ loader.names) : ∃ made, unitOf name = .ok made := by
  obtain ⟨id, hid⟩ := List.mem_iff_getElem?.mp hname
  obtain ⟨unit, made, -, hmade, -⟩ := h.unit hid
  exact ⟨made, hmade⟩

/-- A loader with nothing loaded. -/
theorem sound_start (batch : Batch) (ambient : σ)
    (unitOf : String → Except LoadFault LoadedUnit) :
    Sound batch ambient unitOf { batch, ambient } where
  batch := rfl
  ambient := rfl
  size := rfl
  nodup := .nil
  unit h := by simp at h
  links h := by simp [Pool.unit?] at h

/-- A loader stays sound when a unit comes in that is not there yet. -/
theorem Sound.insert (h : Sound batch ambient unitOf loader) {name : String} {unit : LoadedUnit}
    (hnew : name ∉ loader.names) (hunit : unitOf name = .ok unit) (hlinks : unit.links = []) :
    Sound batch ambient unitOf (loader.insert name unit) where
  batch := h.batch
  ambient := h.ambient
  size := by
    simp only [Loader.insert, Pool.add, Array.size_push, List.length_append, h.size,
      List.length_singleton]
  nodup := by
    simp only [Loader.insert, List.nodup_append]
    refine ⟨h.nodup, List.nodup_cons.mpr ⟨List.not_mem_nil, .nil⟩, ?_⟩
    intro other hother last hlast
    rw [List.mem_singleton.mp hlast]
    exact fun e => hnew (e ▸ hother)
  unit {id other} hid := by
    simp only [Loader.insert] at hid ⊢
    rw [unit?_add]
    rw [show loader.pool.nextId = loader.names.length from h.size]
    -- the new unit comes last in the pool, as its name does among the names
    by_cases hlast : id = loader.names.length
    · rw [hlast, List.getElem?_concat_length] at hid
      cases hid
      exact ⟨unit, unit, if_pos hlast, hunit, rfl⟩
    · rw [if_neg hlast]
      have hlt : id < (loader.names ++ [name]).length := (List.getElem?_eq_some_iff.mp hid).1
      rw [List.length_append, List.length_singleton] at hlt
      rw [List.getElem?_append_left (Nat.lt_of_le_of_ne (Nat.le_of_lt_succ hlt) hlast)] at hid
      exact h.unit hid
  links {id found} hfound {other target} hlookup := by
    simp only [Loader.insert] at hfound ⊢
    rw [unit?_add] at hfound
    split at hfound
    · cases hfound
      rw [hlinks] at hlookup
      cases hlookup
    · exact getElem?_append_of_some (h.links hfound hlookup)

/-- A loader stays sound when a name is linked to the unit that is cached under it. -/
theorem Sound.link (h : Sound batch ambient unitOf loader) {inside target : UnitId}
    {name : String} (htarget : loader.names[target]? = some name) :
    Sound batch ambient unitOf (loader.link inside name target) where
  batch := h.batch
  ambient := h.ambient
  size := (size_link ..).trans h.size
  nodup := h.nodup
  unit {id other} hid := by
    obtain ⟨unit, made, hunit, hmade, hbody⟩ := h.unit hid
    simp only [Loader.link, unit?_link, hunit]
    split
    · exact ⟨unit.link name target, made, rfl, hmade, hbody⟩
    · exact ⟨unit, made, rfl, hmade, hbody⟩
  links {id found} hfound {other dest} hlookup := by
    simp only [Loader.link] at hfound ⊢
    rw [unit?_link] at hfound
    split at hfound
    · obtain ⟨unit, hunit, rfl⟩ := Option.map_eq_some_iff.mp hfound
      rw [lookup_link] at hlookup
      split at hlookup
      · rename_i hother
        rw [← Option.some.inj hlookup, htarget, hother]
      · exact h.links hunit hlookup
    · exact h.links hfound hlookup

/-! ## What resolving keeps -/

/-- Units were only added, and all that were added have their references linked. -/
structure Extends (loader after : Loader σ) : Prop where
  names : ∃ more, after.names = loader.names ++ more
  old : ∀ id, id < loader.names.length → after.pool.unit? id = loader.pool.unit? id
  fresh : ∀ id unit, loader.names.length ≤ id → after.pool.unit? id = some unit → IsLinked unit

theorem Sound.extends_self (h : Sound batch ambient unitOf loader) : Extends loader loader where
  names := ⟨[], (List.append_nil _).symm⟩
  old _ _ := rfl
  fresh id unit hid hunit := by
    rw [h.unit?_of_le hid] at hunit
    cases hunit

theorem Extends.length_le (h : Extends loader after) :
    loader.names.length ≤ after.names.length := by
  obtain ⟨more, hmore⟩ := h.names
  rw [hmore, List.length_append]
  omega

theorem Extends.getElem? (h : Extends loader after) {id : UnitId} {name : String}
    (hid : loader.names[id]? = some name) : after.names[id]? = some name := by
  obtain ⟨more, hmore⟩ := h.names
  rw [hmore]
  exact getElem?_append_of_some hid

/-- How many names of the set are left to load. -/
def missing (known names : List String) : Nat :=
  known.countP fun name => !names.contains name

/-- No more names are missing when others have come in. -/
theorem missing_append_le (known names more : List String) :
    missing known (names ++ more) ≤ missing known names := by
  refine List.countP_mono_left fun name _ h => ?_
  simp only [Bool.not_eq_true', List.contains_eq_mem, List.mem_append,
    decide_eq_false_iff_not, not_or] at h ⊢
  exact h.1

/-- One name less is missing when a missing one comes in. -/
theorem missing_insert_lt {known names : List String} {name : String}
    (hname : name ∈ known) (hnew : name ∉ names) :
    missing known (names ++ [name]) < missing known names := by
  -- counting can only go down around the name, and it goes down at the name itself
  obtain ⟨before, rest, rfl⟩ := List.append_of_mem hname
  have hleft := missing_append_le before names [name]
  have hright := missing_append_le rest names [name]
  have hself : (!names.contains name) = true := by simpa using hnew
  have hlast : (!(names ++ [name]).contains name) = false := by simp
  unfold missing at *
  simp only [List.countP_append, List.countP_cons, hself, hlast, if_true]
  simp only [Bool.false_eq_true, if_false]
  omega

/-! ## Resolving -/

/-- What linking references inside a unit does to a loader. -/
structure LinksInside (inside : UnitId) (references : List String) (loader after : Loader σ) :
    Prop where
  names : ∃ more, after.names = loader.names ++ more
  old : ∀ id, id < loader.names.length → id ≠ inside →
    after.pool.unit? id = loader.pool.unit? id
  fresh : ∀ id unit, loader.names.length ≤ id → after.pool.unit? id = some unit → IsLinked unit
  body : ∀ before, loader.pool.unit? inside = some before → ∃ unit,
    after.pool.unit? inside = some unit ∧ unit.body = before.body ∧
    (∀ name target, before.links.lookup name = some target →
      ∃ target, unit.links.lookup name = some target) ∧
    ∀ reference ∈ references, ∃ target, unit.links.lookup reference = some target

/-- A name resolves: the loader after it has loaded more, and the unit of the name is in it. -/
def Resolves (batch : Batch) (ambient : σ) (unitOf : String → Except LoadFault LoadedUnit)
    (loader : Loader σ) (name : String) (resolution : Resolution σ) : Prop :=
  ∃ after id, resolution = some (after, .ok id) ∧ Sound batch ambient unitOf after ∧
    Extends loader after ∧ after.names[id]? = some name

/-- A link inside a unit leaves what was linked there linked. -/
theorem lookup_link_some {unit : LoadedUnit} {other : String} {dest : UnitId}
    (h : unit.links.lookup other = some dest) (name : String) (target : UnitId) :
    ∃ dest, (unit.link name target).links.lookup other = some dest := by
  rw [lookup_link]
  split
  · exact ⟨target, rfl⟩
  · exact ⟨dest, h⟩

/-- Linking the first reference and then the others links all of them. -/
theorem LinksInside.cons {inside target : UnitId} {reference : String} {references : List String}
    {between : Loader σ} (hinside : inside < loader.names.length) (hfirst : Extends loader between)
    (hrest : LinksInside inside references (between.link inside reference target) after) :
    LinksInside inside (reference :: references) loader after where
  names := by
    obtain ⟨more, hmore⟩ := hfirst.names
    obtain ⟨others, hothers⟩ := hrest.names
    exact ⟨more ++ others, by rw [hothers, ← List.append_assoc, ← hmore]; rfl⟩
  old id hid hne := by
    rw [hrest.old id (Nat.lt_of_lt_of_le hid hfirst.length_le) hne, Loader.link, unit?_link,
      if_neg hne, hfirst.old id hid]
  fresh id unit hid hunit := by
    -- units of the first reference came in linked; later ones came in with the other references
    by_cases hlt : id < between.names.length
    · have hne : id ≠ inside := fun e => absurd (e ▸ hinside) (Nat.not_lt.mpr hid)
      rw [hrest.old id hlt hne, Loader.link, unit?_link, if_neg hne] at hunit
      exact hfirst.fresh id unit hid hunit
    · exact hrest.fresh id unit (Nat.not_lt.mp hlt) hunit
  body before hbefore := by
    have hlinked : (between.link inside reference target).pool.unit? inside
        = some (before.link reference target) := by
      rw [Loader.link, unit?_link, if_pos rfl, hfirst.old inside hinside, hbefore, Option.map_some]
    obtain ⟨unit, hunit, hbody, hkept, hlinks⟩ := hrest.body _ hlinked
    refine ⟨unit, hunit, hbody, fun name dest hdest => ?_, fun other hother => ?_⟩
    · obtain ⟨dest, hdest⟩ := lookup_link_some hdest reference target
      exact hkept name dest hdest
    · rcases List.mem_cons.mp hother with rfl | hother
      · exact hkept other target (by rw [lookup_link, if_pos rfl])
      · exact hlinks other hother

/-- References that all resolve are all linked. -/
theorem linkAll_ok (resolveOne : Loader σ → String → Resolution σ) {inside : UnitId}
    (references : List String) (h : Sound batch ambient unitOf loader)
    (hinside : inside < loader.names.length)
    (hresolve : ∀ (between : Loader σ) (name : String), Sound batch ambient unitOf between →
      loader.names <+: between.names → name ∈ references →
      Resolves batch ambient unitOf between name (resolveOne between name)) :
    ∃ after, linkAll resolveOne inside references loader = some (after, .ok inside) ∧
      Sound batch ambient unitOf after ∧ LinksInside inside references loader after := by
  induction references generalizing loader with
  | nil =>
    refine ⟨loader, rfl, h, ⟨[], (List.append_nil _).symm⟩, fun _ _ _ => rfl,
      h.extends_self.fresh, fun before hbefore => ?_⟩
    exact ⟨before, hbefore, rfl, fun _ target htarget => ⟨target, htarget⟩, fun _ h => nomatch h⟩
  | cons reference rest ih =>
    obtain ⟨between, target, hfirst, hsound, hextends, htarget⟩ :=
      hresolve loader reference h (List.prefix_refl _) List.mem_cons_self
    obtain ⟨more, hmore⟩ := hextends.names
    obtain ⟨after, hafter, hlast, hlinks⟩ :=
      ih (hsound.link htarget) (Nat.lt_of_lt_of_le hinside hextends.length_le)
        fun later name hlater hnames hname =>
          hresolve later name hlater
            ((List.prefix_append _ _).trans ((hmore ▸ List.prefix_refl _ :
              loader.names ++ more <+: between.names).trans hnames))
            (List.mem_cons_of_mem _ hname)
    refine ⟨after, ?_, hlast, hlinks.cons hinside hextends⟩
    rw [linkAll, hfirst]
    exact hafter

/-- A unit that is cached and then linked inside extends the loader. -/
theorem LinksInside.extends_insert (h : Sound batch ambient unitOf loader) {name : String}
    {unit : LoadedUnit} (hlinks : LinksInside loader.names.length unit.references
      (loader.insert name unit) after) :
    Extends loader after ∧ after.names[loader.names.length]? = some name := by
  have hlength : (loader.insert name unit).names.length = loader.names.length + 1 :=
    List.length_append
  obtain ⟨more, hmore⟩ := hlinks.names
  refine ⟨⟨?_, fun id hid => ?_, fun id found hid hfound => ?_⟩, ?_⟩
  · exact ⟨name :: more, by rw [hmore]; simp [Loader.insert]⟩
  · rw [hlinks.old id (by rw [hlength]; exact Nat.lt_succ_of_lt hid) (Nat.ne_of_lt hid)]
    simp only [Loader.insert, unit?_add, Pool.nextId, h.size]
    rw [if_neg (Nat.ne_of_lt hid)]
  · rcases Nat.lt_or_eq_of_le hid with hlt | rfl
    · exact hlinks.fresh id found (by rw [hlength]; exact hlt) hfound
    · -- the new unit itself, whose references are those that were linked
      obtain ⟨linked, hlinked, hbody, -, hall⟩ := hlinks.body unit (by
        simp only [Loader.insert, unit?_add, Pool.nextId, h.size, if_true])
      cases hlinked.symm.trans hfound
      have hsame : found.references = unit.references := by
        unfold LoadedUnit.references
        rw [hbody]
      intro reference hreference
      exact hall reference (hsame ▸ hreference)
  · rw [hmore]
    exact getElem?_append_of_some (by simp [Loader.insert])

/-- Every name of a set that is closed under references resolves. -/
theorem resolveFrom_ok {known : List String} (hsteady : Steady source batch ambient unitOf)
    (hknown : ∀ name ∈ known, ∃ unit, unitOf name = .ok unit ∧
      ∀ reference ∈ unit.references, reference ∈ known) :
    ∀ (fuel : Nat) {loader : Loader σ} {name : String}, Sound batch ambient unitOf loader →
      name ∈ known → missing known loader.names < fuel →
      Resolves batch ambient unitOf loader name (resolveFrom source fuel loader name)
  | 0, _, _, _, _, hfuel => absurd hfuel (Nat.not_lt_zero _)
  | fuel + 1, loader, name, h, hname, hfuel => by
    rw [resolveFrom]
    cases hid : loader.idOf? name with
    | some id => exact ⟨loader, id, rfl, h, h.extends_self, h.idOf?_eq_some.mp hid⟩
    | none =>
      have hnew : name ∉ loader.names := List.idxOf?_eq_none_iff.mp hid
      obtain ⟨unit, hunit, hreferences⟩ := hknown name hname
      -- the unit is cached before its references are linked, so a circle comes back to it
      have hinsert := h.insert hnew hunit (hsteady.unlinked hunit)
      rw [hsteady.materialise name h.batch h.ambient, hunit]
      have hinside : loader.names.length < (loader.insert name unit).names.length := by
        simp [Loader.insert]
      obtain ⟨after, hafter, hsound, hlinks⟩ :=
        linkAll_ok (resolveFrom source fuel) unit.references hinsert hinside
          fun between other hbetween hnames hother => by
            -- one name less is left to load, which pays for the step
            refine resolveFrom_ok hsteady hknown fuel hbetween (hreferences other hother) ?_
            obtain ⟨more, hmore⟩ := hnames
            rw [← hmore]
            have hle := missing_append_le known (loader.insert name unit).names more
            have hlt := missing_insert_lt hname hnew
            simp only [Loader.insert] at hle ⊢
            omega
      obtain ⟨hextends, hget⟩ := hlinks.extends_insert h
      refine ⟨after, loader.names.length, ?_, hsound, hextends, hget⟩
      simp only [Pool.nextId, h.size, hafter]

/-! ## All that is loaded -/

/-- All units that were loaded have their references linked. -/
def AllLinked (loader : Loader σ) : Prop :=
  ∀ id unit, loader.pool.unit? id = some unit → IsLinked unit

/-- If all references were linked, and those of the units that came in are, all are linked. -/
theorem Extends.allLinked (h : Extends loader after) (hall : AllLinked loader) :
    AllLinked after := by
  intro id unit hunit
  by_cases hid : id < loader.names.length
  · exact hall id unit (h.old id hid ▸ hunit)
  · exact h.fresh id unit (Nat.not_lt.mp hid) hunit

end Loader

end StackScript.Loading

import StackScript.Proofs.Caching

/-!
# Which units are linked

A unit is cached before its references are linked, and it stays in the cache when one of them does
not resolve. So resolving a name gives a unit whose references are all linked, and so are those of
every unit that it leads to through links, but for the units whose linking an earlier call broke
off: such a unit is handed out as it is by every later call. Nothing else keeps a unit from being
linked (`resolved_units_are_linked`), and a unit that was broken off is never linked again, if it
came without links.
-/

namespace StackScript.Loading

open StackScript.Code StackScript.Machine

namespace Loader

variable {σ : Type} {source : Ambient σ} {loader : Loader σ}

/-! ## Units with all their links -/

/-- All references of a unit are linked, each to the unit that is cached under it. -/
def FullyLinked (loader : Loader σ) (id : UnitId) : Prop :=
  ∃ unit, loader.pool.unit? id = some unit ∧
    ∀ reference ∈ unit.references, ∃ target, loader.HoldsLink id reference target

/-- Units of one class have the same references. -/
theorem references_eq {unit later : LoadedUnit} (h : later.body = unit.body) :
    later.references = unit.references := by
  unfold LoadedUnit.references
  rw [h]

theorem FullyLinked.changeAll {id : UnitId} (h : FullyLinked loader id) (hformed : Formed loader)
    {changes : List (Change σ)} (hruns : Runs source loader changes) :
    FullyLinked (loader.changeAll changes) id := by
  obtain ⟨unit, hunit, hlinks⟩ := h
  obtain ⟨later, hlater, hbody⟩ := (hformed.grows_changeAll hruns).body hunit
  refine ⟨later, hlater, fun reference hreference => ?_⟩
  obtain ⟨target, htarget⟩ := hlinks reference (references_eq hbody ▸ hreference)
  exact ⟨target, htarget.changeAll hformed hruns⟩

/-- A fully linked unit passes the check that programs make before they run it. -/
theorem FullyLinked.isLinked {id : UnitId} (h : FullyLinked loader id) (hformed : Formed loader) :
    ∃ unit, loader.pool.unit? id = some unit ∧ loader.pool.isLinked unit = true := by
  obtain ⟨unit, hunit, hlinks⟩ := h
  refine ⟨unit, hunit, List.all_eq_true.mpr fun reference hreference => ?_⟩
  obtain ⟨target, htarget, found, hfound, hlookup⟩ := hlinks reference hreference
  cases hunit.symm.trans hfound
  -- the link is live, as the unit that is cached under the reference is in the pool
  obtain ⟨linked, hlinked⟩ := hformed.present target (List.getElem?_eq_some_iff.mp htarget).1
  rw [Pool.linked?, hlookup, Option.bind_some, hlinked]
  rfl

/-! ## What changes leave behind -/

/-- The units that changes bring in are fully linked after them, but for those whose linking was
broken off. -/
def LeavesLinked (loader : Loader σ) (changes : List (Change σ)) : Prop :=
  ∀ id, loader.names.length ≤ id → id < (loader.changeAll changes).names.length →
    .brokenOff id ∉ changes → FullyLinked (loader.changeAll changes) id

/-- Changes that bring no unit in leave none behind. -/
theorem leavesLinked_of_names_eq {changes : List (Change σ)}
    (h : (loader.changeAll changes).names = loader.names) : LeavesLinked loader changes :=
  fun _ hid hlt => absurd (h ▸ hlt) (Nat.not_lt.mpr hid)

theorem LeavesLinked.append {changes more : List (Change σ)} (h : LeavesLinked loader changes)
    (hmore : LeavesLinked (loader.changeAll changes) more) (hformed : Formed loader)
    (hruns : Runs source loader (changes ++ more)) : LeavesLinked loader (changes ++ more) := by
  obtain ⟨hchanges, hrest⟩ := hruns.of_append
  intro id hid hlt hnot
  rw [changeAll_append] at hlt ⊢
  -- a unit came in with the first changes, which linked it, or with the later ones
  by_cases hold : id < (loader.changeAll changes).names.length
  · have hlinked := h id hid hold fun hmem => hnot (List.mem_append_left _ hmem)
    exact hlinked.changeAll (hformed.changeAll hchanges) hrest
  · exact hmore id (Nat.not_lt.mp hold) hlt fun hmem => hnot (List.mem_append_right _ hmem)

/-! ### Courses -/

/-- A call that succeeds breaks nothing off. -/
def IsWhole (course : Course σ) : Prop :=
  ∀ id, course.answer = some (.ok id) → ∀ other, .brokenOff other ∉ course.changes

theorem isWhole_linkCourse {courseOne : Loader σ → String → Course σ}
    (hone : ∀ loader name, IsWhole (courseOne loader name)) (inside : UnitId)
    (references : List String) (loader : Loader σ) :
    IsWhole (linkCourse courseOne inside references loader) := by
  fun_induction linkCourse courseOne inside references loader with
  | case1 => exact fun _ _ _ => List.not_mem_nil
  | case2 =>
    rintro id ⟨⟩
  | case3 =>
    rintro id ⟨⟩
  | case4 reference references loader changes target hcourse first rest ih =>
    intro id hid other hmem
    rcases List.mem_append.mp hmem with hmem | hmem
    · rcases List.mem_append.mp hmem with hmem | hmem
      · have hfirst := hcourse ▸ hone loader reference
        exact hfirst target rfl other hmem
      · cases List.mem_singleton.mp hmem
    · exact ih id hid other hmem

theorem isWhole_course (source : Ambient σ) (depth : Nat) (loader : Loader σ) (name : String) :
    IsWhole (course source depth loader name) := by
  induction depth generalizing loader name with
  | zero =>
    rintro id ⟨⟩
  | succ depth ih =>
    rcases course_cases source depth loader name with ⟨id, hid, hcourse⟩ |
      ⟨next, fault, hrefused, hcourse⟩ | ⟨unit, next, rest, hloaded, rfl, hcourse⟩ <;>
      rw [hcourse]
    · exact fun _ _ _ => List.not_mem_nil
    · rintro id ⟨⟩
    · intro id hid other hmem
      rcases List.mem_cons.mp hmem with hmem | hmem
      · cases hmem
      · exact isWhole_linkCourse ih _ _ _ id hid other hmem

/-- References that are linked to the end leave the units that came in linked. -/
theorem leavesLinked_linkCourse {depth : Nat} {inside : UnitId}
    (hleaves : ∀ {loader : Loader σ}, Formed loader → ∀ name,
      (course source depth loader name).answer.isSome →
      LeavesLinked loader (course source depth loader name).changes)
    (references : List String) {loader : Loader σ} (h : Formed loader)
    (hinside : inside < loader.names.length)
    (hended : (linkCourse (course source depth) inside references loader).answer.isSome) :
    LeavesLinked loader (linkCourse (course source depth) inside references loader).changes := by
  have hall := (runs_linkCourse (finds_course source depth) references h hinside).1
  fun_induction linkCourse (course source depth) inside references loader with
  | case1 => exact leavesLinked_of_names_eq rfl
  | case2 => exact absurd hended Bool.false_ne_true
  | case3 reference references loader changes fault hcourse =>
    have hfirst := hleaves h reference (hcourse ▸ rfl)
    rw [hcourse] at hfirst
    exact hfirst.append (leavesLinked_of_names_eq rfl) h hall
  | case4 reference references loader changes target hcourse first rest ih =>
    have hlinked := hall.of_append
    have hfirst := hleaves h reference (hcourse ▸ rfl)
    rw [hcourse] at hfirst
    have hlength := (h.grows_changeAll hlinked.1).length_le
    have hrest := ih (h.changeAll hlinked.1) (Nat.lt_of_lt_of_le hinside hlength) hended hlinked.2
    exact (hfirst.append (leavesLinked_of_names_eq rfl) h hlinked.1).append hrest h hall

/-- A unit that was not broken off has all its references linked at the end. -/
theorem holdsLink_linkCourse {depth : Nat} {inside : UnitId} (references : List String)
    {loader : Loader σ} (h : Formed loader) (hinside : inside < loader.names.length)
    (hended : (linkCourse (course source depth) inside references loader).answer.isSome)
    (hnot : .brokenOff inside ∉ (linkCourse (course source depth) inside references loader).changes)
    (reference : String) (hreference : reference ∈ references) :
    ∃ target, HoldsLink
      (loader.changeAll (linkCourse (course source depth) inside references loader).changes)
      inside reference target := by
  have hall := (runs_linkCourse (finds_course source depth) references h hinside).1
  fun_induction linkCourse (course source depth) inside references loader with
  | case1 => exact absurd hreference List.not_mem_nil
  | case2 => exact absurd hended Bool.false_ne_true
  | case3 => exact absurd (List.mem_append_right _ List.mem_cons_self) hnot
  | case4 first references loader changes target hcourse linked rest ih =>
    rcases List.mem_cons.mp hreference with rfl | hmem
    · -- the link that was made first is held for good
      have hlink : .linked inside reference target ∈ linked ++ rest.changes :=
        List.mem_append_left _ (List.mem_append_right _ List.mem_cons_self)
      exact ⟨target, h.holdsLink_of_mem hall hlink⟩
    · have hlinked := hall.of_append
      have hlength := (h.grows_changeAll hlinked.1).length_le
      rw [changeAll_append]
      exact ih (h.changeAll hlinked.1) (Nat.lt_of_lt_of_le hinside hlength) hended
        (fun hbroken => hnot (List.mem_append_right _ hbroken)) hmem hlinked.2

theorem unit?_nextId (loader : Loader σ) (name : String) (unit : LoadedUnit) (ambient : σ) :
    (loader.change (.loaded name unit ambient)).pool.unit? loader.pool.nextId = some unit := by
  simp only [Loader.change, Loader.insert, unit?_add, if_true]

/-- A call that ends leaves the units that it brought in linked, but for those it broke off. -/
theorem leavesLinked_course (source : Ambient σ) (depth : Nat) {loader : Loader σ}
    (h : Formed loader) (name : String) (hended : (course source depth loader name).answer.isSome) :
    LeavesLinked loader (course source depth loader name).changes := by
  induction depth generalizing loader name with
  | zero => exact absurd hended Bool.false_ne_true
  | succ depth ih =>
    rcases course_cases source depth loader name with ⟨id, hid, hcourse⟩ |
      ⟨next, fault, hrefused, hcourse⟩ | ⟨unit, next, rest, hloaded, rfl, hcourse⟩ <;>
      rw [hcourse] at hended ⊢
    · exact leavesLinked_of_names_eq rfl
    · exact leavesLinked_of_names_eq rfl
    · have hnext := h.change hloaded
      have hinside := h.nextId_lt name unit next
      intro id hid hlt hnot
      rw [changeAll_cons] at hlt ⊢
      have hnot := fun hmem => hnot (List.mem_cons_of_mem _ hmem)
      rcases Nat.lt_or_eq_of_le hid with hgt | rfl
      · -- units after the new one came in while it was linked
        apply leavesLinked_linkCourse (fun h => ih h) unit.references hnext hinside hended id _ hlt
          hnot
        rw [show (loader.change (.loaded name unit next)).names.length = loader.names.length + 1
          from List.length_append]
        exact hgt
      · rw [← h.size] at hnot ⊢
        have hruns := (runs_linkCourse (finds_course source depth) unit.references hnext hinside).1
        obtain ⟨later, hlater, hbody⟩ :=
          (hnext.grows_changeAll hruns).body (unit?_nextId loader name unit next)
        refine ⟨later, hlater, fun reference hreference => ?_⟩
        exact holdsLink_linkCourse unit.references hnext hinside hended hnot reference
          (references_eq hbody ▸ hreference)

/-! ## Units that were broken off -/

/-- The unit with the number has a reference that is not linked. -/
def LacksLink (loader : Loader σ) (id : UnitId) : Prop :=
  ∃ unit, loader.pool.unit? id = some unit ∧
    ∃ reference ∈ unit.references, unit.links.lookup reference = none

theorem LacksLink.not_isLinked {id : UnitId} (h : LacksLink loader id) {unit : LoadedUnit}
    (hunit : loader.pool.unit? id = some unit) : loader.pool.isLinked unit = false := by
  obtain ⟨found, hfound, reference, hreference, hnone⟩ := h
  cases hunit.symm.trans hfound
  refine List.all_eq_false.mpr ⟨reference, hreference, ?_⟩
  rw [Pool.linked?, hnone]
  exact Bool.false_ne_true

/-- A unit stays as it is while others are linked. -/
theorem Formed.unit?_changeAll (h : Formed loader) {changes : List (Change σ)}
    (hruns : Runs source loader changes) {id : UnitId} (hid : id < loader.names.length)
    (hothers : ∀ change ∈ changes, ∀ inside, change.inside? = some inside → inside ≠ id) :
    (loader.changeAll changes).pool.unit? id = loader.pool.unit? id := by
  induction hruns with
  | nil => rfl
  | @cons loader first changes hfirst _ ih =>
    have hlength := (h.grows_change hfirst).length_le
    rw [changeAll_cons, ih (h.change hfirst) (Nat.lt_of_lt_of_le hid hlength)
      fun change hmem => hothers change (List.mem_cons_of_mem _ hmem)]
    cases hfirst with
    | refused _ _ => rfl
    | loaded _ _ =>
      simp only [Loader.change, Loader.insert, unit?_add, Pool.nextId, h.size]
      exact if_neg (Nat.ne_of_lt hid)
    | linked _ _ =>
      simp only [Loader.change, Loader.link, unit?_link]
      exact if_neg (Ne.symm (hothers _ List.mem_cons_self _ rfl))
    | brokenOff _ => rfl

/-- A unit that lacks a link goes on lacking it while only units that come in later are linked. -/
theorem LacksLink.changeAll {id : UnitId} (h : LacksLink loader id) (hformed : Formed loader)
    {changes : List (Change σ)} (hruns : Runs source loader changes)
    (hlater : ∀ change ∈ changes, ∀ inside, change.inside? = some inside →
      loader.names.length ≤ inside) : LacksLink (loader.changeAll changes) id := by
  obtain ⟨unit, hunit, hreference⟩ := h
  have hless := hformed.lt_of_unit? hunit
  have hsame := hformed.unit?_changeAll hruns hless fun change hmem inside hinside heq =>
    Nat.not_le.mpr hless (heq ▸ hlater change hmem inside hinside)
  exact ⟨unit, hsame.trans hunit, hreference⟩

/-- Linking references links the unit itself and units that come in on the way. -/
theorem inside_linkCourse {depth : Nat} {inside : UnitId}
    (hone : ∀ {loader : Loader σ}, Formed loader → ∀ name,
      ∀ change ∈ (course source depth loader name).changes, ∀ id, change.inside? = some id →
        loader.names.length ≤ id)
    (references : List String) {loader : Loader σ} (h : Formed loader)
    (hinside : inside < loader.names.length) :
    ∀ change ∈ (linkCourse (course source depth) inside references loader).changes,
      ∀ id, change.inside? = some id → id = inside ∨ loader.names.length ≤ id := by
  have hall := (runs_linkCourse (finds_course source depth) references h hinside).1
  fun_induction linkCourse (course source depth) inside references loader with
  | case1 => exact fun _ hmem => absurd hmem List.not_mem_nil
  | case2 reference references loader changes hcourse =>
    intro change hmem id hid
    have hfirst := hone h reference
    rw [hcourse] at hfirst
    exact .inr (hfirst change hmem id hid)
  | case3 reference references loader changes fault hcourse =>
    intro change hmem id hid
    have hfirst := hone h reference
    rw [hcourse] at hfirst
    rcases List.mem_append.mp hmem with hmem | hmem
    · exact .inr (hfirst change hmem id hid)
    · cases List.mem_singleton.mp hmem
      exact .inl (Option.some.inj hid).symm
  | case4 reference references loader changes target hcourse first rest ih =>
    intro change hmem id hid
    have hfirst := hone h reference
    rw [hcourse] at hfirst
    have hlinked := hall.of_append
    have hlength := (h.grows_changeAll hlinked.1).length_le
    rcases List.mem_append.mp hmem with hmem | hmem
    · rcases List.mem_append.mp hmem with hmem | hmem
      · exact .inr (hfirst change hmem id hid)
      · cases List.mem_singleton.mp hmem
        exact .inl (Option.some.inj hid).symm
    · rcases ih (h.changeAll hlinked.1) (Nat.lt_of_lt_of_le hinside hlength) hlinked.2 change hmem
        id hid with heq | hle
      · exact .inl heq
      · exact .inr (Nat.le_trans hlength hle)

/-- A call links only units that come in on the way. -/
theorem inside_course (source : Ambient σ) (depth : Nat) {loader : Loader σ} (h : Formed loader)
    (name : String) :
    ∀ change ∈ (course source depth loader name).changes, ∀ id, change.inside? = some id →
      loader.names.length ≤ id := by
  induction depth generalizing loader name with
  | zero => exact fun _ hmem => absurd hmem List.not_mem_nil
  | succ depth ih =>
    rcases course_cases source depth loader name with ⟨id, hid, hcourse⟩ |
      ⟨next, fault, hrefused, hcourse⟩ | ⟨unit, next, rest, hloaded, rfl, hcourse⟩ <;>
      rw [hcourse]
    · exact fun _ hmem => absurd hmem List.not_mem_nil
    · intro change hmem id hid
      cases List.mem_singleton.mp hmem
      cases hid
    · intro change hmem id hid
      rcases List.mem_cons.mp hmem with rfl | hmem
      · cases hid
      · have hnext := h.change hloaded
        have hinside := h.nextId_lt name unit next
        have hlength := (h.grows_change hloaded).length_le
        rcases inside_linkCourse (fun h => ih h) unit.references hnext hinside change hmem id hid
          with rfl | hle
        · exact Nat.le_of_eq h.size.symm
        · exact Nat.le_trans hlength hle

/-- Calls one after the other link only units that come in on the way. -/
theorem inside_changesOf (source : Ambient σ) (calls : List (Nat × String)) {loader : Loader σ}
    (h : Formed loader) :
    ∀ change ∈ changesOf source calls loader, ∀ id, change.inside? = some id →
      loader.names.length ≤ id := by
  induction calls generalizing loader with
  | nil => exact fun _ hmem => absurd hmem List.not_mem_nil
  | cons call calls ih =>
    have hfirst := inside_course source call.1 h call.2
    have hruns := (finds_course source call.1 h call.2).runs
    rw [changesOf]
    rcases hcourse : course source call.1 loader call.2 with ⟨changes, _ | answer⟩ <;>
      rw [hcourse] at hfirst hruns
    · exact hfirst
    · intro change hmem id hid
      have hlength := (h.grows_changeAll hruns).length_le
      rcases List.mem_append.mp hmem with hmem | hmem
      · exact hfirst change hmem id hid
      · exact Nat.le_trans hlength (ih (h.changeAll hruns) change hmem id hid)

/-- The source hands out units that have no links yet. -/
def HandsOutUnlinked (source : Ambient σ) : Prop :=
  ∀ ambient name unit, (source ambient name).2 = .ok unit → unit.links = []

/-- All links lead to the units that are cached under their names. -/
def AllHeld (loader : Loader σ) : Prop :=
  ∀ id unit reference target, loader.pool.unit? id = some unit →
    unit.links.lookup reference = some target → loader.names[target]? = some reference

theorem links_of_materialise (hsource : HandsOutUnlinked source) {name : String}
    {next : Loader σ} {unit : LoadedUnit}
    (hmade : loader.materialise source name = (next, .ok unit)) : unit.links = [] := by
  unfold materialise at hmade
  split at hmade
  · split at hmade <;> cases hmade
    rfl
  · exact hsource loader.ambient name unit (congrArg Prod.snd hmade)

theorem links_of_mem (hsource : HandsOutUnlinked source) {changes : List (Change σ)}
    (hruns : Runs source loader changes) {name : String} {unit : LoadedUnit} {next : σ}
    (hmem : .loaded name unit next ∈ changes) : unit.links = [] := by
  induction hruns with
  | nil => exact absurd hmem List.not_mem_nil
  | cons hfirst _ ih =>
    rcases List.mem_cons.mp hmem with rfl | hmem
    · cases hfirst with
      | loaded _ hmade => exact links_of_materialise hsource hmade
    · exact ih hmem

/-- No link comes with its unit, so all are held. -/
theorem AllHeld.changeAll (h : AllHeld loader) (hsource : HandsOutUnlinked source)
    (hformed : Formed loader) {changes : List (Change σ)} (hruns : Runs source loader changes) :
    AllHeld (loader.changeAll changes) := by
  have hnone : Accounted [] loader := fun id unit reference target hunit hlookup =>
    .inl (h id unit reference target hunit hlookup)
  intro id unit reference target hunit hlookup
  rcases hnone.changeAll hformed hruns id unit reference target hunit hlookup with
    htarget | ⟨name, made, next, hmem, -, hmade⟩
  · exact htarget
  · rw [links_of_mem hsource hruns hmem] at hmade
    cases hmade

/-- A name whose call fails was not cached before. -/
theorem not_mem_names_of_error {depth : Nat} {name : String} {fault : LoadFault}
    (h : (course source depth loader name).answer = some (.error fault)) :
    name ∉ loader.names := by
  cases depth with
  | zero => cases h
  | succ depth =>
    rcases course_cases source depth loader name with ⟨id, hid, hcourse⟩ |
      ⟨next, other, hrefused, hcourse⟩ | ⟨unit, next, rest, hloaded, hrest, hcourse⟩
    · rw [hcourse] at h
      cases h
    · cases hrefused with
      | refused hnew _ => exact hnew
    · cases hloaded with
      | loaded hnew _ => exact hnew

/-- Units that are broken off lack a link, the unit itself as those that come in on the way. -/
theorem lacksLink_linkCourse (hsource : HandsOutUnlinked source) {depth : Nat} {inside : UnitId}
    (hone : ∀ {loader : Loader σ}, Formed loader → AllHeld loader → ∀ name id,
      .brokenOff id ∈ (course source depth loader name).changes →
      LacksLink (loader.changeAll (course source depth loader name).changes) id)
    (references : List String) {loader : Loader σ} (h : Formed loader) (hheld : AllHeld loader)
    (hinside : ∃ unit, loader.pool.unit? inside = some unit ∧
      ∀ reference ∈ references, reference ∈ unit.references) (id : UnitId)
    (hmem : .brokenOff id ∈ (linkCourse (course source depth) inside references loader).changes) :
    LacksLink
      (loader.changeAll (linkCourse (course source depth) inside references loader).changes)
      id := by
  obtain ⟨unit, hunit, hsubset⟩ := hinside
  have hless := h.lt_of_unit? hunit
  have hall := (runs_linkCourse (finds_course source depth) references h hless).1
  fun_induction linkCourse (course source depth) inside references loader generalizing unit with
  | case1 => exact absurd hmem List.not_mem_nil
  | case2 reference references loader changes hcourse =>
    have hfirst := hone h hheld reference id
    rw [hcourse] at hfirst
    exact hfirst hmem
  | case3 reference references loader changes fault hcourse =>
    have hfirst := hone h hheld reference id
    have hfar := inside_course source depth h reference
    rw [hcourse] at hfirst hfar
    rw [changeAll_append]
    rcases List.mem_append.mp hmem with hmem | hmem
    · exact hfirst hmem
    · -- the reference was not cached, so no link of the unit could have led to it
      cases List.mem_singleton.mp hmem
      have hnew : reference ∉ loader.names :=
        not_mem_names_of_error (congrArg Course.answer hcourse)
      have hsame := h.unit?_changeAll hall.of_append.1 hless fun change hmem other hother heq =>
        Nat.not_le.mpr hless (heq ▸ hfar change hmem other hother)
      refine ⟨unit, hsame.trans hunit, reference, hsubset reference List.mem_cons_self, ?_⟩
      cases hlookup : unit.links.lookup reference with
      | none => rfl
      | some target =>
        have htarget := hheld inside unit reference target hunit hlookup
        exact absurd (List.mem_of_getElem? htarget) hnew
  | case4 reference references loader changes target hcourse first rest ih =>
    have hlinked := hall.of_append
    have hnext := h.changeAll hlinked.1
    obtain ⟨later, hlater, hbody⟩ := (h.grows_changeAll hlinked.1).body hunit
    rw [changeAll_append]
    rcases List.mem_append.mp hmem with hmem | hmem
    · have hwhole := isWhole_course source depth loader reference
      rw [hcourse] at hwhole
      rcases List.mem_append.mp hmem with hmem | hmem
      · exact absurd hmem (hwhole target rfl id)
      · cases List.mem_singleton.mp hmem
    · apply ih hnext (hheld.changeAll hsource h hlinked.1) hmem later hlater _
        (hnext.lt_of_unit? hlater) hlinked.2
      intro other hother
      rw [references_eq hbody]
      exact hsubset other (List.mem_cons_of_mem _ hother)

/-- A unit that a call breaks off lacks a link when the call ends. -/
theorem lacksLink_course (hsource : HandsOutUnlinked source) (depth : Nat) {loader : Loader σ}
    (h : Formed loader) (hheld : AllHeld loader) (name : String) (id : UnitId)
    (hmem : .brokenOff id ∈ (course source depth loader name).changes) :
    LacksLink (loader.changeAll (course source depth loader name).changes) id := by
  induction depth generalizing loader name id with
  | zero => exact absurd hmem List.not_mem_nil
  | succ depth ih =>
    rcases course_cases source depth loader name with ⟨other, hother, hcourse⟩ |
      ⟨next, fault, hrefused, hcourse⟩ | ⟨unit, next, rest, hloaded, rfl, hcourse⟩ <;>
      rw [hcourse] at hmem ⊢
    · exact absurd hmem List.not_mem_nil
    · cases List.mem_singleton.mp hmem
    · have hnext := h.change hloaded
      have hnextHeld := hheld.changeAll hsource h (.cons hloaded (.nil _))
      rcases List.mem_cons.mp hmem with hmem | hmem
      · cases hmem
      · exact lacksLink_linkCourse hsource (fun h hheld => ih h hheld)
          unit.references hnext hnextHeld
          ⟨unit, unit?_nextId loader name unit next, fun _ hreference => hreference⟩ id hmem

/-! ## Calls one after the other -/

section Ended

variable {calls : List (Nat × String)} {after : Loader σ} {answers : List (Except LoadFault UnitId)}

/-- Calls that end leave the units that they brought in linked, but for those they broke off. -/
theorem leavesLinked_changesOf (hformed : Formed loader)
    (h : resolveEach source calls loader = some (after, answers)) :
    LeavesLinked loader (changesOf source calls loader) := by
  induction calls generalizing loader answers with
  | nil => exact leavesLinked_of_names_eq rfl
  | cons call calls ih =>
    obtain ⟨changes, answer, others, hcourse, hrest, -, hchanges⟩ := changesOf_cons h
    have hleaves := leavesLinked_course source call.1 hformed call.2 (hcourse ▸ rfl)
    have hruns := runs_changesOf source (call :: calls) hformed
    rw [hcourse] at hleaves
    rw [hchanges] at hruns ⊢
    exact hleaves.append (ih (hformed.changeAll hruns.of_append.1) hrest) hformed hruns

/-- Calls that succeed break nothing off. -/
theorem not_brokenOff_of_ok (h : resolveEach source calls loader = some (after, answers))
    (hok : ∀ answer ∈ answers, ∃ id, answer = .ok id) (id : UnitId) :
    .brokenOff id ∉ changesOf source calls loader := by
  induction calls generalizing loader answers with
  | nil => exact List.not_mem_nil
  | cons call calls ih =>
    obtain ⟨changes, answer, others, hcourse, hrest, rfl, hchanges⟩ := changesOf_cons h
    obtain ⟨found, rfl⟩ := hok answer List.mem_cons_self
    have hwhole := isWhole_course source call.1 loader call.2
    rw [hcourse] at hwhole
    rw [hchanges]
    intro hmem
    rcases List.mem_append.mp hmem with hmem | hmem
    · exact hwhole found rfl id hmem
    · exact ih hrest (fun other hother => hok other (List.mem_cons_of_mem _ hother)) hmem

/-- A unit that one of several calls broke off lacks a link after all of them. -/
theorem lacksLink_changesOf (hsource : HandsOutUnlinked source) (hformed : Formed loader)
    (hheld : AllHeld loader) (h : resolveEach source calls loader = some (after, answers))
    {id : UnitId} (hmem : .brokenOff id ∈ changesOf source calls loader) :
    LacksLink after id := by
  induction calls generalizing loader answers with
  | nil => exact absurd hmem List.not_mem_nil
  | cons call calls ih =>
    obtain ⟨changes, answer, others, hcourse, hrest, -, hchanges⟩ := changesOf_cons h
    have hruns := runs_changesOf source (call :: calls) hformed
    rw [hchanges] at hmem hruns
    have hnext := hformed.changeAll hruns.of_append.1
    rcases List.mem_append.mp hmem with hmem | hmem
    · have hlacks := lacksLink_course hsource call.1 hformed hheld call.2 id
      rw [hcourse] at hlacks
      rw [eq_changeAll_of_resolveEach hrest]
      exact (hlacks hmem).changeAll hnext hruns.of_append.2 (inside_changesOf source calls hnext)
    · exact ih hnext (hheld.changeAll hsource hformed hruns.of_append.1) hrest hmem

end Ended

/-! ## Units that a resolved unit leads to -/

/-- A unit leads to itself and, through live links, to others. -/
inductive Leads (pool : Pool) : UnitId → UnitId → Prop where
  | refl (id : UnitId) : Leads pool id id
  | link {id next last : UnitId} {unit : LoadedUnit} {name : String}
    (hunit : pool.unit? id = some unit) (hlink : unit.links.lookup name = some next)
    (hlive : (pool.unit? next).isSome) (hrest : Leads pool next last) : Leads pool id last

theorem Leads.isSome {pool : Pool} {id other : UnitId} (h : Leads pool id other)
    (hid : (pool.unit? id).isSome) : (pool.unit? other).isSome := by
  induction h with
  | refl _ => exact hid
  | link _ _ hlive _ ih => exact ih hlive

/-- Whatever was called before, with whatever answers: when a name resolves, every unit that its
unit leads to through links is in the pool, and is linked unless a call before broke off its
linking. No call that succeeds does that. A unit that was broken off is not linked, if the source
hands out units that have no links yet. -/
theorem resolved_units_are_linked (source : Ambient σ) (batch : Batch) (ambient : σ)
    (calls : List (Nat × String)) {loader after : Loader σ}
    {answers : List (Except LoadFault UnitId)}
    (hcalls : resolveEach source calls { batch, ambient } = some (loader, answers))
    (depth : Nat) (name : String) (id : UnitId)
    (hcall : resolveFrom source depth loader name = some (after, .ok id)) :
    let changes := changesOf source calls { batch, ambient }
    (∀ other, Leads after.pool id other → ∃ unit, after.pool.unit? other = some unit ∧
      (.brokenOff other ∉ changes → after.pool.isLinked unit = true) ∧
      (HandsOutUnlinked source → .brokenOff other ∈ changes →
        after.pool.isLinked unit = false)) ∧
    ((∀ answer ∈ answers, ∃ id, answer = .ok id) → ∀ other, .brokenOff other ∉ changes) := by
  intro changes
  have hstart : Formed ({ batch, ambient } : Loader σ) := formed_start batch ambient
  have hheld : AllHeld ({ batch, ambient } : Loader σ) := fun _ _ _ _ hunit => nomatch hunit
  have hruns := runs_changesOf source calls hstart
  have hloader := eq_changeAll_of_resolveEach hcalls
  have hleaves := leavesLinked_changesOf hstart hcalls
  have hformed : Formed loader := hloader ▸ hstart.changeAll hruns
  -- the last call brings units in as those before did, but it breaks nothing off
  have hfinds := finds_course source depth hformed name
  have hlast := leavesLinked_course source depth hformed name
  have hwhole := isWhole_course source depth loader name
  have hlater := inside_course source depth hformed name
  rw [resolveFrom_eq] at hcall
  obtain ⟨answer, hanswer, heq⟩ := Option.map_eq_some_iff.mp hcall
  obtain ⟨rfl, rfl⟩ := Prod.mk.inj heq
  have hafter := hformed.changeAll hfinds.runs
  have hid := (List.getElem?_eq_some_iff.mp (hfinds.cached id hanswer)).1
  obtain ⟨resolved, hresolved⟩ := hafter.present id hid
  refine ⟨fun other hleads => ?_, not_brokenOff_of_ok hcalls⟩
  obtain ⟨unit, hunit⟩ := Option.isSome_iff_exists.mp (hleads.isSome (hresolved ▸ rfl))
  refine ⟨unit, hunit, fun hnot => ?_, fun hsource hbroken => ?_⟩
  · have hfull :
        FullyLinked (loader.changeAll (course source depth loader name).changes) other := by
      by_cases hold : other < loader.names.length
      · subst hloader
        exact (hleaves other (Nat.zero_le _) hold hnot).changeAll hformed hfinds.runs
      · exact hlast (hanswer ▸ rfl) other (Nat.not_lt.mp hold) (hafter.lt_of_unit? hunit)
          (hwhole id hanswer other)
    obtain ⟨found, hfound, hlinked⟩ := hfull.isLinked hafter
    cases hunit.symm.trans hfound
    exact hlinked
  · have hlacks := lacksLink_changesOf hsource hstart hheld hcalls hbroken
    exact (hlacks.changeAll hformed hfinds.runs hlater).not_isLinked hunit

/-- A source whose only class calls a class that is not there. -/
def lampSource : Ambient Unit := fun _ name =>
  if name = "Lamp" then
    ((), .ok (.compiled
      { magic := ClassFile.rightMagic, target := .v1, name := "Lamp", sourceFile := "lamp",
        references := ["Switch"], methods := [], extensions := [] }))
  else ((), .error (.notFound name))

theorem handsOutUnlinked_lampSource : HandsOutUnlinked lampSource := by
  intro ambient name unit hunit
  unfold lampSource at hunit
  split at hunit <;> cases hunit
  rfl

/-- The lamp does not resolve at first, and then it does, not linked. -/
theorem resolved_lamp_is_not_linked : ∃ loader : Loader Unit,
    resolveEach lampSource [(2, "Lamp")] { batch := [], ambient := () } =
      some (loader, [.error (.notFound "Switch")]) ∧
    resolveFrom lampSource 1 loader "Lamp" = some (loader, .ok 0) ∧
    ∃ unit, loader.pool.unit? 0 = some unit ∧ loader.pool.isLinked unit = false := by
  refine ⟨_, rfl, rfl, ?_⟩
  obtain ⟨hunits, -⟩ :=
    resolved_units_are_linked lampSource [] () [(2, "Lamp")] rfl 1 "Lamp" 0 rfl
  obtain ⟨unit, hunit, -, hbroken⟩ := hunits 0 (.refl 0)
  refine ⟨unit, hunit, hbroken handsOutUnlinked_lampSource ?_⟩
  exact List.mem_cons_of_mem _ (List.mem_cons_of_mem _ List.mem_cons_self)

end Loader

end StackScript.Loading

import StackScript.Proofs.OutsideClasses

/-!
# What a failed resolve leaves behind

A class that cannot be had leaves the environment as it is, with one exception. A payload names the
extensions to enable, and they are enabled one by one: those before the first name that is not known
stay enabled although the class is refused (`LeftBehind`). `resolve_failed` tells exactly what the
environment is then, and that it answers all questions as before just when nothing was left behind.
-/

namespace StackScript.Loading

open StackScript.Code StackScript.Files StackScript.Machine

/-! ## Names of extensions -/

theorem extension_eq_of_name_eq {e other : Extension} (h : e.name = other.name) : e = other := by
  revert h
  cases e <;> cases other <;> decide

theorem extension_eq_of_class_name_eq {e other : Extension}
    (h : e.nativeClass.name = other.nativeClass.name) : e = other := by
  revert h
  cases e <;> cases other <;> decide

/-- No extension brings a class of the name that is always taken. -/
theorem class_name_ne_integer (e : Extension) : e.nativeClass.name ≠ NativeClass.integer.name := by
  cases e <;> decide

namespace Environment

variable {disk : Disk} {env after : Environment}

/-- Some extension that can be enabled has the name. -/
def knows (env : Environment) (name : String) : Bool := env.known.any (·.name = name)

theorem knows_eq_false_of_find? {name : String}
    (h : env.known.find? (·.name = name) = none) : env.knows name = false := by
  apply List.any_eq_false.mpr
  exact List.find?_eq_none.mp h

theorem knows_of_find? {name : String} {e : Extension}
    (h : env.known.find? (·.name = name) = some e) :
    env.knows name = true ∧ e ∈ env.known ∧ e.name = name := by
  have hmem : e ∈ env.known := List.mem_of_find?_eq_some h
  have hname := List.find?_some h
  refine ⟨List.any_eq_true.mpr ⟨e, hmem, hname⟩, hmem, ?_⟩
  exact decide_eq_true_eq.mp hname

/-- The native class of an extension is there just when the extension is enabled. -/
theorem native?_nativeClass (env : Environment) (e : Extension) :
    env.native? e.nativeClass.name = if e ∈ env.enabled then some e.nativeClass else none := by
  unfold native? nativeClass?
  rw [if_neg (class_name_ne_integer e)]
  split
  · rename_i hmem
    -- the class is found, and one of its name belongs to the same extension
    cases hfound : (env.enabled.map Extension.nativeClass).find?
        (·.name = e.nativeClass.name) with
    | none =>
      have hno := List.find?_eq_none.mp hfound _ (List.mem_map_of_mem hmem)
      exact absurd (decide_eq_true rfl) hno
    | some cls =>
      obtain ⟨other, -, rfl⟩ := List.mem_map.mp (List.mem_of_find?_eq_some hfound)
      have hname : other.nativeClass.name = e.nativeClass.name := by
        simpa using List.find?_some hfound
      rw [extension_eq_of_class_name_eq hname]
  · rename_i hnew
    apply List.find?_eq_none.mpr
    intro cls hcls hname
    obtain ⟨other, hother, rfl⟩ := List.mem_map.mp hcls
    apply hnew
    rwa [← extension_eq_of_class_name_eq (of_decide_eq_true hname)]

/-! ## Enabling one by one -/

/-- What enabling one extension does. -/
theorem enable_eq (env : Environment) (name : String) :
    (env.knows name = false ∧
      env.enable name = .error (.unknownExtension name (env.known.map Extension.name))) ∨
    ∃ e ∈ env.known, e.name = name ∧ env.knows name = true ∧
      ((e ∈ env.enabled ∧ env.enable name = .ok env) ∨
        (e ∉ env.enabled ∧ env.enable name = .ok { env with enabled := env.enabled ++ [e] })) := by
  unfold enable
  cases hfound : env.known.find? (·.name = name) with
  | none => exact .inl ⟨knows_eq_false_of_find? hfound, rfl⟩
  | some e =>
    obtain ⟨hknows, hmem, hname⟩ := knows_of_find? hfound
    refine .inr ⟨e, hmem, hname, hknows, ?_⟩
    by_cases henabled : e ∈ env.enabled
    · refine .inl ⟨henabled, ?_⟩
      exact if_pos (List.contains_iff_mem.mpr henabled)
    · refine .inr ⟨henabled, ?_⟩
      apply if_neg
      intro hcontains
      exact henabled (List.contains_iff_mem.mp hcontains)

/-- Enabling extensions enables those that are named before the first name that is not known, and
fails just when there is such a name. -/
theorem enableAll_eq (env : Environment) (names : List String) :
    ∃ more : List Extension,
      env.enableAll names = ({ env with enabled := env.enabled ++ more },
        match names.find? fun name => !env.knows name with
        | none => .ok ()
        | some unknown => .error (.unknownExtension unknown (env.known.map Extension.name))) ∧
      ∀ e, e ∈ more ↔
        e ∉ env.enabled ∧ e ∈ env.known ∧ e.name ∈ names.takeWhile env.knows := by
  -- by induction on the names; what is known stays the same, so `knows` does
  induction names generalizing env with
  | nil =>
    refine ⟨[], ?_, ?_⟩
    · rw [List.append_nil]
      rfl
    · intro e
      simp
  | cons name rest ih =>
    rw [enableAll]
    rcases env.enable_eq name with
      ⟨hknows, hfails⟩ | ⟨e, hmem, hname, hknows, ⟨henabled, hdone⟩ | ⟨hnew, hdone⟩⟩
    · refine ⟨[], ?_, ?_⟩
      · simp [hfails, hknows]
      · intro e
        simp [hknows]
    · obtain ⟨more, hmore, hof⟩ := ih env
      refine ⟨more, ?_, ?_⟩
      · simp [hdone, hmore, hknows]
      · intro other
        rw [hof, List.takeWhile_cons_of_pos hknows, List.mem_cons]
        constructor
        · rintro ⟨hnew, hother, hnamed⟩
          exact ⟨hnew, hother, .inr hnamed⟩
        · rintro ⟨hnew, hother, hsame | hnamed⟩
          · -- the extension of that name is enabled already
            rw [← hname] at hsame
            rw [extension_eq_of_name_eq hsame] at hnew
            exact absurd henabled hnew
          · exact ⟨hnew, hother, hnamed⟩
    · obtain ⟨more, hmore, hof⟩ := ih { env with enabled := env.enabled ++ [e] }
      refine ⟨e :: more, ?_, ?_⟩
      · simp only [hdone, hmore, List.append_assoc, List.cons_append, List.nil_append,
          List.find?_cons, hknows, Bool.not_true]
        rfl
      · intro other
        rw [List.mem_cons, hof, List.takeWhile_cons_of_pos hknows, List.mem_cons]
        constructor
        · rintro (rfl | ⟨hother, hmem, hnamed⟩)
          · exact ⟨hnew, hmem, .inl hname⟩
          · exact ⟨fun h => hother (List.mem_append_left _ h), hmem, .inr hnamed⟩
        · rintro ⟨hother, hknown, hsame | hnamed⟩
          · left
            apply extension_eq_of_name_eq
            rw [hsame, hname]
          · by_cases he : other = e
            · exact .inl he
            · refine .inr ⟨?_, hknown, hnamed⟩
              intro hin
              rcases List.mem_append.mp hin with hin | hin
              · exact hother hin
              · exact he (List.mem_singleton.mp hin)

/-! ## Resolving in vain -/

/-- An extension stays enabled although the class of the name cannot be had: the payload of the
class names it, before the first name that is not known. -/
structure LeftBehind (disk : Disk) (env : Environment) (name : String) (e : Extension) : Prop where
  /-- The class is one of a payload. -/
  payload : env.native? name = none ∧ ∃ file, env.classFile? disk name = .ok (some file) ∧
    (∃ unknown ∈ file.extensions, env.knows unknown = false) ∧
    e.name ∈ file.extensions.takeWhile env.knows
  known : e ∈ env.known
  new : e ∉ env.enabled

/-- Nothing is enabled before a payload has been read. -/
theorem no_leftBehind {name : String}
    (h : env.native? name ≠ none ∨ ∀ file, env.classFile? disk name ≠ .ok (some file))
    (e : Extension) : ¬ LeftBehind disk env name e := by
  rintro ⟨⟨hnative, file, hfile, -⟩, -, -⟩
  rcases h with h | h
  · exact h hnative
  · exact h file hfile

/-- The environment behind a failed resolve: nothing but the extensions left behind is new, and they
are there only when an extension was not known. -/
theorem enabled_of_resolve_error {name : String} {fault : LoadFault}
    (h : resolve disk env name = (after, .error fault)) :
    ∃ more, after = { env with enabled := env.enabled ++ more } ∧
      (∀ e, e ∈ more ↔ LeftBehind disk env name e) ∧
      (more ≠ [] → ∃ unknown, env.knows unknown = false ∧
        fault = .unknownExtension unknown (env.known.map Extension.name)) := by
  -- as long as no payload was read, the environment is the same
  have hsame : (∀ e, ¬ LeftBehind disk env name e) → after = env →
      ∃ more, after = { env with enabled := env.enabled ++ more } ∧
        (∀ e, e ∈ more ↔ LeftBehind disk env name e) ∧
        (more ≠ [] → ∃ unknown, env.knows unknown = false ∧
          fault = .unknownExtension unknown (env.known.map Extension.name)) := by
    intro hnone heq
    refine ⟨[], ?_, ?_, ?_⟩
    · rw [heq, List.append_nil]
    · intro e
      exact ⟨fun he => absurd he List.not_mem_nil, fun he => absurd he (hnone e)⟩
    · intro hne
      exact absurd rfl hne
  rw [resolve] at h
  cases hnative : env.native? name with
  | some cls =>
    rw [hnative] at h
    cases h
  | none =>
    rw [hnative] at h
    cases hfile : env.classFile? disk name with
    | error cause =>
      rw [hfile] at h
      cases h
      apply hsame _ rfl
      apply no_leftBehind
      right
      intro file hother
      rw [hfile] at hother
      cases hother
    | ok found =>
      cases found with
      | none =>
        rw [hfile] at h
        cases h
        apply hsame _ rfl
        apply no_leftBehind
        right
        intro file hother
        rw [hfile] at hother
        cases hother
      | some file =>
        obtain ⟨more, hall, hof⟩ := env.enableAll_eq file.extensions
        simp only [hfile, hall] at h
        cases hfirst : file.extensions.find? fun name => !env.knows name with
        | none =>
          rw [hfirst] at h
          cases h
        | some unknown =>
          rw [hfirst] at h
          cases h
          have hunknown : env.knows unknown = false := by
            simpa using List.find?_some hfirst
          have hin : unknown ∈ file.extensions := List.mem_of_find?_eq_some hfirst
          refine ⟨more, rfl, ?_, ?_⟩
          · intro e
            rw [hof]
            constructor
            · rintro ⟨hnew, hknown, hnamed⟩
              exact ⟨⟨hnative, file, hfile, ⟨unknown, hin, hunknown⟩, hnamed⟩, hknown, hnew⟩
            · rintro ⟨⟨-, other, hother, -, hnamed⟩, hknown, hnew⟩
              rw [hfile] at hother
              cases hother
              exact ⟨hnew, hknown, hnamed⟩
          · intro _
            exact ⟨unknown, hunknown, rfl⟩

/-- After a failed search for a class, the directories and the extensions that can be enabled are as
before, those that were enabled stay in their order, and exactly the extensions that the refused
payload names before one that is not known come behind them. The environment is the same just when
there are none, and just then it answers every later question for a native class, a signature or a
unit as before. -/
theorem resolve_failed {name : String} {fault : LoadFault}
    (h : resolve disk env name = (after, .error fault)) :
    (∃ more, after = { env with enabled := env.enabled ++ more } ∧
      ∀ e, e ∈ more ↔ LeftBehind disk env name e) ∧
    ((∃ e, LeftBehind disk env name e) → ∃ unknown, env.knows unknown = false ∧
      fault = .unknownExtension unknown (env.known.map Extension.name)) ∧
    (after = env ↔ ∀ e, ¬ LeftBehind disk env name e) ∧
    (after.enabled = env.enabled ↔ ∀ e, ¬ LeftBehind disk env name e) ∧
    ((∀ query, after.native? query = env.native? query ∧
        ∀ disk, after.signatures disk query = env.signatures disk query ∧
          (resolve disk after query).2 = (resolve disk env query).2) ↔
      ∀ e, ¬ LeftBehind disk env name e) := by
  obtain ⟨more, rfl, hof, hfault⟩ := enabled_of_resolve_error h
  have hnil : more = [] ↔ ∀ e, ¬ LeftBehind disk env name e := by
    rw [List.eq_nil_iff_forall_not_mem]
    exact forall_congr' fun e => not_congr (hof e)
  refine ⟨⟨more, rfl, hof⟩, ?_, ?_, ?_, ?_⟩
  · rintro ⟨e, he⟩
    apply hfault
    exact List.ne_nil_of_mem ((hof e).mpr he)
  · rw [← hnil]
    constructor
    · intro hsame
      exact List.append_right_eq_self.mp (congrArg Environment.enabled hsame)
    · rintro rfl
      rw [List.append_nil]
  · rw [← hnil]
    exact List.append_right_eq_self
  · constructor
    · -- an extension left behind shows in its native class
      intro hanswers e he
      have hmem : e ∈ env.enabled ++ more := List.mem_append_right _ ((hof e).mpr he)
      have hthen := (hanswers e.nativeClass.name).1
      rw [native?_nativeClass, native?_nativeClass, if_pos hmem, if_neg he.new] at hthen
      cases hthen
    · intro hnone
      obtain rfl := hnil.mpr hnone
      rw [List.append_nil]
      intro query
      exact ⟨rfl, fun disk => ⟨rfl, rfl⟩⟩

/-! ### A payload with one extension that is known and one that is not -/

/-- A payload without methods, which names the extension `text` and one that there is not. -/
def halfFile : ClassFile where
  magic := ClassFile.rightMagic
  target := .latest
  name := "Half"
  sourceFile := "half"
  references := []
  methods := []
  extensions := [Extension.text.name, "bogus"]

/-- A disk with the payload in the directory `cp`. -/
def halfDisk : Disk where
  root := .dir [("cp", .dir [("Half.mbc", .file halfFile.payload)])]

/-- The class is refused because of the second name, and the first extension stays. -/
theorem halfFile_leaves_text :
    let env : Environment := { classpath := ["cp"] }
    let answer := resolve halfDisk env halfFile.name
    answer.2 = .error (.unknownExtension "bogus" ["math", "text"]) ∧
      env.enabled = [] ∧ answer.1.enabled = [.text] ∧
      LeftBehind halfDisk env halfFile.name .text ∧ answer.1 ≠ env := by
  intro env answer
  have hfault : answer.2 = .error (.unknownExtension "bogus" ["math", "text"]) := by
    have hmapped : answer.2.map LoadedUnit.signature =
        .error (.unknownExtension "bogus" ["math", "text"]) := by
      decide +kernel
    cases hanswer : answer.2 with
    | ok unit =>
      rw [hanswer] at hmapped
      cases hmapped
    | error fault =>
      rw [hanswer] at hmapped
      exact congrArg Except.error (Except.error.inj hmapped)
  have henabled : answer.1.enabled = [.text] := by
    decide +kernel
  obtain ⟨⟨more, hafter, hof⟩, -, hsame, -⟩ := resolve_failed (Prod.ext rfl hfault)
  have hleft : LeftBehind halfDisk env halfFile.name .text := by
    apply (hof .text).mp
    have hmore : answer.1.enabled = env.enabled ++ more := congrArg Environment.enabled hafter
    rw [henabled] at hmore
    obtain rfl : [Extension.text] = more := hmore
    exact List.mem_singleton_self _
  refine ⟨hfault, rfl, henabled, hleft, ?_⟩
  intro heq
  exact hsame.mp heq .text hleft

end Environment

end StackScript.Loading

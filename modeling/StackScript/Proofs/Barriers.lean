import Mathlib.Data.List.Forall2
import StackScript.Proofs.Generating

/-!
# The phases are barriers

A production reads all units, types the batch, and only then hands classes over; a failure in one
phase keeps the phases after it from starting. A unit that cannot be read ends the reading, so that
the outcome does not depend on what comes behind it (`readSources_append_error`). Handing over goes
through the definitions of the batch one by one (`deliverBatch_eq_handOver`) and stops at the first
that has no code, has a name that was there before, or is refused (`handOver_stops`).
-/

namespace StackScript.Session

open StackScript.Code StackScript.Files StackScript.Loading StackScript.Syntax StackScript.Typing

/-! ## Phases -/

namespace Phase

variable {α β : Type} {first : Phase α} {next : α → Phase β}

theorem andThen_error {fault : SessionFault} (h : first.result = .error fault) :
    first.andThen next = ⟨first.remarks, .error fault⟩ := by
  rw [andThen, h]

theorem andThen_ok {a : α} (h : first.result = .ok a) :
    first.andThen next = ⟨first.remarks ++ (next a).remarks, (next a).result⟩ := by
  rw [andThen, h]

end Phase

/-! ## Reading -/

section

variable {disk : Disk} {settings : Settings} {front : List SourceUnit} {unit : SourceUnit}

/-- Reading all units gives their programs in order. -/
theorem readSources_ok {units : List SourceUnit} {programs : List Program}
    (h : List.Forall₂ (fun u program => (readSource disk settings u).result = .ok program)
      units programs) : (readSources disk settings units).result = .ok programs := by
  induction h with
  | nil => rfl
  | cons hfirst _ ih =>
    rw [readSources, Phase.andThen_ok hfirst, Phase.andThen_ok ih]
    rfl

/-- A unit that cannot be read ends the reading with its fault. -/
theorem result_readSources_append (hfront : ∀ u ∈ front, ∃ program,
      (readSource disk settings u).result = .ok program) {fault : SessionFault}
    (hunit : (readSource disk settings unit).result = .error fault) (back : List SourceUnit) :
    (readSources disk settings (front ++ unit :: back)).result = .error fault := by
  induction front with
  | nil => rw [List.nil_append, readSources, Phase.andThen_error hunit]
  | cons first rest ih =>
    rw [List.forall_mem_cons] at hfront
    obtain ⟨⟨program, hfirst⟩, hrest⟩ := hfront
    rw [List.cons_append, readSources, Phase.andThen_ok hfirst, Phase.andThen_error (ih hrest)]

/-- What is behind a unit that cannot be read is not looked at: with other units there, on another
disk on which the ones before it read the same, reading does the same. -/
theorem readSources_append_error {fault : SessionFault}
    (hunit : (readSource disk settings unit).result = .error fault) {other : Disk}
    (hsame : ∀ u ∈ front ++ [unit], readSource other settings u = readSource disk settings u)
    (back more : List SourceUnit) :
    readSources other settings (front ++ unit :: more) =
      readSources disk settings (front ++ unit :: back) := by
  induction front with
  | nil =>
    have hread : readSource other settings unit = readSource disk settings unit :=
      hsame unit List.mem_cons_self
    rw [List.nil_append, List.nil_append, readSources, readSources, hread,
      Phase.andThen_error hunit, Phase.andThen_error hunit]
  | cons first rest ih =>
    rw [List.cons_append, List.forall_mem_cons] at hsame
    rw [List.cons_append, List.cons_append, readSources, readSources, hsame.1, ih hsame.2]

/-- A unit that was read has a text. -/
theorem readUnit_of_readSource {program : Program}
    (h : (readSource disk settings unit).result = .ok program) :
    ∃ text, readUnit settings.explicitPackages unit.name text = .ok program := by
  unfold readSource at h
  split at h
  · cases h
  · rename_i text _
    split at h
    · rename_i hread
      cases h
      exact ⟨text, hread⟩
    · cases h

/-- A unit that was read has its loose code gathered. -/
theorem isGathered_of_readSource {program : Program}
    (h : (readSource disk settings unit).result = .ok program) : IsGathered program := by
  obtain ⟨text, hread⟩ := readUnit_of_readSource h
  unfold readUnit at hread
  split at hread
  · cases hread
  · split at hread
    · cases hread
    · cases hread
      exact isGathered_gather _

theorem exists_of_forall₂ {α β : Type} {R : α → β → Prop} {as : List α} {bs : List β}
    (h : List.Forall₂ R as bs) {b : β} (hb : b ∈ bs) : ∃ a ∈ as, R a b := by
  induction h with
  | nil => cases hb
  | @cons a c as bs hfirst _ ih =>
    rcases List.mem_cons.mp hb with rfl | hb
    · exact ⟨a, List.mem_cons_self, hfirst⟩
    · obtain ⟨other, hother, hR⟩ := ih hb
      exact ⟨other, List.mem_cons_of_mem _ hother, hR⟩

theorem isGathered_of_read {units : List SourceUnit} {programs : List Program}
    (h : List.Forall₂ (fun u program => (readSource disk settings u).result = .ok program)
      units programs) : ∀ program ∈ programs, IsGathered program := by
  intro program hprogram
  obtain ⟨unit, -, hunit⟩ := exists_of_forall₂ h hprogram
  exact isGathered_of_readSource hunit

end

/-! ## Handing over definitions -/

section

variable {σ : Type} {accept : Sink σ} {options : Options}

/-- Hands the class of each definition to a sink, in order, up to the first fault. -/
def handOver (accept : Sink σ) (options : Options) :
    Delivery σ → List Definition → Delivery σ × Except SessionFault Unit
  | delivery, [] => (delivery, .ok ())
  | delivery, d :: ds =>
    match d.classFile options with
    | .error fault => (delivery, .error (.code fault))
    | .ok file =>
      match deliver accept delivery [.ofClassFile options.backend file] with
      | (delivery, .error fault) => (delivery, .error fault)
      | (delivery, .ok ()) => handOver accept options delivery ds

theorem handOver_append (delivery : Delivery σ) (ds more : List Definition) :
    handOver accept options delivery (ds ++ more) =
      match handOver accept options delivery ds with
      | (after, .error fault) => (after, .error fault)
      | (after, .ok ()) => handOver accept options after more := by
  induction ds generalizing delivery with
  | nil => rfl
  | cons d ds ih =>
    rw [List.cons_append, handOver, handOver]
    split
    · rfl
    · split
      · rfl
      · rw [ih]

/-- Generating the classes of a unit and handing them over is handing over its definitions. -/
theorem handUnit_eq_handOver (accept : Sink σ) (settings : Settings) {program : Program}
    (hgathered : IsGathered program) (delivery : Delivery σ) :
    handUnit settings accept delivery program =
      handOver accept settings.codeOptions delivery (unitDefinitions program) := by
  unfold handUnit generate
  rw [unitClassFiles_eq _ hgathered]
  generalize unitDefinitions program = ds
  -- what was made before a fault is handed over before the fault is told
  induction ds generalizing delivery with
  | nil => rfl
  | cons d ds ih =>
    rw [handOver]
    cases hfile : d.classFile settings.codeOptions with
    | error fault => simp [Made.each, hfile, Made.ofExcept, Made.failed, Made.andThen, Made.map,
        deliver]
    | ok file =>
      simp only [Made.each, hfile, Made.ofExcept, Made.andThen, Made.map, List.map_append,
        List.map_cons, List.map_nil, deliver_append]
      rcases deliver accept delivery
        [Product.ofClassFile settings.codeOptions.backend file] with ⟨after, fault | ⟨⟨⟩⟩⟩
      · rfl
      · exact ih after

/-- Handing over a batch is handing over its definitions. -/
theorem deliverBatch_eq_handOver (accept : Sink σ) (disk : Disk) (settings : Settings)
    {batch : List Program} (hgathered : ∀ program ∈ batch, IsGathered program)
    (delivery : Delivery σ) :
    let outcome := deliverBatch disk settings accept delivery batch
    (outcome.1, outcome.2.result) =
      handOver accept settings.codeOptions delivery (batchDefinitions batch) := by
  induction batch generalizing delivery with
  | nil => rfl
  | cons program rest ih =>
    rw [List.forall_mem_cons] at hgathered
    rw [batchDefinitions, List.flatMap_cons, handOver_append,
      ← handUnit_eq_handOver accept settings hgathered.1 delivery, ← handed_deliverUnit disk,
      deliverBatch]
    dsimp only
    cases hresult : (deliverUnit disk settings accept delivery program).2.result with
    | error fault => simp [hresult]
    | ok done =>
      simp only [Phase.andThen, hresult]
      exact ih hgathered.2 _

/-! ### Where it stops -/

/-- The product is what the definition is handed out as. -/
def IsProductOf (options : Options) (d : Definition) (product : Product) : Prop :=
  ∃ file, d.classFile options = .ok file ∧ product = .ofClassFile options.backend file

/-- The sink takes the products one after the other. -/
inductive Takes (accept : Sink σ) : σ → List Product → σ → Prop where
  | nil (sink : σ) : Takes accept sink [] sink
  | cons {sink next last : σ} {product : Product} {products : List Product}
    (hfirst : accept sink product = (next, .ok ())) (hrest : Takes accept next products last) :
    Takes accept sink (product :: products) last

/-- How handing over ends, with a sink that has taken classes of the names `seen` and the definition
that comes next, if there is one. Only a definition that has code and a new name is offered to the
sink, which then refused it. -/
inductive Stops (accept : Sink σ) (options : Options) (seen : List String) (sink : σ) :
    Option Definition → σ → Except SessionFault Unit → Prop where
  | done : Stops accept options seen sink none sink (.ok ())
  | faulty {d : Definition} {fault : CodeFault} (hfault : d.classFile options = .error fault) :
    Stops accept options seen sink (some d) sink (.error (.code fault))
  | twice {d : Definition} {product : Product} (hmade : IsProductOf options d product)
    (hseen : product.name ∈ seen) :
    Stops accept options seen sink (some d) sink (.error (.duplicateClass product.name))
  | refused {d : Definition} {product : Product} {after : σ} {fault : SessionFault}
    (hmade : IsProductOf options d product) (hnew : product.name ∉ seen)
    (hrefused : accept sink product = (after, .error fault)) :
    Stops accept options seen sink (some d) after (.error fault)

/-- It ends well exactly when no definition is left. -/
theorem Stops.ok_iff {seen : List String} {sink after : σ} {next : Option Definition}
    {result : Except SessionFault Unit} (h : Stops accept options seen sink next after result) :
    result = .ok () ↔ next = none := by
  cases h <;> simp

theorem Stops.of_mem_iff {seen others : List String} {sink after : σ} {next : Option Definition}
    {result : Except SessionFault Unit} (h : Stops accept options seen sink next after result)
    (hsame : ∀ name, name ∈ seen ↔ name ∈ others) :
    Stops accept options others sink next after result := by
  cases h with
  | done => exact .done
  | faulty hfault => exact .faulty hfault
  | twice hmade hseen => exact .twice hmade ((hsame _).mp hseen)
  | refused hmade hnew hrefused => exact .refused hmade (fun h => hnew ((hsame _).mpr h)) hrefused

/-- Classes of the first definitions were taken, `last` being the sink behind them, and there
handing over ended. -/
structure HandedOver (accept : Sink σ) (options : Options) (seen : List String) (sink : σ)
    (ds : List Definition) (taken : List Product) (last after : σ)
    (result : Except SessionFault Unit) : Prop where
  made : List.Forall₂ (IsProductOf options) (ds.take taken.length) taken
  distinct : (taken.map Product.name).Nodup
  fresh : ∀ name ∈ taken.map Product.name, name ∉ seen
  takes : Takes accept sink taken last
  stops : Stops accept options (taken.map Product.name ++ seen) last ds[taken.length]? after result

/-- All definitions were handed over exactly when it ended well. -/
theorem HandedOver.whole_iff {seen : List String} {sink last after : σ} {ds : List Definition}
    {taken : List Product} {result : Except SessionFault Unit}
    (h : HandedOver accept options seen sink ds taken last after result) :
    taken.length = ds.length ↔ result = .ok () := by
  rw [h.stops.ok_iff, List.getElem?_eq_none_iff]
  have hlength := h.made.length_eq
  rw [List.length_take] at hlength
  omega

/-- Nothing is taken when handing over stops in front of the first definition. -/
theorem handedOver_nothing {seen : List String} {sink after : σ} {ds : List Definition}
    {result : Except SessionFault Unit} (h : Stops accept options seen sink ds.head? after result) :
    HandedOver accept options seen sink ds [] sink after result where
  made := .nil
  distinct := .nil
  fresh := by
    intro name hname
    cases hname
  takes := .nil sink
  stops := by
    rw [List.head?_eq_getElem?] at h
    exact h

/-- A class is taken, and handing over goes on with the next definition. -/
theorem HandedOver.cons {seen : List String} {sink next last after : σ} {d : Definition}
    {ds : List Definition} {product : Product} {taken : List Product}
    {result : Except SessionFault Unit} (hmade : IsProductOf options d product)
    (hnew : product.name ∉ seen) (haccept : accept sink product = (next, .ok ()))
    (hrest : HandedOver accept options (product.name :: seen) next ds taken last after result) :
    HandedOver accept options seen sink (d :: ds) (product :: taken) last after result where
  made := .cons hmade hrest.made
  distinct := by
    refine List.nodup_cons.mpr ⟨?_, hrest.distinct⟩
    intro hmem
    exact hrest.fresh _ hmem List.mem_cons_self
  fresh := by
    rw [List.map_cons, List.forall_mem_cons]
    refine ⟨hnew, ?_⟩
    intro name hname hseen
    exact hrest.fresh name hname (List.mem_cons_of_mem _ hseen)
  takes := .cons haccept hrest.takes
  stops := by
    apply hrest.stops.of_mem_iff
    intro name
    simp only [List.map_cons, List.cons_append, List.mem_append, List.mem_cons]
    constructor
    · rintro (h | h | h)
      · exact .inr (.inl h)
      · exact .inl h
      · exact .inr (.inr h)
    · rintro (h | h | h)
      · exact .inr (.inl h)
      · exact .inl h
      · exact .inr (.inr h)

/-- Handing over stops where it has to, and nowhere else. -/
theorem handOver_stops (accept : Sink σ) (options : Options) (delivery : Delivery σ)
    (ds : List Definition) :
    ∃ taken last, HandedOver accept options delivery.seen delivery.sink ds taken last
      (handOver accept options delivery ds).1.sink (handOver accept options delivery ds).2 := by
  induction ds generalizing delivery with
  | nil => exact ⟨[], delivery.sink, handedOver_nothing .done⟩
  | cons d ds ih =>
    rw [handOver]
    cases hfile : d.classFile options with
    | error fault => exact ⟨[], delivery.sink, handedOver_nothing (.faulty hfile)⟩
    | ok file =>
      have hmade : IsProductOf options d (.ofClassFile options.backend file) := ⟨file, hfile, rfl⟩
      simp only [deliver, List.contains_iff_mem]
      by_cases hseen : (Product.ofClassFile options.backend file).name ∈ delivery.seen
      · rw [if_pos hseen]
        exact ⟨[], delivery.sink, handedOver_nothing (.twice hmade hseen)⟩
      · rw [if_neg hseen]
        rcases haccept : accept delivery.sink (.ofClassFile options.backend file) with
          ⟨next, fault | ⟨⟨⟩⟩⟩
        · exact ⟨[], delivery.sink, handedOver_nothing (.refused hmade hseen haccept)⟩
        · obtain ⟨taken, last, hrest⟩ :=
            ih ⟨next, (Product.ofClassFile options.backend file).name :: delivery.seen⟩
          exact ⟨_ :: taken, last, hrest.cons hmade hseen haccept⟩

end

/-! ## The whole way -/

section

variable {σ : Type} (accept : Sink σ) (sink : σ) (disk : Disk) (settings : Settings)

/-- Without a batch the sink is left alone. -/
theorem deliverTo_error {batch : Phase (List Program)} {fault : SessionFault}
    (h : batch.result = .error fault) :
    deliverTo disk settings accept sink batch = (sink, ⟨batch.remarks, .error fault⟩) := by
  rw [deliverTo, h]

/-- The definitions of a batch are handed over. -/
theorem deliverTo_ok {batch : Phase (List Program)} {programs : List Program}
    (h : batch.result = .ok programs) (hgathered : ∀ program ∈ programs, IsGathered program) :
    let outcome := deliverTo disk settings accept sink batch
    let handed := handOver accept settings.codeOptions { sink } (batchDefinitions programs)
    outcome.1 = handed.1.sink ∧ outcome.2.result = handed.2 := by
  intro outcome handed
  have hhanded := deliverBatch_eq_handOver accept disk settings hgathered { sink }
  rw [Prod.ext_iff] at hhanded
  have houtcome : outcome = deliverTo disk settings accept sink batch := rfl
  rw [deliverTo, h] at houtcome
  dsimp only at houtcome
  rw [Phase.andThen_ok h] at houtcome
  rw [houtcome]
  exact ⟨congrArg Delivery.sink hhanded.1, hhanded.2⟩

theorem typeBatch_error {env : Environment} {programs : List Program}
    (hill : (infer (env.signatures disk) programs).diagnostics ≠ []) :
    (typeBatch disk settings env programs).result =
      .error (.illTyped (infer (env.signatures disk) programs).diagnostics.length) := by
  rw [typeBatch]
  dsimp only
  rw [if_neg (by simpa using hill)]

theorem typeBatch_ok {env : Environment} {programs : List Program}
    (hclean : (infer (env.signatures disk) programs).diagnostics = []) :
    (typeBatch disk settings env programs).result =
      .ok (infer (env.signatures disk) programs).batch := by
  rw [typeBatch]
  dsimp only
  rw [if_pos (by simpa using hclean)]

/-- Typing leaves no loose code where there was none. -/
theorem isGathered_infer {externals : Externals} {programs : List Program}
    (h : ∀ program ∈ programs, IsGathered program) :
    ∀ program ∈ (infer externals programs).batch, IsGathered program := by
  intro program hprogram
  simp only [infer, List.map_map, List.mem_map, Function.comp] at hprogram
  obtain ⟨before, hbefore, rfl⟩ := hprogram
  exact isGathered_annotateUnit (h before hbefore)

/-- When all units are read and the batch is typed well, its classes are handed over. -/
theorem handedOver_produce {env : Environment} {units : List SourceUnit} {programs : List Program}
    (hread : List.Forall₂ (fun u program => (readSource disk settings u).result = .ok program)
      units programs)
    (hclean : (infer (env.signatures disk) programs).diagnostics = []) :
    let outcome := produce disk settings env accept sink units
    ∃ taken last, HandedOver accept settings.codeOptions [] sink
      (batchDefinitions (infer (env.signatures disk) programs).batch) taken last outcome.1
      outcome.2.result := by
  intro outcome
  have hbatch : ((readSources disk settings units).andThen
      (typeBatch disk settings env)).result = (typeBatch disk settings env programs).result := by
    rw [Phase.andThen_ok (readSources_ok hread)]
  obtain ⟨hsink, hresult⟩ := deliverTo_ok accept sink disk settings
    (hbatch.trans (typeBatch_ok disk settings hclean)) (isGathered_infer (isGathered_of_read hread))
  obtain ⟨taken, last, hhanded⟩ := handOver_stops accept settings.codeOptions { sink }
    (batchDefinitions (infer (env.signatures disk) programs).batch)
  rw [← hsink, ← hresult] at hhanded
  exact ⟨taken, last, hhanded⟩

end

/-- The phases of a production are barriers. When a unit cannot be read, the production fails with
the fault of the first such unit, the sink is left alone, and nothing behind that unit matters: not
the units, nor what the disk holds for them, nor the environment. When all are read but the batch is
ill typed, it fails and the sink is left alone. Otherwise the sink takes the classes of the
definitions in order, all of different names, up to where the production ends: behind the last one
if it succeeds, and else in front of the first that has no code, has the name of one before it, or
is refused. -/
theorem phases_are_barriers {σ : Type} (accept : Sink σ) (sink : σ) (disk : Disk)
    (settings : Settings) (env : Environment) (units : List SourceUnit) :
    let outcome := produce disk settings env accept sink units
    (∀ front unit back fault, units = front ++ unit :: back →
      (∀ u ∈ front, ∃ program, (readSource disk settings u).result = .ok program) →
      (readSource disk settings unit).result = .error fault →
      outcome.1 = sink ∧ outcome.2.result = .error fault ∧
        ∀ otherDisk otherEnv more,
          (∀ u ∈ front ++ [unit], readSource otherDisk settings u = readSource disk settings u) →
          produce otherDisk settings otherEnv accept sink (front ++ unit :: more) = outcome) ∧
    ∀ programs, List.Forall₂ (fun u program => (readSource disk settings u).result = .ok program)
        units programs →
      let done := infer (env.signatures disk) programs
      (done.diagnostics ≠ [] →
        outcome.1 = sink ∧ outcome.2.result = .error (.illTyped done.diagnostics.length)) ∧
      (done.diagnostics = [] →
        let ds := batchDefinitions done.batch
        ds.map Definition.name = (batchDefinitions programs).map Definition.name ∧
        ∃ taken last,
          HandedOver accept settings.codeOptions [] sink ds taken last outcome.1 outcome.2.result ∧
          (taken.length = ds.length ↔ outcome.2.result = .ok ())) := by
  intro outcome
  constructor
  · rintro front unit back fault rfl hfront hunit
    have hread := result_readSources_append hfront hunit back
    have houtcome : ∀ otherDisk otherEnv more,
        (∀ u ∈ front ++ [unit], readSource otherDisk settings u = readSource disk settings u) →
        produce otherDisk settings otherEnv accept sink (front ++ unit :: more) =
          (sink, ⟨(readSources disk settings (front ++ unit :: back)).remarks, .error fault⟩) := by
      intro otherDisk otherEnv more hsame
      rw [produce, readSources_append_error hunit hsame back more, Phase.andThen_error hread,
        deliverTo_error accept sink otherDisk settings rfl]
    have hhere : outcome = _ := houtcome disk env back fun _ _ => rfl
    rw [hhere]
    exact ⟨rfl, rfl, houtcome⟩
  · intro programs hread done
    -- every unit was read, so typing has the programs as they are
    have hprograms := readSources_ok hread
    have hbatch : ((readSources disk settings units).andThen
        (typeBatch disk settings env)).result = (typeBatch disk settings env programs).result := by
      rw [Phase.andThen_ok hprograms]
    constructor
    · intro hill
      have hfailed := hbatch.trans (typeBatch_error disk settings hill)
      have houtcome : outcome = _ := deliverTo_error accept sink disk settings hfailed
      rw [houtcome]
      exact ⟨rfl, rfl⟩
    · intro hclean ds
      refine ⟨names_infer _ programs, ?_⟩
      obtain ⟨taken, last, hhanded⟩ := handedOver_produce accept sink disk settings hread hclean
      exact ⟨taken, last, hhanded, hhanded.whole_iff⟩

end StackScript.Session

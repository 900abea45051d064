import StackScript.Proofs.Barriers
import StackScript.Proofs.Carets
import StackScript.Session.Command

/-!
# Failures are told once

A failure of a production is told either by diagnostics, where it is found, or by its notice, at the
end of the command. The phases tell the diagnostics, and the kind of the fault says whether there
was one (`SessionFault.isReported`). Reading and typing tell as many diagnostics as go with the
fault that they end with (`Phase.Accounts`), one phase after the other does so (`Accounts.andThen`),
and generating tells what goes with a fault of its own (`remarks_deliverBatch`). What a sink refuses
a class with is told as well, unless it says that a batch could not be read or typed: no sink of the
library does, and the fault of one that did would not be told (`claimingSink_is_not_told`). So the
commands tell every fault once (`failures_are_told_once`).
-/

namespace StackScript.Session

open StackScript.Code StackScript.Files StackScript.Loading StackScript.Source StackScript.Syntax
open StackScript.Text StackScript.Typing

/-! ## Diagnostics of a fault -/

namespace SessionFault

/-- The number of diagnostics that tell of the fault where it is found. -/
def diagnosed : SessionFault → Nat
  | unreadable _ => 1
  | illTyped count => count
  | code fault => if fault.isInternal then 1 else 0
  | usage _ | file _ _ _ | duplicateClass _ | load _ | execution _ => 0

/-- The fault says that a batch could not be read or typed. -/
def isOfBatch : SessionFault → Bool
  | unreadable _ | illTyped _ => true
  | usage _ | file _ _ _ | duplicateClass _ | code _ | load _ | execution _ => false

/-- A fault is reported if a diagnostic goes with it. -/
theorem isReported_iff {fault : SessionFault} (h : fault ≠ illTyped 0) :
    fault.isReported = true ↔ 0 < fault.diagnosed := by
  cases fault with
  | illTyped count =>
    have hcount : count ≠ 0 := fun hzero => h (hzero ▸ rfl)
    simp [isReported, diagnosed, Nat.pos_of_ne_zero hcount]
  | code fault =>
    rw [isReported, diagnosed]
    cases fault.isInternal <;> simp
  | _ => simp [isReported, diagnosed]

end SessionFault

/-- The number of diagnostics that tell of what came out. -/
def diagnosedOf {α : Type} : Except SessionFault α → Nat
  | .ok _ => 0
  | .error fault => fault.diagnosed

/-! ## Phases -/

/-- The first line of a diagnostic: where it is, if it is anywhere, and the message. -/
def Diagnostic.headline (found : Diagnostic) : String :=
  match found.position? with
  | some position =>
    position.file ++ ":" ++ toString position.startLine ++ ": " ++ found.message ++ "\n"
  | none => found.message ++ "\n"

/-- A diagnostic is written with its headline. Below that stands the source, with carets under the
span that is meant, if the file is there to be read, and what else is known, on lines of its own, if
the settings ask for it. -/
def Diagnostic.WrittenAs (disk : Disk) (settings : Settings) (found : Diagnostic)
    (text : String) : Prop :=
  ∃ rows details, text = found.headline ++ rows ++ details ∧
    (sourceOf disk found.position? = none → rows = "") ∧
    (∀ file span source, found.position? = some (.ofSpan file span) →
      disk.readText file = .ok source → '\r' ∉ source.toList → span.Faithful source.toList →
        rows = String.join ((List.range' span.start.line
          (span.stop.line + 1 - span.start.line)).map (caretRow source.toList span))) ∧
    (settings.verbose = false → details = "") ∧
    (settings.verbose = true → ∀ known ∈ found.detail?,
      details = String.join ((lines known.toList).map fun line =>
        "    " ++ String.ofList line ++ "\n"))

/-- A diagnostic that is told is written in full. -/
def Remark.Shown (disk : Disk) (settings : Settings) (remark : Remark) : Prop :=
  ∀ found ∈ remark.diagnostic, found.WrittenAs disk settings remark.text

/-- The phase tells as many diagnostics as go with what came out of it, and each is written in full.
A failure for type faults has some. -/
structure Phase.Accounts {α : Type} (disk : Disk) (settings : Settings) (phase : Phase α) :
    Prop where
  shown : ∀ remark ∈ phase.remarks, remark.Shown disk settings
  count : phase.diagnostics.length = diagnosedOf phase.result
  counted : phase.result ≠ .error (.illTyped 0)

section

variable {disk : Disk} {settings : Settings}

theorem Remark.shown_note (text : String) : (Remark.note text).Shown disk settings := nofun

theorem Remark.shown_ofDiagnostic (found : Diagnostic) :
    (Remark.ofDiagnostic disk settings found).Shown disk settings := by
  rintro _ ⟨⟩
  refine ⟨(found.position?.bind fun position =>
      (sourceOf disk found.position?).map (echo position)).getD "",
    String.join ((lines (if settings.verbose then found.detail?.getD "" else "").toList).map
      detailLine), ?_, ?_, ?_, ?_, ?_⟩
  · rw [Remark.ofDiagnostic, report, Diagnostic.headline]
    cases found.position? with
    | none => simp [render]
    | some position => simp [render, Position.text, String.append_assoc]
  · intro hnone
    rw [hnone]
    cases found.position? <;> rfl
  · intro file span source hposition hread hsource hspan
    rw [hposition, ← echo_of_faithful file hsource hspan]
    have hsome : sourceOf disk (some (Position.ofSpan file span)) = some source := by
      simp [sourceOf, Position.ofSpan, hread, Except.toOption]
    rw [hsome]
    rfl
  · intro hquiet
    rw [hquiet]
    rfl
  · intro hverbose known hknown
    rw [hverbose, Option.mem_def.mp hknown]
    rfl

namespace Phase.Accounts

variable {α β : Type}

theorem quiet {result : Except SessionFault α} (hnone : diagnosedOf result = 0)
    (hcounted : result ≠ .error (.illTyped 0)) : (Phase.quiet result).Accounts disk settings :=
  ⟨List.forall_mem_nil _, hnone.symm, hcounted⟩

theorem ok (a : α) : (Phase.quiet (.ok a)).Accounts disk settings := quiet rfl nofun

/-- A phase that ends with the one diagnostic that goes with its fault. -/
theorem one {fault : SessionFault} (hone : fault.diagnosed = 1) (found : Diagnostic) :
    (⟨[.ofDiagnostic disk settings found], .error fault⟩ : Phase α).Accounts disk settings := by
  refine ⟨List.forall_mem_singleton.mpr (Remark.shown_ofDiagnostic found), hone.symm, ?_⟩
  rintro ⟨⟩
  cases hone

/-- What a phase that failed told accounts for its fault, whatever was to come out of it. -/
theorem failed {phase : Phase α} (h : phase.Accounts disk settings) {fault : SessionFault}
    (hfault : phase.result = .error fault) :
    (⟨phase.remarks, .error fault⟩ : Phase β).Accounts disk settings := by
  have hcount := h.count
  have hcounted := h.counted
  rw [hfault] at hcount hcounted
  refine ⟨h.shown, hcount, ?_⟩
  rintro ⟨⟩
  exact hcounted rfl

/-- One phase after another accounts for what comes out of both. -/
theorem andThen {first : Phase α} {next : α → Phase β} (hfirst : first.Accounts disk settings)
    (hnext : ∀ a, first.result = .ok a → (next a).Accounts disk settings) :
    (first.andThen next).Accounts disk settings := by
  cases hresult : first.result with
  | error fault =>
    rw [Phase.andThen_error hresult]
    exact hfirst.failed hresult
  | ok a =>
    obtain ⟨hshown, hcount, hcounted⟩ := hnext a hresult
    have hnone := hfirst.count
    rw [hresult] at hnone
    rw [Phase.andThen_ok hresult]
    refine ⟨List.forall_mem_append.mpr ⟨hfirst.shown, hshown⟩, ?_, hcounted⟩
    -- the first phase did not fail, so all diagnostics are of the second one
    rw [Phase.diagnostics, List.filterMap_append, List.length_append]
    exact (congrArg (· + _) hnone).trans ((Nat.zero_add _).trans hcount)

end Phase.Accounts

/-! ## Reading and typing -/

theorem accounts_readSource (unit : SourceUnit) :
    (readSource disk settings unit).Accounts disk settings := by
  unfold readSource
  split
  · rename_i fault hread
    -- a text that is not there is a failure of a file operation
    have hfile : ∃ action path cause, fault = .file action path cause := by
      unfold SourceUnit.read at hread
      split at hread
      · cases hread
      · rename_i path _
        cases htext : disk.readText path with
        | ok text =>
          rw [htext] at hread
          cases hread
        | error cause =>
          rw [htext] at hread
          cases hread
          exact ⟨_, _, _, rfl⟩
    obtain ⟨action, path, cause, rfl⟩ := hfile
    exact .quiet rfl nofun
  · split
    · exact .ok _
    · exact .one rfl _

theorem accounts_readSources (units : List SourceUnit) :
    (readSources disk settings units).Accounts disk settings := by
  induction units with
  | nil => exact .ok _
  | cons unit units ih =>
    exact (accounts_readSource unit).andThen fun program _ => ih.andThen fun batch _ => .ok _

/-- Typing tells one diagnostic for each type fault, behind the trees if those are asked for. -/
theorem diagnostics_typeBatch (env : Environment) (batch : List Program) :
    (typeBatch disk settings env batch).diagnostics =
      (infer (env.signatures disk) batch).diagnostics.map Diagnostic.ofTypeDiagnostic := by
  have htrees : ∀ trees : List Program,
      (trees.map (Remark.note ·.sexpr)).filterMap Remark.diagnostic = [] := by
    intro trees
    rw [List.filterMap_map]
    exact List.filterMap_eq_nil_iff.mpr fun _ _ => rfl
  simp only [typeBatch, Phase.diagnostics, List.filterMap_append]
  have hfound : ∀ found : List TypeDiagnostic,
      (found.map fun d => Remark.ofDiagnostic disk settings (.ofTypeDiagnostic d)).filterMap
        Remark.diagnostic = found.map Diagnostic.ofTypeDiagnostic := by
    intro found
    rw [List.filterMap_map, ← List.filterMap_eq_map]
    rfl
  rw [hfound]
  split
  · rw [htrees, List.nil_append]
  · rfl

theorem accounts_typeBatch (env : Environment) (batch : List Program) :
    (typeBatch disk settings env batch).Accounts disk settings := by
  have hdiagnostics : (typeBatch disk settings env batch).diagnostics = _ :=
    diagnostics_typeBatch env batch
  refine ⟨?_, ?_, ?_⟩
  · refine List.forall_mem_append.mpr ⟨?_, ?_⟩
    · split
      · exact List.forall_mem_map.mpr fun _ _ => Remark.shown_note _
      · exact List.forall_mem_nil _
    · exact List.forall_mem_map.mpr fun _ _ => Remark.shown_ofDiagnostic _
  · rw [hdiagnostics, List.length_map]
    by_cases hclean : (infer (env.signatures disk) batch).diagnostics = []
    · rw [typeBatch_ok disk settings hclean, hclean]
      rfl
    · rw [typeBatch_error disk settings hclean]
      rfl
  · by_cases hclean : (infer (env.signatures disk) batch).diagnostics = []
    · rw [typeBatch_ok disk settings hclean]
      nofun
    · rw [typeBatch_error disk settings hclean]
      intro h
      cases hcount : (infer (env.signatures disk) batch).diagnostics.length with
      | zero => exact hclean (List.eq_nil_of_length_eq_zero hcount)
      | succ n =>
        rw [hcount] at h
        cases h

/-- The part of a production before anything is generated. -/
abbrev readAndType (disk : Disk) (settings : Settings) (env : Environment)
    (units : List SourceUnit) : Phase (List Program) :=
  (readSources disk settings units).andThen (typeBatch disk settings env)

theorem accounts_readAndType (disk : Disk) (settings : Settings) (env : Environment)
    (units : List SourceUnit) :
    (readAndType disk settings env units).Accounts disk settings :=
  (accounts_readSources units).andThen fun batch _ => accounts_typeBatch env batch

/-! ## Generating -/

/-- What is told of the end of generating. -/
theorem shown_codeRemarks (result : Except SessionFault Unit) :
    ∀ remark ∈ codeRemarks disk settings result, remark.Shown disk settings := by
  unfold codeRemarks
  split
  · exact List.forall_mem_map.mpr fun _ _ => Remark.shown_ofDiagnostic _
  · exact List.forall_mem_nil _

/-- Generating tells as many diagnostics as go with a fault, unless the fault says that a batch
could not be read or typed. -/
theorem length_codeRemarks (fault : SessionFault) :
    ((codeRemarks disk settings (.error fault)).filterMap Remark.diagnostic).length =
      if fault.isOfBatch then 0 else fault.diagnosed := by
  cases fault with
  | code fault => cases fault <;> rfl
  | _ => rfl

/-- If the sink refuses a class with the fault, then the fault does not say that a batch could not
be read or typed. -/
def Candid {σ : Type} (accept : Sink σ) (fault : SessionFault) : Prop :=
  ∀ sink product, (accept sink product).2 = .error fault → fault.isOfBatch = false

theorem candid_keep (fault : SessionFault) : Candid keep fault := nofun

theorem candid_writeBelow (destination : String) (fault : SessionFault) :
    Candid (writeBelow destination) fault := by
  intro disk product h
  unfold writeBelow at h
  simp only at h
  split at h
  · cases h
    rfl
  · split at h
    · cases h
      rfl
    · cases h

section

variable {σ : Type} {accept : Sink σ}

theorem isOfBatch_of_handUnit {delivery : Delivery σ} {program : Program} {fault : SessionFault}
    (h : (handUnit settings accept delivery program).2 = .error fault)
    (hcandid : Candid accept fault) : fault.isOfBatch = false := by
  unfold handUnit at h
  simp only at h
  split at h
  · rename_i hdeliver
    cases h
    rcases deliver_error hdeliver with ⟨name, rfl, -⟩ | ⟨sink, product, hrefused⟩
    · rfl
    · exact hcandid sink product hrefused
  · split at h
    · cases h
    · cases h
      rfl

/-- All that generating tells is told of its end. -/
theorem remarks_deliverBatch (delivery : Delivery σ) (batch : List Program) :
    (deliverBatch disk settings accept delivery batch).2.remarks =
      codeRemarks disk settings (deliverBatch disk settings accept delivery batch).2.result := by
  induction batch generalizing delivery with
  | nil => rfl
  | cons program rest ih =>
    rw [deliverBatch]
    dsimp only
    have hunit : (deliverUnit disk settings accept delivery program).2.remarks =
        codeRemarks disk settings (deliverUnit disk settings accept delivery program).2.result :=
      rfl
    cases hresult : (deliverUnit disk settings accept delivery program).2.result with
    | error fault =>
      dsimp only
      rw [hunit]
    | ok done =>
      -- a unit that is at no fault tells nothing
      dsimp only
      rw [Phase.andThen_ok hresult, hunit, hresult]
      exact ih _

/-- Generating itself does not say that a batch could not be read or typed. -/
theorem isOfBatch_of_deliverBatch {delivery : Delivery σ} {batch : List Program}
    {fault : SessionFault}
    (h : (deliverBatch disk settings accept delivery batch).2.result = .error fault)
    (hcandid : Candid accept fault) : fault.isOfBatch = false := by
  induction batch generalizing delivery with
  | nil => cases h
  | cons program rest ih =>
    rw [deliverBatch] at h
    dsimp only at h
    cases hunit : (deliverUnit disk settings accept delivery program).2.result with
    | error other =>
      simp only [hunit] at h
      cases h
      exact isOfBatch_of_handUnit hunit hcandid
    | ok done =>
      simp only [hunit, Phase.andThen_ok hunit] at h
      exact ih h

end

/-! ## Productions -/

namespace Phase.Accounts

variable {α : Type} {phase : Phase α}

theorem diagnostics_eq_nil (h : phase.Accounts disk settings) {a : α} (hok : phase.result = .ok a) :
    phase.diagnostics = [] := by
  have hcount := h.count
  rw [hok] at hcount
  exact List.eq_nil_of_length_eq_zero hcount

theorem length_diagnostics (h : phase.Accounts disk settings) {fault : SessionFault}
    (hfault : phase.result = .error fault) : phase.diagnostics.length = fault.diagnosed := by
  have hcount := h.count
  rwa [hfault] at hcount

/-- There are diagnostics exactly for the faults that count as reported. -/
theorem isReported_iff (h : phase.Accounts disk settings) {fault : SessionFault}
    (hfault : phase.result = .error fault) :
    fault.isReported = true ↔ phase.diagnostics ≠ [] := by
  have hcounted : fault ≠ .illTyped 0 := by
    rintro rfl
    exact h.counted hfault
  rw [SessionFault.isReported_iff hcounted, ← h.length_diagnostics hfault, List.length_pos_iff]

end Phase.Accounts

section

variable {σ : Type} {accept : Sink σ} {sink : σ} {env : Environment} {units : List SourceUnit}

/-- A production that fails in reading or typing tells what these tell. -/
theorem produce_of_error {fault : SessionFault}
    (h : (readAndType disk settings env units).result = .error fault) :
    (produce disk settings env accept sink units).2 =
      ⟨(readAndType disk settings env units).remarks, .error fault⟩ := by
  unfold produce deliverTo
  rw [h]

/-- A production that goes on to generating tells what is told of its end, besides the trees. -/
theorem produce_of_ok {programs : List Program}
    (h : (readAndType disk settings env units).result = .ok programs) :
    (produce disk settings env accept sink units).2.remarks =
      (readAndType disk settings env units).remarks ++
        codeRemarks disk settings (produce disk settings env accept sink units).2.result ∧
    (produce disk settings env accept sink units).2.result =
      (deliverBatch disk settings accept { sink } programs).2.result := by
  unfold produce deliverTo
  rw [h]
  dsimp only
  rw [Phase.andThen_ok h]
  exact ⟨congrArg _ (remarks_deliverBatch _ _), rfl⟩

/-- What a production tells is written in full. -/
theorem shown_produce :
    ∀ remark ∈ (produce disk settings env accept sink units).2.remarks,
      remark.Shown disk settings := by
  have hbatch := (accounts_readAndType disk settings env units).shown
  cases h : (readAndType disk settings env units).result with
  | error fault =>
    rw [produce_of_error h]
    exact hbatch
  | ok programs =>
    rw [(produce_of_ok h).1]
    exact List.forall_mem_append.mpr ⟨hbatch, shown_codeRemarks _⟩

/-- Of the end of a production that goes on to generating, as many diagnostics are told as go with
it, unless it says that a batch could not be read or typed. -/
theorem length_diagnostics_of_ok {programs : List Program} {fault : SessionFault}
    (h : (readAndType disk settings env units).result = .ok programs)
    (hfault : (produce disk settings env accept sink units).2.result = .error fault) :
    (produce disk settings env accept sink units).2.diagnostics.length =
      if fault.isOfBatch then 0 else fault.diagnosed := by
  have hnone := (accounts_readAndType disk settings env units).diagnostics_eq_nil h
  rw [Phase.diagnostics, (produce_of_ok h).1, List.filterMap_append, ← Phase.diagnostics, hnone,
    List.nil_append, hfault, length_codeRemarks]

/-- A production tells as many diagnostics as go with the fault that it ends with, if the sink does
not claim that the batch could not be read or typed. -/
theorem diagnostics_produce {fault : SessionFault} (hcandid : Candid accept fault)
    (hfault : (produce disk settings env accept sink units).2.result = .error fault) :
    ((produce disk settings env accept sink units).2.diagnostics ≠ [] ↔
        fault.isReported = true) ∧
      (produce disk settings env accept sink units).2.diagnostics.length = fault.diagnosed := by
  have haccounts := accounts_readAndType disk settings env units
  cases h : (readAndType disk settings env units).result with
  | error other =>
    rw [produce_of_error h] at hfault ⊢
    cases hfault
    exact ⟨(haccounts.isReported_iff h).symm, haccounts.length_diagnostics h⟩
  | ok programs =>
    have hlength := length_diagnostics_of_ok h hfault
    have hbatch := isOfBatch_of_deliverBatch ((produce_of_ok h).2.symm.trans hfault) hcandid
    have hcounted : fault ≠ .illTyped 0 := by
      rintro rfl
      cases hbatch
    rw [hbatch, if_neg Bool.false_ne_true] at hlength
    refine ⟨?_, hlength⟩
    rw [SessionFault.isReported_iff hcounted, ← hlength, List.length_pos_iff]

/-- A production that does not fail tells no diagnostics. -/
theorem diagnostics_produce_of_ok
    (hok : (produce disk settings env accept sink units).2.result = .ok ()) :
    (produce disk settings env accept sink units).2.diagnostics = [] := by
  cases h : (readAndType disk settings env units).result with
  | error fault =>
    rw [produce_of_error h] at hok
    cases hok
  | ok programs =>
    have hnone := (accounts_readAndType disk settings env units).diagnostics_eq_nil h
    rw [Phase.diagnostics, (produce_of_ok h).1, List.filterMap_append, ← Phase.diagnostics, hnone,
      hok]
    rfl

end

end

/-! ## Commands -/

/-- Once the phase has told what it has to tell, the fault of the outcome is told once: nothing more
is told if the phase told diagnostics, and else its code and its message, on a line at the end. -/
structure Outcome.TellsOnce (outcome : Outcome) (phase : Phase Unit) : Prop where
  begins : ∃ more, outcome.err = String.join (phase.remarks.map Remark.text) ++ more
  silent : outcome.fault ≠ none → phase.diagnostics ≠ [] → outcome.told = outcome.err
  told : ∀ fault, outcome.fault = some fault → phase.diagnostics = [] →
    ∃ rest, outcome.told = outcome.err ++
      (fault.notice.code ++ " | " ++ fault.notice.message ++ " | " ++ rest) ++ "\n"

theorem Outcome.tellsOnce {outcome : Outcome} {phase : Phase Unit} (more : String)
    (herr : outcome.err = phase.report ++ more)
    (hreported : ∀ fault, outcome.fault = some fault →
      (phase.diagnostics ≠ [] ↔ fault.isReported = true)) : outcome.TellsOnce phase := by
  refine ⟨⟨more, herr⟩, ?_, ?_⟩
  · intro hfailed hsome
    obtain ⟨fault, hfault⟩ := Option.ne_none_iff_exists'.mp hfailed
    rw [Outcome.told, hfault]
    exact if_pos ((hreported fault hfault).mp hsome)
  · intro fault hfault hnone
    have hquiet : ¬ fault.isReported = true := fun h => (hreported fault hfault).mpr h hnone
    refine ⟨fault.notice.help.getD "-" ++ " | [" ++
      ",".intercalate (fault.notice.labels.map Label.show) ++ "]", ?_⟩
    rw [Outcome.told, hfault]
    simp only [if_neg hquiet, Notice.line, String.append_assoc]

theorem eq_error_of_faultOf {α : Type} {result : Except SessionFault α} {fault : SessionFault}
    (h : faultOf result = some fault) : result = .error fault := by
  cases result with
  | ok a => cases h
  | error fault =>
    cases h
    rfl

/-- Faults of starting a program are not reported. -/
theorem isReported_of_launch {disk : Disk} {settings : Settings} {loader : BatchLoader}
    {fuel : Nat} {args : List String} {fault : SessionFault}
    (h : (launch disk settings loader fuel args).result = .error fault) :
    fault.isReported = false := by
  unfold launch launchBy at h
  split at h
  · cases h
    rfl
  · split at h
    · unfold start at h
      split at h
      · cases h
      · cases h
        rfl
      · cases h
    · cases h

/-- The production of a command that compiles. -/
abbrev compiling (disk : Disk) (prepared : Prepared) : Disk × Phase Unit :=
  produce disk prepared.settings prepared.environment (writeBelow prepared.settings.destination)
    disk prepared.units

/-- The production of a command that runs what it compiles. -/
abbrev running (disk : Disk) (prepared : Prepared) : List Product × Phase Unit :=
  produce disk prepared.settings prepared.environment keep [] prepared.units

theorem tellsOnce_compileUnits (disk : Disk) (prepared : Prepared) :
    (compileUnits disk prepared).TellsOnce (compiling disk prepared).2 := by
  refine Outcome.tellsOnce "" (String.append_empty).symm fun fault hfault => ?_
  exact (diagnostics_produce (candid_writeBelow _ fault) (eq_error_of_faultOf hfault)).1

theorem tellsOnce_runUnits (fuel : Nat) (args : List String) (disk : Disk) {prepared : Prepared}
    (hbackend : prepared.settings.backend = .bytecode) :
    (runUnits fuel args disk prepared).TellsOnce (running disk prepared).2 := by
  rw [runUnits]
  simp only [if_pos hbackend]
  split
  · rename_i fault hresult
    refine Outcome.tellsOnce "" (String.append_empty).symm fun fault hfault => ?_
    cases hfault
    exact (diagnostics_produce (candid_keep fault) hresult).1
  · rename_i hresult
    -- the production did not fail, so what fails is the start of the program
    refine Outcome.tellsOnce _ rfl fun fault hfault => ?_
    rw [isReported_of_launch (eq_error_of_faultOf hfault), diagnostics_produce_of_ok hresult]
    simp

/-- **Failures are told once.** A production that fails has told some diagnostic exactly if its
fault counts as reported, and as many as go with the fault, whatever the sink, as long as it is not
the sink that claims that the batch could not be read or typed; of such a claim nothing is told.
Type faults are told in the number that the fault counts. All diagnostics are written in full. So a
command that compiles, or compiles and runs, tells its fault either by the diagnostics of its
production or by a line at the end, and never both ways or in neither. -/
theorem failures_are_told_once :
    (∀ (σ : Type) (accept : Sink σ) (sink : σ) (disk : Disk) (settings : Settings)
        (env : Environment) (units : List SourceUnit) (fault : SessionFault),
      let phase := (produce disk settings env accept sink units).2
      phase.result = .error fault →
        (Candid accept fault →
          (phase.diagnostics ≠ [] ↔ fault.isReported = true) ∧
            phase.diagnostics.length = fault.diagnosed) ∧
        (∀ programs, (readAndType disk settings env units).result = .ok programs →
          fault.isOfBatch = true → phase.diagnostics = []) ∧
        (∀ count, (readAndType disk settings env units).result = .error (.illTyped count) →
          fault = .illTyped count ∧ phase.diagnostics.length = count) ∧
        ∀ remark ∈ phase.remarks, remark.Shown disk settings) ∧
    (∀ disk prepared, (compileUnits disk prepared).TellsOnce (compiling disk prepared).2) ∧
    ∀ fuel args disk prepared, prepared.settings.backend = .bytecode →
      (runUnits fuel args disk prepared).TellsOnce (running disk prepared).2 := by
  refine ⟨?_, tellsOnce_compileUnits, fun fuel args disk _ => tellsOnce_runUnits fuel args disk⟩
  intro σ accept sink disk settings env units fault phase hfault
  refine ⟨fun hcandid => diagnostics_produce hcandid hfault, ?_, ?_, shown_produce⟩
  · intro programs htyped hbatch
    have hlength : phase.diagnostics.length = _ := length_diagnostics_of_ok htyped hfault
    rw [if_pos hbatch] at hlength
    exact List.eq_nil_of_length_eq_zero hlength
  · intro count hill
    have hphase : phase =
        ⟨(readAndType disk settings env units).remarks, .error (.illTyped count)⟩ :=
      produce_of_error hill
    rw [hphase] at hfault ⊢
    cases hfault
    exact ⟨rfl, (accounts_readAndType disk settings env units).length_diagnostics hill⟩

/-- A script that calls two classes that there are not. -/
def strayUnits : List SourceUnit := [.inline "puts Here.f\nputs There.g\n"]

theorem strayUnits_are_told_once :
    let phase := (produce {} {} {} keep [] strayUnits).2
    phase.result = .error (.illTyped 2) ∧ phase.diagnostics.length = 2 ∧
      phase.remarks.map Remark.text =
        ["DashE:1: Cannot find class Here\n", "DashE:2: Cannot find class There\n"] := by
  have hfailed : (produce {} {} {} keep [] strayUnits).2.result = .error (.illTyped 2) := by
    decide +kernel
  have hill : faultOf (readAndType {} {} {} strayUnits).result = some (.illTyped 2) := by
    decide +kernel
  obtain ⟨hproduce, -⟩ := failures_are_told_once
  obtain ⟨-, -, hcount, -⟩ := hproduce _ keep [] {} {} {} strayUnits _ hfailed
  exact ⟨hfailed, (hcount 2 (eq_error_of_faultOf hill)).2, by decide +kernel⟩

/-- A sink that refuses every class and claims that a unit could not be read. -/
def claimingSink : Sink Unit := fun done _ => (done, .error (.unreadable "a.mirah"))

/-- The fault of such a sink counts as reported, but nothing is told of it. -/
theorem claimingSink_is_not_told :
    ¬ ∀ (σ : Type) (accept : Sink σ) (sink : σ) (disk : Disk) (settings : Settings)
        (env : Environment) (units : List SourceUnit) (fault : SessionFault),
      (produce disk settings env accept sink units).2.result = .error fault →
        ((produce disk settings env accept sink units).2.diagnostics ≠ [] ↔
          fault.isReported = true) := by
  intro h
  have hfailed : (produce {} {} {} claimingSink () [.inline "puts 1\n"]).2.result =
      .error (.unreadable "a.mirah") := by
    decide +kernel
  have hnone : (produce {} {} {} claimingSink () [.inline "puts 1\n"]).2.diagnostics = [] := by
    decide +kernel
  exact (h Unit claimingSink () {} {} {} _ _ hfailed).mpr rfl hnone

end StackScript.Session

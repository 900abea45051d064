import StackScript.Proofs.Launching
import StackScript.Proofs.Preserving

/-!
# Typed programs do not go wrong

Running a program of a batch that passed inference fails only as programs may: the program raises,
divides by zero, leaves the bounds of an array, reads a text that is no integer or calls too deep.
There is one way out of this: a local that was assigned on another path only is typed all the same,
and what a run does after it has read such a local is left open (`launch_never_goes_wrong`). The
methods have to have distinct parameters and to fit into code, which inference does not look at.
-/

namespace StackScript.Machine

open StackScript.Code StackScript.Meaning StackScript.Syntax StackScript.Typing

/-- A failure of the program, not of the types or the shape of its code. -/
def RuntimeFault.isOwn : RuntimeFault → Bool
  | raised _ | divisionByZero | indexOutOfBounds _ _ | invalidInteger _ | stackOverflow _ _ => true
  | _ => false

/-- An invocation comes to an instruction that reads a local without a value. -/
inductive ComesToUnassigned (pool : Pool) (unit : LoadedUnit) (method : String)
    (args : List Value) : Prop where
  | reading {frame : Frame} {state : State} (henter : enter unit method args = .ok (.frame frame))
    (hreaches : Reaches pool (.working { frame }) (.working state)) (hreads : state.ReadsUnassigned)

theorem admits_isOwn : Admits fun fault => fault.isOwn = true :=
  ⟨fun _ => rfl, rfl, fun _ _ => rfl, fun _ _ => rfl⟩

/-- A machine has one end. -/
theorem eq_of_reaches_finished {pool : Pool} {status : Status} {a b : Finished}
    (ha : Reaches pool status (.finished a)) (hb : Reaches pool status (.finished b)) : a = b := by
  obtain ⟨m, hm⟩ := ha
  obtain ⟨n, hn⟩ := hb
  have hmn : status.after pool (m + n) = .finished a := by
    rw [after_add, hm, after_finished]
  have hnm : status.after pool (n + m) = .finished b := by
    rw [after_add, hn, after_finished]
  rw [Nat.add_comm, hnm] at hmn
  cases hmn
  rfl

/-- A machine that follows an evaluation and ends at a fault ends at an allowed one, unless it reads
a local without a value on its way. -/
theorem Follows.fault {α : Type} {pool : Pool} {allowed : RuntimeFault → Prop} {fuel : Nat}
    {state : State} {printed : String} {doing : Doing α} {goal : α → String → Status → Prop}
    (h : Follows pool allowed (fuel + 1) (.working state) printed doing goal)
    (hgoal : ∀ a out later, goal a out later → ∃ value, later = .finished ⟨.ok value, out⟩)
    {fault : RuntimeFault} {out : String} (hrun : run pool fuel state = some ⟨.error fault, out⟩) :
    allowed fault ∨
      ∃ later, Reaches pool (.working state) (.working later) ∧ later.ReadsUnassigned := by
  have hend := after_of_run hrun
  unfold Follows at h
  split at h
  · obtain ⟨later, hlater, hdone⟩ := h
    obtain ⟨value, rfl⟩ := hgoal _ _ _ hdone
    cases eq_of_reaches_finished hlater ⟨fuel, hend⟩
  · cases eq_of_reaches_finished h.2 ⟨fuel, hend⟩
    exact .inl h.1
  · exact .inr h
  · -- the loops were given more rounds than the machine took steps
    obtain ⟨later, hlater⟩ := h
    rw [after_add, hend] at hlater
    cases hlater

/-- An invocation of a method on offer fails by a failure of its own, unless it reads a local
without a value. -/
theorem invoke_sound {options : Options} {externals : Externals} {batch : List Program}
    (h : Compiled options externals batch) (hfits : Fits (infer externals batch).batch)
    (hnative : NativeOnly externals) {pool : Pool} (hpool : Holds options externals batch pool)
    {d : Definition} (hd : d ∈ batchDefinitions (infer externals batch).batch) {sig : MethodSig}
    (hoffer : (infer externals batch).offering externals d.name sig) {unit : LoadedUnit}
    (hunit : pool.Has unit) (hname : unit.name = d.name) {args : List Value}
    (hargs : Value.HaveTys args sig.params) {fuel : Nat} {fault : RuntimeFault} {out : String}
    (hrun : invoke pool fuel unit sig.name args = some ⟨.error fault, out⟩) :
    fault.isOwn = true ∨ ComesToUnassigned pool unit sig.name args := by
  -- one round more than there are steps, so that no loop ends the evaluation before the run
  have hfaithful : Faithful pool (fun fault => fault.isOwn = true) (fuel + 1) _ _ _ :=
    faithful_nativeCalls h hnative hpool (fun _ => rfl) (fun _ => rfl) (fuel + 1)
  obtain ⟨m, frame, -, henter, hfollows⟩ := invoke_follows h hfits (fewOutside_of_native hnative)
    hpool.toCarries hfaithful admits_isOwn hd hoffer hunit hname hargs
  unfold invoke at hrun
  rw [henter] at hrun
  have hgoal : ∀ (value : Value) (out : String) (later : Status),
      value.HasTy sig.ret ∧ later = .finished ⟨.ok value, out⟩ →
        ∃ value, later = .finished ⟨.ok value, out⟩ :=
    fun value _ _ hdone => ⟨value, hdone.2⟩
  rcases hfollows.fault hgoal hrun with hown | ⟨later, hlater, hreads⟩
  · exact .inl hown
  · exact .inr (.reading henter hlater hreads)

end StackScript.Machine

namespace StackScript.Session

open StackScript.Code StackScript.Files StackScript.Loading StackScript.Machine StackScript.Syntax
  StackScript.Typing

theorem hasTy_strings (items : List String) : (Value.strings items).HasTy (.array .string) := by
  refine .array fun item hitem => ?_
  obtain ⟨s, -, rfl⟩ := List.mem_map.mp hitem
  exact .string

/-- A script of statements only. -/
def scriptOf (stmts : List Stmt) : Program where
  source := inlineName
  package := none
  items := stmts.map .stmt
  span := default

/-- A script that prints `1 / 0`. -/
def zeroScript : Program :=
  scriptOf [.puts (.binary .div (.int 1 default) (.int 0 default) default) default]

/-- A script that assigns `x = 1` in a branch that is never taken, and prints `x + 1` after it. -/
def unassignedScript : Program :=
  scriptOf
    [.cond (.branch (.bool false default)
        (.mk [.assign ⟨"x", default⟩ (.int 1 default) default] default) .done) default,
      .puts (.binary .add (.var ⟨"x", default⟩ default) (.int 1 default) default) default]

/-- Once a batch passed inference in an environment without directories of payloads and its classes
were kept, a program that it runs fails by a failure of its own, unless the run comes to read a
local without a value. -/
theorem launch_never_goes_wrong {env : Environment} (hdirs : NoDirectories env) {disk : Disk}
    {batch : List Program} (hclean : (infer (env.signatures disk) batch).diagnostics = [])
    (hfits : Fits (infer (env.signatures disk) batch).batch) {settings : Settings}
    (hbackend : settings.backend = .bytecode) {reportDisk : Disk}
    {delivery : Delivery (List Product)} {phase : Phase Unit}
    (hdelivery : deliverBatch reportDisk settings keep { sink := [] }
      (infer (env.signatures disk) batch).batch = (delivery, phase))
    (hok : phase.result = .ok ())
    (hbytes : ∀ product ∈ delivery.sink, product.bytes.length < UInt64.size) (loadDisk : Disk)
    (launchSettings : Settings) (fuel : Nat) (args : List String) :
    let launched :=
      launch loadDisk launchSettings (.start (.ofList delivery.sink) env) fuel args
    ∀ fault, launched.result = .error (.execution fault) → fault.isOwn = true ∨
      ∃ unit, entryUnit? launched.loader = some unit ∧
        ComesToUnassigned launched.loader.pool unit "main" [.strings args] := by
  have h := supply_of_deliverBatch hdirs hclean (fewParams_of_fits hfits) hbackend hdelivery hok
    hbytes
  rw [ofList_eq h.distinct]
  obtain ⟨after, hserves, hlaunch⟩ := h.launch_eq loadDisk launchSettings fuel args
  intro launched fault hresult
  have hlaunched : launched = _ := hlaunch
  rw [hlaunched] at hresult ⊢
  split at hresult
  · rename_i unit hunit
    obtain ⟨hheld, hentry⟩ := Supply.has_of_entryUnit? hunit
    obtain ⟨d, hd, hname, sig, hoffer, hsigname, hparams⟩ :=
      h.exists_of_hasEntryPoint hserves hheld hentry
    have hargs : Value.HaveTys [.strings args] sig.params :=
      hparams ▸ .cons (hasTy_strings args) .nil
    -- starting changes no link, so the pool at the end is the one that the method ran on
    have hstart : (start after fuel unit args).loader = after := by
      unfold start
      split <;> rfl
    simp only [hstart]
    unfold start at hresult
    split at hresult
    · cases hresult
    · rename_i found out hrun
      cases hresult
      rw [← hsigname] at hrun ⊢
      rcases invoke_sound h.compiled hfits (nativeOnly_signatures hdirs disk) (h.holds hserves) hd
        hoffer hheld hname hargs hrun with hown | hreads
      · exact .inl hown
      · exact .inr ⟨unit, hunit, hreads⟩
    · cases hresult
  · cases hresult

theorem launch_of_zeroScript :
    let typed := (infer (Environment.signatures {} {}) [zeroScript.gather]).batch
    let made := deliverBatch {} {} keep { sink := [] } typed
    let launched := launch {} {} (.start (.ofList made.1.sink) {}) 10 []
    Fits typed ∧ made.2.result = .ok () ∧
    launched.result = .error (.execution .divisionByZero) ∧
    (RuntimeFault.divisionByZero.isOwn = true ∨
      ∃ unit, entryUnit? launched.loader = some unit ∧
        ComesToUnassigned launched.loader.pool unit "main" [.strings []]) := by
  intro typed made launched
  have hclean : (infer (Environment.signatures {} {}) [zeroScript.gather]).diagnostics = [] := by
    decide +kernel
  have hfits : Fits typed := by
    decide +kernel
  have hok : made.2.result = .ok () := by
    decide +kernel
  have hbytes : ∀ product ∈ made.1.sink, product.bytes.length < UInt64.size := by
    decide +kernel
  have hresult : launched.result = .error (.execution .divisionByZero) := by
    decide +kernel
  have h := launch_never_goes_wrong ⟨rfl, rfl⟩ hclean hfits rfl (Prod.eta made).symm hok hbytes {}
    {} 10 [] .divisionByZero hresult
  exact ⟨hfits, hok, hresult, h⟩

-- a local without a value leaves the types behind, though the script has a clean inference
example :
    let inferred := infer (Environment.signatures {} {}) [unassignedScript.gather]
    let made := deliverBatch {} {} keep { sink := [] } inferred.batch
    inferred.diagnostics = [] ∧ Fits inferred.batch ∧
      (launch {} {} (.start (.ofList made.1.sink) {}) 10 []).result
        = .error (.execution (.typeMismatch "int" "void")) := by
  decide +kernel

end StackScript.Session

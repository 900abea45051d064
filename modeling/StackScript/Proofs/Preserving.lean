import StackScript.Proofs.Calling
import StackScript.Proofs.Generating
import StackScript.Proofs.Running

/-!
# Compiled batches do what their trees mean

In a pool that carries a compiled batch, whose methods keep within what code can count, every call
follows what it means at every depth (`callsFollow`), provided that the classes around the batch do.
So a method that comes to an end in the tree comes to the same end in the machine
(`invoke_preserves_meaning`).
-/

namespace StackScript.Machine

open StackScript.Code StackScript.Meaning StackScript.Session StackScript.Syntax
  StackScript.Typing

/-! ## What code can count -/

/-- The methods of a batch have distinct parameters, and no more locals and instructions than code
can count. -/
structure Fits (typed : List Program) : Prop where
  distinct : ∀ d ∈ batchDefinitions typed, ∀ m ∈ d.cls.methods,
    (m.params.map (·.name.name)).Nodup
  locals : ∀ d ∈ batchDefinitions typed, ∀ m ∈ d.cls.methods, (methodNames m).length ≤ 65535
  places : ∀ d ∈ batchDefinitions typed, ∀ m ∈ d.cls.methods, ∀ code,
    methodCode d.file m = .ok code → code.code.size < UInt32.size

instance : DecidablePred Fits := fun typed =>
  decidable_of_iff (∀ d ∈ batchDefinitions typed, ∀ m ∈ d.cls.methods,
    (m.params.map (·.name.name)).Nodup ∧ (methodNames m).length ≤ 65535 ∧
      (methodCode d.file m).toOption.all (·.code.size < UInt32.size) = true) <| by
    constructor
    · refine fun h => ⟨fun d hd m hm => (h d hd m hm).1, fun d hd m hm => (h d hd m hm).2.1, ?_⟩
      intro d hd m hm code hcode
      simpa [hcode, Except.toOption] using (h d hd m hm).2.2
    · refine fun h d hd m hm => ⟨h.distinct d hd m hm, h.locals d hd m hm, ?_⟩
      cases hcode : methodCode d.file m with
      | ok code => simpa [Except.toOption] using h.places d hd m hm code hcode
      | error fault => rfl

theorem fewParams_of_fits {externals : Externals} {batch : List Program}
    (h : Fits (infer externals batch).batch) : FewParams batch := by
  intro file cls m hm
  obtain ⟨d, hd, -, typed, htyped, -, hsame⟩ := Compiled.definition_of_method hm
  -- parameters are among the locals, which are few
  have hparams := (prefix_methodNames (h.distinct d hd typed htyped)).length_le
  rw [List.length_map, hsame] at hparams
  exact Nat.le_trans hparams (h.locals d hd typed htyped)

/-! ## Calls that follow what they mean -/

/-- The batch of the trees, with what calls of other classes do. -/
def batchWorld (typed : List Program) (outside : Nat → Calls) : World :=
  ⟨batchMethod? typed, outside⟩

/-- Calls of methods on offer, with room for so many calls inside each other, do in these units of
the pool what they mean. -/
def CallsFollow (pool : Pool) (allowed : RuntimeFault → Prop) (rounds : Nat) (offers : Offering)
    (units : LoadedUnit → Prop) (room : Nat) (calls : Calls) : Prop :=
  ∀ ⦃target : LoadedUnit⦄ ⦃sig : MethodSig⦄ ⦃args : List Value⦄, pool.Has target → units target →
    offers target.name sig → Value.HaveTys args sig.params →
      ∀ (frame : Frame) (callers : Callers) (out : String), callers.count + room + 1 = maxDepth →
        Follows pool allowed rounds (afterCall frame callers out target sig.name args) out
          (calls target.name sig.name args)
          fun value out later => value.HasTy sig.ret ∧
            later = .working ⟨frame.receive value, callers, out⟩

/-- What is said to be done by calls of classes outside the batch is what their units do. -/
def Faithful (pool : Pool) (allowed : RuntimeFault → Prop) (rounds : Nat) (typed : List Program)
    (offers : Offering) (outside : Nat → Calls) : Prop :=
  ∀ room, CallsFollow pool allowed rounds offers
    (fun target => ∀ d ∈ batchDefinitions typed, d.name ≠ target.name) (room + 1) (outside room)

/-! ## Native classes -/

/-- What calls of native classes do. -/
def nativeCalls (cls method : String) (args : List Value) : Doing Value :=
  match [NativeClass.integer, .math, .text].find? (·.name = cls) with
  | some native => .ofExcept (native.call method args)
  | none => .fail (.unlinked cls)

theorem nativeCalls_eq (cls : NativeClass) (method : String) (args : List Value) :
    nativeCalls cls.name method args = .ofExcept (cls.call method args) := by
  cases cls <;> rfl

/-- A native method gives a value of its return type for arguments of its parameter types. -/
theorem run_yields {allowed : RuntimeFault → Prop} (hraised : ∀ text, allowed (.raised text))
    (hinteger : ∀ text, allowed (.invalidInteger text)) {cls : NativeClass} {m : NativeMethod}
    (h : m ∈ cls.methods) {args : List Value} (hargs : Value.HaveTys args m.sig.params) :
    Yields allowed (m.run args) m.sig.ret := by
  -- native methods differ in what they compute, not in how they take their arguments
  have onString : ∀ {name ret f}, (∀ s, Yields allowed (f s) ret) → ∀ {args},
      Value.HaveTys args [.string] → Yields allowed ((onString name ret f).run args) ret := by
    rintro name ret f hf _ (_ | ⟨_ | _ | _, _ | _⟩)
    exact hf _
  have onInt : ∀ {name ret f}, (∀ n, Yields allowed (f n) ret) → ∀ {args},
      Value.HaveTys args [.int] → Yields allowed ((onInt name ret f).run args) ret := by
    rintro name ret f hf _ (_ | ⟨_ | _, _ | _⟩)
    exact hf _
  have onInts : ∀ {name ret f}, (∀ a b, Yields allowed (f a b) ret) → ∀ {args},
      Value.HaveTys args [.int, .int] → Yields allowed ((onInts name ret f).run args) ret := by
    rintro name ret f hf _ (_ | ⟨_ | _, _ | ⟨_ | _, _ | _⟩⟩)
    exact hf _ _
  have hparse : ∀ s, Yields allowed (.int <$> parseInteger s) .int := by
    intro s
    unfold parseInteger
    split
    · exact .ok .int
    · exact .error (hinteger s)
  have hpow : ∀ a b, Yields allowed (.int <$> powInteger a b) .int := by
    intro a b
    unfold powInteger
    split
    · exact .ok .int
    · exact .error (hraised _)
  cases cls with
  | integer =>
    simp only [NativeClass.methods, List.mem_cons, List.not_mem_nil, or_false] at h
    rcases h with rfl | rfl
    · exact onString hparse hargs
    · exact onInt (fun n => .ok .string) hargs
  | math =>
    simp only [NativeClass.methods, List.mem_cons, List.not_mem_nil, or_false] at h
    rcases h with rfl | rfl | rfl | rfl
    · exact onInts (fun a b => .ok .int) hargs
    · exact onInts (fun a b => .ok .int) hargs
    · exact onInt (fun n => .ok .int) hargs
    · exact onInts hpow hargs
  | text =>
    simp only [NativeClass.methods, List.mem_cons, List.not_mem_nil, or_false] at h
    rcases h with rfl | rfl | rfl | rfl
    · exact onString (fun s => .ok .string) hargs
    · exact onString (fun s => .ok .string) hargs
    · exact onString (fun s => .ok .string) hargs
    · exact onString (fun s => .ok .int) hargs

/-- In a pool with nothing but native classes besides the batch, all calls of other classes are
those of native ones. -/
theorem faithful_nativeCalls {options : Options} {externals : Externals} {batch : List Program}
    (h : Compiled options externals batch) (hnative : NativeOnly externals) {pool : Pool}
    (hpool : Holds options externals batch pool) {allowed : RuntimeFault → Prop}
    (hraised : ∀ text, allowed (.raised text)) (hinteger : ∀ text, allowed (.invalidInteger text))
    (rounds : Nat) :
    Faithful pool allowed rounds (infer externals batch).batch
      ((infer externals batch).offering externals) fun _ => nativeCalls := by
  intro room target sig args htarget hnone hoffer hargs frame callers out hroom
  obtain ⟨cls, hbody, hname, m, hm, rfl⟩ :=
    native_of_unit h hnative hpool htarget hnone hoffer
  have hyields := run_yields hraised hinteger hm hargs
  have hcalls : nativeCalls target.name m.sig.name args = .ofExcept (m.run args) := by
    rw [hname, nativeCalls_eq, nativeCall_eq hm hargs.length]
  simp only [hcalls]
  unfold afterCall
  rw [if_pos (by omega), enter_eq_value hbody hm hargs.length]
  cases hrun : m.run args with
  | ok value => exact Follows.pure ⟨hyields.value value hrun, rfl⟩
  | error fault => exact Follows.fail (hyields.fault fault hrun)

/-! ## Calls at every depth -/

section

variable {options : Options} {externals : Externals} {batch : List Program}
  (h : Compiled options externals batch) (hfits : Fits (infer externals batch).batch)
  (hfew : FewOutside externals)

include h hfits hfew

variable {pool : Pool} (hpool : Carries options externals batch pool)
  {allowed : RuntimeFault → Prop} {rounds : Nat} {outside : Nat → Calls}
  (hfaithful : Faithful pool allowed rounds (infer externals batch).batch
    ((infer externals batch).offering externals) outside)

include hpool

/-- A method of the batch has a footing, if the calls that it makes follow what they mean. -/
theorem footing_of_calls (hadmits : Admits allowed) {room : Nat} {calls : Calls}
    (hcalls : CallsFollow pool allowed rounds ((infer externals batch).offering externals)
      (fun _ => True) room calls) (desk : Desk) {d : Definition} {file : ClassFile}
    (hheld : pool.Has desk.unit) (hfile : IsClassOf options (infer externals batch).batch d file)
    (hbody : desk.unit.body = .compiled file) (hmethod : desk.method ∈ file.methods)
    (hroom : desk.callers.count + room + 1 = maxDepth) :
    Footing pool allowed rounds desk ((infer externals batch).offering externals) calls where
  admits := hadmits
  size := by
    obtain ⟨sig, m, hof⟩ := h.code_of_mem hfile hmethod
    exact hfits.places d hfile.defined m hof.method _ hof.made
  calls hoffer hargs hcall := by
    obtain ⟨target, htarget, hhas, rfl⟩ := target_of_call hpool hheld hfile hbody hmethod hcall
    have hle := params_le h (fewParams_of_fits hfits) hfew hoffer
    refine ⟨hargs.length ▸ hle, target, htarget, fun frame out => ?_⟩
    exact hcalls hhas trivial hoffer hargs frame desk.callers out hroom

include hfaithful

/-- Calls with room for one more call inside them follow what they mean, if those inside do. -/
theorem callsFollow_succ (hadmits : Admits allowed) {room : Nat}
    (hcalls : CallsFollow pool allowed rounds ((infer externals batch).offering externals)
      (fun _ => True) room
      (callMethod (batchWorld (infer externals batch).batch outside) rounds room)) :
    CallsFollow pool allowed rounds ((infer externals batch).offering externals)
      (fun _ => True) (room + 1)
      (callMethod (batchWorld (infer externals batch).batch outside) rounds (room + 1)) := by
  intro target sig args htarget _ hoffer hargs frame callers out hroom
  by_cases hd : ∃ d ∈ batchDefinitions (infer externals batch).batch, d.name = target.name
  · obtain ⟨d, hd, hname⟩ := hd
    obtain ⟨id, hid⟩ := htarget
    obtain ⟨file, hfile, hbody⟩ := hpool.compiled hid d hd hname
    rw [← hname] at hoffer
    obtain ⟨code, m, hcode, hm, hof⟩ := h.method?_of_offering hfile hoffer
    have hcalled : callMethod (batchWorld (infer externals batch).batch outside) rounds (room + 1)
        target.name sig.name args
          = runMethod (callMethod (batchWorld (infer externals batch).batch outside) rounds room)
            rounds m args := by
      rw [callMethod, batchWorld, ← hname]
      simp only [h.batchMethod?_eq hd, hm]
    -- the callee is started, and the caller waits for it
    let desk : Desk := ⟨target, code, callers.push frame⟩
    have hentered : afterCall frame callers out target sig.name args = desk.started args out := by
      unfold afterCall
      rw [if_pos (by omega), enter_eq_frame hbody hcode (hof.params ▸ hargs.length)]
      rfl
    rw [hcalled, hentered]
    have hdesk := footing_of_calls h hfits hfew hpool hadmits hcalls desk ⟨id, hid⟩ hfile hbody
      (List.mem_of_find?_eq_some hcode) (by
        show callers.count + 1 + room + 1 = maxDepth
        omega)
    refine (method_follows hdesk hof.typed hof.made (hfits.distinct d hd m hof.method)
      (hfits.locals d hd m hof.method) hargs out).imp ?_
    rintro value out later ⟨hvalue, rfl⟩
    exact ⟨hvalue, rfl⟩
  · -- the trees have no method for the class, and neither has the batch
    have hnone : batchMethod? (infer externals batch).batch target.name sig.name = none := by
      unfold batchMethod?
      rw [List.find?_eq_none.mpr fun d hdmem hname => hd ⟨d, hdmem, by simpa using hname⟩]
      rfl
    rw [callMethod, batchWorld]
    simp only [hnone]
    exact hfaithful room htarget (fun d hdmem hname => hd ⟨d, hdmem, hname⟩) hoffer hargs frame
      callers out hroom

/-- Calls follow what they mean, however much room there is. -/
theorem callsFollow (hadmits : Admits allowed) (room : Nat) :
    CallsFollow pool allowed rounds ((infer externals batch).offering externals)
      (fun _ => True) room
      (callMethod (batchWorld (infer externals batch).batch outside) rounds room) := by
  -- the room is how many calls fit inside this one; at zero both sides overflow
  induction room with
  | zero =>
    intro target sig args _ _ _ _ frame callers out hroom
    unfold afterCall
    rw [if_neg (by omega), callMethod]
    exact .fail (hadmits.overflow ..)
  | succ room ih => exact callsFollow_succ h hfits hfew hpool hfaithful hadmits ih

/-- An invocation of a method on offer enters it, and follows what it means. -/
theorem invoke_follows (hadmits : Admits allowed) {d : Definition}
    (hd : d ∈ batchDefinitions (infer externals batch).batch) {sig : MethodSig}
    (hoffer : (infer externals batch).offering externals d.name sig) {unit : LoadedUnit}
    (hunit : pool.Has unit) (hname : unit.name = d.name) {args : List Value}
    (hargs : Value.HaveTys args sig.params) :
    ∃ m frame, d.method? sig.name = some m ∧ enter unit sig.name args = .ok (.frame frame) ∧
      Follows pool allowed rounds (.working { frame }) ""
        (runFirst (batchWorld (infer externals batch).batch outside) rounds m args)
        fun value out later => value.HasTy sig.ret ∧ later = .finished ⟨.ok value, out⟩ := by
  obtain ⟨id, hid⟩ := hunit
  obtain ⟨file, hfile, hbody⟩ := hpool.compiled hid d hd hname.symm
  obtain ⟨code, m, hcode, hm, hof⟩ := h.method?_of_offering hfile hoffer
  have hcalls := callsFollow h hfits hfew hpool hfaithful hadmits (maxDepth - 1)
  have hfoot := footing_of_calls h hfits hfew hpool hadmits hcalls ⟨unit, code, {}⟩ ⟨id, hid⟩
    hfile hbody (List.mem_of_find?_eq_some hcode) (by
      show 0 + (maxDepth - 1) + 1 = maxDepth
      decide)
  have hfollows := method_follows hfoot hof.typed hof.made (hfits.distinct d hd m hof.method)
    (hfits.locals d hd m hof.method) hargs ""
  exact ⟨m, _, hm, enter_eq_frame hbody hcode (hof.params ▸ hargs.length), hfollows⟩

end

/-! ## A script -/

/-- A batch of one class that calls no other one has all it needs in its own class file. -/
theorem holds_alone {options : Options} {externals : Externals} {batch : List Program}
    {d : Definition} (hd : batchDefinitions (infer externals batch).batch = [d])
    {file : ClassFile} (hfile : d.classFile options = .ok file) (hcalls : file.references = []) :
    Holds options externals batch ⟨#[some (.compiled file)]⟩ := by
  have hmem : d ∈ batchDefinitions (infer externals batch).batch :=
    hd ▸ List.mem_singleton_self d
  have honly : ∀ {id unit}, (Pool.mk #[some (.compiled file)]).unit? id = some unit →
      unit = .compiled file := by
    rintro (_ | id) unit hunit
    · exact (Option.some.inj hunit).symm
    · cases hunit
  refine ⟨⟨fun hunit other hother _ => ?_, fun hunit reference hreference => ?_⟩,
    fun hunit hnone => ?_⟩
  · obtain rfl := honly hunit
    rw [hd] at hother
    obtain rfl := List.mem_singleton.mp hother
    exact ⟨file, ⟨hmem, hfile⟩, rfl⟩
  · obtain rfl := honly hunit
    rw [show (LoadedUnit.compiled file).references = [] from hcalls] at hreference
    cases hreference
  · obtain rfl := honly hunit
    exact absurd (name_of_classFile hfile).symm (hnone d hmem)

/-- The evaluation prints the text and comes to its end without a value. -/
def JustPrints (doing : Doing Value) (text : String) : Bool :=
  match doing.ending with
  | .done .void => doing.out = text
  | _ => false

theorem eq_of_justPrints {doing : Doing Value} {text : String} (h : JustPrints doing text = true) :
    doing = ⟨text, .done .void⟩ := by
  unfold JustPrints at h
  obtain ⟨out, ending⟩ := doing
  split at h
  · rename_i hending
    obtain rfl : out = text := of_decide_eq_true h
    obtain rfl : ending = .done .void := hending
    rfl
  · cases h

/-- The class of a script that prints twice a number. -/
def twiceClass : Definition :=
  (batchDefinitions (infer .nothing [twiceScript.gather]).batch).head (by decide +kernel)

/-! ## Invocations -/

/-- Compiled batches do what their trees mean: when a method of a batch, with arguments of its
parameter types, comes to a result or fails within some rounds of its loops, then so does every
invocation of it that is given enough steps, with the same lines printed. -/
theorem invoke_preserves_meaning {options : Options} {externals : Externals}
    {batch : List Program} (h : Compiled options externals batch)
    (hfits : Fits (infer externals batch).batch) (hfew : FewOutside externals) {pool : Pool}
    (hpool : Carries options externals batch pool) {rounds : Nat} {outside : Nat → Calls}
    (hfaithful : Faithful pool (fun _ => True) rounds (infer externals batch).batch
      ((infer externals batch).offering externals) outside)
    {d : Definition} (hd : d ∈ batchDefinitions (infer externals batch).batch) {name : String}
    {m : Method} (hm : d.method? name = some m) {params : List Ty}
    (hparams : m.params.map (·.type.ty?) = params.map some) {unit : LoadedUnit}
    (hunit : pool.Has unit) (hname : unit.name = d.name) {args : List Value}
    (hargs : Value.HaveTys args params) {result : Except RuntimeFault Value}
    (hresult : (runFirst (batchWorld (infer externals batch).batch outside) rounds m args).ending
      = .ofExcept result) :
    ∃ enough, ∀ fuel, enough ≤ fuel → invoke pool fuel unit name args =
      some ⟨result,
        (runFirst (batchWorld (infer externals batch).batch outside) rounds m args).out⟩ := by
  have hadmits : Admits fun _ => True :=
    ⟨fun _ => trivial, trivial, fun _ _ => trivial, fun _ _ => trivial⟩
  -- the method is found by name, and so is its code
  obtain ⟨file, hfile⟩ := h.classFile hd
  obtain ⟨code, -, hcode⟩ := (methods_of_classFile hfile).2 m (List.mem_of_find?_eq_some hm)
  obtain ⟨sig, hof⟩ := h.isCodeOf hd (List.mem_of_find?_eq_some hm) hcode
  obtain rfl : sig.name = name := by
    rw [← hof.typed.name]
    simpa using List.find?_some hm
  obtain rfl : params = sig.params :=
    (List.map_inj_right fun _ _ => Option.some.inj).mp (hparams.symm.trans hof.typed.params)
  obtain ⟨found, frame, hfound, henter, hfollows⟩ :=
    invoke_follows h hfits hfew hpool hfaithful hadmits hd hof.offered hunit hname hargs
  cases hm.symm.trans hfound
  have hreaches : Reaches pool (.working { frame }) (.finished ⟨result,
      (runFirst (batchWorld (infer externals batch).batch outside) rounds m args).out⟩) := by
    unfold Follows at hfollows
    rw [hresult, String.empty_append] at hfollows
    cases result with
    | ok value =>
      obtain ⟨later, hreaches, -, rfl⟩ := hfollows
      exact hreaches
    | error fault => exact hfollows.2
  obtain ⟨enough, henough⟩ := run_of_reaches hreaches
  refine ⟨enough, fun fuel hfuel => ?_⟩
  unfold invoke
  rw [henter]
  exact henough fuel hfuel

theorem invoke_of_twiceScript :
    ∃ file, twiceClass.classFile {} = .ok file ∧ ∃ enough, ∀ fuel, enough ≤ fuel →
      invoke ⟨#[some (.compiled file)]⟩ fuel (.compiled file) "main" [.strings ["unused"]]
        = some ⟨.ok .void, "42\n"⟩ := by
  have hone : (batchDefinitions (infer .nothing [twiceScript.gather]).batch).length = 1 := by
    decide +kernel
  have hdefined : batchDefinitions (infer .nothing [twiceScript.gather]).batch = [twiceClass] := by
    obtain ⟨d, hd⟩ := List.length_eq_one_iff.mp hone
    simp only [twiceClass, hd, List.head_cons]
  have hmem : twiceClass ∈ batchDefinitions (infer .nothing [twiceScript.gather]).batch :=
    hdefined ▸ List.mem_singleton_self twiceClass
  have h : Compiled {} .nothing [twiceScript.gather] :=
    ⟨by decide +kernel, by decide +kernel, by decide +kernel⟩
  obtain ⟨file, hfile⟩ := h.classFile hmem
  have hpool : Holds {} .nothing [twiceScript.gather] ⟨#[some (.compiled file)]⟩ := by
    have hreferences : (twiceClass.classFile {}).toOption.all (·.references = []) = true := by
      decide +kernel
    exact holds_alone hdefined hfile (by simpa [hfile, Except.toOption] using hreferences)
  have hfits : Fits (infer .nothing [twiceScript.gather]).batch := by
    decide +kernel
  have hfaithful : Faithful _ (fun _ => True) 1 _ _ _ :=
    faithful_nativeCalls h nofun hpool (fun _ => trivial) (fun _ => trivial) 1
  have hmain : (twiceClass.method? "main").any (fun m =>
      decide (m.params.map (·.type.ty?) = [Ty.array .string].map some) &&
        JustPrints (runFirst
          (batchWorld (infer .nothing [twiceScript.gather]).batch fun _ => nativeCalls) 1 m
          [.strings ["unused"]]) "42\n") = true := by
    decide +kernel
  obtain ⟨m, hm, hmeaning⟩ := (Option.any_eq_true ..).mp hmain
  obtain ⟨hparams, hprints⟩ := Bool.and_eq_true_iff.mp hmeaning
  have hrun := eq_of_justPrints hprints
  have hargs : Value.HaveTys [.strings ["unused"]] [.array .string] := by
    refine .cons (.array fun item hitem => ?_) .nil
    obtain rfl := List.mem_singleton.mp hitem
    exact .string
  have hunit : Pool.Has ⟨#[some (.compiled file)]⟩ (.compiled file) := ⟨0, rfl⟩
  have hinvoke := invoke_preserves_meaning h hfits nofun hpool.toCarries hfaithful hmem hm
    (of_decide_eq_true hparams) hunit (name_of_classFile hfile) hargs
    (show _ = Ending.ofExcept (.ok .void) by rw [hrun]; rfl)
  rw [hrun] at hinvoke
  exact ⟨file, hfile, hinvoke⟩

end StackScript.Machine

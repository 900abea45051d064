import StackScript.Machine.Step
import StackScript.Proofs.Compiling

/-!
# Calls reach their methods

A machine at work on the code of a compiled batch stays in it: when the pool holds the class files
of the batch with all their links, every call finds the unit, the method and the number of
parameters that it was made for (`run_reaches`).
-/

namespace StackScript.Machine

open StackScript.Code StackScript.Syntax StackScript.Typing

/-- A call did not reach what it was meant for. -/
def RuntimeFault.missesTarget : RuntimeFault → Bool
  | unlinked _ | undefinedMethod _ _ | wrongArity _ _ _ _ => true
  | _ => false

/-! ## Instructions other than calls -/

/-- The frame is at work on the same method of the same unit. -/
structure Frame.InPlace (frame after : Frame) : Prop where
  unit : after.unit = frame.unit
  method : after.method = frame.method

theorem Frame.InPlace.refl (frame : Frame) : frame.InPlace frame := ⟨rfl, rfl⟩

theorem Frame.InPlace.trans {a b c : Frame} (hab : a.InPlace b) (hbc : b.InPlace c) :
    a.InPlace c := ⟨hbc.unit.trans hab.unit, hbc.method.trans hab.method⟩

/-- What comes out is as stated, or it is a fault that is not of the excluded kind. -/
structure Ends {α : Type} (excluded : RuntimeFault → Bool) (result : α → Prop)
    (x : Except RuntimeFault α) : Prop where
  ok : ∀ a, x = .ok a → result a
  error : ∀ fault, x = .error fault → excluded fault = false

namespace Ends

variable {α β : Type} {excluded : RuntimeFault → Bool}

theorem value {result : α → Prop} {a : α} (h : result a) : Ends excluded result (.ok a) :=
  ⟨fun _ e => Except.ok.inj e ▸ h, fun _ e => nomatch e⟩

theorem fault {result : α → Prop} {fault : RuntimeFault} (h : excluded fault = false) :
    Ends excluded result (.error fault) :=
  ⟨fun _ e => (nomatch e), fun _ e => Except.error.inj e ▸ h⟩

/-- A computation ends well if its first part does and the rest does on what that comes to. -/
theorem bind {first : α → Prop} {result : β → Prop} {x : Except RuntimeFault α}
    {f : α → Except RuntimeFault β} (hx : Ends excluded first x)
    (hf : ∀ a, first a → Ends excluded result (f a)) : Ends excluded result (x >>= f) := by
  cases x with
  | error fault => exact .fault (hx.error fault rfl)
  | ok a => exact hf a (hx.ok a rfl)

theorem map {first : α → Prop} {result : β → Prop} {x : Except RuntimeFault α} {f : α → β}
    (hx : Ends excluded first x) (hf : ∀ a, first a → result (f a)) :
    Ends excluded result (f <$> x) := by
  cases x with
  | error fault => exact .fault (hx.error fault rfl)
  | ok a => exact .value (hf a (hx.ok a rfl))

end Ends

/-- What comes out is as stated, or it is no call that failed. -/
abbrev Gives {α : Type} (result : α → Prop) (x : Except RuntimeFault α) : Prop :=
  Ends RuntimeFault.missesTarget result x

section

variable (frame : Frame)

/-- Taking a value off the stack leaves the frame at work on its method. -/
theorem pop_stays : Gives (fun r => frame.InPlace r.2) frame.pop := by
  unfold Frame.pop
  split
  · exact .value ⟨rfl, rfl⟩
  · exact .fault rfl

theorem asInt_gives (value : Value) : Gives (fun _ => True) value.asInt := by
  cases value with
  | int n => exact .value trivial
  | _ => exact .fault rfl

theorem asBool_gives (value : Value) : Gives (fun _ => True) value.asBool := by
  cases value with
  | bool b => exact .value trivial
  | _ => exact .fault rfl

theorem asString_gives (value : Value) : Gives (fun _ => True) value.asString := by
  cases value with
  | string s => exact .value trivial
  | _ => exact .fault rfl

theorem popInt_stays : Gives (fun r => frame.InPlace r.2) frame.popInt :=
  (pop_stays frame).bind fun r hr => (asInt_gives r.1).bind fun _ _ => .value hr

theorem popBool_stays : Gives (fun r => frame.InPlace r.2) frame.popBool :=
  (pop_stays frame).bind fun r hr => (asBool_gives r.1).bind fun _ _ => .value hr

theorem push_stays (value : Value) : frame.InPlace (frame.push value) := ⟨rfl, rfl⟩

theorem withInt_stays {f : Int64 → Except RuntimeFault Value}
    (hf : ∀ n, Gives (fun _ => True) (f n)) : Gives frame.InPlace (frame.withInt f) :=
  (popInt_stays frame).bind fun r hr => (hf r.1).bind fun _ _ =>
    .value (hr.trans (push_stays ..))

theorem withInts_stays {f : Int64 → Int64 → Except RuntimeFault Value}
    (hf : ∀ a b, Gives (fun _ => True) (f a b)) : Gives frame.InPlace (frame.withInts f) :=
  (popInt_stays frame).bind fun r hr => (popInt_stays r.2).bind fun l hl =>
    (hf l.1 r.1).bind fun _ _ => .value ((hr.trans hl).trans (push_stays ..))

/-- An instruction on two values leaves the frame at work on its method. -/
theorem withValues_stays (f : Value → Value → Value) :
    Gives frame.InPlace (frame.withValues f) :=
  (pop_stays frame).bind fun r hr => (pop_stays r.2).bind fun _ hl =>
    .value ((hr.trans hl).trans (push_stays ..))

theorem load_stays (slot : UInt16) : Gives frame.InPlace (frame.load slot) := by
  unfold Frame.load
  split
  · exact .value (push_stays ..)
  · exact .fault rfl

theorem store_stays (slot : UInt16) : Gives frame.InPlace (frame.store slot) := by
  refine (pop_stays frame).bind fun r hr => ?_
  dsimp only
  split
  · exact .value ⟨hr.unit, hr.method⟩
  · exact .fault rfl

theorem goTo_stays (place : UInt32) : Gives frame.InPlace (frame.goTo place) := by
  unfold Frame.goTo
  split
  · exact .value ⟨rfl, rfl⟩
  · exact .fault rfl

theorem elementAt_gives (items : List Value) (position : Int64) :
    Gives (fun _ => True) (Frame.elementAt items position) := by
  unfold Frame.elementAt
  split
  · exact .value trivial
  · exact .fault rfl

theorem index_stays : Gives frame.InPlace frame.index := by
  refine (popInt_stays frame).bind fun r hr => (pop_stays r.2).bind fun t ht => ?_
  dsimp only
  split
  · exact (elementAt_gives _ _).map fun _ _ => (hr.trans ht).trans (push_stays ..)
  · exact .fault rfl

theorem length_stays : Gives frame.InPlace frame.length := by
  refine (pop_stays frame).bind fun t ht => ?_
  dsimp only
  split
  · exact .value (ht.trans (push_stays ..))
  · exact .value (ht.trans (push_stays ..))
  · exact .fault rfl

theorem quotient_gives (a b : Int64) : Gives (fun _ => True) (quotient a b) := by
  unfold quotient
  split
  · exact .fault rfl
  · exact .value trivial

theorem remainder_gives (a b : Int64) : Gives (fun _ => True) (remainder a b) := by
  unfold remainder
  split
  · exact .fault rfl
  · exact .value trivial

/-- The effect is no call, and the frame stays in place if it goes on. -/
def Effect.StaysIn (frame : Frame) : Effect → Prop
  | .go after | .print _ after => frame.InPlace after
  | .call _ _ _ _ => False
  | .done _ => True

/-- An instruction that is no call leaves the frame in place and fails like no call. -/
theorem execute_stays (pool : Pool) (frame : Frame) (instr : Instr)
    (hcall : ∀ cls method argc, instr ≠ .call cls method argc) :
    Gives (Effect.StaysIn frame) (frame.execute pool instr) := by
  cases instr with
  | pushInt value => exact .value (push_stays ..)
  | pushBool value => exact .value (push_stays ..)
  | pushStr value => exact .value (push_stays ..)
  | load slot => exact (load_stays frame slot).map fun _ h => h
  | store slot => exact (store_stays frame slot).map fun _ h => h
  | pop => exact (pop_stays frame).bind fun _ h => .value h
  | neg => exact (withInt_stays frame fun _ => .value trivial).map fun _ h => h
  | not => exact (popBool_stays frame).bind fun _ h => .value (h.trans (push_stays ..))
  | add => exact (withInts_stays frame fun _ _ => .value trivial).map fun _ h => h
  | sub => exact (withInts_stays frame fun _ _ => .value trivial).map fun _ h => h
  | mul => exact (withInts_stays frame fun _ _ => .value trivial).map fun _ h => h
  | div => exact (withInts_stays frame quotient_gives).map fun _ h => h
  | mod => exact (withInts_stays frame remainder_gives).map fun _ h => h
  | concat => exact (withValues_stays frame _).map fun _ h => h
  | eq => exact (withValues_stays frame _).map fun _ h => h
  | ne => exact (withValues_stays frame _).map fun _ h => h
  | lt => exact (withInts_stays frame fun _ _ => .value trivial).map fun _ h => h
  | le => exact (withInts_stays frame fun _ _ => .value trivial).map fun _ h => h
  | gt => exact (withInts_stays frame fun _ _ => .value trivial).map fun _ h => h
  | ge => exact (withInts_stays frame fun _ _ => .value trivial).map fun _ h => h
  | index => exact (index_stays frame).map fun _ h => h
  | length => exact (length_stays frame).map fun _ h => h
  | jump place => exact (goTo_stays frame place).map fun _ h => h
  | jumpIfFalse place =>
    refine (popBool_stays frame).bind fun r hr => ?_
    dsimp only
    split
    · exact .value hr
    · exact (goTo_stays r.2 place).map fun _ h => hr.trans h
  | call cls method argc => exact absurd rfl (hcall cls method argc)
  | puts => exact (pop_stays frame).bind fun _ h => .value h
  | raise => exact (pop_stays frame).bind fun _ _ => .fault rfl
  | ret => exact (pop_stays frame).bind fun _ _ => .value trivial
  | retVoid => exact .value trivial

end

/-! ## Native methods -/

/-- A native method gives a value, or fails in no call that missed its target. -/
theorem run_gives {cls : NativeClass} {m : NativeMethod} (h : m ∈ cls.methods)
    (args : List Value) : Gives (fun _ => True) (m.run args) := by
  have onString : ∀ name ret f, (∀ s, Gives (fun _ => True) (f s)) →
      Gives (fun _ => True) ((onString name ret f).run args) :=
    fun _ _ _ hf => (asString_gives _).bind fun s _ => hf s
  have onInt : ∀ name ret f, (∀ n, Gives (fun _ => True) (f n)) →
      Gives (fun _ => True) ((onInt name ret f).run args) :=
    fun _ _ _ hf => (asInt_gives _).bind fun n _ => hf n
  have onInts : ∀ name ret f, (∀ a b, Gives (fun _ => True) (f a b)) →
      Gives (fun _ => True) ((onInts name ret f).run args) :=
    fun _ _ _ hf => (asInt_gives _).bind fun a _ => (asInt_gives _).bind fun b _ => hf a b
  have hparse : ∀ s, Gives (fun _ => True) (parseInteger s) := by
    intro s
    unfold parseInteger
    split
    · exact .value trivial
    · exact .fault rfl
  have hpow : ∀ a b, Gives (fun _ => True) (powInteger a b) := by
    intro a b
    unfold powInteger
    split
    · exact .value trivial
    · exact .fault rfl
  cases cls with
  | integer =>
    simp only [NativeClass.methods, List.mem_cons, List.not_mem_nil, or_false] at h
    rcases h with rfl | rfl
    · exact onString _ _ _ fun s => (hparse s).map fun _ _ => trivial
    · exact onInt _ _ _ fun n => .value trivial
  | math =>
    simp only [NativeClass.methods, List.mem_cons, List.not_mem_nil, or_false] at h
    rcases h with rfl | rfl | rfl | rfl
    · exact onInts _ _ _ fun a b => .value trivial
    · exact onInts _ _ _ fun a b => .value trivial
    · exact onInt _ _ _ fun n => .value trivial
    · exact onInts _ _ _ fun a b => (hpow a b).map fun _ _ => trivial
  | text =>
    simp only [NativeClass.methods, List.mem_cons, List.not_mem_nil, or_false] at h
    rcases h with rfl | rfl | rfl | rfl
    · exact onString _ _ _ fun s => .value trivial
    · exact onString _ _ _ fun s => .value trivial
    · exact onString _ _ _ fun s => .value trivial
    · exact onString _ _ _ fun s => .value trivial

/-- The methods of a native class have different names. -/
theorem names_nodup (cls : NativeClass) : (cls.methods.map (·.sig.name)).Nodup := by
  cases cls <;> decide

/-- A native method is called by its name with one argument for each parameter. -/
theorem nativeCall_eq {cls : NativeClass} {m : NativeMethod} (h : m ∈ cls.methods)
    {args : List Value} (hargs : args.length = m.sig.params.length) :
    cls.call m.sig.name args = m.run args := by
  unfold NativeClass.call
  have hfind : cls.methods.find? (·.sig.name = m.sig.name) = some m :=
    (find?_key_eq_some_iff (names_nodup cls)).mpr ⟨h, rfl⟩
  rw [hfind]
  simp only [hargs, if_true]

/-- All classes from outside the batch are native. -/
def NativeOnly (externals : Externals) : Prop :=
  ∀ name sig, externals name = some sig → ∃ cls : NativeClass, sig = cls.signature

/-- Native classes of one name are the same. -/
theorem nativeClass_name_inj {cls other : NativeClass} (h : cls.name = other.name) :
    cls = other := by
  cases cls <;> cases other <;> first | rfl | exact absurd h (by decide)

/-- A class that is not in the batch offers what the native class of its name has. -/
theorem native_of_offering {registry : Registry} {externals : Externals}
    (hnative : NativeOnly externals) {cls : NativeClass} (hcls : registry.has cls.name = false)
    {sig : MethodSig} (h : offering registry externals cls.name sig) :
    ∃ m ∈ cls.methods, m.sig = sig := by
  obtain ⟨entry, hoffers, hname, hparams, hret⟩ := h
  cases hoffers with
  | onRecord hentry =>
    rw [Registry.has_of_method? hentry] at hcls
    cases hcls
  | outside hsigname _ hsig hentry =>
    obtain ⟨other, rfl⟩ := hnative _ _ hsig
    -- native classes differ in their names, so this is the class of the signature
    obtain rfl := nativeClass_name_inj hsigname
    obtain ⟨found, hfound, rfl⟩ := ClassEntry.mem_ofSig (List.mem_of_find?_eq_some hentry)
    obtain ⟨m, hm, rfl⟩ := List.mem_map.mp hfound
    refine ⟨m, hm, ?_⟩
    obtain ⟨name, params, ret⟩ := sig
    have hsame : m.sig.params.map some = params.map some := hparams
    rw [List.map_inj_right fun _ _ => Option.some.inj] at hsame
    cases hret
    cases hname
    rw [← hsame]

/-! ## Numbers of parameters -/

/-- No method of the batch has more parameters than a call can count. -/
def FewParams (batch : List Program) : Prop :=
  ∀ file cls m, (file, Declaration.method cls m) ∈ batchDeclarations batch →
    m.params.length ≤ 65535

instance : DecidablePred FewParams := fun batch =>
  decidable_of_iff (∀ place ∈ batchMethods batch, place.2.2.params.length ≤ 65535) <| by
    constructor
    · exact fun h file cls m hm =>
        h (file, cls, m) (List.mem_filterMap.mpr ⟨(file, .method cls m), hm, rfl⟩)
    · rintro h ⟨file, cls, m⟩ hplace
      obtain ⟨⟨file', d⟩, hd, hplace⟩ := List.mem_filterMap.mp hplace
      cases d with
      | cls name package enclosing => cases hplace
      | method owner found =>
        cases hplace
        exact h file cls m hd

/-- No method from outside the batch has more parameters than a call can count. -/
def FewOutside (externals : Externals) : Prop :=
  ∀ name sig, externals name = some sig → ∀ m ∈ sig.methods, m.params.length ≤ 65535

theorem fewOutside_of_native {externals : Externals} (h : NativeOnly externals) :
    FewOutside externals := by
  intro name sig hsig m hm
  obtain ⟨cls, rfl⟩ := h name sig hsig
  obtain ⟨native, hnative, rfl⟩ := List.mem_map.mp hm
  have hall : ∀ cls : NativeClass, ∀ m ∈ cls.methods, m.sig.params.length ≤ 65535 := by
    intro cls
    cases cls <;> decide
  exact hall cls native hnative

/-- No method on offer has more parameters than a call can count. -/
theorem params_le {options : Options} {externals : Externals} {batch : List Program}
    (h : Compiled options externals batch) (hfew : FewParams batch)
    (houtside : FewOutside externals) {cls : String} {sig : MethodSig}
    (hoffer : (infer externals batch).offering externals cls sig) :
    sig.params.length ≤ 65535 := by
  obtain ⟨entry, hentry, -, hparams, -⟩ := hoffer
  have hlength : entry.params.length = sig.params.length := by
    rw [hparams, List.length_map]
  cases hentry with
  | onRecord hentry =>
    obtain ⟨unit, m, hm, hsame⟩ :=
      (settled_infer externals (faults_declareAll_of_infer h.clean)).source hentry
    rw [hsame] at hlength
    simp only [methodEntry, List.length_map] at hlength
    exact hlength ▸ hfew unit cls m hm
  | outside _ _ hsig hentry =>
    obtain ⟨found, hfound, rfl⟩ := ClassEntry.mem_ofSig (List.mem_of_find?_eq_some hentry)
    simp only [MethodEntry.ofSig, List.length_map] at hlength
    exact hlength ▸ houtside _ _ hsig found hfound

/-! ## The pool of a batch -/

section

variable {options : Options} {externals : Externals} {batch : List Program}

theorem name_of_body {unit other : LoadedUnit} (h : unit.body = other.body) :
    unit.name = other.name := by
  unfold LoadedUnit.name
  rw [h]

/-- The pool has class files of a batch under their names, and every reference of a unit is linked
to the unit of its name. -/
structure Carries (options : Options) (externals : Externals) (batch : List Program)
    (pool : Pool) : Prop where
  compiled : ∀ {id unit}, pool.unit? id = some unit →
    ∀ d ∈ batchDefinitions (infer externals batch).batch, d.name = unit.name →
      ∃ file, IsClassOf options (infer externals batch).batch d file ∧
        unit.body = .compiled file
  linked : ∀ {id unit}, pool.unit? id = some unit → ∀ reference ∈ unit.references,
    ∃ target dest, pool.linked? unit reference = some target ∧ pool.unit? dest = some target ∧
      target.name = reference

/-- The pool carries the batch, and has nothing but native classes besides. -/
structure Holds (options : Options) (externals : Externals) (batch : List Program)
    (pool : Pool) : Prop extends Carries options externals batch pool where
  native : ∀ {id unit}, pool.unit? id = some unit →
    (∀ d ∈ batchDefinitions (infer externals batch).batch, d.name ≠ unit.name) →
      ∃ cls, unit.body = .native cls

/-- The unit is in the pool. -/
def Pool.Has (pool : Pool) (unit : LoadedUnit) : Prop := ∃ id, pool.unit? id = some unit

/-- The frame is at work on a method of the batch. -/
structure AtWork (options : Options) (externals : Externals) (batch : List Program) (pool : Pool)
    (frame : Frame) : Prop where
  held : pool.Has frame.unit
  method : ∃ d file, IsClassOf options (infer externals batch).batch d file ∧
    frame.unit.body = .compiled file ∧ frame.method ∈ file.methods

/-- A frame that is still at work on its method is at work in the batch. -/
theorem AtWork.inPlace {pool : Pool} {frame after : Frame}
    (h : AtWork options externals batch pool frame) (hin : frame.InPlace after) :
    AtWork options externals batch pool after := by
  obtain ⟨hheld, hmethod⟩ := h
  rw [← hin.unit, ← hin.method] at *
  exact ⟨hheld, hmethod⟩

/-- A call in the code of a class of the batch has a unit that it goes to. -/
theorem target_of_call {pool : Pool} (hpool : Carries options externals batch pool)
    {unit : LoadedUnit} (hheld : pool.Has unit) {d : Definition} {file : ClassFile}
    (hfile : IsClassOf options (infer externals batch).batch d file)
    (hbody : unit.body = .compiled file) {code : MethodCode} (hcode : code ∈ file.methods)
    {cls method : String} {argc : UInt16} (hcall : Instr.call cls method argc ∈ code.code.toList) :
    ∃ target, (if cls = unit.name then some unit else pool.linked? unit cls) = some target ∧
      pool.Has target ∧ target.name = cls := by
  by_cases hown : cls = unit.name
  · -- a class has no link to itself; its own unit is the target
    exact ⟨unit, if_pos hown, hheld, hown.symm⟩
  · -- another class is among the references, and so it is linked
    have hname : unit.name = d.name :=
      (name_of_body (show unit.body = (LoadedUnit.compiled file).body from hbody)).trans
        (name_of_classFile hfile.made)
    have hreference : cls ∈ unit.references := by
      rw [LoadedUnit.references, hbody]
      exact (references_of_classFile hfile.made).mpr
        ⟨fun e => hown (e.trans hname.symm), code, hcode, method, argc, hcall⟩
    obtain ⟨id, hid⟩ := hheld
    obtain ⟨target, dest, htarget, hdest, htargetname⟩ := hpool.linked hid cls hreference
    exact ⟨target, by rw [if_neg hown, htarget], ⟨dest, hdest⟩, htargetname⟩

variable {pool : Pool} (h : Compiled options externals batch)
  (hnative : NativeOnly externals) (hpool : Holds options externals batch pool)

include h hnative hpool

omit h hnative hpool in
/-- A method of a class file starts with one argument for each parameter. -/
theorem enter_eq_frame {unit : LoadedUnit} {file : ClassFile} (hbody : unit.body = .compiled file)
    {name : String} {code : MethodCode} (hcode : file.method? name = some code) {args : List Value}
    (hargs : args.length = code.params.length) :
    enter unit name args = .ok (.frame ⟨unit, code, startLocals code args, [], 0⟩) := by
  unfold enter
  rw [hbody]
  simp only [hcode, hargs, if_true]

omit h hnative hpool in
/-- A native method gives its value at once. -/
theorem enter_eq_value {unit : LoadedUnit} {cls : NativeClass} (hbody : unit.body = .native cls)
    {m : NativeMethod} (hm : m ∈ cls.methods) {args : List Value}
    (hargs : args.length = m.sig.params.length) :
    enter unit m.sig.name args = .value <$> m.run args := by
  unfold enter
  rw [hbody]
  simp only [nativeCall_eq hm hargs]

/-- A unit that is no class of the batch is native, with the methods that its class offers. -/
theorem native_of_unit {unit : LoadedUnit} (hunit : pool.Has unit)
    (hnone : ∀ d ∈ batchDefinitions (infer externals batch).batch, d.name ≠ unit.name)
    {sig : MethodSig} (hoffer : (infer externals batch).offering externals unit.name sig) :
    ∃ cls : NativeClass, unit.body = .native cls ∧ unit.name = cls.name ∧
      ∃ m ∈ cls.methods, m.sig = sig := by
  obtain ⟨id, hid⟩ := hunit
  obtain ⟨cls, hbody⟩ := hpool.native hid hnone
  have hname : unit.name = cls.name :=
    name_of_body (show unit.body = (LoadedUnit.native cls).body from hbody)
  have hcls : (infer externals batch).registry.has cls.name = false := by
    refine Bool.eq_false_iff.mpr fun hhas => ?_
    obtain ⟨d, hd, hdname⟩ := (h.has_iff cls.name).mp hhas
    exact hnone d hd (hdname.trans hname.symm)
  rw [hname] at hoffer
  exact ⟨cls, hbody, hname, native_of_offering hnative hcls hoffer⟩

/-- A method on offer is entered, or gives its value at once. -/
theorem enter_gives {unit : LoadedUnit} (hunit : pool.Has unit) {sig : MethodSig}
    (hoffer : (infer externals batch).offering externals unit.name sig) {args : List Value}
    (hargs : args.length = sig.params.length) :
    Gives (fun
      | .value _ => True
      | .frame frame => AtWork options externals batch pool frame) (enter unit sig.name args) := by
  -- a class of the batch is there as its class file, any other as a native class
  by_cases hd : ∃ d ∈ batchDefinitions (infer externals batch).batch, d.name = unit.name
  · obtain ⟨d, hd, hname⟩ := hd
    obtain ⟨id, hid⟩ := hunit
    obtain ⟨file, hfile, hbody⟩ := hpool.compiled hid d hd hname
    rw [← hname] at hoffer
    obtain ⟨code, m, hcode, -, hof⟩ := h.method?_of_offering hfile hoffer
    rw [enter_eq_frame hbody hcode (hof.params ▸ hargs)]
    exact .value ⟨⟨id, hid⟩, d, file, hfile, hbody, List.mem_of_find?_eq_some hcode⟩
  · obtain ⟨cls, hbody, -, m, hm, rfl⟩ := native_of_unit h hnative hpool hunit
      (fun d hdmem hname => hd ⟨d, hdmem, hname⟩) hoffer
    rw [enter_eq_value hbody hm hargs]
    exact (run_gives hm args).map fun _ _ => trivial

/-! ## Steps -/

/-- The frame at work and all that wait for it are at work on methods of the batch. -/
structure InBatch (options : Options) (externals : Externals) (batch : List Program)
    (pool : Pool) (state : State) : Prop where
  frame : AtWork options externals batch pool state.frame
  callers : ∀ frame ∈ state.callers.frames, AtWork options externals batch pool frame

/-- The machine stays in the batch, or it ends in no call that missed its target. -/
def StaysInBatch (options : Options) (externals : Externals) (batch : List Program) (pool : Pool) :
    Status → Prop
  | .working state => InBatch options externals batch pool state
  | .finished ⟨.error fault, _⟩ => fault.missesTarget = false
  | .finished ⟨.ok _, _⟩ => True

/-- A call instruction reaches its unit with one argument for each parameter. -/
theorem call_gives (hfew : FewParams batch) {frame : Frame}
    (hframe : AtWork options externals batch pool frame) {cls method : String} {argc : UInt16}
    (hcall : Instr.call cls method argc ∈ frame.method.code.toList) :
    Gives (fun
      | .call target name args after => frame.InPlace after ∧ pool.Has target ∧ ∃ sig,
          (infer externals batch).offering externals target.name sig ∧ sig.name = name ∧
          args.length = sig.params.length
      | _ => False) (frame.call pool cls method argc) := by
  obtain ⟨hheld, d, file, hfile, hbody, hmethod⟩ := hframe
  obtain ⟨sig', m, hof⟩ := h.code_of_mem hfile hmethod
  obtain ⟨sig, hoffer, rfl, rfl⟩ := hof.calls _ hcall
  -- the count in the instruction is not cut off, for no method has too many parameters
  have hcount : (UInt16.ofNat sig.params.length).toNat = sig.params.length :=
    toNat_ofNat_of_le (params_le h hfew (fewOutside_of_native hnative) hoffer)
  obtain ⟨target, htarget, hhas, hname⟩ :=
    target_of_call hpool.toCarries hheld hfile hbody hmethod hcall
  unfold Frame.call
  simp only
  split
  · rename_i hargs
    have hlength : (frame.stack.take (UInt16.ofNat sig.params.length).toNat).reverse.length
        = sig.params.length := by
      rw [List.length_reverse, hargs, hcount]
    rw [htarget]
    exact .value ⟨⟨rfl, rfl⟩, hhas, sig, hname ▸ hoffer, rfl, hlength⟩
  · exact .fault rfl

/-- What one instruction of the batch may do next. -/
def Effect.InBatch (options : Options) (externals : Externals) (batch : List Program)
    (pool : Pool) : Effect → Prop
  | .go after | .print _ after => AtWork options externals batch pool after
  | .call target name args after => AtWork options externals batch pool after ∧
      pool.Has target ∧ ∃ sig, (infer externals batch).offering externals target.name sig ∧
      sig.name = name ∧ args.length = sig.params.length
  | .done _ => True

/-- One step of a frame in the batch goes on in the batch. -/
theorem frameStep_gives (hfew : FewParams batch) {frame : Frame}
    (hframe : AtWork options externals batch pool frame) :
    Gives (Effect.InBatch options externals batch pool) (frame.step pool) := by
  unfold Frame.step
  split
  · rename_i instr hinstr
    have hnext : frame.InPlace { frame with place := frame.place + 1 } := ⟨rfl, rfl⟩
    have hmem : instr ∈ frame.method.code.toList :=
      Array.mem_toList_iff.mpr (Array.mem_of_getElem? hinstr)
    -- calls leave the frame; everything else is about the frame alone
    by_cases hcall : ∃ cls method argc, instr = .call cls method argc
    · obtain ⟨cls, method, argc, rfl⟩ := hcall
      have hgives := call_gives h hnative hpool hfew (hframe.inPlace hnext) hmem
      refine ⟨fun effect heffect => ?_, hgives.error⟩
      have hok := hgives.ok effect heffect
      cases effect with
      | call target name args after =>
        exact ⟨(hframe.inPlace hnext).inPlace hok.1, hok.2⟩
      | _ => exact hok.elim
    · have hstays := execute_stays pool { frame with place := frame.place + 1 } instr
        fun cls method argc e => hcall ⟨cls, method, argc, e⟩
      refine ⟨fun effect heffect => ?_, hstays.error⟩
      have hok := hstays.ok effect heffect
      cases effect with
      | go after => exact hframe.inPlace (hnext.trans hok)
      | print line after => exact hframe.inPlace (hnext.trans hok)
      | call target name args after => exact hok.elim
      | done result => trivial
  · split
    · exact .value trivial
    · exact .fault rfl

omit h hnative hpool in
/-- After a return the callers go on in the batch. -/
theorem afterReturn_stays {callers : Callers} (out : String) (value : Value)
    (hcallers : ∀ frame ∈ callers.frames, AtWork options externals batch pool frame) :
    StaysInBatch options externals batch pool (afterReturn callers out value) := by
  unfold afterReturn
  split
  · rename_i caller rest hpop
    unfold Callers.pop? at hpop
    split at hpop
    · cases hpop
    · rename_i first others hframes
      cases hpop
      rw [hframes] at hcallers
      refine ⟨?_, fun frame hframe => hcallers frame (List.mem_cons_of_mem _ hframe)⟩
      refine (hcallers _ List.mem_cons_self).inPlace ?_
      unfold Frame.receive
      split
      · exact .refl _
      · exact ⟨rfl, rfl⟩
  · trivial

/-- One step keeps the machine at work on the batch, and no call misses its target. -/
theorem step_stays (hfew : FewParams batch) {state : State}
    (hstate : InBatch options externals batch pool state) :
    StaysInBatch options externals batch pool (state.step pool) := by
  obtain ⟨frame, callers, out⟩ := state
  obtain ⟨hframe, hcallers⟩ := hstate
  have hgives := frameStep_gives h hnative hpool hfew hframe
  unfold State.step
  simp only
  split
  · exact hgives.error _ ‹_›
  · rename_i after heffect
    have hafter : Effect.InBatch options externals batch pool (.go after) := hgives.ok _ heffect
    exact ⟨hafter, hcallers⟩
  · rename_i line after heffect
    have hafter : Effect.InBatch options externals batch pool (.print line after) :=
      hgives.ok _ heffect
    exact ⟨hafter, hcallers⟩
  · rename_i target name args after heffect
    obtain ⟨hafter, htarget, sig, hoffer, rfl, hargs⟩ := hgives.ok _ heffect
    have hentered := enter_gives h hnative hpool htarget hoffer hargs
    unfold afterCall
    split
    · split
      · exact hentered.error _ ‹_›
      · refine ⟨hafter.inPlace ?_, hcallers⟩
        unfold Frame.receive
        split
        · exact .refl _
        · exact ⟨rfl, rfl⟩
      · rename_i callee hcallee
        exact ⟨hentered.ok _ hcallee, List.forall_mem_cons.mpr ⟨hafter, hcallers⟩⟩
    · -- too many frames end the run, but the call was right
      rfl
  · exact afterReturn_stays _ _ hcallers

/-- However long the machine runs, no call misses its target. -/
theorem run_reaches (hfew : FewParams batch) (fuel : Nat) {state : State}
    (hstate : InBatch options externals batch pool state) {fault : RuntimeFault} {out : String}
    (hrun : run pool fuel state = some ⟨.error fault, out⟩) : fault.missesTarget = false := by
  induction fuel generalizing state with
  | zero => cases hrun
  | succ fuel ih =>
    have hstep := step_stays h hnative hpool hfew hstate
    rw [run] at hrun
    cases hnext : state.step pool with
    | working after =>
      rw [hnext] at hrun hstep
      exact ih hstep hrun
    | finished finished =>
      rw [hnext] at hrun hstep
      cases hrun
      exact hstep

end

end StackScript.Machine

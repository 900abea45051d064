import Mathlib.Algebra.Group.Nat.Defs
import StackScript.Code.Payload

/-!
# Payloads are read back

Whatever is written is read back from the front of any bytes, as long as its texts and lists can be
counted with the eight bytes that a payload has for a length (`RoundTrips`). So a class file is what
its payload holds, whatever follows it (`ofPayload_append`).
-/

namespace StackScript.Code

open StackScript.Text

/-! ## Reading what stands in front -/

/-- The bytes are read as the item, and what follows them is left. -/
def Reads {α : Type} (read : Reader α) (bytes : List UInt8) (a : α) : Prop :=
  ∀ rest, read (bytes ++ rest) = .ok (a, rest)

namespace Reads

variable {α β : Type}

theorem pure (a : α) : Reads (Pure.pure a) [] a := fun _ => rfl

/-- Items that stand one behind the other are read one after the other. -/
theorem bind {first : Reader α} {next : α → Reader β} {bytes more : List UInt8} {a : α} {b : β}
    (hfirst : Reads first bytes a) (hnext : Reads (next a) more b) :
    Reads (first >>= next) (bytes ++ more) b := by
  intro rest
  change (first (bytes ++ more ++ rest) >>= fun r => next r.1 r.2) = _
  rw [List.append_assoc, hfirst]
  exact hnext rest

/-- The last part of an item, after which there is nothing to read. -/
theorem last {first : Reader α} {next : α → Reader β} {bytes : List UInt8} {a : α} {b : β}
    (hfirst : Reads first bytes a) (hnext : Reads (next a) [] b) :
    Reads (first >>= next) bytes b := by
  have h := hfirst.bind hnext
  rwa [List.append_nil] at h

theorem map {read : Reader α} {bytes : List UInt8} {a : α} (f : α → β) (h : Reads read bytes a) :
    Reads (f <$> read) bytes (f a) := by
  intro rest
  change (read (bytes ++ rest) >>= fun r => Except.ok (f r.1, r.2)) = _
  rw [h]
  rfl

end Reads

/-! ## Numbers -/

theorem length_littleEndian (width n : Nat) : (littleEndian width n).length = width := by
  induction width generalizing n with
  | zero => rfl
  | succ width ih => rw [littleEndian, List.length_cons, ih]

/-- A number is what its bytes say, if it has room in them. -/
theorem ofLittleEndian_littleEndian {width n : Nat} (h : n < 256 ^ width) :
    ofLittleEndian (littleEndian width n) = n := by
  induction width generalizing n with
  | zero =>
    have hzero : n = 0 := by simpa using h
    rw [hzero]
    rfl
  | succ width ih =>
    have hrest : n / 256 < 256 ^ width := by
      rw [Nat.pow_succ] at h
      omega
    have hlow : (UInt8.ofNat (n % 256)).toNat = n % 256 := by
      simp
    have hcons : ofLittleEndian (littleEndian (width + 1) n)
        = (UInt8.ofNat (n % 256)).toNat + 256 * ofLittleEndian (littleEndian width (n / 256)) := rfl
    rw [hcons, ih hrest, hlow]
    omega

/-- A number of so many bytes is read back from them. -/
theorem reads_number {width n : Nat} (h : n < 256 ^ width) :
    Reads (readNumber width) (littleEndian width n) n := by
  intro rest
  have hlength := length_littleEndian width n
  simp only [readNumber, List.take_left' hlength, List.drop_left' hlength, hlength, if_true,
    ofLittleEndian_littleEndian h]

theorem reads_uint16 (n : UInt16) : Reads readUInt16 (littleEndian 2 n.toNat) n := by
  have h := (reads_number (show n.toNat < 256 ^ 2 from n.toNat_lt)).map UInt16.ofNat
  rwa [UInt16.ofNat_toNat] at h

theorem reads_uint32 (n : UInt32) : Reads readUInt32 (littleEndian 4 n.toNat) n := by
  have h := (reads_number (show n.toNat < 256 ^ 4 from n.toNat_lt)).map UInt32.ofNat
  rwa [UInt32.ofNat_toNat] at h

/-- Integers are written by their bit patterns, and so are negative ones read back. -/
theorem reads_int64 (n : Int64) : Reads readInt64 (littleEndian 8 n.toUInt64.toNat) n := by
  have h := (reads_number (show n.toUInt64.toNat < 256 ^ 8 from n.toUInt64.toNat_lt)).map
    fun n => (UInt64.ofNat n).toInt64
  rwa [UInt64.ofNat_toNat] at h

theorem reads_bool (b : Bool) : Reads readBool [if b then 1 else 0] b := by
  intro rest
  cases b <;> rfl

/-- A choice is read by the reader that its number picks. -/
theorem reads_choice {α : Type} {bound n : Nat} {pick? : Nat → Option (Reader α)}
    {read : Reader α} {bytes : List UInt8} {a : α} (hn : n < 256 ^ 4) (hpick : pick? n = some read)
    (hread : Reads read bytes a) :
    Reads (readChoice bound pick?) (writeChoice n ++ bytes) a := by
  refine (reads_number hn).bind ?_
  simp only [hpick]
  exact hread

/-- A choice that has nothing but its number. -/
theorem reads_plain {α : Type} {bound n : Nat} {pick? : Nat → Option (Reader α)} {a : α}
    (hn : n < 256 ^ 4) (hpick : pick? n = some (pure a)) :
    Reads (readChoice bound pick?) (writeChoice n) a := by
  rw [← List.append_nil (writeChoice n)]
  exact reads_choice hn hpick (.pure a)

/-! ## Sizes -/

/-- The bytes of an item are not too many to be counted. -/
def Countable (bytes : List UInt8) : Prop := bytes.length < UInt64.size

/-- Part of what can be counted can be counted. -/
theorem Countable.left {xs ys : List UInt8} (h : Countable (xs ++ ys)) : Countable xs := by
  unfold Countable at *
  rw [List.length_append] at h
  omega

theorem Countable.right {xs ys : List UInt8} (h : Countable (xs ++ ys)) : Countable ys := by
  unfold Countable at *
  rw [List.length_append] at h
  omega

/-- The bytes of a text can be counted. -/
def SizedText (text : String) : Prop := Countable (utf8Bytes text)

/-- The items of a list can be counted, and each has a size that fits. -/
structure SizedList {α : Type} (sized : α → Prop) (items : List α) : Prop where
  length : items.length < UInt64.size
  items : ∀ item ∈ items, sized item

/-- Items that are the same size whatever they are. -/
abbrev AnySize {α : Type} (_ : α) : Prop := True

/-- The texts of an instruction can be counted. -/
def Instr.Sized : Instr → Prop
  | .pushStr value => SizedText value
  | .call cls method _ => SizedText cls ∧ SizedText method
  | _ => True

/-- All texts and lists of a method can be counted. -/
structure MethodCode.Sized (method : MethodCode) : Prop where
  name : SizedText method.name
  params : SizedList AnySize method.params
  code : SizedList Instr.Sized method.code.toList
  lines : SizedList AnySize method.lines

/-- All texts and lists of a class file can be counted, each with the eight bytes that a payload has
for a length. -/
structure ClassFile.Sized (file : ClassFile) : Prop where
  name : SizedText file.name
  sourceFile : SizedText file.sourceFile
  references : SizedList SizedText file.references
  methods : SizedList MethodCode.Sized file.methods
  extensions : SizedList SizedText file.extensions

/-! ## Items that are read back -/

/-- What is written is read back as long as its sizes fit, and takes at least one byte; sizes fit
where all the bytes can be counted. -/
structure RoundTrips {α : Type} (sized : α → Prop) (write : α → List UInt8) (read : Reader α) :
    Prop where
  reads : ∀ a, sized a → Reads read (write a) a
  nonempty : ∀ a, 0 < (write a).length
  sized : ∀ a, Countable (write a) → sized a

/-- A text is read back from its length and its bytes. -/
theorem roundTrips_text : RoundTrips SizedText writeText readText where
  reads text h := by
    -- all that a text needs is that its length fits into the eight bytes in front of it
    have hlength : (utf8Bytes text).length < 256 ^ 8 := h
    refine (reads_number hlength).bind fun rest => ?_
    simp only [List.take_left' rfl, List.drop_left' rfl, if_true, ofUtf8?_utf8Bytes]
  nonempty text := by
    rw [writeText, List.length_append, length_littleEndian]
    omega
  sized text h := h.right

/-- There are at most as many items as bytes, since each has at least one. -/
theorem length_flatMap_le {α : Type} {write : α → List UInt8} (h : ∀ a, 0 < (write a).length)
    (items : List α) : items.length ≤ (items.flatMap write).length := by
  induction items with
  | nil => exact Nat.zero_le _
  | cons item rest ih =>
    have hitem := h item
    rw [List.length_cons, List.flatMap_cons, List.length_append]
    omega

section

variable {α : Type} {sized : α → Prop} {write : α → List UInt8} {read : Reader α}

/-- Items are read back one after another, as many as there are. -/
theorem reads_times (h : RoundTrips sized write read) {items : List α}
    (hsized : ∀ item ∈ items, sized item) :
    Reads (readTimes read items.length) (items.flatMap write) items := by
  induction items with
  | nil => exact .pure []
  | cons item rest ih =>
    rw [List.forall_mem_cons] at hsized
    rw [List.flatMap_cons]
    exact (h.reads item hsized.1).bind ((ih hsized.2).last (.pure _))

theorem sized_of_countable (h : RoundTrips sized write read) {items : List α}
    (hc : Countable (items.flatMap write)) : ∀ item ∈ items, sized item := by
  induction items with
  | nil => exact fun _ h => nomatch h
  | cons item rest ih =>
    rw [List.flatMap_cons] at hc
    exact List.forall_mem_cons.mpr ⟨h.sized item hc.left, ih hc.right⟩

/-- A list is read back from its length and its items. -/
theorem RoundTrips.many (h : RoundTrips sized write read) :
    RoundTrips (SizedList sized) (writeMany write) (readMany read) where
  reads items hsized := by
    have hlength : items.length < 256 ^ 8 := hsized.length
    exact (reads_number hlength).bind (reads_times h hsized.items)
  nonempty items := by
    rw [writeMany, List.length_append, length_littleEndian]
    omega
  sized items hc := by
    -- every item takes a byte, so there are no more items than bytes
    refine ⟨?_, sized_of_countable h hc.right⟩
    exact Nat.lt_of_le_of_lt (length_flatMap_le h.nonempty items) hc.right

end

/-! ## Class files -/

theorem arrays_array (t : Ty) (n : Nat) : (Ty.array t).arrays n = t.arrays (n + 1) := by
  induction n with
  | zero => rfl
  | succ n ih => exact congrArg Ty.array ih

/-- A type is read back with the array layers that were read before it. -/
theorem readTyUnder_writeTy (layers : Nat) (t : Ty) (rest : List UInt8) :
    readTyUnder layers (writeTy t ++ rest) = .ok (t.arrays layers, rest) := by
  -- reading goes down the dimensions and counts them, so the claim is for any number of layers
  induction t generalizing layers with
  | array element ih => exact (ih (layers + 1)).trans (by rw [arrays_array])
  | _ => rfl

/-- Every type is read back. -/
theorem roundTrips_ty : RoundTrips AnySize writeTy readTy where
  reads t _ rest := readTyUnder_writeTy 0 t rest
  nonempty t := by
    cases t with
    | array element =>
      rw [writeTy, List.length_append, writeChoice, length_littleEndian]
      omega
    | _ => exact Nat.zero_lt_succ 3
  sized _ _ := trivial

theorem reads_target (target : Target) : Reads readTarget (writeTarget target) target := by
  cases target <;> exact reads_plain (by decide) rfl

/-- Every instruction is read back, with the texts and numbers in it. -/
theorem roundTrips_instr : RoundTrips Instr.Sized writeInstr readInstr where
  reads instr h := by
    cases instr with
    | pushInt value => exact reads_choice (by decide) rfl ((reads_int64 value).map _)
    | pushBool value => exact reads_choice (by decide) rfl ((reads_bool value).map _)
    | pushStr value =>
      exact reads_choice (by decide) rfl ((roundTrips_text.reads value h).map _)
    | load slot => exact reads_choice (by decide) rfl ((reads_uint16 slot).map _)
    | store slot => exact reads_choice (by decide) rfl ((reads_uint16 slot).map _)
    | jump place => exact reads_choice (by decide) rfl ((reads_uint32 place).map _)
    | jumpIfFalse place => exact reads_choice (by decide) rfl ((reads_uint32 place).map _)
    | call cls method argc =>
      have hcls := roundTrips_text.reads cls h.1
      have hmethod := roundTrips_text.reads method h.2
      rw [writeInstr, List.append_assoc, List.append_assoc]
      exact reads_choice (by decide) rfl
        (hcls.bind (hmethod.bind ((reads_uint16 argc).last (.pure _))))
    | _ => exact reads_plain (by decide) rfl
  nonempty instr := by
    cases instr <;> rw [writeInstr] <;> simp only [writeChoice, List.length_append,
      length_littleEndian] <;> omega
  sized instr h := by
    cases instr with
    | pushStr value => exact roundTrips_text.sized value h.right
    | call cls method argc =>
      exact ⟨roundTrips_text.sized cls h.left.left.right, roundTrips_text.sized method h.left.right⟩
    | _ => exact trivial

theorem roundTrips_lineMark : RoundTrips AnySize writeLineMark readLineMark where
  reads mark _ := (reads_uint32 mark.place).bind ((reads_uint32 mark.line).last (.pure _))
  nonempty mark := by
    rw [writeLineMark, List.length_append, length_littleEndian]
    omega
  sized _ _ := trivial

/-- A method is read back with its code and its table of lines. -/
theorem roundTrips_method : RoundTrips MethodCode.Sized writeMethod readMethod where
  reads method h := by
    have hname := roundTrips_text.reads method.name h.name
    have hparams := roundTrips_ty.many.reads method.params h.params
    have hret := roundTrips_ty.reads method.ret trivial
    have hcode := roundTrips_instr.many.reads method.code.toList h.code
    have hlines := roundTrips_lineMark.many.reads method.lines h.lines
    simp only [writeMethod, List.append_assoc]
    exact hname.bind (hparams.bind (hret.bind ((reads_uint16 method.locals).bind
      (hcode.bind (hlines.last (.pure _))))))
  nonempty method := by
    have hname := roundTrips_text.nonempty method.name
    simp only [writeMethod, List.length_append]
    omega
  sized method h :=
    { name := roundTrips_text.sized _ h.left.left.left.left.left
      params := roundTrips_ty.many.sized _ h.left.left.left.left.right
      code := roundTrips_instr.many.sized _ h.left.right
      lines := roundTrips_lineMark.many.sized _ h.right }

/-- All that a payload has behind its header is read back. -/
theorem reads_fields {file : ClassFile} (h : file.Sized) :
    Reads readFields file.payload file := by
  have hname := roundTrips_text.reads file.name h.name
  have hsource := roundTrips_text.reads file.sourceFile h.sourceFile
  have hreferences := roundTrips_text.many.reads file.references h.references
  have hmethods := roundTrips_method.many.reads file.methods h.methods
  have hextensions := roundTrips_text.many.reads file.extensions h.extensions
  simp only [ClassFile.payload, List.append_assoc]
  exact (reads_uint32 file.magic).bind ((reads_target file.target).bind (hname.bind
    (hsource.bind (hreferences.bind (hmethods.bind (hextensions.last (.pure _)))))))

/-- What a class file holds can be counted, if its payload can. -/
theorem ClassFile.sized_of_countable {file : ClassFile} (h : Countable file.payload) :
    file.Sized where
  name := roundTrips_text.sized _ h.left.left.left.left.right
  sourceFile := roundTrips_text.sized _ h.left.left.left.right
  references := roundTrips_text.many.sized _ h.left.left.right
  methods := roundTrips_method.many.sized _ h.left.right
  extensions := roundTrips_text.many.sized _ h.right

/-- A class file with the right number is read back from its payload, whatever follows that. -/
theorem ofPayload_append {file : ClassFile} (h : file.Sized)
    (hmagic : file.magic = ClassFile.rightMagic) (rest : List UInt8) :
    ClassFile.ofPayload (file.payload ++ rest) = .ok file := by
  rw [ClassFile.ofPayload, reads_fields h rest]
  simp only [hmagic, if_true]

/-- The payload of a class file with the right number holds that class file. -/
theorem ofPayload_payload {file : ClassFile} (h : Countable file.payload)
    (hmagic : file.magic = ClassFile.rightMagic) :
    ClassFile.ofPayload file.payload = .ok file := by
  have hread := ofPayload_append (ClassFile.sized_of_countable h) hmagic []
  rwa [List.append_nil] at hread

end StackScript.Code

import StackScript.Proofs.Payloads

/-!
# Payloads have one form

Whatever is read was written: the bytes that an item was read from are the bytes that are written
for it, and its sizes fit (`IsExact`). With the round trips this makes the format exact: the bytes
that hold a class file are those that start with its payload (`ofPayload_eq_ok_iff`), and no payload
is a proper prefix of another (`payloads_are_exact`).
-/

namespace StackScript.Code

open StackScript.Text

/-! ## Parts of readers -/

namespace Reader

variable {α β : Type} {bytes rest : List UInt8}

theorem pure_eq_ok {a b : α} (h : (pure a : Reader α) bytes = .ok (b, rest)) :
    b = a ∧ rest = bytes := by
  cases h
  exact ⟨rfl, rfl⟩

theorem bind_eq_ok {first : Reader α} {next : α → Reader β} {b : β}
    (h : (first >>= next) bytes = .ok (b, rest)) :
    ∃ a middle, first bytes = .ok (a, middle) ∧ next a middle = .ok (b, rest) := by
  change (first bytes >>= fun r => next r.1 r.2) = _ at h
  cases hfirst : first bytes with
  | error fault =>
    rw [hfirst] at h
    cases h
  | ok r =>
    rw [hfirst] at h
    exact ⟨r.1, r.2, rfl, h⟩

/-- What is read through a function was read before it. -/
theorem map_eq_ok {read : Reader α} {f : α → β} {b : β}
    (h : (f <$> read) bytes = .ok (b, rest)) : ∃ a, b = f a ∧ read bytes = .ok (a, rest) := by
  change (read bytes >>= fun r => Except.ok (f r.1, r.2)) = _ at h
  cases hread : read bytes with
  | error fault =>
    rw [hread] at h
    cases h
  | ok r =>
    rw [hread] at h
    cases h
    exact ⟨r.1, rfl, rfl⟩

end Reader

/-- Whatever is read was written for the item, and its sizes fit. -/
def IsExact {α : Type} (sized : α → Prop) (write : α → List UInt8) (read : Reader α) : Prop :=
  ∀ {bytes rest a}, read bytes = .ok (a, rest) → sized a ∧ bytes = write a ++ rest

variable {α : Type} {bytes rest : List UInt8}

/-- An item made of a part that was read stands in the bytes as that part. -/
theorem IsExact.map_eq_ok {β : Type} {sized : β → Prop} {write : β → List UInt8} {read : Reader β}
    (hexact : IsExact sized write read) {make : β → α} {a : α}
    (h : (make <$> read) bytes = .ok (a, rest)) :
    ∃ b, a = make b ∧ sized b ∧ bytes = write b ++ rest := by
  obtain ⟨b, hmake, hread⟩ := Reader.map_eq_ok h
  obtain ⟨hsized, hbytes⟩ := hexact hread
  exact ⟨b, hmake, hsized, hbytes⟩

/-! ## Numbers -/

/-- The bytes of a number are the only ones of their length that it is read from. -/
theorem littleEndian_ofLittleEndian (bytes : List UInt8) :
    littleEndian bytes.length (ofLittleEndian bytes) = bytes := by
  induction bytes with
  | nil => rfl
  | cons b rest ih =>
    have hb : b.toNat < 256 := b.toNat_lt
    have hcons : ofLittleEndian (b :: rest) = b.toNat + 256 * ofLittleEndian rest := rfl
    have hlow : (b.toNat + 256 * ofLittleEndian rest) % 256 = b.toNat := by omega
    have hhigh : (b.toNat + 256 * ofLittleEndian rest) / 256 = ofLittleEndian rest := by omega
    rw [List.length_cons, littleEndian, hcons, hlow, hhigh, ih, UInt8.ofNat_toNat]

theorem ofLittleEndian_lt (bytes : List UInt8) : ofLittleEndian bytes < 256 ^ bytes.length := by
  induction bytes with
  | nil => exact Nat.one_pos
  | cons b rest ih =>
    have hb : b.toNat < 256 := b.toNat_lt
    have hcons : ofLittleEndian (b :: rest) = b.toNat + 256 * ofLittleEndian rest := rfl
    rw [List.length_cons, Nat.pow_succ, hcons]
    omega

/-- A number of a width is read from its bytes alone. -/
theorem isExact_number (width : Nat) :
    IsExact (· < 256 ^ width) (littleEndian width) (readNumber width) := by
  intro bytes rest n h
  unfold readNumber at h
  simp only at h
  split at h
  · rename_i hlength
    cases h
    have hwrite := littleEndian_ofLittleEndian (bytes.take width)
    have hbound := ofLittleEndian_lt (bytes.take width)
    rw [hlength] at hwrite hbound
    rw [hwrite]
    exact ⟨hbound, (List.take_append_drop width bytes).symm⟩
  · cases h

theorem isExact_uint16 : IsExact AnySize (fun n => littleEndian 2 n.toNat) readUInt16 := by
  intro bytes rest n h
  obtain ⟨k, rfl, hk⟩ := Reader.map_eq_ok h
  obtain ⟨hbound, hbytes⟩ := isExact_number 2 hk
  have htoNat : (UInt16.ofNat k).toNat = k := UInt16.toNat_ofNat_of_lt' hbound
  refine ⟨trivial, ?_⟩
  simp only [htoNat, hbytes]

theorem isExact_uint32 : IsExact AnySize (fun n => littleEndian 4 n.toNat) readUInt32 := by
  intro bytes rest n h
  obtain ⟨k, rfl, hk⟩ := Reader.map_eq_ok h
  obtain ⟨hbound, hbytes⟩ := isExact_number 4 hk
  have htoNat : (UInt32.ofNat k).toNat = k := UInt32.toNat_ofNat_of_lt' hbound
  refine ⟨trivial, ?_⟩
  simp only [htoNat, hbytes]

theorem isExact_int64 :
    IsExact AnySize (fun n => littleEndian 8 n.toUInt64.toNat) readInt64 := by
  intro bytes rest n h
  obtain ⟨k, rfl, hk⟩ := Reader.map_eq_ok h
  obtain ⟨hbound, hbytes⟩ := isExact_number 8 hk
  have htoNat : (UInt64.ofNat k).toInt64.toUInt64.toNat = k := UInt64.toNat_ofNat_of_lt' hbound
  refine ⟨trivial, ?_⟩
  simp only [htoNat, hbytes]

theorem isExact_bool : IsExact AnySize (fun b => [if b then 1 else 0]) readBool := by
  intro bytes rest b h
  cases bytes with
  | nil => cases h
  | cons byte bytes =>
    simp only [readBool] at h
    by_cases hzero : byte = 0
    · rw [if_pos hzero] at h
      cases h
      exact ⟨trivial, by rw [hzero]; rfl⟩
    · rw [if_neg hzero] at h
      by_cases hone : byte = 1
      · rw [if_pos hone] at h
        cases h
        exact ⟨trivial, by rw [hone]; rfl⟩
      · rw [if_neg hone] at h
        cases h

/-- A choice that was read has its number in front of what its reader read. -/
theorem choice_eq_ok {bound : Nat} {pick? : Nat → Option (Reader α)} {a : α}
    (h : readChoice bound pick? bytes = .ok (a, rest)) :
    ∃ n read middle, bytes = writeChoice n ++ middle ∧ pick? n = some read ∧
      read middle = .ok (a, rest) := by
  obtain ⟨n, middle, hn, h⟩ := Reader.bind_eq_ok h
  obtain ⟨-, hbytes⟩ := isExact_number 4 hn
  cases hpick : pick? n with
  | none =>
    rw [hpick] at h
    cases h
  | some read =>
    rw [hpick] at h
    exact ⟨n, read, middle, hbytes, hpick, h⟩

/-! ## Texts and lists -/

/-- A text is read from its length and its bytes alone. -/
theorem isExact_text : IsExact SizedText writeText readText := by
  intro bytes rest text h
  obtain ⟨length, middle, hlength, hread⟩ := Reader.bind_eq_ok h
  obtain ⟨hbound, hbytes⟩ := isExact_number 8 hlength
  simp only at hread
  by_cases htaken : (middle.take length).length = length
  · rw [if_pos htaken] at hread
    split at hread
    · rename_i found hfound
      cases hread
      -- the bytes of a text are the only ones that are read as the text
      have hutf8 : utf8Bytes text = middle.take length := utf8Bytes_of_ofUtf8? hfound
      have hsize : (utf8Bytes text).length = length := by rw [hutf8, htaken]
      refine ⟨?_, ?_⟩
      · unfold SizedText Countable
        rw [hsize]
        exact hbound
      · rw [hbytes, writeText, hsize, hutf8, List.append_assoc, List.take_append_drop]
    · cases hread
  · rw [if_neg htaken] at hread
    cases hread

section

variable {sized : α → Prop} {write : α → List UInt8} {read : Reader α}

/-- Items that were read one after another are as many as were asked for. -/
theorem times_eq_ok (hexact : IsExact sized write read) {n : Nat} {items : List α}
    (h : readTimes read n bytes = .ok (items, rest)) :
    items.length = n ∧ (∀ item ∈ items, sized item) ∧ bytes = items.flatMap write ++ rest := by
  induction n generalizing bytes items with
  | zero =>
    obtain ⟨rfl, rfl⟩ := Reader.pure_eq_ok h
    exact ⟨rfl, (fun _ h => nomatch h), rfl⟩
  | succ n ih =>
    obtain ⟨item, middle, hitem, h⟩ := Reader.bind_eq_ok h
    obtain ⟨more, last, hmore, h⟩ := Reader.bind_eq_ok h
    obtain ⟨rfl, rfl⟩ := Reader.pure_eq_ok h
    obtain ⟨hsized, rfl⟩ := hexact hitem
    obtain ⟨hlength, hall, rfl⟩ := ih hmore
    refine ⟨congrArg Nat.succ hlength, List.forall_mem_cons.mpr ⟨hsized, hall⟩, ?_⟩
    rw [List.flatMap_cons, List.append_assoc]

/-- A list is read from its length and its items alone, if an item is. -/
theorem IsExact.many (hexact : IsExact sized write read) :
    IsExact (SizedList sized) (writeMany write) (readMany read) := by
  intro bytes rest items h
  obtain ⟨n, middle, hn, h⟩ := Reader.bind_eq_ok h
  obtain ⟨hbound, hbytes⟩ := isExact_number 8 hn
  obtain ⟨hlength, hall, hmiddle⟩ := times_eq_ok hexact h
  have hsize : items.length < 256 ^ 8 := hlength ▸ hbound
  refine ⟨⟨hsize, hall⟩, ?_⟩
  rw [hbytes, hmiddle, writeMany, hlength, List.append_assoc]

end

/-! ## Class files -/

/-- A type that was read under some layers is what stands in the bytes, inside these layers. -/
theorem tyUnder_eq_ok {layers : Nat} {t : Ty}
    (h : readTyUnder layers bytes = .ok (t, rest)) :
    ∃ inner : Ty, t = inner.arrays layers ∧ bytes = writeTy inner ++ rest := by
  -- the induction is on the bytes; each layer takes four of them and goes on one layer deeper
  fun_induction readTyUnder layers bytes with
  | case1 layers a b c d rest' hn =>
    cases h
    exact ⟨.int, rfl, congrArg (· ++ rest) (hn ▸ littleEndian_ofLittleEndian [a, b, c, d]).symm⟩
  | case2 layers a b c d rest' hn =>
    cases h
    exact ⟨.boolean, rfl, congrArg (· ++ rest) (hn ▸ littleEndian_ofLittleEndian [a, b, c, d]).symm⟩
  | case3 layers a b c d rest' hn =>
    cases h
    exact ⟨.string, rfl, congrArg (· ++ rest) (hn ▸ littleEndian_ofLittleEndian [a, b, c, d]).symm⟩
  | case4 layers a b c d rest' hn =>
    cases h
    exact ⟨.void, rfl, congrArg (· ++ rest) (hn ▸ littleEndian_ofLittleEndian [a, b, c, d]).symm⟩
  | case5 layers a b c d rest' hn ih =>
    obtain ⟨inner, rfl, rfl⟩ := ih h
    have hlayer : [a, b, c, d] = writeChoice 4 :=
      (hn ▸ littleEndian_ofLittleEndian [a, b, c, d]).symm
    refine ⟨.array inner, (arrays_array inner layers).symm, ?_⟩
    rw [writeTy, ← hlayer]
    rfl
  | case6 => cases h
  | case7 => cases h

theorem isExact_ty : IsExact AnySize writeTy readTy := by
  intro bytes rest t h
  obtain ⟨inner, rfl, hbytes⟩ := tyUnder_eq_ok h
  exact ⟨trivial, hbytes⟩

theorem isExact_target : IsExact AnySize writeTarget readTarget := by
  intro bytes rest target h
  obtain ⟨n, read, middle, rfl, hpick, hread⟩ := choice_eq_ok h
  split at hpick <;> cases hpick <;> obtain ⟨rfl, rfl⟩ := Reader.pure_eq_ok hread
  all_goals exact ⟨trivial, rfl⟩

/-- An instruction is read from its own bytes alone. -/
theorem isExact_instr : IsExact Instr.Sized writeInstr readInstr := by
  intro bytes rest instr h
  obtain ⟨n, read, middle, rfl, hpick, hread⟩ := choice_eq_ok h
  split at hpick <;> cases hpick
  case h_1 =>
    obtain ⟨value, rfl, -, rfl⟩ := isExact_int64.map_eq_ok hread
    exact ⟨trivial, (List.append_assoc ..).symm⟩
  case h_2 =>
    obtain ⟨value, rfl, -, rfl⟩ := isExact_bool.map_eq_ok hread
    exact ⟨trivial, (List.append_assoc ..).symm⟩
  case h_3 =>
    obtain ⟨value, rfl, hsized, rfl⟩ := isExact_text.map_eq_ok hread
    exact ⟨hsized, (List.append_assoc ..).symm⟩
  case h_4 =>
    obtain ⟨slot, rfl, -, rfl⟩ := isExact_uint16.map_eq_ok hread
    exact ⟨trivial, (List.append_assoc ..).symm⟩
  case h_5 =>
    obtain ⟨slot, rfl, -, rfl⟩ := isExact_uint16.map_eq_ok hread
    exact ⟨trivial, (List.append_assoc ..).symm⟩
  case h_23 =>
    obtain ⟨place, rfl, -, rfl⟩ := isExact_uint32.map_eq_ok hread
    exact ⟨trivial, (List.append_assoc ..).symm⟩
  case h_24 =>
    obtain ⟨place, rfl, -, rfl⟩ := isExact_uint32.map_eq_ok hread
    exact ⟨trivial, (List.append_assoc ..).symm⟩
  case h_25 =>
    obtain ⟨cls, afterClass, hcls, hread⟩ := Reader.bind_eq_ok hread
    obtain ⟨method, afterMethod, hmethod, hread⟩ := Reader.bind_eq_ok hread
    obtain ⟨argc, last, hargc, hread⟩ := Reader.bind_eq_ok hread
    obtain ⟨rfl, rfl⟩ := Reader.pure_eq_ok hread
    obtain ⟨hclsSized, rfl⟩ := isExact_text hcls
    obtain ⟨hmethodSized, rfl⟩ := isExact_text hmethod
    obtain ⟨-, rfl⟩ := isExact_uint16 hargc
    refine ⟨⟨hclsSized, hmethodSized⟩, ?_⟩
    simp only [writeInstr, List.append_assoc]
  -- all other choices have nothing but their number
  all_goals
    obtain ⟨rfl, rfl⟩ := Reader.pure_eq_ok hread
    exact ⟨trivial, rfl⟩

theorem isExact_lineMark : IsExact AnySize writeLineMark readLineMark := by
  intro bytes rest mark h
  obtain ⟨place, middle, hplace, h⟩ := Reader.bind_eq_ok h
  obtain ⟨line, last, hline, h⟩ := Reader.bind_eq_ok h
  obtain ⟨rfl, rfl⟩ := Reader.pure_eq_ok h
  obtain ⟨-, rfl⟩ := isExact_uint32 hplace
  obtain ⟨-, rfl⟩ := isExact_uint32 hline
  exact ⟨trivial, (List.append_assoc ..).symm⟩

/-- A method is read from its own bytes alone. -/
theorem isExact_method : IsExact MethodCode.Sized writeMethod readMethod := by
  intro bytes rest method h
  -- the fields come one after another, each leaving what the next one is read from
  obtain ⟨name, afterName, hname, h⟩ := Reader.bind_eq_ok h
  obtain ⟨params, afterParams, hparams, h⟩ := Reader.bind_eq_ok h
  obtain ⟨ret, afterRet, hret, h⟩ := Reader.bind_eq_ok h
  obtain ⟨locals, afterLocals, hlocals, h⟩ := Reader.bind_eq_ok h
  obtain ⟨code, afterCode, hcode, h⟩ := Reader.bind_eq_ok h
  obtain ⟨lines, last, hlines, h⟩ := Reader.bind_eq_ok h
  obtain ⟨rfl, rfl⟩ := Reader.pure_eq_ok h
  obtain ⟨hnameSized, rfl⟩ := isExact_text hname
  obtain ⟨hparamsSized, rfl⟩ := isExact_ty.many hparams
  obtain ⟨-, rfl⟩ := isExact_ty hret
  obtain ⟨-, rfl⟩ := isExact_uint16 hlocals
  obtain ⟨hcodeSized, rfl⟩ := isExact_instr.many hcode
  obtain ⟨hlinesSized, rfl⟩ := isExact_lineMark.many hlines
  refine ⟨⟨hnameSized, hparamsSized, hcodeSized, hlinesSized⟩, ?_⟩
  simp only [writeMethod, List.append_assoc]

theorem isExact_fields : IsExact ClassFile.Sized ClassFile.payload readFields := by
  intro bytes rest file h
  obtain ⟨magic, afterMagic, hmagic, h⟩ := Reader.bind_eq_ok h
  obtain ⟨target, afterTarget, htarget, h⟩ := Reader.bind_eq_ok h
  obtain ⟨name, afterName, hname, h⟩ := Reader.bind_eq_ok h
  obtain ⟨sourceFile, afterSource, hsource, h⟩ := Reader.bind_eq_ok h
  obtain ⟨references, afterReferences, hreferences, h⟩ := Reader.bind_eq_ok h
  obtain ⟨methods, afterMethods, hmethods, h⟩ := Reader.bind_eq_ok h
  obtain ⟨extensions, last, hextensions, h⟩ := Reader.bind_eq_ok h
  obtain ⟨rfl, rfl⟩ := Reader.pure_eq_ok h
  obtain ⟨-, rfl⟩ := isExact_uint32 hmagic
  obtain ⟨-, rfl⟩ := isExact_target htarget
  obtain ⟨hnameSized, rfl⟩ := isExact_text hname
  obtain ⟨hsourceSized, rfl⟩ := isExact_text hsource
  obtain ⟨hreferencesSized, rfl⟩ := isExact_text.many hreferences
  obtain ⟨hmethodsSized, rfl⟩ := isExact_method.many hmethods
  obtain ⟨hextensionsSized, rfl⟩ := isExact_text.many hextensions
  refine ⟨⟨hnameSized, hsourceSized, hreferencesSized, hmethodsSized, hextensionsSized⟩, ?_⟩
  simp only [ClassFile.payload, List.append_assoc]

/-! ## Exact payloads -/

/-- The bytes that hold a class file are those that start with its payload. -/
theorem ofPayload_eq_ok_iff {file : ClassFile} :
    ClassFile.ofPayload bytes = .ok file ↔
      file.magic = ClassFile.rightMagic ∧ file.Sized ∧ file.payload <+: bytes := by
  constructor
  · intro h
    unfold ClassFile.ofPayload at h
    split at h
    · cases h
    · rename_i found rest hread
      split at h
      · rename_i hmagic
        cases h
        obtain ⟨hsized, hbytes⟩ := isExact_fields hread
        exact ⟨hmagic, hsized, rest, hbytes.symm⟩
      · cases h
  · rintro ⟨hmagic, hsized, rest, rfl⟩
    exact ofPayload_append hsized hmagic rest

/-- A payload that another one starts with is that payload, of the same class file. -/
theorem eq_of_payload_prefix {a b : ClassFile} (ha : a.Sized) (hb : b.Sized)
    (h : a.payload <+: b.payload) : a = b := by
  obtain ⟨rest, hrest⟩ := h
  have hreadA := reads_fields ha rest
  have hreadB := reads_fields hb []
  rw [List.append_nil, ← hrest, hreadA] at hreadB
  cases hreadB
  rfl

/-- Class files and payloads determine each other: a payload is read back whatever follows it; bytes
that are read as a class file start with its payload; and no payload starts with that of another
class file. Lists and texts must not be longer than the eight bytes before them can tell. -/
theorem payloads_are_exact :
    (∀ (file : ClassFile) (rest : List UInt8), file.magic = ClassFile.rightMagic → file.Sized →
      ClassFile.ofPayload (file.payload ++ rest) = .ok file) ∧
    (∀ (bytes : List UInt8) (file : ClassFile), ClassFile.ofPayload bytes = .ok file →
      file.magic = ClassFile.rightMagic ∧ file.Sized ∧ file.payload <+: bytes) ∧
    (∀ a b : ClassFile, a.Sized → b.Sized → a.payload <+: b.payload → a = b) := by
  refine ⟨fun file rest hmagic hsized => ?_, fun bytes file h => ?_, fun a b ha hb h => ?_⟩
  · exact ofPayload_append hsized hmagic rest
  · exact ofPayload_eq_ok_iff.mp h
  · exact eq_of_payload_prefix ha hb h

/-- A class that calls another one, with an array of arrays among its parameters. -/
def lampFile : ClassFile where
  magic := ClassFile.rightMagic
  target := .v2
  name := "app.Lamp"
  sourceFile := "lamp.mirah"
  references := ["Math"]
  methods :=
    [{ name := "glow"
       params := [.array (.array .string), .int]
       ret := .int
       locals := 2
       code := #[.pushStr "é", .puts, .load 1, .pushInt (-2), .call "Math" "max" 2, .ret]
       lines := [⟨0, 3⟩, ⟨2, 4⟩] }]
  extensions := ["math"]

theorem sized_lampFile (target : Target) : { lampFile with target }.Sized := by
  apply ClassFile.sized_of_countable
  unfold Countable
  cases target <;> decide +kernel

/-- The class file is read back from its payload with another byte after it, and its payload is not
the start of that of the same class for another target. -/
theorem payloads_are_exact_lampFile :
    ClassFile.ofPayload (lampFile.payload ++ [7]) = .ok lampFile ∧
      lampFile.payload <+: lampFile.payload ++ [7] ∧
      ¬ lampFile.payload <+: { lampFile with target := .v3 }.payload := by
  obtain ⟨hread, hwrite, hunique⟩ := payloads_are_exact
  have hlamp := hread lampFile [7] rfl (sized_lampFile .v2)
  refine ⟨hlamp, (hwrite _ _ hlamp).2.2, fun hprefix => ?_⟩
  have hsame := hunique lampFile _ (sized_lampFile .v2) (sized_lampFile .v3) hprefix
  exact absurd (congrArg ClassFile.target hsame) (by decide)

end StackScript.Code

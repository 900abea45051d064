import StackScript.Code.ClassFile
import StackScript.Notice
import StackScript.Text.Utf8

/-!
# Payloads

The bytes of a class file. Fields follow each other in order: integers with their low byte first
and at a fixed width, texts and lists after their length, and a choice after its number. Reading
stops at the first item that no class file has; bytes after the last field are left alone.
-/

namespace StackScript.Code

open StackScript.Text

/-! ## Faults -/

/-- Why bytes are not the payload of a class file. -/
inductive DecodeFault where
  /-- The bytes end inside a number. -/
  | cutOff
  /-- A text is longer than the bytes that are left. -/
  | shortText
  /-- A choice has a number that is not below `bound`. -/
  | badChoice (found bound : Nat)
  | badBool (found : UInt8)
  | badText (fault : Utf8Fault)
  | badMagic (found : UInt32)
  deriving DecidableEq, Repr

namespace DecodeFault

/-- A 32-bit number in hexadecimal, all eight digits. -/
def hexWord (n : UInt32) : String :=
  let digits := Nat.toDigits 16 n.toNat
  "0x" ++ String.ofList (List.replicate (8 - digits.length) '0' ++ digits)

/-- What is wrong with the bytes. -/
def cause : DecodeFault → String
  | cutOff => "io error: unexpected end of file"
  | shortText => "io error: "
  | badChoice found bound =>
    "invalid value: integer `" ++ toString found ++ "`, expected variant index 0 <= i < "
      ++ toString bound
  | badBool found =>
    "invalid u8 while decoding bool, expected 0 or 1, found " ++ toString found
  | badText fault => "string is not valid utf8: " ++ fault.message
  | badMagic found => "bad magic number " ++ hexWord found

/-- What went wrong. -/
def message (fault : DecodeFault) : String := "Malformed class payload: " ++ fault.cause

/-- The fault as it is told. -/
def notice (fault : DecodeFault) : Notice where
  code := "mirah::compile::decode"
  message := fault.message

end DecodeFault

/-! ## Writing -/

/-- The low `width` bytes of a number, lowest first. -/
def littleEndian : Nat → Nat → List UInt8
  | 0, _ => []
  | width + 1, n => UInt8.ofNat (n % 256) :: littleEndian width (n / 256)

/-- A text after its length. -/
def writeText (text : String) : List UInt8 :=
  let bytes := utf8Bytes text
  littleEndian 8 bytes.length ++ bytes

/-- The items of a list after their number. -/
def writeMany {α : Type} (write : α → List UInt8) (items : List α) : List UInt8 :=
  littleEndian 8 items.length ++ items.flatMap write

/-- The number of a choice. -/
def writeChoice (n : Nat) : List UInt8 := littleEndian 4 n

/-- The bytes of a type. -/
def writeTy : Ty → List UInt8
  | .int => writeChoice 0
  | .boolean => writeChoice 1
  | .string => writeChoice 2
  | .void => writeChoice 3
  | .array element => writeChoice 4 ++ writeTy element

/-- The bytes of a target. -/
def writeTarget : Target → List UInt8
  | .v1 => writeChoice 0
  | .v2 => writeChoice 1
  | .v3 => writeChoice 2
  | .v4 => writeChoice 3

/-- The bytes of an instruction. -/
def writeInstr : Instr → List UInt8
  | .pushInt value => writeChoice 0 ++ littleEndian 8 value.toUInt64.toNat
  | .pushBool value => writeChoice 1 ++ [if value then 1 else 0]
  | .pushStr value => writeChoice 2 ++ writeText value
  | .load slot => writeChoice 3 ++ littleEndian 2 slot.toNat
  | .store slot => writeChoice 4 ++ littleEndian 2 slot.toNat
  | .pop => writeChoice 5
  | .neg => writeChoice 6
  | .not => writeChoice 7
  | .add => writeChoice 8
  | .sub => writeChoice 9
  | .mul => writeChoice 10
  | .div => writeChoice 11
  | .mod => writeChoice 12
  | .concat => writeChoice 13
  | .eq => writeChoice 14
  | .ne => writeChoice 15
  | .lt => writeChoice 16
  | .le => writeChoice 17
  | .gt => writeChoice 18
  | .ge => writeChoice 19
  | .index => writeChoice 20
  | .length => writeChoice 21
  | .jump place => writeChoice 22 ++ littleEndian 4 place.toNat
  | .jumpIfFalse place => writeChoice 23 ++ littleEndian 4 place.toNat
  | .call cls method argc =>
    writeChoice 24 ++ writeText cls ++ writeText method ++ littleEndian 2 argc.toNat
  | .puts => writeChoice 25
  | .raise => writeChoice 26
  | .ret => writeChoice 27
  | .retVoid => writeChoice 28

/-- The bytes of a line mark. -/
def writeLineMark (mark : LineMark) : List UInt8 :=
  littleEndian 4 mark.place.toNat ++ littleEndian 4 mark.line.toNat

/-- The bytes of a method. -/
def writeMethod (method : MethodCode) : List UInt8 :=
  writeText method.name ++ writeMany writeTy method.params ++ writeTy method.ret
    ++ littleEndian 2 method.locals.toNat ++ writeMany writeInstr method.code.toList
    ++ writeMany writeLineMark method.lines

/-- The payload of a class file. -/
def ClassFile.payload (file : ClassFile) : List UInt8 :=
  littleEndian 4 file.magic.toNat ++ writeTarget file.target ++ writeText file.name
    ++ writeText file.sourceFile ++ writeMany writeText file.references
    ++ writeMany writeMethod file.methods ++ writeMany writeText file.extensions

/-! ## Reading -/

/-- Reads an item from the front of some bytes, and leaves the rest. -/
abbrev Reader := StateT (List UInt8) (Except DecodeFault)

/-- The number with the given bytes, lowest first. -/
def ofLittleEndian (bytes : List UInt8) : Nat := bytes.foldr (fun b n => b.toNat + 256 * n) 0

/-- Reads a number of `width` bytes. -/
def readNumber (width : Nat) : Reader Nat := fun bytes =>
  let taken := bytes.take width
  if taken.length = width then .ok (ofLittleEndian taken, bytes.drop width) else .error .cutOff

/-- Reads a text. -/
def readText : Reader String := do
  let length ← readNumber 8
  fun bytes =>
    let taken := bytes.take length
    if taken.length = length then
      match ofUtf8? taken with
      | some text => .ok (text, bytes.drop length)
      | none => .error (.badText ((utf8Fault? taken).getD ⟨0, none⟩))
    else .error .shortText

/-- Reads a number of items. -/
def readTimes {α : Type} (read : Reader α) : Nat → Reader (List α)
  | 0 => pure []
  | n + 1 => do
    let item ← read
    let items ← readTimes read n
    pure (item :: items)

/-- Reads a list. -/
def readMany {α : Type} (read : Reader α) : Reader (List α) := do
  let n ← readNumber 8
  readTimes read n

/-- Reads the number of a choice among `bound` ones with `pick?`. -/
def readChoice {α : Type} (bound : Nat) (pick? : Nat → Option (Reader α)) : Reader α := do
  let n ← readNumber 4
  match pick? n with
  | some read => read
  | none => throw (.badChoice n bound)

/-- The type, found under a number of array layers, that the bytes start with. -/
def readTyUnder (layers : Nat) : List UInt8 → Except DecodeFault (Ty × List UInt8)
  | a :: b :: c :: d :: rest =>
    match ofLittleEndian [a, b, c, d] with
    | 0 => .ok (Ty.int.arrays layers, rest)
    | 1 => .ok (Ty.boolean.arrays layers, rest)
    | 2 => .ok (Ty.string.arrays layers, rest)
    | 3 => .ok (Ty.void.arrays layers, rest)
    | 4 => readTyUnder (layers + 1) rest
    | n => .error (.badChoice n 5)
  | _ => .error .cutOff

/-- Reads a type. -/
def readTy : Reader Ty := readTyUnder 0

/-- Reads a target. -/
def readTarget : Reader Target :=
  readChoice 4 fun
    | 0 => some (pure .v1)
    | 1 => some (pure .v2)
    | 2 => some (pure .v3)
    | 3 => some (pure .v4)
    | _ => none

/-- Reads a boolean. -/
def readBool : Reader Bool := fun
  | [] => .error .cutOff
  | b :: rest =>
    if b = 0 then .ok (false, rest) else if b = 1 then .ok (true, rest) else .error (.badBool b)

/-- Reads a 16-bit number. -/
def readUInt16 : Reader UInt16 := UInt16.ofNat <$> readNumber 2

/-- Reads a 32-bit number. -/
def readUInt32 : Reader UInt32 := UInt32.ofNat <$> readNumber 4

/-- Reads a signed 64-bit number. -/
def readInt64 : Reader Int64 := (fun n => (UInt64.ofNat n).toInt64) <$> readNumber 8

/-- Reads an instruction. -/
def readInstr : Reader Instr :=
  readChoice 29 fun
    | 0 => some (.pushInt <$> readInt64)
    | 1 => some (.pushBool <$> readBool)
    | 2 => some (.pushStr <$> readText)
    | 3 => some (.load <$> readUInt16)
    | 4 => some (.store <$> readUInt16)
    | 5 => some (pure .pop)
    | 6 => some (pure .neg)
    | 7 => some (pure .not)
    | 8 => some (pure .add)
    | 9 => some (pure .sub)
    | 10 => some (pure .mul)
    | 11 => some (pure .div)
    | 12 => some (pure .mod)
    | 13 => some (pure .concat)
    | 14 => some (pure .eq)
    | 15 => some (pure .ne)
    | 16 => some (pure .lt)
    | 17 => some (pure .le)
    | 18 => some (pure .gt)
    | 19 => some (pure .ge)
    | 20 => some (pure .index)
    | 21 => some (pure .length)
    | 22 => some (.jump <$> readUInt32)
    | 23 => some (.jumpIfFalse <$> readUInt32)
    | 24 => some do
      let cls ← readText
      let method ← readText
      let argc ← readUInt16
      pure (.call cls method argc)
    | 25 => some (pure .puts)
    | 26 => some (pure .raise)
    | 27 => some (pure .ret)
    | 28 => some (pure .retVoid)
    | _ => none

/-- Reads a line mark. -/
def readLineMark : Reader LineMark := do
  let place ← readUInt32
  let line ← readUInt32
  pure ⟨place, line⟩

/-- Reads a method. -/
def readMethod : Reader MethodCode := do
  let name ← readText
  let params ← readMany readTy
  let ret ← readTy
  let locals ← readUInt16
  let code ← readMany readInstr
  let lines ← readMany readLineMark
  pure ⟨name, params, ret, locals, code.toArray, lines⟩

/-- Reads the fields of a class file, whatever its magic number. -/
def readFields : Reader ClassFile := do
  let magic ← readUInt32
  let target ← readTarget
  let name ← readText
  let sourceFile ← readText
  let references ← readMany readText
  let methods ← readMany readMethod
  let extensions ← readMany readText
  pure ⟨magic, target, name, sourceFile, references, methods, extensions⟩

/-- The class file whose payload the bytes start with. -/
def ClassFile.ofPayload (bytes : List UInt8) : Except DecodeFault ClassFile :=
  match readFields bytes with
  | .error fault => .error fault
  | .ok (file, _) =>
    if file.magic = rightMagic then .ok file else .error (.badMagic file.magic)

end StackScript.Code

/-!
# UTF-8

The bytes of a text, and reading them back. Bytes that are no text have a fault: the place where
the first sequence starts that no text has, and how much of it could be read. A sequence is a lead
byte and its followers, each of which has to lie in a range of its own; the first follower's range
keeps out overlong forms, surrogates and code points that are too large.
-/

namespace StackScript.Text

/-- The UTF-8 bytes of a text. -/
def utf8Bytes (text : String) : List UInt8 := text.toUTF8.data.toList

/-- The bytes do not come behind the other ones in the order of a dictionary. -/
def notBehind : List UInt8 → List UInt8 → Bool
  | [], _ => true
  | _ :: _, [] => false
  | a :: as, b :: bs => a < b || (a = b && notBehind as bs)

/-- Why bytes are not the UTF-8 form of a text. -/
structure Utf8Fault where
  /-- Number of bytes before the sequence that is at fault. -/
  index : Nat
  /-- Number of bytes of the sequence before it goes wrong; none when the bytes end first. -/
  width : Option Nat
  deriving DecidableEq, Repr

/-- What is wrong with the bytes. -/
def Utf8Fault.message (fault : Utf8Fault) : String :=
  match fault.width with
  | some width =>
    "invalid utf-8 sequence of " ++ toString width ++ " bytes from index " ++ toString fault.index
  | none => "incomplete utf-8 byte sequence from index " ++ toString fault.index

/-- A range of bytes, both ends included. -/
abbrev ByteRange := UInt8 × UInt8

/-- The bytes that may stand in any follower's place. -/
def anyFollower : ByteRange := (0x80, 0xbf)

/-- The ranges of the followers of a lead byte; nothing if no sequence starts with the byte. -/
def followers? (lead : UInt8) : Option (List ByteRange) :=
  if lead < 0x80 then some []
  else if lead < 0xc2 then none
  else if lead < 0xe0 then some [anyFollower]
  else if lead = 0xe0 then some [(0xa0, 0xbf), anyFollower]
  else if lead = 0xed then some [(0x80, 0x9f), anyFollower]
  else if lead < 0xf0 then some [anyFollower, anyFollower]
  else if lead = 0xf0 then some [(0x90, 0xbf), anyFollower, anyFollower]
  else if lead < 0xf4 then some [anyFollower, anyFollower, anyFollower]
  else if lead = 0xf4 then some [(0x80, 0x8f), anyFollower, anyFollower]
  else none

/-- The first fault of bytes, the first `done` bytes of the sequence at `start` being read already
and followers in the ranges `expected` still to come. -/
def utf8FaultFrom (start done : Nat) : List ByteRange → List UInt8 → Option Utf8Fault
  | [], [] => none
  | _ :: _, [] => some ⟨start, none⟩
  | [], lead :: rest =>
    match followers? lead with
    | none => some ⟨start, some 1⟩
    | some [] => utf8FaultFrom (start + 1) 0 [] rest
    | some expected => utf8FaultFrom start 1 expected rest
  | range :: expected, byte :: rest =>
    if range.1 ≤ byte ∧ byte ≤ range.2 then
      match expected with
      | [] => utf8FaultFrom (start + done + 1) 0 [] rest
      | expected => utf8FaultFrom start (done + 1) expected rest
    else some ⟨start, some done⟩

/-- The first fault of bytes that are no text. -/
def utf8Fault? (bytes : List UInt8) : Option Utf8Fault := utf8FaultFrom 0 0 [] bytes

/-- The text with the given UTF-8 bytes, if there is one. -/
def ofUtf8? (bytes : List UInt8) : Option String := String.fromUTF8? ⟨bytes.toArray⟩

theorem ofUtf8?_utf8Bytes (text : String) : ofUtf8? (utf8Bytes text) = some text := by
  simp [ofUtf8?, utf8Bytes, String.fromUTF8?, String.fromUTF8, text.isValidUTF8]

/-- Every text has its bytes as its only written form. -/
theorem utf8Bytes_of_ofUtf8? {bytes : List UInt8} {text : String}
    (h : ofUtf8? bytes = some text) : utf8Bytes text = bytes := by
  unfold ofUtf8? String.fromUTF8? at h
  split at h
  · cases h
    simp [utf8Bytes, String.fromUTF8]
  · cases h

end StackScript.Text

import Inkwell.Text.Quoted

/-!
# Decoding UTF-8

Bytes are decoded one after the other. The first byte of a character says how many bytes follow and
what the second one may be, which excludes overlong forms, surrogates and code points that are too
large. Decoding ends at the first malformed sequence; a sequence that breaks off covers the bytes
before the one that does not belong to it.
-/

namespace Inkwell.Text.Utf8

/-- Why bytes are not text. -/
inductive Reason where
  /-- No character starts with this byte. -/
  | invalidStart
  /-- The sequence is not continued by a byte that may follow. -/
  | invalidContinuation
  /-- The bytes end inside a sequence. -/
  | unexpectedEnd
  deriving DecidableEq, Repr

/-- A malformed sequence: its first and last position, its first byte, and what is wrong. -/
structure Malformed where
  /-- The position of the first byte. -/
  first : Nat
  /-- The position of the last byte. -/
  last : Nat
  /-- The first byte. -/
  byte : UInt8
  /-- What is wrong with it. -/
  reason : Reason
  deriving DecidableEq, Repr

/-- The text of a malformed sequence. -/
def Malformed.message (malformed : Malformed) : String :=
  let place :=
    if malformed.first = malformed.last then
      "byte 0x" ++ String.ofList (Quoted.hex 2 malformed.byte.toNat) ++ " in position " ++
        toString malformed.first
    else
      "bytes in position " ++ toString malformed.first ++ "-" ++ toString malformed.last
  let reason :=
    match malformed.reason with
    | .invalidStart => "invalid start byte"
    | .invalidContinuation => "invalid continuation byte"
    | .unexpectedEnd => "unexpected end of data"
  "'utf-8' codec can't decode " ++ place ++ ": " ++ reason

/-- A character of which some bytes were read and some are missing. -/
structure Pending where
  /-- The position of its first byte. -/
  first : Nat
  /-- Its first byte. -/
  byte : UInt8
  /-- The part of the code point read so far. -/
  code : Nat
  /-- The number of missing bytes. -/
  missing : Nat
  /-- The least byte that may follow. -/
  low : UInt8
  /-- The largest byte that may follow. -/
  high : UInt8

/-- What a first byte says about the character: its part of the code point, the number of bytes
that follow, and the range of the first of them. -/
def start? (position : Nat) (byte : UInt8) : Option Pending :=
  if byte < 0x80 then some ⟨position, byte, byte.toNat, 0, 0x80, 0xbf⟩
  else if byte < 0xc2 then none
  else if byte < 0xe0 then some ⟨position, byte, byte.toNat - 0xc0, 1, 0x80, 0xbf⟩
  else if byte < 0xf0 then
    some ⟨position, byte, byte.toNat - 0xe0, 2, if byte = 0xe0 then 0xa0 else 0x80,
      if byte = 0xed then 0x9f else 0xbf⟩
  else if byte < 0xf5 then
    some ⟨position, byte, byte.toNat - 0xf0, 3, if byte = 0xf0 then 0x90 else 0x80,
      if byte = 0xf4 then 0x8f else 0xbf⟩
  else none

/-- Decodes the bytes from a position on, behind the text found so far and a character that may be
unfinished. -/
def decodeFrom (position : Nat) (found : String) :
    Option Pending → List UInt8 → Except Malformed String
  | none, [] => .ok found
  | some pending, [] => .error ⟨pending.first, position - 1, pending.byte, .unexpectedEnd⟩
  | none, byte :: rest =>
    match start? position byte with
    | none => .error ⟨position, position, byte, .invalidStart⟩
    | some pending =>
      if pending.missing = 0 then
        decodeFrom (position + 1) (found.push (Char.ofNat pending.code)) none rest
      else decodeFrom (position + 1) found (some pending) rest
  | some pending, byte :: rest =>
    if pending.low ≤ byte ∧ byte ≤ pending.high then
      let code := pending.code * 64 + (byte.toNat - 0x80)
      if pending.missing ≤ 1 then
        decodeFrom (position + 1) (found.push (Char.ofNat code)) none rest
      else
        let pending :=
          { pending with code, missing := pending.missing - 1, low := 0x80, high := 0xbf }
        decodeFrom (position + 1) found (some pending) rest
    else .error ⟨pending.first, position - 1, pending.byte, .invalidContinuation⟩

/-- The text that bytes encode. -/
def decode (bytes : ByteArray) : Except Malformed String := decodeFrom 0 "" none bytes.toList

end Inkwell.Text.Utf8

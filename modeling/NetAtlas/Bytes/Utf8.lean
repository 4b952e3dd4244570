import NetAtlas.Bytes.Basic

set_option autoImplicit false

/-!
# Text as bytes

Strings are stored as UTF-8. Bytes that are not UTF-8 are refused with the place of the first fault:
the longest well-formed beginning, and how many bytes after it could still have become a character.
-/
namespace NetAtlas

namespace Utf8

def encode (s : String) : Bytes := s.toByteArray.data.toList

theorem encode_length (s : String) : (encode s).length = s.utf8ByteSize := rfl

/-- Where a byte string stops being UTF-8. Without a `size` the bytes end inside a character. -/
structure Fault where
  offset : Nat
  size : Option Nat
  deriving DecidableEq, Repr

def Fault.message (f : Fault) : String :=
  match f.size with
  | some n => s!"invalid utf-8 sequence of {n} bytes from index {f.offset}"
  | none => s!"incomplete utf-8 byte sequence from index {f.offset}"

/-- How many bytes follow a lead byte, and between which bounds the first of them lies: overlong
forms, surrogates and numbers above the last code point are ruled out by these bounds. -/
def lead (b : UInt8) : Option (Nat × UInt8 × UInt8) :=
  if b < 0x80 then some (0, 0x80, 0xBF)
  else if b < 0xC2 then none
  else if b < 0xE0 then some (1, 0x80, 0xBF)
  else if b = 0xE0 then some (2, 0xA0, 0xBF)
  else if b = 0xED then some (2, 0x80, 0x9F)
  else if b < 0xF0 then some (2, 0x80, 0xBF)
  else if b = 0xF0 then some (3, 0x90, 0xBF)
  else if b < 0xF4 then some (3, 0x80, 0xBF)
  else if b = 0xF4 then some (3, 0x80, 0x8F)
  else none

/-- What stands at the front of a byte string. -/
inductive Front
  | character (size : Nat)
  | broken (size : Nat)
  | cut
  deriving DecidableEq, Repr

/-- The front of a string of which `seen` bytes are good and `more` continuation bytes are due. -/
def continuation (seen : Nat) : Nat → UInt8 → UInt8 → Bytes → Front
  | 0, _, _, _ => .character seen
  | _ + 1, _, _, [] => .cut
  | more + 1, lo, hi, b :: bs =>
    if lo ≤ b ∧ b ≤ hi then continuation (seen + 1) more 0x80 0xBF bs else .broken seen

def front : Bytes → Front
  | [] => .cut
  | b :: bs =>
    match lead b with
    | none => .broken 1
    | some (more, lo, hi) => continuation 1 more lo hi bs

/-- The first fault at or after `offset`, where `skip` more bytes belong to a good character.
For bytes without a fault this is the place where they end. -/
def faultFrom (offset : Nat) : Nat → Bytes → Fault
  | _, [] => ⟨offset, none⟩
  | skip + 1, _ :: bs => faultFrom (offset + 1) skip bs
  | 0, b :: bs =>
    match front (b :: bs) with
    | .character size => faultFrom (offset + 1) (size - 1) bs
    | .broken size => ⟨offset, some size⟩
    | .cut => ⟨offset, none⟩

def fault (bs : Bytes) : Fault := faultFrom 0 0 bs

def decode (bs : Bytes) : Except Fault String :=
  match String.fromUTF8? bs.toByteArray with
  | some s => .ok s
  | none => .error (fault bs)

theorem decode_encode (s : String) : decode (encode s) = .ok s := by
  have h : (encode s).toByteArray = s.toByteArray := by
    apply ByteArray.ext
    simp [encode, List.data_toByteArray]
  have hv : s.toByteArray.IsValidUTF8 := s.isValidUTF8
  simp [decode, h, String.fromUTF8?, hv, String.fromUTF8]

end Utf8

end NetAtlas

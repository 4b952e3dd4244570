import NetAtlas.Bytes.Basic

set_option autoImplicit false

/-!
# Variable-length numbers

A number is cut into groups of seven bits, least significant group first, one group a byte. The high
bit of a byte says that another one follows, so no number is a beginning of another. Negative numbers
are written as their 64-bit two's complement and take ten bytes.
-/
namespace NetAtlas

namespace Varint

def groups (n : Nat) : Bytes :=
  if n < 128 then [UInt8.ofNat n] else UInt8.ofNat (128 + n % 128) :: groups (n / 128)
termination_by n

theorem groups_of_lt {n : Nat} (h : n < 128) : groups n = [UInt8.ofNat n] := by
  rw [groups, if_pos h]

theorem groups_of_le {n : Nat} (h : 128 ≤ n) :
    groups n = UInt8.ofNat (128 + n % 128) :: groups (n / 128) := by
  rw [groups, if_neg (by omega)]

def encode (v : Int64) : Bytes := groups v.toUInt64.toNat

def encode32 (v : Int32) : Bytes := encode v.toInt64

/-- The largest number of bytes a 64-bit number takes. -/
def maxLength : Nat := 10

end Varint

end NetAtlas

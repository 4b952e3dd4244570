set_option autoImplicit false

/-!
# Byte strings

A byte string is a list of bytes. Fixed-width numbers are written most significant byte first, so
that byte strings of one width compare as the numbers they hold.
-/
namespace NetAtlas

abbrev Bytes := List UInt8

namespace Bytes

/-- How many numbers fit into a width. -/
def room : Nat → Nat
  | 0 => 1
  | width + 1 => 256 * room width

/-- The low `width` bytes of `n`, most significant first. -/
def bigEndian : Nat → Nat → Bytes
  | 0, _ => []
  | width + 1, n => UInt8.ofNat (n / room width) :: bigEndian width n

/-- The number whose base-256 digits these are, most significant first. -/
def toNat : Bytes → Nat
  | [] => 0
  | b :: bs => b.toNat * room bs.length + toNat bs

theorem bigEndian_length (width n : Nat) : (bigEndian width n).length = width := by
  induction width with
  | zero => rfl
  | succ width ih => simp [bigEndian, ih]

theorem toNat_bigEndian (width n : Nat) : toNat (bigEndian width n) = n % room width := by
  induction width with
  | zero => simp [bigEndian, toNat, room, Nat.mod_one]
  | succ width ih =>
    simp only [bigEndian, toNat, bigEndian_length, ih, UInt8.toNat_ofNat', Nat.reducePow]
    rw [room, Nat.mul_comm 256, Nat.mod_mul, Nat.mul_comm (room width)]
    omega

def ofInt32 (v : Int32) : Bytes := bigEndian 4 v.toUInt32.toNat

def ofInt64 (v : Int64) : Bytes := bigEndian 8 v.toUInt64.toNat

def toInt32 (bs : Bytes) : Int32 := (UInt32.ofNat bs.toNat).toInt32

def toInt64 (bs : Bytes) : Int64 := (UInt64.ofNat bs.toNat).toInt64

theorem toInt32_ofInt32 (v : Int32) : toInt32 (ofInt32 v) = v := by
  have h : v.toUInt32.toNat < room 4 := v.toUInt32.toNat_lt
  simp only [toInt32, ofInt32, toNat_bigEndian]
  rw [Nat.mod_eq_of_lt h]
  simp

theorem toInt64_ofInt64 (v : Int64) : toInt64 (ofInt64 v) = v := by
  have h : v.toUInt64.toNat < room 8 := v.toUInt64.toNat_lt
  simp only [toInt64, ofInt64, toNat_bigEndian]
  rw [Nat.mod_eq_of_lt h]
  simp

end Bytes

end NetAtlas

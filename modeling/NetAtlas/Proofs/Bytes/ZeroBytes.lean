import Mathlib.Tactic.SplitIfs
import NetAtlas.Bytes.Utf8

set_option autoImplicit false

/-!
# Zero bytes in text

Only the zero character is written with a zero byte. So the bytes of a text before their first zero byte
are themselves those of a text: of its characters before the first zero character.
-/
namespace NetAtlas

namespace Utf8

theorem encode_eq_flatMap (s : String) : encode s = s.toList.flatMap String.utf8EncodeChar := by
  calc
    encode s = encode (String.ofList s.toList) := by rw [String.ofList_toList]
    _ = s.toList.flatMap String.utf8EncodeChar := by
      rw [encode, String.toByteArray_ofList, List.utf8Encode, List.toList_data_toByteArray]

theorem ofNat_ne_zero {n : Nat} (hpos : 0 < n) (hlt : n < 256) : UInt8.ofNat n ≠ 0 := by
  intro h
  have hn := congrArg UInt8.toNat h
  rw [UInt8.toNat_ofNat', Nat.mod_eq_of_lt hlt] at hn
  exact absurd hn (Nat.ne_of_gt hpos)

/-- Bytes of a longer form have their highest bit set, those of the shortest are the character's number. -/
theorem ne_zero_of_mem_encodeChar {c : Char} (hc : c ≠ '\x00') :
    ∀ b ∈ String.utf8EncodeChar c, b ≠ 0 := by
  have hpos : 0 < c.val.toNat := by
    refine Nat.pos_of_ne_zero fun h => hc ?_
    exact Char.ext (UInt32.toNat_inj.mp h)
  intro b hb
  simp only [String.utf8EncodeChar] at hb
  split_ifs at hb <;> simp only [List.mem_cons, List.not_mem_nil, or_false] at hb
  · subst hb
    exact ofNat_ne_zero hpos (by omega)
  · rcases hb with rfl | rfl <;> exact ofNat_ne_zero (by omega) (by omega)
  · rcases hb with rfl | rfl | rfl <;> exact ofNat_ne_zero (by omega) (by omega)
  · rcases hb with rfl | rfl | rfl | rfl <;> exact ofNat_ne_zero (by omega) (by omega)

/-- The characters of a text before its first zero character. -/
def beforeZero (s : String) : String := String.ofList (s.toList.takeWhile (· ≠ '\x00'))

theorem takeWhile_flatMap_encodeChar (cs : List Char) :
    (cs.flatMap String.utf8EncodeChar).takeWhile (· ≠ 0) =
      (cs.takeWhile (· ≠ '\x00')).flatMap String.utf8EncodeChar := by
  induction cs with
  | nil => rfl
  | cons c cs ih =>
    rw [List.flatMap_cons]
    by_cases hc : c = '\x00'
    · subst hc
      rfl
    · have hbytes : ∀ b ∈ String.utf8EncodeChar c, decide (b ≠ 0) = true :=
        fun b hb => decide_eq_true (ne_zero_of_mem_encodeChar hc b hb)
      have hchar : decide (c ≠ '\x00') = true := decide_eq_true hc
      rw [List.takeWhile_append_of_pos hbytes, ih, List.takeWhile_cons, if_pos hchar, List.flatMap_cons]

theorem encode_beforeZero (s : String) : encode (beforeZero s) = (encode s).takeWhile (· ≠ 0) := by
  rw [encode_eq_flatMap, encode_eq_flatMap, takeWhile_flatMap_encodeChar, beforeZero,
    String.toList_ofList]

end Utf8

end NetAtlas

import NetAtlas.Store.Table

set_option autoImplicit false

/-!
# The order of byte strings

Byte strings of one length compare as the numbers they hold. What lies between two byte strings with
a common beginning has that beginning too.
-/
namespace NetAtlas

namespace Bytes

theorem toNat_lt (bs : Bytes) : toNat bs < room bs.length := by
  induction bs with
  | nil => exact Nat.one_pos
  | cons b bs ih =>
    have hb : b.toNat + 1 ≤ 256 := b.toNat_lt
    have hm : (b.toNat + 1) * room bs.length ≤ 256 * room bs.length := Nat.mul_le_mul_right _ hb
    rw [List.length_cons, room, toNat]
    rw [Nat.add_mul] at hm
    omega

theorem compare_byte (a b : UInt8) : compare a b = compare a.toNat b.toNat := by
  simp only [compare, compareOfLessAndEq, UInt8.lt_iff_toNat_lt, ← UInt8.toNat_inj]

/-- A greater leading digit outweighs all that follows. -/
theorem digit_lt {a b x y p : Nat} (hab : a < b) (hx : x < p) : a * p + x < b * p + y := by
  have hm : (a + 1) * p ≤ b * p := Nat.mul_le_mul_right p hab
  rw [Nat.add_mul] at hm
  omega

theorem compare_eq_compare_toNat {xs ys : Bytes} (h : xs.length = ys.length) :
    compare xs ys = compare (toNat xs) (toNat ys) := by
  induction xs generalizing ys with
  | nil =>
    cases List.length_eq_zero_iff.mp h.symm
    rfl
  | cons a xs ih =>
    cases ys with
    | nil => cases h
    | cons b ys =>
      have hl : xs.length = ys.length := Nat.succ.inj h
      have hx := toNat_lt xs
      have hy := toNat_lt ys
      rw [List.compare_cons_cons, ih hl, compare_byte, toNat, toNat, hl]
      rw [hl] at hx
      rcases Nat.lt_trichotomy a.toNat b.toNat with hab | hab | hab
      · rw [Nat.compare_eq_lt.mpr hab, Nat.compare_eq_lt.mpr (digit_lt hab hx)]
        rfl
      · rw [hab, Nat.compare_eq_eq.mpr rfl, Ordering.eq_then]
        simp only [Nat.compare_eq_ite_lt, Nat.add_lt_add_iff_left]
      · rw [Nat.compare_eq_gt.mpr hab, Nat.compare_eq_gt.mpr (digit_lt hab hy)]
        rfl

theorem between_iff {start stop key : Bytes} :
    between start stop key ↔ compare start key ≠ .gt ∧ compare key stop = .lt := by
  simp [between, Ordering.isLE_iff_ne_gt, Ordering.isLT_iff_eq_lt]

theorem between_cons (b : UInt8) (start stop key : Bytes) :
    between (b :: start) (b :: stop) key ↔ ∃ rest, key = b :: rest ∧ between start stop rest := by
  cases key with
  | nil => simp [between]
  | cons c key =>
    simp only [between, List.compare_cons_cons, List.cons.injEq]
    rcases Nat.lt_trichotomy b.toNat c.toNat with h | h | h
    · have hne : c ≠ b := fun he => by rw [he] at h; exact Nat.lt_irrefl _ h
      simp [compare_byte, Nat.compare_eq_gt.mpr h, hne]
    · cases UInt8.toNat_inj.mp h
      simp
    · have hne : c ≠ b := fun he => by rw [he] at h; exact Nat.lt_irrefl _ h
      simp [compare_byte, Nat.compare_eq_gt.mpr h, hne]

theorem compare_append (stem xs ys : Bytes) : compare (stem ++ xs) (stem ++ ys) = compare xs ys := by
  induction stem with
  | nil => rfl
  | cons b stem ih => simp [List.compare_cons_cons, ih]

theorem between_append (stem start stop key : Bytes) :
    between (stem ++ start) (stem ++ stop) key ↔
      ∃ rest, key = stem ++ rest ∧ between start stop rest := by
  induction stem generalizing key with
  | nil => simp
  | cons b stem ih =>
    simp only [List.cons_append, between_cons, ih]
    constructor
    · rintro ⟨_, rfl, rest, rfl, h⟩
      exact ⟨rest, rfl, h⟩
    · rintro ⟨rest, rfl, h⟩
      exact ⟨stem ++ rest, rfl, rest, rfl, h⟩

/-- What sorts below a byte string does not begin with a greater one of its length. -/
theorem toNat_le_of_append_lt {xs rest ys : Bytes} (hl : xs.length = ys.length)
    (h : compare (xs ++ rest) ys = .lt) : toNat xs ≤ toNat ys := by
  rw [← Nat.isLE_compare, ← compare_eq_compare_toNat hl]
  induction xs generalizing ys with
  | nil =>
    cases List.length_eq_zero_iff.mp hl.symm
    rfl
  | cons a xs ih =>
    cases ys with
    | nil => cases hl
    | cons b ys =>
      rw [List.cons_append, List.compare_cons_cons] at h
      rw [List.compare_cons_cons]
      cases hab : compare a b with
      | lt => rfl
      | eq =>
        rw [hab] at h
        exact ih (Nat.succ.inj hl) h
      | gt =>
        rw [hab] at h
        cases h

/-- Among byte strings of one length, those between two are the numbers from the one up to, but
without, the other. -/
theorem between_iff_toNat {start stop key : Bytes} (hs : start.length = key.length)
    (ht : key.length = stop.length) :
    between start stop key ↔ toNat start ≤ toNat key ∧ toNat key < toNat stop := by
  rw [between, compare_eq_compare_toNat hs, compare_eq_compare_toNat ht, Bool.and_eq_true,
    Nat.isLE_compare, Ordering.isLT_iff_eq_lt, Nat.compare_eq_lt]

end Bytes

end NetAtlas

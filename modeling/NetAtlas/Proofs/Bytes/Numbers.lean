import NetAtlas.Bytes.Varint

set_option autoImplicit false

/-!
# The bytes of a number

A number can be written with different bytes, as groups that are zero may stand behind it. The writer
chooses the shortest ones, and no others are as short.
-/
namespace NetAtlas

namespace Varint

/-- The sum of the seven-bit groups, least significant first. -/
def sum : Bytes → Nat
  | [] => 0
  | b :: bs => b.toNat % 128 + 128 * sum bs

/-- Bytes that stand for a number of at most `most` bytes: all but the last have the high bit, and where no
more may follow one bit alone is left. -/
structure IsNumber (most : Nat) (bs : Bytes) : Prop where
  ne_nil : bs ≠ []
  length_le : bs.length ≤ most
  goes_on : ∀ b ∈ bs.dropLast, 128 ≤ b
  ends : ∀ b ∈ bs.getLast?, b < 128
  last_bit : ∀ b ∈ bs[most - 1]?, b ≤ 1

theorem isNumber_iff {most : Nat} {bs : Bytes} : IsNumber most bs ↔
    bs ≠ [] ∧ bs.length ≤ most ∧ (∀ b ∈ bs.dropLast, 128 ≤ b) ∧ (∀ b ∈ bs.getLast?, b < 128) ∧
      ∀ b ∈ bs[most - 1]?, b ≤ 1 :=
  ⟨fun h => ⟨h.1, h.2, h.3, h.4, h.5⟩, fun h => ⟨h.1, h.2.1, h.2.2.1, h.2.2.2.1, h.2.2.2.2⟩⟩

variable {more : Nat} {b : UInt8} {bs : Bytes}

theorem isNumber_singleton_iff : IsNumber (more + 1) [b] ↔ b < 128 ∧ (more = 0 → b ≤ 1) := by
  rw [isNumber_iff]
  cases more <;> simp

theorem isNumber_cons_iff (h : bs ≠ []) :
    IsNumber (more + 1) (b :: bs) ↔ 128 ≤ b ∧ IsNumber more bs := by
  obtain ⟨c, cs, rfl⟩ := List.exists_cons_of_ne_nil h
  rw [isNumber_iff, isNumber_iff]
  cases more with
  | zero => simp
  | succ more => simp [and_assoc, and_left_comm]

theorem IsNumber.eq_singleton (h : IsNumber 1 bs) : ∃ b, bs = [b] ∧ b < 128 ∧ b ≤ 1 := by
  have hpos := List.length_pos_iff.mpr h.ne_nil
  obtain ⟨b, rfl⟩ := List.length_eq_one_iff.mp (Nat.le_antisymm h.length_le hpos)
  obtain ⟨hb, hbit⟩ := isNumber_singleton_iff.mp h
  exact ⟨b, rfl, hb, hbit rfl⟩

/-- The numbers below this one are written if `more` groups may follow the first one. Of the last group one
bit is left. -/
def groupsRoom : Nat → Nat
  | 0 => 2
  | more + 1 => 128 * groupsRoom more

theorem groupsRoom_pos (more : Nat) : 0 < groupsRoom more := by
  induction more with
  | zero => exact Nat.two_pos
  | succ more ih => exact Nat.mul_pos (by decide) ih

theorem toNat_ofNat_of_lt {n : Nat} (h : n < 256) : (UInt8.ofNat n).toNat = n := by
  rw [UInt8.toNat_ofNat', Nat.mod_eq_of_lt h]

theorem sum_singleton (h : b < 128) : sum [b] = b.toNat := by
  have hb := UInt8.lt_iff_toNat_lt.mp h
  change b.toNat < 128 at hb
  rw [sum, sum, Nat.mod_eq_of_lt hb, Nat.mul_zero, Nat.add_zero]

theorem sum_groups (n : Nat) : sum (groups n) = n := by
  fun_induction groups n with
  | case1 n h =>
    rw [sum, sum, toNat_ofNat_of_lt (by omega)]
    omega
  | case2 n h ih =>
    rw [sum, ih, toNat_ofNat_of_lt (by omega)]
    omega

theorem groups_ne_nil (n : Nat) : groups n ≠ [] := by
  rw [groups]
  split
  · exact List.cons_ne_nil _ _
  · exact List.cons_ne_nil _ _

theorem isNumber_groups {n : Nat} (h : n < groupsRoom more) : IsNumber (more + 1) (groups n) := by
  induction more generalizing n with
  | zero =>
    have hn : n < 2 := h
    have hbyte := toNat_ofNat_of_lt (show n < 256 by omega)
    rw [groups_of_lt (by omega), isNumber_singleton_iff, UInt8.lt_iff_toNat_lt, UInt8.le_iff_toNat_le,
      hbyte]
    exact ⟨Nat.lt_trans hn (by decide), fun _ => Nat.lt_succ_iff.mp hn⟩
  | succ more ih =>
    by_cases hn : n < 128
    · have hbyte := toNat_ofNat_of_lt (show n < 256 by omega)
      rw [groups_of_lt hn, isNumber_singleton_iff, UInt8.lt_iff_toNat_lt, hbyte]
      exact ⟨hn, fun hzero => absurd hzero (Nat.succ_ne_zero _)⟩
    · have hbyte := toNat_ofNat_of_lt (show 128 + n % 128 < 256 by omega)
      rw [groups_of_le (Nat.not_lt.mp hn), isNumber_cons_iff (groups_ne_nil _), UInt8.le_iff_toNat_le,
        hbyte]
      refine ⟨Nat.le_add_right 128 _, ih ?_⟩
      rw [groupsRoom] at h
      omega

theorem sum_lt_groupsRoom (h : IsNumber (more + 1) bs) : sum bs < groupsRoom more := by
  induction more generalizing bs with
  | zero =>
    obtain ⟨b, rfl, hb, hbit⟩ := h.eq_singleton
    rw [sum_singleton hb]
    exact Nat.lt_succ_of_le (UInt8.le_iff_toNat_le.mp hbit)
  | succ more ih =>
    have hpos := groupsRoom_pos more
    obtain ⟨b, bs, rfl⟩ := List.exists_cons_of_ne_nil h.ne_nil
    by_cases hbs : bs = []
    · subst hbs
      rw [sum, sum, groupsRoom]
      omega
    · have hrest := ih ((isNumber_cons_iff hbs).mp h).2
      rw [sum, groupsRoom]
      omega

theorem isNumber_encode (v : Int64) : IsNumber maxLength (encode v) := isNumber_groups v.toUInt64.toNat_lt

theorem sum_encode (v : Int64) : sum (encode v) = v.toUInt64.toNat := sum_groups _

/-- Bytes of the number the writer writes are the writer's, or there are more of them. -/
theorem eq_groups_or_length_lt {most : Nat} (h : IsNumber most bs) :
    bs = groups (sum bs) ∨ (groups (sum bs)).length < bs.length := by
  induction bs generalizing most with
  | nil => exact absurd rfl h.ne_nil
  | cons b bs ih =>
    cases most with
    | zero => exact absurd h.length_le (Nat.not_succ_le_zero _)
    | succ more =>
      by_cases hbs : bs = []
      · subst hbs
        obtain ⟨hb, _⟩ := isNumber_singleton_iff.mp h
        rw [sum_singleton hb, groups_of_lt (UInt8.lt_iff_toNat_lt.mp hb), UInt8.ofNat_toNat]
        exact Or.inl rfl
      · obtain ⟨hb, hrest⟩ := (isNumber_cons_iff hbs).mp h
        have hpos := List.length_pos_iff.mpr hbs
        rw [sum, List.length_cons]
        by_cases hzero : sum bs = 0
        · -- what goes on behind the first byte adds nothing
          rw [hzero, groups_of_lt (by omega), List.length_singleton]
          exact Or.inr (Nat.succ_lt_succ hpos)
        · have hfirst : UInt8.ofNat (128 + (b.toNat % 128 + 128 * sum bs) % 128) = b := by
            have hge : 128 ≤ b.toNat := UInt8.le_iff_toNat_le.mp hb
            have hlt := b.toNat_lt
            rw [← UInt8.toNat_inj, toNat_ofNat_of_lt (by omega)]
            omega
          have hdiv : (b.toNat % 128 + 128 * sum bs) / 128 = sum bs := by omega
          rw [groups_of_le (by omega), hfirst, hdiv, List.length_cons]
          rcases ih hrest with heq | hlt
          · exact Or.inl (congrArg (b :: ·) heq)
          · exact Or.inr (Nat.succ_lt_succ hlt)

end Varint

end NetAtlas

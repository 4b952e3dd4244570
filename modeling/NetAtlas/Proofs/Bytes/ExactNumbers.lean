import Mathlib.Data.Nat.Digits.Defs
import NetAtlas.Proofs.Bytes.Steady
import NetAtlas.Proofs.Bytes.Taken

set_option autoImplicit false

/-!
# Numbers are read exactly

A variable-length number is read if and only if the bytes begin with one, and then it is the number whose
digits to the base of 128 these bytes carry, least significant first. All other bytes are refused. Of the
bytes of a number the shortest are written.
-/
namespace NetAtlas

theorem Varint.sum_eq_ofDigits (bs : Bytes) :
    sum bs = Nat.ofDigits 128 (bs.map fun b => b.toNat % 128) := by
  induction bs with
  | nil => rfl
  | cons b bs ih => rw [sum, ih, List.map_cons, Nat.ofDigits_cons]

namespace Reader

theorem byte_run (c : Cursor) : byte c = match c.rest with
    | [] => (.error (.truncated 1 c.offset 0), c)
    | b :: rest => (.ok b, ⟨c.offset + 1, rest⟩) := by
  obtain ⟨offset, rest⟩ := c
  cases rest with
  | nil => rfl
  | cons b rest => exact reads_byte b offset rest

/-- Bytes that begin with no number run out too early or have too much in their last byte. -/
theorem groups_fails {more : Nat} {c : Cursor}
    (h : ∀ number, number <+: c.rest → ¬ Varint.IsNumber (more + 1) number) :
    ∃ cause c', groups more c = (.error cause, c') ∧ (cause = .varintOverflow ∨ cause.IsTruncated) := by
  induction more generalizing c with
  | zero =>
    rw [groups, exceptT_bind_run, byte_run]
    cases hrest : c.rest with
    | nil => exact ⟨_, _, rfl, Or.inr trivial⟩
    | cons b rest =>
      rw [hrest] at h
      have hb : 1 < b := by
        refine UInt8.not_le.mp fun hbit => h [b] ⟨rest, rfl⟩ ?_
        exact Varint.isNumber_singleton_iff.mpr ⟨UInt8.lt_of_le_of_lt hbit (by decide), fun _ => hbit⟩
      refine ⟨.varintOverflow, ⟨c.offset + 1, rest⟩, ?_, Or.inl rfl⟩
      change (if 1 < b then throw .varintOverflow else pure b.toNat : Reader Nat) _ = _
      rw [if_pos hb]
      rfl
  | succ more ih =>
    rw [groups, exceptT_bind_run, byte_run]
    cases hrest : c.rest with
    | nil => exact ⟨_, _, rfl, Or.inr trivial⟩
    | cons b rest =>
      rw [hrest] at h
      have hb : 128 ≤ b := by
        refine UInt8.not_lt.mp fun hlast => h [b] ⟨rest, rfl⟩ ?_
        exact Varint.isNumber_singleton_iff.mpr ⟨hlast, fun hzero => absurd hzero (Nat.succ_ne_zero _)⟩
      have hbehind : ∀ number, number <+: rest → ¬ Varint.IsNumber (more + 1) number :=
        fun number hprefix hnumber => h (b :: number) (List.cons_prefix_cons.mpr ⟨rfl, hprefix⟩)
          ((Varint.isNumber_cons_iff hnumber.ne_nil).mpr ⟨hb, hnumber⟩)
      obtain ⟨cause, c', hrun, hcause⟩ := ih (c := ⟨c.offset + 1, rest⟩) hbehind
      refine ⟨cause, c', ?_, hcause⟩
      change (if b < 128 then pure b.toNat
        else groups more >>= fun n => pure (b.toNat % 128 + 128 * n) : Reader Nat) _ = _
      rw [if_neg (UInt8.not_lt.mpr hb), exceptT_bind_run, hrun]

theorem varint_fails {c : Cursor}
    (h : ∀ number, number <+: c.rest → ¬ Varint.IsNumber Varint.maxLength number) :
    ∃ cause c', varint c = (.error cause, c') ∧ (cause = .varintOverflow ∨ cause.IsTruncated) := by
  obtain ⟨cause, c', hrun, hcause⟩ := @groups_fails (Varint.maxLength - 1) c h
  exact ⟨cause, c', by rw [varint, exceptT_bind_run, hrun], hcause⟩

/-- What is read is a number at the front of what is left. -/
theorem varint_eq_ok {c c' : Cursor} {v : Int64} (h : varint c = (.ok v, c')) :
    ∃ number, Varint.IsNumber Varint.maxLength number ∧ c.rest = number ++ c'.rest ∧
      c'.offset = c.offset + number.length ∧ v = (UInt64.ofNat (Varint.sum number)).toInt64 := by
  have hbegins : ∃ number, number <+: c.rest ∧ Varint.IsNumber Varint.maxLength number := by
    by_contra hnone
    obtain ⟨cause, c₁, hrun, _⟩ :=
      varint_fails fun number hprefix hnumber => hnone ⟨number, hprefix, hnumber⟩
    rw [hrun] at h
    cases h
  obtain ⟨number, ⟨rest, hrest⟩, hnumber⟩ := hbegins
  have hread := reads_varint_number hnumber c.offset rest
  rw [hrest] at hread
  cases hread.symm.trans h
  exact ⟨number, hnumber, hrest.symm, rfl, rfl⟩

theorem varint32_eq_ok_iff {c c' : Cursor} {v : Int32} :
    varint32 c = (.ok v, c') ↔ varint c = (.ok v.toInt64, c') := by
  constructor
  · intro h
    obtain ⟨w, c₁, hw, h⟩ := bind_eq_ok h
    split at h
    · next hsame =>
      cases h
      rw [hsame]
      exact hw
    · cases h
  · intro h
    rw [varint32, exceptT_bind_run, h]
    change (if v.toInt64.toInt32.toInt64 = v.toInt64 then pure v.toInt64.toInt32
      else throw (.varintOutOfRange v.toInt64) : Reader Int32) c' = _
    rw [Int32.toInt32_toInt64, if_pos rfl]
    rfl

end Reader

namespace Varint

/-- Bytes that a 64-bit number may be written with: what the groups add up to is its two's complement. -/
def Stands (number : Bytes) (v : Int64) : Prop :=
  IsNumber maxLength number ∧
    v.toUInt64.toNat = Nat.ofDigits 128 (number.map fun b => b.toNat % 128)

theorem stands_encode (v : Int64) : Stands (encode v) v :=
  ⟨isNumber_encode v, by rw [← sum_eq_ofDigits, sum_encode]⟩

theorem stands_iff {number : Bytes} {v : Int64} : Stands number v ↔
    IsNumber maxLength number ∧ v = (UInt64.ofNat (sum number)).toInt64 := by
  rw [Stands, ← sum_eq_ofDigits]
  apply and_congr_right
  intro hnumber
  constructor
  · intro h
    rw [← h, UInt64.ofNat_toNat]
    rfl
  · rintro rfl
    have hlt : sum number < 2 ^ 64 := sum_lt_groupsRoom hnumber
    rw [UInt64.toUInt64_toInt64, UInt64.toNat_ofNat', Nat.mod_eq_of_lt hlt]

theorem Stands.eq_encode_or_length_lt {number : Bytes} {v : Int64} (h : Stands number v) :
    number = encode v ∨ (encode v).length < number.length := by
  rw [encode, h.2, ← sum_eq_ofDigits]
  exact eq_groups_or_length_lt h.1

end Varint

namespace Reader

theorem varint_eq_ok_iff {c c' : Cursor} {v : Int64} : varint c = (.ok v, c') ↔ ∃ number,
    Varint.Stands number v ∧ c.rest = number ++ c'.rest ∧ c'.offset = c.offset + number.length := by
  constructor
  · intro h
    obtain ⟨number, hnumber, hrest, hoffset, hv⟩ := varint_eq_ok h
    exact ⟨number, Varint.stands_iff.mpr ⟨hnumber, hv⟩, hrest, hoffset⟩
  · rintro ⟨number, hstands, hrest, hoffset⟩
    obtain ⟨hnumber, rfl⟩ := Varint.stands_iff.mp hstands
    have hread := reads_varint_number hnumber c.offset c'.rest
    rw [← hrest, ← hoffset] at hread
    exact hread

theorem varint_fails_iff {c : Cursor} :
    (∃ cause c', varint c = (.error cause, c') ∧ (cause = .varintOverflow ∨ cause.IsTruncated)) ↔
      ∀ number, number <+: c.rest → ¬ Varint.IsNumber Varint.maxLength number := by
  refine ⟨?_, varint_fails⟩
  rintro ⟨cause, c', hrun, _⟩ number ⟨rest, hrest⟩ hnumber
  have hread := reads_varint_number hnumber c.offset rest
  rw [hrest] at hread
  cases hread.symm.trans hrun

/-- A number is read exactly where bytes begin with one: its bytes are taken and no others, and its value is
what their groups add up to. All else is refused. A number is written with the fewest bytes it may be
written with and is read back whatever follows. A 32-bit number is read just where a 64-bit number is that
it can be. -/
theorem varint_reads_numbers :
    (∀ (c c' : Cursor) (v : Int64), varint c = (.ok v, c') ↔ ∃ number,
      Varint.Stands number v ∧ c.rest = number ++ c'.rest ∧ c'.offset = c.offset + number.length) ∧
    (∀ c : Cursor,
      (∃ cause c', varint c = (.error cause, c') ∧ (cause = .varintOverflow ∨ cause.IsTruncated)) ↔
        ∀ number, number <+: c.rest → ¬ Varint.IsNumber Varint.maxLength number) ∧
    (∀ v : Int64, Varint.Stands (Varint.encode v) v ∧ ∀ number, Varint.Stands number v →
      number = Varint.encode v ∨ (Varint.encode v).length < number.length) ∧
    (∀ v : Int64, Reads varint (Varint.encode v) v) ∧
    (∀ (c c' : Cursor) (v : Int32), varint32 c = (.ok v, c') ↔ varint c = (.ok v.toInt64, c')) ∧
    ∀ v : Int32, Reads varint32 (Varint.encode32 v) v :=
  ⟨fun _ _ _ => varint_eq_ok_iff, fun _ => varint_fails_iff,
    fun v => ⟨Varint.stands_encode v, fun _ h => h.eq_encode_or_length_lt⟩, reads_varint,
    fun _ _ _ => varint32_eq_ok_iff, reads_varint32⟩

/-- Zero may be written with more bytes than it is, and is read from them. -/
theorem varint_reads_numbers_longer_zero :
    Varint.Stands [0x80, 0x80, 0] 0 ∧ (Varint.encode 0).length < 3 ∧
    varint32 ⟨5, [0x80, 0x80, 0, 7]⟩ = (.ok 0, ⟨8, [7]⟩) := by
  have hstands : Varint.Stands [0x80, 0x80, 0] 0 :=
    ⟨Varint.isNumber_iff.mpr (by simp [Varint.maxLength]), rfl⟩
  obtain ⟨hread, _, hshortest, _, hread32, _⟩ := varint_reads_numbers
  have hencode : Varint.encode 0 = [0] := Varint.groups_of_lt (by decide)
  refine ⟨hstands, ((hshortest 0).2 _ hstands).resolve_left (by rw [hencode]; decide), ?_⟩
  exact (hread32 _ _ _).mpr ((hread _ _ _).mpr ⟨_, hstands, rfl, rfl⟩)

end Reader

end NetAtlas

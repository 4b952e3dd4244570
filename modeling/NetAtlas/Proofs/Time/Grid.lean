import NetAtlas.Proofs.Record.RowKey
import NetAtlas.Time.Sampler

set_option autoImplicit false

/-!
# The grid of a window

The times of a range lie in the slots of its window. A sampler for so many points makes at most one slot
more than that, since a range may begin and end within slots.
-/
namespace NetAtlas

namespace Window

variable (w : Window)

theorem refine_mono {a b : Int} (h : a ≤ b) : w.refine a ≤ w.refine b := slotStart_mono w.slot_pos h

theorem dvd_refine (time : Int) : w.slot ∣ w.refine time := Int.dvd_mul_left _ _

theorem refine_of_dvd {slot : Int} (h : w.slot ∣ slot) : w.refine slot = slot := Int.ediv_mul_cancel h

theorem start_le_stop : w.start ≤ w.stop :=
  w.refine_mono (Int64.le_iff_toInt_le.mp w.range.first_le_last)

theorem slots_length : w.slots.length = w.count := by simp [slots, take]

theorem getElem?_slots {i : Nat} (h : i < w.count) : w.slots[i]? = some (w.start + i * w.slot) := by
  simp [slots, take, h]

/-- A slot of the window: a multiple of the slot length between the first slot and the last one, found
at its index. -/
structure OnGrid (slot : Int) : Prop where
  mem_slots : slot ∈ w.slots
  dvd : w.slot ∣ slot
  start_le : w.start ≤ slot
  le_stop : slot ≤ w.stop
  index : ∃ i, w.index? slot = some i ∧ w.slots[i]? = some slot

theorem onGrid_of_between {slot : Int} (hd : w.slot ∣ slot) (hstart : w.start ≤ slot)
    (hstop : slot ≤ w.stop) : w.OnGrid slot := by
  have hpos := w.slot_pos
  have hindex : w.index? slot = some ((slot - w.start) / w.slot).toNat := by
    simp only [index?, w.refine_of_dvd hd]
    rw [if_neg (by omega)]
  have hnonneg : 0 ≤ (slot - w.start) / w.slot := Int.ediv_nonneg (by omega) (by omega)
  have hlt : ((slot - w.start) / w.slot).toNat < w.count := by
    have := Int.ediv_le_ediv hpos (show slot - w.start ≤ w.stop - w.start by omega)
    unfold count
    omega
  have hslot : w.slots[((slot - w.start) / w.slot).toNat]? = some slot := by
    have hcancel := Int.ediv_mul_cancel (Int.dvd_sub hd (w.dvd_refine w.range.first.toInt))
    rw [getElem?_slots w hlt, Int.toNat_of_nonneg hnonneg]
    change (slot - w.start) / w.slot * w.slot = slot - w.start at hcancel
    simp only [Option.some.injEq]
    omega
  exact ⟨List.mem_of_getElem? hslot, hd, hstart, hstop, _, hindex, hslot⟩

theorem onGrid_refine {time : Int64} (h : w.range.covers time) : w.OnGrid (w.refine time.toInt) := by
  simp only [TimeRange.covers, decide_eq_true_eq, Int64.lt_iff_toInt_lt, Int64.le_iff_toInt_le] at h
  exact w.onGrid_of_between (w.dvd_refine _) (w.refine_mono (Int.le_of_lt h.1)) (w.refine_mono h.2)

/-- Slots that together are as long as the range number at most one less than the window has. -/
theorem count_le {n : Int} (h : w.range.span ≤ n * w.slot) : w.count ≤ n + 1 := by
  have hpos := w.slot_pos
  have hfirst := w.start_le_stop
  have hlast : w.range.last.toInt / w.slot ≤ w.range.first.toInt / w.slot + n := by
    calc
      _ ≤ (w.range.first.toInt + n * w.slot) / w.slot :=
        Int.ediv_le_ediv hpos (by unfold TimeRange.span at h; omega)
      _ = w.range.first.toInt / w.slot + n := Int.add_mul_ediv_right _ _ (by omega)
  have hdiff : (w.stop - w.start) / w.slot =
      w.range.last.toInt / w.slot - w.range.first.toInt / w.slot := by
    simp only [stop, start, refine, slotStart, ← Int.sub_mul]
    exact Int.mul_ediv_cancel _ (by omega)
  have hnonneg : 0 ≤ (w.stop - w.start) / w.slot := Int.ediv_nonneg (by omega) (by omega)
  unfold count
  omega

end Window

namespace Sampler

theorem le_ceilDiv_mul {b : Int} (hb : 0 < b) (a : Int) : a ≤ ceilDiv a b * b := by
  have hmod := Int.emod_nonneg a (Int.ne_of_gt hb)
  have hlt := Int.emod_lt_of_pos a hb
  have hdiv := Int.mul_ediv_add_emod a b
  unfold ceilDiv
  rw [Int.add_mul, Int.mul_comm (a / b)]
  split <;> omega

theorem span_le_maxTime (range : TimeRange) : range.span ≤ maxTime := by
  have hfirst : (0 : Int) ≤ range.first.toInt := Int64.le_iff_toInt_le.mp range.first_nonneg
  have hlast : range.last.toInt ≤ maxTime := range.last.toInt_le
  unfold TimeRange.span
  omega

/-- The slots for so many points reach over the range, also where their length is cut off. -/
theorem span_le (minSlot maxPoints : Int64) (range : TimeRange) :
    range.span ≤ max 1 maxPoints.toInt * (atMost minSlot maxPoints).slot range := by
  have hpoints : 1 ≤ max 1 maxPoints.toInt := Int.le_max_left _ _
  have hspan := span_le_maxTime range
  have hcover := le_ceilDiv_mul hpoints range.span
  have hmultiple := le_ceilDiv_mul (Int.le_max_left 1 minSlot.toInt)
    (ceilDiv range.span (max 1 maxPoints.toInt))
  simp only [slot]
  generalize max 1 maxPoints.toInt = points at *
  generalize ceilDiv range.span points = perPoint at *
  generalize ceilDiv perPoint (max 1 minSlot.toInt) * max 1 minSlot.toInt = multiple at *
  -- either one slot is as long as any range, or the slots of all points are
  by_cases hcut : maxTime ≤ multiple
  · calc
      range.span ≤ 1 * maxTime := by omega
      _ ≤ points * max (max 1 minSlot.toInt) (min maxTime multiple) :=
        Int.mul_le_mul hpoints (by omega) (by decide) (by omega)
  · calc
      range.span ≤ points * perPoint := by rwa [Int.mul_comm]
      _ ≤ points * max (max 1 minSlot.toInt) (min maxTime multiple) :=
        Int.mul_le_mul_of_nonneg_left (by omega) (by omega)

variable {minSlot maxPoints : Int64} {range : TimeRange} {w : Window}

theorem window_eq_ok {sampler : Sampler} (h : sampler.window range = .ok w) :
    w.range = range ∧ w.slot = sampler.slot range := by
  unfold window Window.make at h
  split at h <;> cases h
  exact ⟨rfl, rfl⟩

theorem count_le (h : (atMost minSlot maxPoints).window range = .ok w) :
    w.count ≤ max 1 maxPoints.toInt + 1 := by
  obtain ⟨hrange, hslot⟩ := window_eq_ok h
  apply Window.count_le
  rw [hrange, hslot]
  exact span_le minSlot maxPoints range

end Sampler

end NetAtlas

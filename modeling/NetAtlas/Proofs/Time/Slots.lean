import Mathlib.Data.List.Chain
import NetAtlas.Proofs.Time.Grid

set_option autoImplicit false

/-!
# The slots of a window

Rounding a time down to its slot, counting the slots, listing them and numbering them are computed apart
from each other and yet show one grid. Its slots are those of the times of the range, one slot length
apart, and the number of a time's slot is its place in the list.
-/
namespace NetAtlas

namespace Window

variable (w : Window)

theorem refine_refine (time : Int) : w.refine (w.refine time) = w.refine time :=
  w.refine_of_dvd (w.dvd_refine time)

theorem index?_refine (time : Int) : w.index? (w.refine time) = w.index? time := by
  simp only [index?, refine_refine]

/-- The first slot that is not in the window any more. -/
theorem start_add_count : w.start + w.count * w.slot = w.stop + w.slot := by
  have hle := w.start_le_stop
  have hnonneg : 0 ≤ (w.stop - w.start) / w.slot := Int.ediv_nonneg (by omega) (Int.le_of_lt w.slot_pos)
  have hcount : (w.count : Int) = (w.stop - w.start) / w.slot + 1 := by
    unfold count
    omega
  have hwhole : (w.stop - w.start) / w.slot * w.slot = w.stop - w.start :=
    Int.ediv_mul_cancel (Int.dvd_sub (w.dvd_refine _) (w.dvd_refine _))
  rw [hcount, Int.add_mul, hwhole]
  omega

theorem getElem_slots {i : Nat} (h : i < w.slots.length) : w.slots[i] = w.start + i * w.slot := by
  simp [slots, take]

theorem getElem_slots_succ {i : Nat} (h : i + 1 < w.slots.length) :
    w.slots[i + 1] = w.slots[i] + w.slot := by
  rw [getElem_slots, getElem_slots, Int.natCast_add, Int.add_mul, Int.natCast_one, Int.one_mul,
    Int.add_assoc]

theorem getElem_slots_lt {i j : Nat} (hj : j < w.slots.length) (hij : i < j) :
    w.slots[i] < w.slots[j] := by
  have hlt : (i : Int) * w.slot < j * w.slot :=
    Int.mul_lt_mul_of_pos_right (Int.ofNat_lt.mpr hij) w.slot_pos
  rw [getElem_slots, getElem_slots]
  omega

variable {w}

theorem mem_slots_iff {slot : Int} :
    slot ∈ w.slots ↔ w.slot ∣ slot ∧ w.start ≤ slot ∧ slot ≤ w.stop := by
  constructor
  · intro h
    obtain ⟨i, hi, rfl⟩ := List.getElem_of_mem h
    rw [getElem_slots]
    have hlast : (i + 1 : Int) * w.slot ≤ w.count * w.slot := by
      apply Int.mul_le_mul_of_nonneg_right _ (Int.le_of_lt w.slot_pos)
      rw [slots_length] at hi
      omega
    have hend := w.start_add_count
    have hsteps : 0 ≤ (i : Int) * w.slot := Int.mul_nonneg (Int.natCast_nonneg i) (Int.le_of_lt w.slot_pos)
    rw [Int.add_mul, Int.one_mul] at hlast
    exact ⟨Int.dvd_add (w.dvd_refine _) (Int.dvd_mul_left _ _), by omega, by omega⟩
  · rintro ⟨hdvd, hstart, hstop⟩
    exact (w.onGrid_of_between hdvd hstart hstop).mem_slots

/-- The slots are those of the times of the range. The first of these times may lie within its slot. -/
theorem mem_slots_iff_refine {slot : Int} :
    slot ∈ w.slots ↔
      ∃ time, w.range.first.toInt ≤ time ∧ time ≤ w.range.last.toInt ∧ w.refine time = slot := by
  have hrange : w.range.first.toInt ≤ w.range.last.toInt := Int64.le_iff_toInt_le.mp w.range.first_le_last
  rw [mem_slots_iff]
  constructor
  · rintro ⟨hdvd, hstart, hstop⟩
    by_cases hfirst : slot ≤ w.range.first.toInt
    · have hle := w.refine_mono hfirst
      rw [w.refine_of_dvd hdvd] at hle
      exact ⟨w.range.first.toInt, Int.le_refl _, hrange, Int.le_antisymm hstart hle⟩
    · have hlast := Int.le_trans hstop (slotStart_le w.slot_pos w.range.last.toInt)
      exact ⟨slot, by omega, hlast, w.refine_of_dvd hdvd⟩
  · rintro ⟨time, hfirst, hlast, rfl⟩
    exact ⟨w.dvd_refine time, w.refine_mono hfirst, w.refine_mono hlast⟩

theorem index?_eq_none_iff {time : Int} : w.index? time = none ↔ w.refine time ∉ w.slots := by
  have hdvd := w.dvd_refine time
  rw [mem_slots_iff, index?]
  split
  · simp only [true_iff]
    omega
  · simp only [reduceCtorEq, false_iff, Decidable.not_not]
    exact ⟨hdvd, by omega, by omega⟩

theorem index?_eq_some_iff {time : Int} {i : Nat} :
    w.index? time = some i ↔ w.slots[i]? = some (w.refine time) := by
  -- every slot of the window stands at its index
  have hplace : w.refine time ∈ w.slots →
      ∃ j, w.index? time = some j ∧ w.slots[j]? = some (w.refine time) := by
    intro hmem
    obtain ⟨hdvd, hstart, hstop⟩ := mem_slots_iff.mp hmem
    obtain ⟨j, hindex, hslot⟩ := (w.onGrid_of_between hdvd hstart hstop).index
    exact ⟨j, (w.index?_refine time) ▸ hindex, hslot⟩
  constructor
  · intro h
    have hmem : w.refine time ∈ w.slots := by
      by_contra hnot
      rw [index?_eq_none_iff.mpr hnot] at h
      cases h
    obtain ⟨j, hindex, hslot⟩ := hplace hmem
    cases h.symm.trans hindex
    exact hslot
  · intro h
    obtain ⟨j, hindex, hslot⟩ := hplace (List.mem_of_getElem? h)
    obtain ⟨hi, hi'⟩ := List.getElem?_eq_some_iff.mp h
    obtain ⟨hj, hj'⟩ := List.getElem?_eq_some_iff.mp hslot
    have hsame := hi'.trans hj'.symm
    rcases Nat.lt_trichotomy i j with hlt | rfl | hlt
    · exact absurd hsame (Int.ne_of_lt (w.getElem_slots_lt hj hlt))
    · exact hindex
    · exact absurd hsame.symm (Int.ne_of_lt (w.getElem_slots_lt hi hlt))

/-- Rounding down, listing, counting and numbering agree for every range, slot length and time. -/
theorem views_of_grid_agree (w : Window) :
    (∀ time, w.refine (w.refine time) = w.refine time) ∧
    (∀ time later, time ≤ later → w.refine time ≤ w.refine later) ∧
    (∀ time, w.refine time ≤ time ∧ time < w.refine time + w.slot) ∧
    (∀ slot, slot ∈ w.slots ↔
      ∃ time, w.range.first.toInt ≤ time ∧ time ≤ w.range.last.toInt ∧ w.refine time = slot) ∧
    w.slots.Pairwise (· < ·) ∧ w.slots.IsChain (fun slot next => next = slot + w.slot) ∧
    w.slots.length = w.count ∧
    (∀ time i, w.index? time = some i ↔ w.slots[i]? = some (w.refine time)) ∧
    ∀ time, w.index? time = none ↔ w.refine time ∉ w.slots := by
  refine ⟨w.refine_refine, fun _ _ => w.refine_mono, ?_, fun _ => mem_slots_iff_refine, ?_, ?_,
    w.slots_length, fun _ _ => index?_eq_some_iff, fun _ => index?_eq_none_iff⟩
  · exact fun time => ⟨slotStart_le w.slot_pos time, lt_slotStart_add w.slot_pos time⟩
  · rw [List.pairwise_iff_getElem]
    exact fun i j _ hj hij => w.getElem_slots_lt hj hij
  · rw [List.isChain_iff_getElem]
    exact fun i hi => w.getElem_slots_succ hi

example : let w : Window := ⟨⟨100, 1000, by decide, by decide⟩, 300, by decide⟩
    w.slots = [0, 300, 600, 900] ∧ w.index? 650 = some 2 ∧ w.index? 1300 = none := by decide

end Window

end NetAtlas

import Mathlib.Order.Bounds.Basic
import NetAtlas.Proofs.Time.Grid

set_option autoImplicit false

/-!
# The finest slot

A sampler for so many points picks the least multiple of its minimal length whose slots reach over the
range, cut off at the largest time. It follows that a longer range or fewer points never make the slots
shorter.
-/
namespace NetAtlas

namespace Sampler

theorem ceilDiv_le_iff {b : Int} (hb : 0 < b) {a n : Int} : ceilDiv a b ≤ n ↔ a ≤ n * b := by
  constructor
  · intro h
    calc
      a ≤ ceilDiv a b * b := le_ceilDiv_mul hb a
      _ ≤ n * b := Int.mul_le_mul_of_nonneg_right h (Int.le_of_lt hb)
  · intro h
    unfold ceilDiv
    split
    · have := Int.ediv_le_ediv hb h
      rw [Int.mul_ediv_cancel n (Int.ne_of_gt hb)] at this
      omega
    -- what is left over makes the bound strict
    · rename_i hmod
      have hne : a ≠ n * b := fun heq => hmod (heq ▸ Int.mul_emod_left n b)
      have := Int.ediv_lt_of_lt_mul hb (show a < n * b by omega)
      omega

/-- The slot lengths to choose from: multiples of the minimal length with which the points that are
allowed reach over the range. -/
def admissible (minSlot maxPoints : Int64) (range : TimeRange) : Set Int :=
  {slot | 0 < slot ∧ max 1 minSlot.toInt ∣ slot ∧ range.span ≤ slot * max 1 maxPoints.toInt}

/-- The choice without the cut at the largest time. -/
def finest (minSlot maxPoints : Int64) (range : TimeRange) : Int :=
  max (max 1 minSlot.toInt)
    (ceilDiv (ceilDiv range.span (max 1 maxPoints.toInt)) (max 1 minSlot.toInt) * max 1 minSlot.toInt)

theorem slot_eq_min_finest (minSlot maxPoints : Int64) (range : TimeRange) :
    (atMost minSlot maxPoints).slot range = min maxTime (finest minSlot maxPoints range) := by
  have hleast : max 1 minSlot.toInt ≤ maxTime := Int.max_le.mpr ⟨by decide, minSlot.toInt_le⟩
  simp only [slot, finest]
  omega

theorem finest_mem_admissible (minSlot maxPoints : Int64) (range : TimeRange) :
    finest minSlot maxPoints range ∈ admissible minSlot maxPoints range := by
  have hleast : 1 ≤ max 1 minSlot.toInt := Int.le_max_left _ _
  have hpoints : 1 ≤ max 1 maxPoints.toInt := Int.le_max_left _ _
  have hperPoint := le_ceilDiv_mul hleast (ceilDiv range.span (max 1 maxPoints.toInt))
  refine ⟨?_, ?_, ?_⟩
  · exact Int.lt_of_lt_of_le hleast (Int.le_max_left _ _)
  · unfold finest
    rcases Int.le_total (max 1 minSlot.toInt)
      (ceilDiv (ceilDiv range.span (max 1 maxPoints.toInt)) (max 1 minSlot.toInt) *
        max 1 minSlot.toInt) with h | h
    · rw [Int.max_eq_right h]
      exact Int.dvd_mul_left _ _
    · exact ⟨1, (Int.max_eq_left h).trans (Int.mul_one _).symm⟩
  · rw [← ceilDiv_le_iff hpoints]
    exact Int.le_trans hperPoint (Int.le_max_right _ _)

theorem finest_le {minSlot maxPoints : Int64} {range : TimeRange} {slot : Int}
    (h : slot ∈ admissible minSlot maxPoints range) : finest minSlot maxPoints range ≤ slot := by
  have hleast : 1 ≤ max 1 minSlot.toInt := Int.le_max_left _ _
  have hpoints : 1 ≤ max 1 maxPoints.toInt := Int.le_max_left _ _
  obtain ⟨hpos, ⟨k, rfl⟩, hspan⟩ := h
  have hperPoint := (ceilDiv_le_iff hpoints).mpr hspan
  rw [Int.mul_comm _ k, ← ceilDiv_le_iff hleast] at hperPoint
  refine Int.max_le.mpr ⟨Int.le_of_dvd hpos (Int.dvd_mul_right _ _), ?_⟩
  rw [Int.mul_comm _ k]
  exact Int.mul_le_mul_of_nonneg_right hperPoint (Int.le_trans (by decide) hleast)

theorem admissible_subset {minSlot maxPoints fewer : Int64} {range wider : TimeRange}
    (hspan : range.span ≤ wider.span) (hfewer : fewer ≤ maxPoints) :
    admissible minSlot fewer wider ⊆ admissible minSlot maxPoints range := by
  rintro slot ⟨hpos, hdvd, hreach⟩
  refine ⟨hpos, hdvd, ?_⟩
  have hpoints : max 1 fewer.toInt ≤ max 1 maxPoints.toInt := by
    have := Int64.le_iff_toInt_le.mp hfewer
    omega
  calc
    range.span ≤ wider.span := hspan
    _ ≤ slot * max 1 fewer.toInt := hreach
    _ ≤ slot * max 1 maxPoints.toInt := Int.mul_le_mul_of_nonneg_left hpoints (Int.le_of_lt hpos)

/-- A sampler picks the least admissible length, or the largest time where that is less. The window is
always made, no slot is below the minimal length, and neither a longer range nor fewer points make the
slots shorter. -/
theorem slot_eq_min_isLeast (minSlot maxPoints : Int64) (range : TimeRange) :
    (∃ least, IsLeast (admissible minSlot maxPoints range) least ∧
      (atMost minSlot maxPoints).slot range = min maxTime least) ∧
    (∃ w, (atMost minSlot maxPoints).window range = .ok w ∧ w.range = range ∧
      w.slot = (atMost minSlot maxPoints).slot range) ∧
    max 1 minSlot.toInt ≤ (atMost minSlot maxPoints).slot range ∧
    ∀ (wider : TimeRange) (fewer : Int64), range.span ≤ wider.span → fewer ≤ maxPoints →
      (atMost minSlot maxPoints).slot range ≤ (atMost minSlot fewer).slot wider := by
  have hbelow : max 1 minSlot.toInt ≤ (atMost minSlot maxPoints).slot range := Int.le_max_left _ _
  have hpos : 0 < (atMost minSlot maxPoints).slot range := by omega
  refine ⟨⟨_, ⟨finest_mem_admissible minSlot maxPoints range, fun _ => finest_le⟩,
    slot_eq_min_finest minSlot maxPoints range⟩, ?_, hbelow, ?_⟩
  · exact ⟨⟨range, _, hpos⟩, by simp only [window, Window.make, dif_pos hpos], rfl, rfl⟩
  · intro wider fewer hspan hfewer
    have hle := finest_le (admissible_subset hspan hfewer (finest_mem_admissible minSlot fewer wider))
    rw [slot_eq_min_finest, slot_eq_min_finest]
    omega

/-- The slots of a day are eight minutes long, and those of the longest range with half the points are
no shorter. -/
theorem slot_le_slot_of_longest :
    let day : TimeRange := ⟨0, 86400000, by decide, by decide⟩
    let longest : TimeRange := ⟨0, 9223372036854775807, by decide, by decide⟩
    day.span ≤ longest.span ∧ (100 : Int64) ≤ 200 ∧ (atMost 60000 200).slot day = 480000 ∧
      (atMost 60000 200).slot day ≤ (atMost 60000 100).slot longest := by
  intro day longest
  have hspan : day.span ≤ longest.span := by decide
  exact ⟨hspan, by decide, by decide,
    (slot_eq_min_isLeast 60000 200 day).2.2.2 longest 100 hspan (by decide)⟩

end Sampler

end NetAtlas

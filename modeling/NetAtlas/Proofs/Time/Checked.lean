import NetAtlas.Link.Stat
import NetAtlas.Proofs.Time.FinestSlot
import NetAtlas.Proofs.Time.Fits

set_option autoImplicit false

/-!
# Checked arithmetic

Spans, slots and sums are exact here, while queries compute them in 64 bits. A checked computation has no
result if a step of it leaves the 64-bit range without being cut off there, or divides by a number that
is not positive. The slot length of every sampler and the slot of every time that is not negative are
computed so with the results they have here.
-/
namespace NetAtlas

/-- What is done to two 64-bit numbers. Quotients are rounded towards zero, or down. -/
inductive Operator
  | add
  | sub
  | mul
  | quotient
  | remainder
  | floor
  | addSaturating
  | mulSaturating

namespace Operator

def exact : Operator → Int → Int → Int
  | add, a, b => a + b
  | sub, a, b => a - b
  | mul, a, b => a * b
  | quotient, a, b => a.tdiv b
  | remainder, a, b => a.tmod b
  | floor, a, b => a / b
  | addSaturating, a, b => a + b
  | mulSaturating, a, b => a * b

def divides : Operator → Bool
  | quotient => true
  | remainder => true
  | floor => true
  | _ => false

def saturates : Operator → Bool
  | addSaturating => true
  | mulSaturating => true
  | _ => false

/-- Both numbers and what comes of them are 64-bit numbers, and no divisor is zero or less. -/
structure Safe (op : Operator) (a b : Int) : Prop where
  left : Fits64 a
  right : Fits64 b
  divisor : op.divides → 0 < b
  result : op.saturates ∨ Fits64 (op.exact a b)

instance (op : Operator) (a b : Int) : Decidable (op.Safe a b) :=
  decidable_of_iff (Fits64 a ∧ Fits64 b ∧ (op.divides → 0 < b) ∧ (op.saturates ∨ Fits64 (op.exact a b)))
    ⟨fun ⟨ha, hb, hd, hr⟩ => ⟨ha, hb, hd, hr⟩, fun ⟨ha, hb, hd, hr⟩ => ⟨ha, hb, hd, hr⟩⟩

def result (op : Operator) (a b : Int) : Int :=
  if op.saturates then Stat.clamp (op.exact a b) else op.exact a b

def run (op : Operator) (a b : Int) : Option Int := if op.Safe a b then some (op.result a b) else none

variable {a b : Int}

theorem run_eq {op : Operator} (h : op.Safe a b) : op.run a b = some (op.result a b) := if_pos h

/-- An operation that is no division comes out exactly if the result fits. -/
theorem run_exact {op : Operator} (hdivides : op.divides = false) (hsaturates : op.saturates = false)
    (ha : Fits64 a) (hb : Fits64 b) (h : Fits64 (op.exact a b)) : op.run a b = some (op.exact a b) := by
  rw [run_eq ⟨ha, hb, fun hd => absurd hd (by simp [hdivides]), Or.inr h⟩, result, hsaturates]
  rfl

example : add.run 0x7FFFFFFFFFFFFFFF 1 = none := by decide

theorem run_saturating {op : Operator} (hdivides : op.divides = false) (hsaturates : op.saturates)
    (ha : Fits64 a) (hb : Fits64 b) : op.run a b = some (Stat.clamp (op.exact a b)) := by
  rw [run_eq ⟨ha, hb, fun hd => absurd hd (by simp [hdivides]), Or.inl hsaturates⟩, result, hsaturates]
  rfl

theorem run_floor (ha : Fits64 a) (hb : Fits64 b) (hnonneg : 0 ≤ a) (hpos : 0 < b) :
    floor.run a b = some (a / b) := run_eq ⟨ha, hb, fun _ => hpos, Or.inr (fits64_div ha hnonneg hpos)⟩

theorem run_quotient (ha : Fits64 a) (hb : Fits64 b) (hnonneg : 0 ≤ a) (hpos : 0 < b) :
    quotient.run a b = some (a / b) := by
  rw [← Int.tdiv_eq_ediv_of_nonneg hnonneg]
  refine run_eq ⟨ha, hb, fun _ => hpos, Or.inr ?_⟩
  change Fits64 (a.tdiv b)
  rw [Int.tdiv_eq_ediv_of_nonneg hnonneg]
  exact fits64_div ha hnonneg hpos

theorem run_remainder (ha : Fits64 a) (hb : Fits64 b) (hnonneg : 0 ≤ a) (hpos : 0 < b) :
    remainder.run a b = some (a % b) := by
  rw [← Int.tmod_eq_emod_of_nonneg hnonneg]
  refine run_eq ⟨ha, hb, fun _ => hpos, Or.inr ?_⟩
  change Fits64 (a.tmod b)
  rw [Int.tmod_eq_emod_of_nonneg hnonneg]
  exact fits64_of_between (Int.emod_nonneg a (Int.ne_of_gt hpos))
    (Int.le_of_lt (Int.emod_lt_of_pos a hpos)) (by decide) hb

end Operator

namespace TimeRange

def checkedSpan (r : TimeRange) : Option Int := Operator.sub.run r.last.toInt r.first.toInt

theorem span_nonneg (r : TimeRange) : 0 ≤ r.span := by
  have := Int64.le_iff_toInt_le.mp r.first_le_last
  unfold span
  omega

theorem fits64_span (r : TimeRange) : Fits64 r.span :=
  fits64_of_between r.span_nonneg (Sampler.span_le_maxTime r) (by decide) (by decide)

theorem checkedSpan_eq (r : TimeRange) : r.checkedSpan = some r.span :=
  Operator.run_exact rfl rfl (fits64_toInt _) (fits64_toInt _) r.fits64_span

end TimeRange

namespace Sampler

def checkedCeilDiv (a b : Int) : Option Int := do
  let quotient ← Operator.quotient.run a b
  let rest ← Operator.remainder.run a b
  Operator.add.run quotient (if rest = 0 then 0 else 1)

def checkedSlot (sampler : Sampler) (range : TimeRange) : Option Int :=
  match sampler with
  | .fixed slot => some slot.toInt
  | .atMost minSlot maxPoints => do
    let least := max 1 minSlot.toInt
    let perPoint ← checkedCeilDiv (← range.checkedSpan) (max 1 maxPoints.toInt)
    let slots ← checkedCeilDiv perPoint least
    let slot ← Operator.mulSaturating.run slots least
    return max least slot

theorem ceilDiv_nonneg {a b : Int} (ha : 0 ≤ a) (hb : 0 < b) : 0 ≤ ceilDiv a b := by
  have := Int.ediv_nonneg ha (Int.le_of_lt hb)
  unfold ceilDiv
  split <;> omega

theorem ceilDiv_le_self {a b : Int} (ha : 0 ≤ a) (hb : 0 < b) : ceilDiv a b ≤ a := by
  rw [ceilDiv_le_iff hb]
  calc
    a = a * 1 := (Int.mul_one a).symm
    _ ≤ a * b := Int.mul_le_mul_of_nonneg_left hb ha

theorem fits64_ceilDiv {a b : Int} (hfits : Fits64 a) (ha : 0 ≤ a) (hb : 0 < b) : Fits64 (ceilDiv a b) :=
  fits64_of_between (ceilDiv_nonneg ha hb) (ceilDiv_le_self ha hb) (by decide) hfits

theorem checkedCeilDiv_eq {a b : Int} (hfits : Fits64 a) (hfits' : Fits64 b) (ha : 0 ≤ a) (hb : 0 < b) :
    checkedCeilDiv a b = some (ceilDiv a b) := by
  rw [checkedCeilDiv, Operator.run_quotient hfits hfits' ha hb, Operator.run_remainder hfits hfits' ha hb]
  apply Operator.run_exact rfl rfl (fits64_div hfits ha hb)
  · split <;> decide
  · exact fits64_ceilDiv hfits ha hb

theorem checkedSlot_eq (sampler : Sampler) (range : TimeRange) :
    sampler.checkedSlot range = some (sampler.slot range) := by
  cases sampler with
  | fixed slot => rfl
  | atMost minSlot maxPoints =>
    have hleast : 0 < max 1 minSlot.toInt := by omega
    have hpoints : 0 < max 1 maxPoints.toInt := by omega
    have hfits : ∀ n : Int64, Fits64 (max 1 n.toInt) := fun n =>
      fits64_of_between (Int.le_max_left 1 n.toInt) (Int.max_le.mpr ⟨by decide, n.toInt_le⟩) (by decide)
        (by decide)
    -- a quotient rounded up is no greater than what was divided, so all fits because the span does
    have hspan := range.fits64_span
    have hperPoint := fits64_ceilDiv hspan range.span_nonneg hpoints
    have hperPoint' := ceilDiv_nonneg range.span_nonneg hpoints
    have hslots := fits64_ceilDiv hperPoint hperPoint' hleast
    have hslots' := Int.mul_nonneg (ceilDiv_nonneg hperPoint' hleast) (Int.le_of_lt hleast)
    rw [checkedSlot, range.checkedSpan_eq]
    change (checkedCeilDiv range.span _ >>= fun perPoint => _) = _
    rw [checkedCeilDiv_eq hspan (hfits _) range.span_nonneg hpoints]
    change (checkedCeilDiv (ceilDiv range.span _) _ >>= fun slots => _) = _
    rw [checkedCeilDiv_eq hperPoint (hfits _) hperPoint' hleast]
    change (Operator.mulSaturating.run _ _ >>= fun slot => _) = _
    rw [Operator.run_saturating rfl rfl hslots (hfits _)]
    apply congrArg some
    simp only [slot, Operator.exact, Stat.clamp, maxTime]
    omega

example : (atMost 60000 200).checkedSlot ⟨0, 0x7FFFFFFFFFFFFFFF, by decide, by decide⟩ =
    some 46116860184300000 := by decide

theorem fits64_slot {sampler : Sampler} {range : TimeRange} {w : Window}
    (h : sampler.window range = .ok w) : Fits64 w.slot := by
  rw [(window_eq_ok h).2]
  cases sampler with
  | fixed slot => exact fits64_toInt slot
  | atMost minSlot maxPoints =>
    have hleast : max 1 minSlot.toInt ≤ (atMost minSlot maxPoints).slot range := Int.le_max_left _ _
    have hmost : (atMost minSlot maxPoints).slot range ≤ maxTime := by
      rw [slot_eq_min_finest]
      exact Int.min_le_left _ _
    exact fits64_of_between (Int.le_trans (Int.le_max_left _ _) hleast) hmost (by decide) (by decide)

end Sampler

namespace Window

variable (w : Window)

def checkedRefine (time : Int) : Option Int := do
  Operator.mul.run (← Operator.floor.run time w.slot) w.slot

theorem checkedRefine_eq (hslot : Fits64 w.slot) {time : Int} (hfits : Fits64 time) (h : 0 ≤ time) :
    w.checkedRefine time = some (w.refine time) := by
  rw [checkedRefine, Operator.run_floor hfits hslot h w.slot_pos]
  exact Operator.run_exact rfl rfl (fits64_div hfits h w.slot_pos) hslot (fits64_slotStart hfits h w.slot_pos)

end Window

end NetAtlas

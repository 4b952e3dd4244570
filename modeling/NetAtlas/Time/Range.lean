import NetAtlas.Error

set_option autoImplicit false

/-!
# Times, slots and ranges

Times are milliseconds in 64 bits; a clock is read more than once while something is done. A slot starts
at a multiple of its length. A range names two times that are not negative and not reversed.
-/
namespace NetAtlas

/-- The readings of a clock, in the order they are taken. -/
abbrev Clock := Nat → Int64

/-- A clock that gives one reading all the time. -/
def Clock.still (now : Int64) : Clock := fun _ => now

/-- The readings that are left when some were taken. -/
def Clock.after (clock : Clock) (taken : Nat) : Clock := fun i => clock (i + taken)

/-- A number that a 64-bit one can be. -/
def Fits64 (n : Int) : Prop := -0x8000000000000000 ≤ n ∧ n ≤ 0x7FFFFFFFFFFFFFFF

instance (n : Int) : Decidable (Fits64 n) := inferInstanceAs (Decidable (_ ∧ _))

/-- A sum of 64-bit numbers. One that does not fit is a trap. -/
def addTrapping (a b : Int64) : Except Trap Int64 :=
  if Fits64 (a.toInt + b.toInt) then .ok (a + b) else .error .overflow

def slotStart (time slot : Int) : Int := time / slot * slot

theorem slotStart_le {slot : Int} (h : 0 < slot) (time : Int) : slotStart time slot ≤ time := by
  have := Int.emod_nonneg time (Int.ne_of_gt h)
  have := Int.mul_ediv_add_emod time slot
  simp only [slotStart, Int.mul_comm (time / slot)]
  omega

theorem lt_slotStart_add {slot : Int} (h : 0 < slot) (time : Int) :
    time < slotStart time slot + slot := by
  have := Int.emod_lt_of_pos time h
  have := Int.mul_ediv_add_emod time slot
  simp only [slotStart, Int.mul_comm (time / slot)]
  omega

theorem slotStart_mono {slot : Int} (h : 0 < slot) {time later : Int} (hle : time ≤ later) :
    slotStart time slot ≤ slotStart later slot :=
  Int.mul_le_mul_of_nonneg_right (Int.ediv_le_ediv h hle) (Int.le_of_lt h)

theorem slotStart_nonneg {slot : Int} (h : 0 < slot) {time : Int} (htime : 0 ≤ time) :
    0 ≤ slotStart time slot :=
  Int.mul_nonneg (Int.ediv_nonneg htime (Int.le_of_lt h)) (Int.le_of_lt h)

/-- The slot that holds a clock reading. Slots are at least a millisecond long. -/
def slotOf (now slot : Int64) : Int64 := Int64.ofInt (slotStart now.toInt (max 1 slot.toInt))

structure TimeRange where
  first : Int64
  last : Int64
  first_nonneg : 0 ≤ first
  first_le_last : first ≤ last
  deriving DecidableEq, Repr

namespace TimeRange

def make (first last : Int64) : Except Rejection TimeRange :=
  if hn : first < 0 ∨ last < 0 then .error (.negativeRange first last)
  else if hr : last < first then .error (.reversedRange first last)
  else .ok ⟨first, last, Int64.not_lt.mp (not_or.mp hn).1, Int64.not_lt.mp hr⟩

def span (r : TimeRange) : Int := r.last.toInt - r.first.toInt

end TimeRange

end NetAtlas

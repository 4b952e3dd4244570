import NetAtlas.Time.Range

set_option autoImplicit false

/-!
# Windows

A window cuts the times of a range into slots of one length. Its slots are those from the slot of the
first time to the slot of the last one.
-/
namespace NetAtlas

structure Window where
  range : TimeRange
  slot : Int
  slot_pos : 0 < slot
  deriving DecidableEq, Repr

namespace Window

def make (range : TimeRange) (slot : Int) : Except Rejection Window :=
  if h : 0 < slot then .ok ⟨range, slot, h⟩ else .error (.slotNotPositive slot)

/-- The start of the slot that holds a time. -/
def refine (w : Window) (time : Int) : Int := slotStart time w.slot

def start (w : Window) : Int := w.refine w.range.first.toInt

def stop (w : Window) : Int := w.refine w.range.last.toInt

def count (w : Window) : Nat := ((w.stop - w.start) / w.slot + 1).toNat

/-- The position of a time's slot among the slots of the window. -/
def index? (w : Window) (time : Int) : Option Nat :=
  let slot := w.refine time
  if slot < w.start ∨ w.stop < slot then none else some ((slot - w.start) / w.slot).toNat

/-- The first `n` slots of the window. -/
def take (w : Window) (n : Nat) : List Int :=
  (List.range (min n w.count)).map fun (i : Nat) => w.start + i * w.slot

def slots (w : Window) : List Int := w.take w.count

end Window

end NetAtlas

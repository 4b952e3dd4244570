import NetAtlas.Time.Window

set_option autoImplicit false

/-!
# Slot lengths

A sampler picks the slot length for a range: a fixed one, or the least multiple of a minimal length
that covers the range with a given number of slots. Lengths stop at the largest 64-bit time.
-/
namespace NetAtlas

inductive Sampler
  | fixed (slot : Int64)
  | atMost (minSlot maxPoints : Int64)
  deriving DecidableEq, Repr

namespace Sampler

def default : Sampler := .atMost 60000 200

def maxTime : Int := 0x7FFFFFFFFFFFFFFF

/-- The quotient rounded up. -/
def ceilDiv (a b : Int) : Int := a / b + if a % b = 0 then 0 else 1

def slot (sampler : Sampler) (range : TimeRange) : Int :=
  match sampler with
  | .fixed slot => slot.toInt
  | .atMost minSlot maxPoints =>
    let least := max 1 minSlot.toInt
    let perPoint := ceilDiv range.span (max 1 maxPoints.toInt)
    max least (min maxTime (ceilDiv perPoint least * least))

def window (sampler : Sampler) (range : TimeRange) : Except Rejection Window :=
  Window.make range (sampler.slot range)

end Sampler

end NetAtlas

import NetAtlas.Socket.Basic

set_option autoImplicit false

/-!
# Traffic statistics

The traffic of a link in one slot. What was added in the slot is summed and stops at the ends of the
64-bit range; of the totals since the socket was opened the largest is kept.
-/
namespace NetAtlas

structure Stat where
  sent : Int := 0
  recv : Int := 0
  retransmits : Int := 0
  maxSent : Int := 0
  maxRecv : Int := 0
  maxRetransmits : Int := 0
  deriving DecidableEq, Repr

namespace Stat

def zero : Stat := {}

/-- A number cut off at the ends of the 64-bit range. -/
def clamp (n : Int) : Int := max (-0x8000000000000000) (min 0x7FFFFFFFFFFFFFFF n)

def ofCounters (c : Counters) : Stat where
  sent := c.sent.toInt
  recv := c.recv.toInt
  retransmits := c.retransmits.toInt
  maxSent := c.monotonicSent.toInt
  maxRecv := c.monotonicRecv.toInt
  maxRetransmits := c.monotonicRetransmits.toInt

def merge (s t : Stat) : Stat where
  sent := clamp (s.sent + t.sent)
  recv := clamp (s.recv + t.recv)
  retransmits := clamp (s.retransmits + t.retransmits)
  maxSent := max s.maxSent t.maxSent
  maxRecv := max s.maxRecv t.maxRecv
  maxRetransmits := max s.maxRetransmits t.maxRetransmits

def add (s : Stat) (c : Counters) : Stat := s.merge (ofCounters c)

end Stat

end NetAtlas

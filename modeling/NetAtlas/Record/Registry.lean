import NetAtlas.Record.Key

set_option autoImplicit false

/-!
# Registry values

What an agent has in a slot: its local addresses, each behind its family's code, in the order they
were reported; or the set of pids seen, in ascending order.
-/
namespace NetAtlas

open Std

abbrev PidGroup := ExtTreeSet Int32

structure AddressSet where
  agent : String
  time : Int64
  addresses : List Ip
  deriving DecidableEq

structure PidSet where
  agent : String
  time : Int64
  pids : PidGroup
  deriving DecidableEq

namespace AddressSet

def encode (addresses : List Ip) : Bytes := addresses.flatMap Key.ipStem

end AddressSet

namespace PidSet

def encode (pids : PidGroup) : Bytes := pids.toList.flatMap Varint.encode32

end PidSet

namespace Reader

/-- As many items as there are. Each takes a byte at least, so there are no more items than bytes. -/
def many {α : Type} (item : Reader α) : Reader (List α) := do
  go (← get).rest.length
where
  go : Nat → Reader (List α)
    | 0 => return []
    | fuel + 1 => do
      if (← get).rest = [] then return [] else return (← item) :: (← go fuel)

def addresses : Reader (List Ip) := many do Reader.ip (← Reader.family)

def pids : Reader PidGroup := do return ExtTreeSet.ofList (← many Reader.varint32)

end Reader

end NetAtlas

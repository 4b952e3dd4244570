import NetAtlas.Atlas.Basic
import NetAtlas.Atlas.Traversal
import NetAtlas.Time.Sampler

set_option autoImplicit false

/-!
# Queries

The questions the stored records answer about one agent in a range of time: the map around it, its
local addresses, its pids, the links inside its host. A query whose storage fails has no answer.
-/
namespace NetAtlas

open Std

structure QuerySettings where
  minWindowSlot : Int64 := 60000
  maxWindowPoints : Int64 := 200
  includeLocalLinks : Bool := true
  deriving DecidableEq, Repr

namespace QuerySettings

def sampler (s : QuerySettings) : Sampler := .atMost s.minWindowSlot s.maxWindowPoints

end QuerySettings

namespace Query

def atlas (settings : QuerySettings) (sampler : Sampler) (agent : String) (range : TimeRange)
    (callerDepth calleeDepth : Nat) : StoreM Atlas :=
  if agent.isEmpty then throw (.rejected .emptyAgent)
  else do
    let window ← StoreM.reject (sampler.window range)
    let found ← Traversal.run window callerDepth calleeDepth settings.includeLocalLinks agent
    return Atlas.assemble found.links

def localAddresses (agent : String) (range : TimeRange) : StoreM (List Ip) := do
  return (← AddressRegistry.addresses agent range).toList

def pids (agent : String) (range : TimeRange) : StoreM (List Int32) := do
  return (← PidRegistry.pids agent range).toList

def localLinks (sampler : Sampler) (agent : String) (range : TimeRange) : StoreM (List Link) := do
  let window ← StoreM.reject (sampler.window range)
  return (← LocalLinks.select window agent).links

end Query

end NetAtlas

import NetAtlas.Store.Views

set_option autoImplicit false

/-!
# Stored registries

What each agent had in each slot: its local addresses and the pids seen. A set replaces the one stored
for the same agent and slot.
-/
namespace NetAtlas

open Std

namespace Registry

def insert (column : Column) (qualifier : Bytes) (agent : String) (time : Int64) (value : Bytes) :
    StoreM Unit :=
  if agent.isEmpty then throw (.rejected .emptyAgent)
  else do
    let row ← StoreM.reject (Key.agentRow agent time)
    StoreM.put column row qualifier value

/-- The agent, the time and the value of an entry with the registry's qualifier. -/
def read {α : Type} (name : String) (qualifier : Bytes) (value : Reader α) (e : Entry) :
    Except Corruption (String × Int64 × α) :=
  if e.qualifier ≠ qualifier then .error (.foreignQualifier name)
  else do
    let (agent, time) ← Key.readAgentRow.read e.row
    return (agent, time, ← value.read e.value)

end Registry

namespace AddressRegistry

def column : Column := ⟨.addresses, "C"⟩

def qualifier : Bytes := Utf8.encode "Address"

def insert (set : AddressSet) : StoreM Unit :=
  Registry.insert column qualifier set.agent set.time (AddressSet.encode set.addresses)

def read (e : Entry) : Except Corruption AddressSet := do
  let (agent, time, addresses) ← Registry.read "address" qualifier Reader.addresses e
  return { agent, time, addresses }

def query (agent : String) (range : TimeRange) : StoreM (List AddressSet) := do
  return readCells read (← scanRange column (Key.agentRow agent) range)

/-- The distinct addresses an agent had in a range. -/
def addresses (agent : String) (range : TimeRange) : StoreM (ExtTreeSet Ip) := do
  return ExtTreeSet.ofList ((← query agent range).flatMap (·.addresses))

end AddressRegistry

namespace PidRegistry

def column : Column := ⟨.pids, "P"⟩

def qualifier : Bytes := Utf8.encode "Pid"

def insert (set : PidSet) : StoreM Unit :=
  Registry.insert column qualifier set.agent set.time (PidSet.encode set.pids)

def read (e : Entry) : Except Corruption PidSet := do
  let (agent, time, pids) ← Registry.read "pid" qualifier Reader.pids e
  return { agent, time, pids }

def query (agent : String) (range : TimeRange) : StoreM (List PidSet) := do
  return readCells read (← scanRange column (Key.agentRow agent) range)

/-- The pids an agent was seen with in a range. -/
def pids (agent : String) (range : TimeRange) : StoreM PidGroup := do
  return ExtTreeSet.ofList ((← query agent range).flatMap (·.pids.toList))

end PidRegistry

end NetAtlas

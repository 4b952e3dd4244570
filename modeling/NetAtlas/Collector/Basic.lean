import NetAtlas.Collector.PidBuffer
import NetAtlas.Store.Registries

set_option autoImplicit false

/-!
# Collector

The collector takes reports in. Each is stamped with the accepted time, the start of the slot of the
clock reading, and stored; only then its pid is noted. Buffered pid sets go to the registry in time
order; of a failed flush the sets that were not written stay in the buffer, and a trap leaves there what
was not drained.
-/
namespace NetAtlas

structure CollectorSettings where
  observationSlot : Int64 := 60000
  addressSlot : Int64 := 300000
  pidSlot : Int64 := 60000
  pidFlushDelay : Int64 := 180000
  pidFlushInterval : UInt64 := 10000
  deriving DecidableEq, Repr

structure Collector where
  settings : CollectorSettings
  buffer : PidBuffer
  storage : Storage

abbrev CollectM (α : Type) := ExceptT Error (StateM Collector) α

namespace Collector

/-- A collector that has taken nothing in yet. -/
def start (settings : CollectorSettings) (storage : Storage) : Collector where
  settings
  buffer := PidBuffer.empty settings.pidSlot settings.pidFlushDelay
  storage

def stored {α : Type} (action : StoreM α) : CollectM α := fun c =>
  let (answer, storage) := action c.storage
  (answer, { c with storage })

/-- Takes a report in at a reading of the clock; for its pid the clock is read again. -/
def report (accepted noted : Int64) (o : Observation) : CollectM Unit := do
  let c ← get
  stored (insertObservation (o.stamp (slotOf accepted c.settings.observationSlot)))
  if 0 ≤ o.pid then
    modify fun c => { c with buffer := c.buffer.increment noted o.agent o.pid }

/-- Takes reports in until one fails, each with two readings; answers how many there were. -/
def reportAll (clock : Clock) : List Observation → CollectM Nat
  | [] => return 0
  | o :: os => do
    report (clock 0) (clock 1) o
    return (← reportAll (clock.after 2) os) + 1

def reportAddresses (now : Int64) (agent : String) (addresses : List Ip) : CollectM Unit := do
  if agent.isEmpty then throw (.rejected .emptyAgent)
  if addresses.isEmpty then throw (.rejected (.noAddresses agent))
  let c ← get
  stored (AddressRegistry.insert { agent, time := slotOf now c.settings.addressSlot, addresses })

/-- Writes sets one after another. From the first one that fails on they return to the buffer. -/
def writeSets : List PidSet → CollectM Unit
  | [] => return ()
  | set :: sets => do
    try stored (PidRegistry.insert set)
    catch e =>
      modify fun c => { c with buffer := c.buffer.restore (set :: sets) }
      throw e
    writeSets sets

/-- Takes out what a drain gives. A drain that fails takes out nothing. -/
def drain {ε : Type} (take : PidBuffer → Except ε (List PidSet × PidBuffer)) :
    ExceptT ε (StateM Collector) (List PidSet) := fun c =>
  match take c.buffer with
  | .ok (sets, buffer) => (.ok sets, { c with buffer })
  | .error e => (.error e, c)

/-- Writes what drains take out, one after another up to one that takes out nothing; answers how many
sets there were. -/
def flushDrained {ε : Type} (failed : Error → ε) :
    List (PidBuffer → Except ε (List PidSet × PidBuffer)) → ExceptT ε (StateM Collector) Nat
  | [] => return 0
  | take :: takes => do
    let sets ← drain take
    if sets.isEmpty then return 0
    (writeSets sets).adapt failed
    return (← flushDrained failed takes) + sets.length

/-- Writes ready slots, `fuel` of them at most; answers how many sets there were. -/
def flushReady (now : Int64) (fuel : Nat) : CollectM Nat :=
  flushDrained id (List.replicate fuel fun b => .ok (b.drainReady now))

/-- Writes every slot that is ready. Each drain takes a slot out, so the slots held bound the drains. -/
def flushPids (now : Int64) : CollectM Nat := do flushReady now (← get).buffer.size

/-- What a flush ends with before it is through. -/
inductive Halt
  | failed (e : Error)
  | trapped (t : Trap)
  deriving DecidableEq, Repr

/-- Writes every slot that is ready by the sums in 64 bits. Each drain reads the clock. -/
def flushPids64 (clock : Clock) : ExceptT Halt (StateM Collector) Nat := do
  let drains := (List.range (← get).buffer.size).map fun i (b : PidBuffer) =>
    (b.drainReady64 (clock i)).mapError Halt.trapped
  flushDrained .failed drains

def flushAllPids : CollectM Nat := do
  let sets ← drain fun b => .ok b.drainAll
  writeSets sets
  return sets.length

end Collector

end NetAtlas

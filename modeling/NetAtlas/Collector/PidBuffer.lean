import NetAtlas.Record.Registry
import NetAtlas.Time.Range

set_option autoImplicit false

/-!
# Pid buffer

Pids arrive with every report. They are held by slot and agent until their slot has ended and a grace
delay has passed, so that late reports still reach their slot. Sets that could not be written come
back and join what arrived meanwhile.
-/
namespace NetAtlas

open Std

abbrev AgentPids := ExtTreeMap String PidGroup

structure PidBuffer where
  slotSize : Int64
  delay : Int64
  slots : ExtTreeMap Int64 AgentPids

namespace PidBuffer

def empty (slotSize delay : Int64) : PidBuffer := ⟨slotSize, delay, ∅⟩

def size (b : PidBuffer) : Nat := b.slots.size

def isEmpty (b : PidBuffer) : Bool := b.slots.isEmpty

/-- The pids held for an agent in a slot. -/
def pids (b : PidBuffer) (slot : Int64) (agent : String) : PidGroup :=
  (b.slots.getD slot ∅).getD agent ∅

/-- Adds pids of an agent to those of a slot. -/
def addPids (agents : AgentPids) (agent : String) (pids : PidGroup) : AgentPids :=
  agents.alter agent fun old => some (old.getD ∅ ∪ pids)

/-- Adds pids to a slot, which is made if it is not held yet. -/
def add (b : PidBuffer) (slot : Int64) (agent : String) (pids : PidGroup) : PidBuffer :=
  { b with slots := b.slots.alter slot fun old => some (addPids (old.getD ∅) agent pids) }

/-- Adds a pid to a slot only if the slot is held. -/
def addIfHeld (b : PidBuffer) (slot : Int64) (agent : String) (pid : Int32) : Option PidBuffer :=
  b.slots[slot]?.map fun agents =>
    { b with slots := b.slots.insert slot (addPids agents agent {pid}) }

/-- Notes a pid at a clock reading: at once if its slot is held, in a second step otherwise. -/
def increment (b : PidBuffer) (now : Int64) (agent : String) (pid : Int32) : PidBuffer :=
  let slot := slotOf now b.slotSize
  (b.addIfHeld slot agent pid).getD (b.add slot agent {pid})

/-- A slot is ready at all clock readings after this one. -/
def readyAfter (b : PidBuffer) (slot : Int64) : Int :=
  slot.toInt + max 1 b.slotSize.toInt + b.delay.toInt

/-- The same sum in 64 bits, formed from the left. -/
def readyAfter64 (b : PidBuffer) (slot : Int64) : Except Trap Int64 := do
  addTrapping (← addTrapping slot (max 1 b.slotSize)) b.delay

/-- The pid sets of a slot, by agent. -/
def setsOf (slot : Int64) (agents : AgentPids) : List PidSet :=
  agents.toList.map fun (agent, pids) => ⟨agent, slot, pids⟩

/-- Takes out the oldest slot if it passes a test. -/
def drainOldest (b : PidBuffer) (ready : Int64 → Bool) : List PidSet × PidBuffer :=
  match b.slots.keys.head? with
  | some slot =>
    if ready slot then
      (setsOf slot (b.slots.getD slot ∅), { b with slots := b.slots.erase slot })
    else ([], b)
  | none => ([], b)

/-- Takes out the oldest slot if it is ready. -/
def drainReady (b : PidBuffer) (now : Int64) : List PidSet × PidBuffer :=
  b.drainOldest fun slot => b.readyAfter slot < now.toInt

/-- Takes out the oldest slot if it is ready by the sum in 64 bits, unless that sum is a trap. -/
def drainReady64 (b : PidBuffer) (now : Int64) : Except Trap (List PidSet × PidBuffer) :=
  match b.slots.keys.head? with
  | some slot => do
    let after ← b.readyAfter64 slot
    return b.drainOldest fun _ => after < now
  | none => return ([], b)

/-- Takes out everything, ready or not. -/
def drainAll (b : PidBuffer) : List PidSet × PidBuffer :=
  (b.slots.toList.flatMap fun (slot, agents) => setsOf slot agents, { b with slots := ∅ })

def restore (b : PidBuffer) (sets : List PidSet) : PidBuffer :=
  sets.foldl (fun b set => b.add set.time set.agent set.pids) b

end PidBuffer

end NetAtlas

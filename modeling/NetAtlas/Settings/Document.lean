import NetAtlas.Json.Reader
import NetAtlas.Members
import NetAtlas.Settings.Basic

set_option autoImplicit false

/-!
# Settings files

A settings file is a JSON document. Its records may be objects or arrays; a member that is left out
keeps its default.
-/
namespace NetAtlas

namespace Json

def bool? : Json → Option Bool
  | bool v => some v
  | _ => none

def int64? : Json → Option Int64
  | integer v => if -0x8000000000000000 ≤ v ∧ v < 0x8000000000000000 then some (Int64.ofInt v) else none
  | _ => none

def uint64? : Json → Option UInt64
  | integer v => if 0 ≤ v ∧ v < 0x10000000000000000 then some (UInt64.ofNat v.toNat) else none
  | _ => none

/-- The members of a record. Every key has to be text. -/
def members? (names : List String) : Json → Option (Members Json)
  | object members => do
    Members.ofPairs? names (← members.mapM fun (key, v) => return (← key, v))
  | array items => Members.ofItems? names items
  | _ => none

end Json

namespace CollectorSettings

def names : List String :=
  ["observation_slot_ms", "address_slot_ms", "pid_slot_ms", "pid_flush_delay_ms",
   "pid_flush_interval_ms"]

def ofJson? (j : Json) : Option CollectorSettings := do
  let m ← j.members? names
  let d : CollectorSettings := {}
  return {
    observationSlot := ← m.optional Json.int64? "observation_slot_ms" d.observationSlot
    addressSlot := ← m.optional Json.int64? "address_slot_ms" d.addressSlot
    pidSlot := ← m.optional Json.int64? "pid_slot_ms" d.pidSlot
    pidFlushDelay := ← m.optional Json.int64? "pid_flush_delay_ms" d.pidFlushDelay
    pidFlushInterval := ← m.optional Json.uint64? "pid_flush_interval_ms" d.pidFlushInterval }

end CollectorSettings

namespace QuerySettings

def names : List String := ["min_window_slot_ms", "max_window_points", "include_local_links"]

def ofJson? (j : Json) : Option QuerySettings := do
  let m ← j.members? names
  let d : QuerySettings := {}
  return {
    minWindowSlot := ← m.optional Json.int64? "min_window_slot_ms" d.minWindowSlot
    maxWindowPoints := ← m.optional Json.int64? "max_window_points" d.maxWindowPoints
    includeLocalLinks := ← m.optional Json.bool? "include_local_links" d.includeLocalLinks }

end QuerySettings

namespace Settings

def ofJson? (j : Json) : Option Settings := do
  let m ← j.members? ["collector", "query"]
  return {
    collector := ← m.optional CollectorSettings.ofJson? "collector" {}
    query := ← m.optional QuerySettings.ofJson? "query" {} }

/-- Why settings cannot be loaded: there is no file or it is not text, it is not a document of
settings, or what it sets is rejected. -/
inductive Fault
  | unreadable
  | malformed
  | rejected (reason : Rejection)
  deriving DecidableEq, Repr

/-- The settings in a file, of which a missing one has no content. -/
def load (file : Option Bytes) : Except Fault Settings := do
  let some bytes := file | throw .unreadable
  let .ok text := Utf8.decode bytes | throw .unreadable
  let some s := Json.parse? text >>= ofJson? | throw .malformed
  match s.validate with
  | .ok () => return s
  | .error reason => throw (.rejected reason)

/-- The settings in the file that the environment names, defaults if it names none. -/
def ofEnvironment (files : String → Option Bytes) : Option String → Except Fault Settings
  | none | some "" => return {}
  | some path => load (files path)

end Settings

end NetAtlas

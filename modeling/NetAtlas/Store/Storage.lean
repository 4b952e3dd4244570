import NetAtlas.Store.Memory
import NetAtlas.Store.Packed

set_option autoImplicit false

/-!
# Storage

The store behind all records, in memory or packed. Storage may fail to answer: an outage decides on
each call from the calls made before it. A call that fails changes nothing that is stored.
-/
namespace NetAtlas

inductive Contents
  | memory (m : Memory)
  | packed (p : Packed)

namespace Contents

def put (c : Contents) (column : Column) (row qualifier value : Bytes) : Except Error Contents :=
  match c with
  | memory m => .ok (memory (m.put column row qualifier value))
  | packed p => ((p.put column row qualifier value).map packed).mapError .corrupt

def scan (c : Contents) (column : Column) (start stop : Bytes) : List Row :=
  match c with
  | memory m => m.scan column start stop
  | packed p => p.scan column start stop

end Contents

inductive Call
  | put (table : Table)
  | scan (table : Table) (start stop : Bytes)
  | flush
  deriving DecidableEq, Repr

def Call.isPut : Call → Bool
  | put _ => true
  | _ => false

def Call.outageText : Call → String
  | put table => s!"{table.name} down"
  | scan table _ _ => s!"{table.name} down"
  | flush => "flush down"

/-- Which calls fail, given the calls before them, the latest first. -/
abbrev Outage := List Call → Call → Bool

def Outage.none : Outage := fun _ _ => false

structure Storage where
  contents : Contents
  outage : Outage := Outage.none
  calls : List Call := []

abbrev StoreM (α : Type) := ExceptT Error (StateM Storage) α

namespace StoreM

/-- Notes a call and fails if the outage says so. -/
def call (c : Call) : StoreM Unit := fun s =>
  let noted := { s with calls := c :: s.calls }
  if s.outage s.calls c then (.error (.unavailable c.outageText), noted) else (.ok (), noted)

def put (column : Column) (row qualifier value : Bytes) : StoreM Unit := do
  call (.put column.table)
  let s ← get
  let contents ← s.contents.put column row qualifier value
  set { s with contents }

def scan (column : Column) (start stop : Bytes) : StoreM (List Row) := do
  call (.scan column.table start stop)
  return (← get).contents.scan column start stop

def flush : StoreM Unit := call .flush

def reject {α : Type} : Except Rejection α → StoreM α
  | .ok a => return a
  | .error e => throw (.rejected e)

end StoreM

end NetAtlas

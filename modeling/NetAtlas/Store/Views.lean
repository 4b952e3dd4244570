import NetAtlas.Record.Entry
import NetAtlas.Store.Storage
import NetAtlas.Time.Range

set_option autoImplicit false

/-!
# Stored observations

The caller and the callee view hold the reports about connections between hosts under the reporter's
own address, the self view those inside one host under the reporting process. A query covers the times
after the first and up to the last of its range and answers newest first; cells that cannot be read are
left out.
-/
namespace NetAtlas

/-- The rows of one stem with times in the range: from the key of its last time on, before the key of
its first time. -/
def scanRange (column : Column) (key : Int64 → Except Rejection Bytes) (range : TimeRange) :
    StoreM (List Row) := do
  let start ← StoreM.reject (key range.last)
  let stop ← StoreM.reject (key range.first)
  StoreM.scan column start stop

/-- What can be read of the cells of some rows. -/
def readCells {α : Type} (read : Entry → Except Corruption α) (rows : List Row) : List α :=
  rows.flatMap fun row =>
    row.cells.filterMap fun cell => (read ⟨row.key, cell.qualifier, cell.value⟩).toOption

/-- The column family of all observations. -/
def observationFamily : String := "NCS"

namespace View

def table : View → Table
  | caller => .caller
  | callee => .callee

def column (v : View) : Column := ⟨v.table, observationFamily⟩

def insert (v : View) (o : Observation) : StoreM Unit :=
  if o.direction = v.direction then
    let e := Entry.ofView v o
    StoreM.put v.column e.row e.qualifier e.value
  else throw (.rejected (.foreignDirection o.direction v.name))

/-- The observations whose own address is `ip`. -/
def query (v : View) (ip : Ip) (range : TimeRange) : StoreM (List Observation) := do
  let rows ← scanRange v.column (fun time => .ok (Key.ipRow ip time)) range
  return readCells (Entry.toView v) rows

end View

namespace SelfView

def column : Column := ⟨.self, observationFamily⟩

def insert (o : Observation) : StoreM Unit :=
  if o.direction = .internal then
    let e := Entry.ofSelf o
    StoreM.put column e.row e.qualifier e.value
  else throw (.rejected (.foreignDirection o.direction "self"))

def query (agent : String) (pid : Int32) (range : TimeRange) : StoreM (List Observation) := do
  let rows ← scanRange column (Key.processRow agent pid) range
  return readCells Entry.toSelf rows

end SelfView

/-- Stores an observation in the view of its direction. -/
def insertObservation (o : Observation) : StoreM Unit :=
  match View.ofDirection? o.direction with
  | some v => v.insert o
  | none => SelfView.insert o

end NetAtlas

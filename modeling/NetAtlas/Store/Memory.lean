import NetAtlas.Store.Table

set_option autoImplicit false

/-!
# Tables in memory

Each column maps row keys to cells and each row maps qualifiers to values. A put replaces what was
stored for its qualifier.
-/
namespace NetAtlas

open Std

abbrev Cells := ExtTreeMap Bytes Bytes

structure Memory where
  columns : ExtTreeMap Column (ExtTreeMap Bytes Cells)

namespace Memory

def empty : Memory := ⟨∅⟩

def rows (m : Memory) (column : Column) : ExtTreeMap Bytes Cells := m.columns.getD column ∅

def put (m : Memory) (column : Column) (row qualifier value : Bytes) : Memory :=
  let rows := m.rows column
  ⟨m.columns.insert column (rows.insert row ((rows.getD row ∅).insert qualifier value))⟩

def cellList (cells : Cells) : List Cell := cells.toList.map fun (q, v) => ⟨q, v⟩

/-- The rows of a key range in key order, each with its cells in the order of their qualifiers. -/
def scan (m : Memory) (column : Column) (start stop : Bytes) : List Row :=
  ((m.rows column).toList.filter fun (key, _) => Bytes.between start stop key).map
    fun (key, cells) => ⟨key, cellList cells⟩

def rowCount (m : Memory) (column : Column) : Nat := (m.rows column).size

end Memory

end NetAtlas

import NetAtlas.Bytes.Basic
import NetAtlas.Order

set_option autoImplicit false

/-!
# Tables

A table has rows, a row has cells, a cell has a qualifier and a value. Every table is split into
column families; a column is one family of one table and is stored apart from all others.
-/
namespace NetAtlas

open Std

inductive Table
  | addresses
  | pids
  | callee
  | caller
  | self
  deriving DecidableEq, Repr

namespace Table

def name : Table → String
  | addresses => "ConnectionStatData"
  | pids => "PidStatData"
  | callee => "NetworkConnectionStatisticsCallee"
  | caller => "NetworkConnectionStatisticsCaller"
  | self => "NetworkConnectionStatisticsSelf"

theorem name_inj {s t : Table} (h : s.name = t.name) : s = t := by
  cases s <;> cases t <;> first | rfl | exact absurd h (by decide)

def rank : Table → Nat
  | addresses => 0
  | pids => 1
  | callee => 2
  | caller => 3
  | self => 4

theorem rank_inj {s t : Table} (h : s.rank = t.rank) : s = t := by
  cases s <;> cases t <;> first | rfl | exact absurd h (by decide)

instance : Ord Table := ⟨compareOn rank⟩

instance : TransOrd Table := inferInstanceAs (TransCmp (compareOn rank))

instance : LawfulEqOrd Table := lawfulEqCmp_compareOn fun _ _ => rank_inj

end Table

structure Column where
  table : Table
  family : String
  deriving DecidableEq, Repr

namespace Column

theorem eq_of_parts {a b : Column} (ht : a.table = b.table) (hf : a.family = b.family) : a = b := by
  cases a; cases b; simp_all

instance : Ord Column := ⟨compareLex (compareOn table) (compareOn family)⟩

instance : TransOrd Column :=
  inferInstanceAs (TransCmp (compareLex (compareOn table) (compareOn family)))

instance : LawfulEqOrd Column := lawfulEqCmp_compareLex fun _ _ ht hf =>
  eq_of_parts (LawfulEqCmp.eq_of_compare ht) (LawfulEqCmp.eq_of_compare hf)

def name (c : Column) : String := s!"{c.table.name}:{c.family}"

end Column

structure Cell where
  qualifier : Bytes
  value : Bytes
  deriving DecidableEq, Repr

structure Row where
  key : Bytes
  cells : List Cell
  deriving DecidableEq, Repr

/-- Keys of a scan: from `start` on, before `stop`. -/
def Bytes.between (start stop key : Bytes) : Bool :=
  (compare start key).isLE && (compare key stop).isLT

end NetAtlas

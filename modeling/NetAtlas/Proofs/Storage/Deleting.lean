import NetAtlas.Proofs.Storage.Upsert

set_option autoImplicit false

/-!
# Deleting cells

Cells that are not to be kept are taken out of their rows. The rows of a column are then those before
without these cells, and all other columns are as before.
-/
namespace NetAtlas

open Std

/-- A row without the cells that are not to be kept. -/
def Row.keep (keep : Entry → Bool) (row : Row) : Row :=
  { row with cells := row.cells.filter fun cell => keep ⟨row.key, cell.qualifier, cell.value⟩ }

def Memory.keepCells (m : Memory) (column : Column) (keep : Entry → Bool) : Memory :=
  ⟨m.columns.insert column ((m.rows column).map fun key cells => cells.filter fun q v => keep ⟨key, q, v⟩)⟩

/-- A packed row that cannot be unpacked has nothing to keep. -/
def Packed.keepCells (p : Packed) (column : Column) (keep : Entry → Bool) : Packed :=
  ⟨p.trees.insert column.name ((p.tree column).filterMap fun key bytes =>
    (Row.unpack bytes).toOption.map fun cells => Row.pack (Row.keep keep ⟨key, cells⟩).cells)⟩

namespace Contents

def keepCells (c : Contents) (column : Column) (keep : Entry → Bool) : Contents :=
  match c with
  | memory m => memory (m.keepCells column keep)
  | packed p => packed (p.keepCells column keep)

theorem rows_keepCells (c : Contents) (column : Column) (keep : Entry → Bool) :
    (c.keepCells column keep).rows column = (c.rows column).map (Row.keep keep) := by
  cases c with
  | memory m =>
    have hrows : (m.keepCells column keep).rows column =
        (m.rows column).map fun key cells => cells.filter fun q v => keep ⟨key, q, v⟩ := by
      rw [Memory.rows, Memory.keepCells, ExtTreeMap.getD_insert_self]
    simp only [keepCells, rows, hrows, ExtTreeMap.toList_map, List.map_map]
    apply List.map_congr_left
    rintro ⟨key, cells⟩ _
    simp [Row.keep, Memory.cellList, List.filter_map, Function.comp_def]
  | packed p =>
    simp only [keepCells, rows, Packed.keepCells, Packed.tree_insert, if_true,
      ExtTreeMap.toList_filterMap, List.filterMap_filterMap, List.map_filterMap]
    apply List.filterMap_congr
    rintro ⟨key, bytes⟩ _
    cases hcells : Row.unpack bytes with
    | error e => rfl
    | ok cells =>
      -- what is left of a row fits into one again
      have hfits : ∀ cell ∈ (Row.keep keep ⟨key, cells⟩).cells,
          cell.qualifier.length < Bytes.room 4 ∧ cell.value.length < Bytes.room 4 :=
        fun cell hcell => Row.fits_of_unpack hcells cell (List.mem_of_mem_filter hcell)
      simp only [Except.toOption, Option.map_some, Option.bind_some, Row.unpack_pack hfits]
      rfl

theorem rows_keepCells_of_ne (c : Contents) {column other : Column} (hne : column.name ≠ other.name)
    (keep : Entry → Bool) : (c.keepCells column keep).rows other = c.rows other := by
  cases c with
  | memory m =>
    have hcolumn : ¬ compare column other = .eq :=
      fun h => hne (congrArg Column.name (LawfulEqCmp.eq_of_compare h))
    simp only [keepCells, rows, Memory.rows, Memory.keepCells, ExtTreeMap.getD_insert, if_neg hcolumn]
  | packed p => simp only [keepCells, rows, Packed.keepCells, Packed.tree_insert, if_neg hne]

theorem hasCell_of_rows_eq {c c' : Contents} {column : Column} {keep : Entry → Bool}
    (h : c'.rows column = (c.rows column).map (Row.keep keep)) {key qualifier value : Bytes} :
    c'.HasCell column key qualifier value ↔
      c.HasCell column key qualifier value ∧ keep ⟨key, qualifier, value⟩ := by
  rw [HasCell, h]
  constructor
  · rintro ⟨_, hmem, rfl, hcell⟩
    obtain ⟨row, hrow, rfl⟩ := List.mem_map.mp hmem
    obtain ⟨hcell, hkeep⟩ := List.mem_filter.mp hcell
    exact ⟨⟨row, hrow, rfl, hcell⟩, hkeep⟩
  · rintro ⟨⟨row, hrow, rfl, hcell⟩, hkeep⟩
    exact ⟨row.keep keep, List.mem_map_of_mem hrow, rfl, List.mem_filter.mpr ⟨hcell, hkeep⟩⟩

end Contents

section ReadCells

variable {α : Type} (read : Entry → Except Corruption α)

/-- Whether a cell can be read. -/
def readable (e : Entry) : Bool := (read e).toOption.isSome

theorem readable_iff {e : Entry} : readable read e ↔ ∃ a, read e = .ok a := by
  unfold readable
  cases read e <;> simp [Except.toOption]

/-- Cells that cannot be read are left out anyway. -/
theorem readCells_keep (rows : List Row) :
    readCells read (rows.map (Row.keep (readable read))) = readCells read rows := by
  rw [readCells, List.flatMap_map]
  apply List.flatMap_congr
  intro row _
  rw [Row.keep, List.filterMap_filter]
  apply List.filterMap_congr
  intro cell _
  unfold readable
  cases read ⟨row.key, cell.qualifier, cell.value⟩ <;> simp [Except.toOption]

theorem mem_readCells_rows {c : Contents} {column : Column} {a : α} :
    a ∈ readCells read (c.rows column) ↔ ∃ key qualifier value,
      c.HasCell column key qualifier value ∧ read ⟨key, qualifier, value⟩ = .ok a := by
  simp only [readCells, List.mem_flatMap, List.mem_filterMap]
  constructor
  · rintro ⟨row, hrow, cell, hcell, hread⟩
    exact ⟨row.key, cell.qualifier, cell.value, ⟨row, hrow, rfl, hcell⟩, except_toOption_eq_some hread⟩
  · rintro ⟨_, q, v, ⟨row, hrow, rfl, hcell⟩, hread⟩
    exact ⟨row, hrow, ⟨q, v⟩, hcell, by simp [hread, Except.toOption]⟩

end ReadCells

end NetAtlas

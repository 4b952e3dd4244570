import NetAtlas.Proofs.Record.Entry
import NetAtlas.Proofs.Storage.Writes

set_option autoImplicit false

/-!
# Records that were written and are read back

If each record written to a column is read back as it was, then what is read of the column is, for every
row and qualifier, the record written there last, in the order of rows and of qualifiers within a row.
-/
namespace NetAtlas

open Std

/-- Entries by their rows, those of one row by their qualifiers. -/
def Entry.Before (e f : Entry) : Prop :=
  compare e.row f.row = .lt ∨ e.row = f.row ∧ compare e.qualifier f.qualifier = .lt

def Entry.samePlace (e f : Entry) : Bool := e.row = f.row ∧ e.qualifier = f.qualifier

theorem Entry.Before.not_samePlace {e f : Entry} (h : e.Before f) : ¬ e.samePlace f := by
  intro hs
  simp only [samePlace, decide_eq_true_eq] at hs
  rcases h with h | ⟨_, h⟩
  · simp [hs.1, ReflCmp.compare_self] at h
  · simp [hs.2, ReflCmp.compare_self] at h

theorem Entry.Before.asymm {e f : Entry} (hef : e.Before f) : ¬ f.Before e := by
  intro hfe
  rcases hef with hef | ⟨hrow, hef⟩
  · rcases hfe with hfe | ⟨hrow, _⟩
    · exact OrientedCmp.not_lt_of_lt hef hfe
    · simp [hrow, ReflCmp.compare_self] at hef
  · rcases hfe with hfe | ⟨_, hfe⟩
    · simp [hrow, ReflCmp.compare_self] at hfe
    · exact OrientedCmp.not_lt_of_lt hef hfe

namespace Contents

def entries (c : Contents) (column : Column) : List Entry :=
  (c.rows column).flatMap fun row => row.cells.map fun cell => ⟨row.key, cell.qualifier, cell.value⟩

theorem readCells_rows {α : Type} (read : Entry → Except Corruption α) (c : Contents)
    (column : Column) :
    readCells read (c.rows column) = (c.entries column).filterMap fun e => (read e).toOption := by
  simp only [readCells, entries, List.filterMap_flatMap, List.filterMap_map]
  rfl

theorem mem_entries {c : Contents} {column : Column} {e : Entry} :
    e ∈ c.entries column ↔ c.HasCell column e.row e.qualifier e.value := by
  simp only [entries, List.mem_flatMap, List.mem_map, HasCell]
  constructor
  · rintro ⟨row, hrow, cell, hcell, rfl⟩
    exact ⟨row, hrow, rfl, hcell⟩
  · rintro ⟨row, hrow, hkey, hcell⟩
    exact ⟨row, hrow, _, hcell, by rw [hkey]⟩

theorem Holds.entries_ascend {c : Contents} {ws : List Write} (h : c.Holds ws) (column : Column) :
    (c.entries column).Pairwise Entry.Before := by
  rw [entries, List.pairwise_flatMap]
  constructor
  · intro row hrow
    rw [List.pairwise_map]
    exact (h.cells_ascend hrow).2.imp fun hlt => Or.inr ⟨rfl, hlt⟩
  · apply (h.rows_ascend column).imp
    intro r s hlt e he f hf
    obtain ⟨_, _, rfl⟩ := List.mem_map.mp he
    obtain ⟨_, _, rfl⟩ := List.mem_map.mp hf
    exact Or.inl hlt

section Records

variable {α : Type} {c : Contents} {column : Column} {ws : List Write} {os : List α}
  {written : α → Entry} {read : Entry → Except Corruption α}

theorem last?_of_records (hws : ws.filter (·.column = column) = os.map fun o => ⟨column, written o⟩)
    (row qualifier : Bytes) : Write.last? ws column row qualifier =
      (lastOf (fun o => (written o).row = row ∧ (written o).qualifier = qualifier) os).map
        fun o => (written o).value := by
  have hcolumn : ∀ w, Write.hits column row qualifier w → decide (w.column = column) := by
    simp +contextual [Write.hits]
  rw [Write.last?, ← lastOf_filter hcolumn, hws, lastOf_map, Option.map_map]
  simp only [Function.comp_def, Write.hits, true_and]

/-- An entry of the column is the last record written to its place. -/
theorem Holds.mem_entries_records (h : c.Holds ws)
    (hws : ws.filter (·.column = column) = os.map fun o => ⟨column, written o⟩) {e : Entry} :
    e ∈ c.entries column ↔ ∃ o, lastOf (fun x => (written x).samePlace e) os = some o ∧ written o = e := by
  rw [mem_entries, h.hasCell, last?_of_records hws, Option.map_eq_some_iff]
  constructor
  · rintro ⟨o, ho, hvalue⟩
    refine ⟨o, ho, ?_⟩
    have hplace := (mem_of_lastOf ho).2
    simp only [decide_eq_true_eq] at hplace
    cases hw : written o
    simp_all
  · rintro ⟨o, ho, rfl⟩
    exact ⟨o, ho, rfl⟩

variable (h : c.Holds ws) (hread : ∀ o ∈ os, read (written o) = .ok o)
  (hws : ws.filter (·.column = column) = os.map fun o => ⟨column, written o⟩)

include h hread hws

theorem Holds.written_of_read {e : Entry} {o : α} (he : e ∈ c.entries column)
    (ho : read e = .ok o) : o ∈ os ∧ written o = e := by
  obtain ⟨x, hx, rfl⟩ := (h.mem_entries_records hws).mp he
  have hmem := (mem_of_lastOf hx).1
  rw [hread x hmem] at ho
  cases ho
  exact ⟨hmem, rfl⟩

theorem Holds.mem_records {o : α} : o ∈ readCells read (c.rows column) ↔
    lastOf (fun x => (written x).samePlace (written o)) os = some o := by
  rw [readCells_rows, List.mem_filterMap]
  constructor
  · rintro ⟨e, he, ho⟩
    have hwritten := (h.written_of_read hread hws he (except_toOption_eq_some ho)).2
    subst hwritten
    obtain ⟨x, hx, hxo⟩ := (h.mem_entries_records hws).mp he
    have hxread := hread x (mem_of_lastOf hx).1
    rw [hxo, except_toOption_eq_some ho] at hxread
    cases hxread
    exact hx
  · intro ho
    refine ⟨written o, (h.mem_entries_records hws).mpr ⟨o, ho, rfl⟩, ?_⟩
    rw [hread o (mem_of_lastOf ho).1]
    rfl

theorem Holds.records_ascend :
    (readCells read (c.rows column)).Pairwise fun a b => (written a).Before (written b) := by
  rw [readCells_rows, List.pairwise_filterMap]
  apply (h.entries_ascend column).imp_of_mem
  intro e f he hf hlt a ha b hb
  rw [(h.written_of_read hread hws he (except_toOption_eq_some ha)).2,
    (h.written_of_read hread hws hf (except_toOption_eq_some hb)).2]
  exact hlt

/-- A scan finds the records whose rows it covers. -/
theorem Holds.readCells_scan (start stop : Bytes) :
    readCells read (c.scan column start stop) =
      (readCells read (c.rows column)).filter fun o => Bytes.between start stop (written o).row := by
  rw [scan_eq_filter_rows]
  apply readCells_filter
  intro row hrow cell hcell o ho
  have he : ⟨row.key, cell.qualifier, cell.value⟩ ∈ c.entries column :=
    mem_entries.mpr ⟨row, hrow, rfl, hcell⟩
  rw [(h.written_of_read hread hws he ho).2]

end Records

end Contents

end NetAtlas

import NetAtlas.Proofs.Storage.Observations
import NetAtlas.Proofs.Storage.Packing

set_option autoImplicit false

/-!
# Cells and puts

A put changes the cell of its column, row and qualifier alone. That the same is true of packed rows
takes rows that can be unpacked and cells whose length fits into four bytes; it is shown here of columns
whose rows hold one cell each, always with the same qualifier, as those of the registries do.
-/
namespace NetAtlas

open Std

namespace Row

theorem upsert_nil (qualifier value : Bytes) : upsert qualifier value [] = [⟨qualifier, value⟩] := by
  rw [upsert, seek]
  rfl

theorem upsert_singleton (qualifier old value : Bytes) :
    upsert qualifier value [⟨qualifier, old⟩] = [⟨qualifier, value⟩] := by
  have hseek : seek qualifier [⟨qualifier, old⟩] = 0 := by
    have hhalf : [(⟨qualifier, old⟩ : Cell)].length / 2 = 0 := by rw [List.length_singleton]
    rw [seek]
    exact dif_pos hhalf
  have hsame : compare qualifier qualifier = .eq := ReflCmp.compare_self
  simp only [upsert, hseek, List.getElem?_cons_zero, hsame]
  rfl

end Row

theorem Memory.rows_put (m : Memory) (column other : Column) (row qualifier value : Bytes) :
    (m.put column row qualifier value).rows other =
      if column = other then
        (m.rows column).insert row (((m.rows column).getD row ∅).insert qualifier value)
      else m.rows other := by
  rw [rows, put, ExtTreeMap.getD_insert]
  by_cases h : column = other
  · subst h
    rw [if_pos ReflCmp.compare_self, if_pos rfl]
  · rw [if_neg fun hc => h (LawfulEqCmp.eq_of_compare hc), if_neg h]
    rfl

/-- The cells a put starts from: none if the row is absent, those of its bytes if they unpack. -/
def Row.cells? : Option Bytes → Option (List Cell)
  | none => some []
  | some bytes => (unpack bytes).toOption

theorem Row.cells?_eq_some {stored : Option Bytes} {cells : List Cell} :
    cells? stored = some cells ↔
      stored = none ∧ cells = [] ∨ ∃ bytes, stored = some bytes ∧ unpack bytes = .ok cells := by
  cases stored with
  | none => simp [cells?, eq_comm]
  | some bytes => cases h : unpack bytes <;> simp [cells?, h, Except.toOption]

theorem Packed.update_eq (qualifier value : Bytes) (old : Option Bytes) (corrupt : Bool) :
    update qualifier value old corrupt =
      match Row.cells? old with
      | some cells => (some (Row.pack (Row.upsert qualifier value cells)), false)
      | none => (old, true) := by
  cases old with
  | none => rfl
  | some bytes =>
    rw [update, Row.cells?, Option.map_some]
    cases Row.unpack bytes <;> rfl

theorem Packed.put_eq (p : Packed) (column : Column) (row qualifier value : Bytes) :
    p.put column row qualifier value =
      match Row.cells? (p.tree column)[row]? with
      | some cells => .ok ⟨p.trees.insert column.name
          ((p.tree column).insert row (Row.pack (Row.upsert qualifier value cells)))⟩
      | none => .error (.row column.name) := by
  have halter : ∀ bytes : Bytes, ((p.tree column).alter row fun _ => some bytes) =
      (p.tree column).insert row bytes := by
    intro bytes
    apply ExtTreeMap.ext_getElem?
    intro key
    rw [ExtTreeMap.getElem?_alter, ExtTreeMap.getElem?_insert]
  rw [put, update_eq]
  cases Row.cells? (p.tree column)[row]? with
  | none => rfl
  | some cells => simp only [halter, Bool.false_eq_true, if_false]

theorem Packed.put_eq_ok {p p' : Packed} {column : Column} {row qualifier value : Bytes}
    (h : p.put column row qualifier value = .ok p') :
    ∃ cells, Row.cells? (p.tree column)[row]? = some cells ∧
      p' = ⟨p.trees.insert column.name
        ((p.tree column).insert row (Row.pack (Row.upsert qualifier value cells)))⟩ := by
  rw [put_eq] at h
  cases hcells : Row.cells? (p.tree column)[row]? with
  | none =>
    rw [hcells] at h
    cases h
  | some cells =>
    rw [hcells] at h
    cases h
    exact ⟨cells, rfl, rfl⟩

theorem Packed.tree_insert (p : Packed) (column other : Column) (tree : ExtTreeMap Bytes Bytes) :
    Packed.tree ⟨p.trees.insert column.name tree⟩ other =
      if column.name = other.name then tree else p.tree other := by
  rw [Packed.tree, ExtTreeMap.getD_insert]
  by_cases h : column.name = other.name
  · rw [if_pos h, if_pos (by rw [h]; exact ReflCmp.compare_self)]
  · rw [if_neg fun hc => h (LawfulEqCmp.eq_of_compare hc), if_neg h]
    rfl

namespace Contents

/-- A put to one column leaves the rows of another one. -/
theorem rows_put_of_ne {c c' : Contents} {column other : Column} {row qualifier value : Bytes}
    (h : c.put column row qualifier value = .ok c') (hne : column.name ≠ other.name) :
    c'.rows other = c.rows other := by
  cases c with
  | memory m =>
    cases h
    have hcolumn : column ≠ other := fun he => hne (congrArg Column.name he)
    rw [rows, rows, Memory.rows_put, if_neg hcolumn]
  | packed p =>
    obtain ⟨p', hp, rfl⟩ := except_map_eq_ok (except_mapError_eq_ok h)
    obtain ⟨cells, _, rfl⟩ := Packed.put_eq_ok hp
    rw [rows, rows, Packed.tree_insert, if_neg hne]

/-- Values of any length go into memory; the length of a packed one is written with four bytes. -/
def fits (c : Contents) (value : Bytes) : Prop :=
  match c with
  | memory _ => True
  | packed _ => value.length < Bytes.room 4

/-- Whatever can be read of a column's rows is one cell each, with the same qualifier. -/
def Plain (c : Contents) (column : Column) (qualifier : Bytes) : Prop :=
  match c with
  | memory _ => True
  | packed _ => ∀ row ∈ c.rows column, ∃ value, row.cells = [⟨qualifier, value⟩]

def HasCell (c : Contents) (column : Column) (key qualifier value : Bytes) : Prop :=
  ∃ row ∈ c.rows column, row.key = key ∧ ⟨qualifier, value⟩ ∈ row.cells

theorem mem_rows_memory {m : Memory} {column : Column} {row : Row} :
    row ∈ (memory m).rows column ↔
      ∃ cells, (m.rows column)[row.key]? = some cells ∧ row.cells = Memory.cellList cells := by
  rw [rows, List.mem_map]
  constructor
  · rintro ⟨⟨key, cells⟩, hmem, rfl⟩
    exact ⟨cells, ExtTreeMap.mem_toList_iff_getElem?_eq_some.mp hmem, rfl⟩
  · rintro ⟨cells, hget, hcells⟩
    refine ⟨(row.key, cells), ExtTreeMap.mem_toList_iff_getElem?_eq_some.mpr hget, ?_⟩
    change (⟨row.key, Memory.cellList cells⟩ : Row) = row
    rw [← hcells]

theorem mem_rows_packed {p : Packed} {column : Column} {row : Row} :
    row ∈ (packed p).rows column ↔
      ∃ bytes, (p.tree column)[row.key]? = some bytes ∧ Row.unpack bytes = .ok row.cells := by
  rw [rows, List.mem_filterMap]
  constructor
  · rintro ⟨⟨key, bytes⟩, hmem, hrow⟩
    obtain ⟨cells, hcells, rfl⟩ := Option.map_eq_some_iff.mp hrow
    exact ⟨bytes, ExtTreeMap.mem_toList_iff_getElem?_eq_some.mp hmem,
      except_toOption_eq_some hcells⟩
  · rintro ⟨bytes, hget, hcells⟩
    refine ⟨(row.key, bytes), ExtTreeMap.mem_toList_iff_getElem?_eq_some.mpr hget, ?_⟩
    change Option.map (fun cells => (⟨row.key, cells⟩ : Row)) (Row.unpack bytes).toOption = some row
    rw [hcells]
    rfl

theorem mem_rows_packed_insert {p : Packed} {column : Column} {key bytes : Bytes} {row : Row} :
    row ∈ (packed ⟨p.trees.insert column.name ((p.tree column).insert key bytes)⟩).rows column ↔
      if row.key = key then Row.unpack bytes = .ok row.cells else row ∈ (packed p).rows column := by
  rw [mem_rows_packed, Packed.tree_insert, if_pos rfl, ExtTreeMap.getElem?_insert]
  by_cases hk : row.key = key
  · subst hk
    simp
  · rw [if_neg hk, if_neg fun hc => hk (LawfulEqCmp.eq_of_compare hc).symm, ← mem_rows_packed]

theorem mem_cellList {cells : Cells} {qualifier value : Bytes} :
    ⟨qualifier, value⟩ ∈ Memory.cellList cells ↔ cells[qualifier]? = some value := by
  rw [Memory.cellList, List.mem_map, ← ExtTreeMap.mem_toList_iff_getElem?_eq_some]
  constructor
  · rintro ⟨⟨q, v⟩, hmem, he⟩
    cases he
    exact hmem
  · intro hmem
    exact ⟨(qualifier, value), hmem, rfl⟩

theorem hasCell_memory {m : Memory} {column : Column} {key qualifier value : Bytes} :
    (memory m).HasCell column key qualifier value ↔
      ((m.rows column).getD key ∅)[qualifier]? = some value := by
  rw [ExtTreeMap.getD_eq_getD_getElem?]
  constructor
  · rintro ⟨row, hrow, rfl, hcell⟩
    obtain ⟨cells, hget, hcells⟩ := mem_rows_memory.mp hrow
    rw [hcells] at hcell
    rw [hget]
    exact mem_cellList.mp hcell
  · intro h
    cases hget : (m.rows column)[key]? with
    | none =>
      rw [hget] at h
      exact absurd h (by rw [Option.getD_none, ExtTreeMap.getElem?_empty]; exact fun hn => nomatch hn)
    | some cells =>
      rw [hget] at h
      exact ⟨⟨key, Memory.cellList cells⟩, mem_rows_memory.mpr ⟨cells, hget, rfl⟩, rfl,
        mem_cellList.mpr h⟩

theorem upsert_of_plain {p : Packed} {column : Column} {row qualifier : Bytes} {cells : List Cell}
    (hold : Row.cells? (p.tree column)[row]? = some cells)
    (hplain : (packed p).Plain column qualifier) (value : Bytes) :
    Row.upsert qualifier value cells = [⟨qualifier, value⟩] := by
  rcases Row.cells?_eq_some.mp hold with ⟨_, rfl⟩ | ⟨bytes, hget, hcells⟩
  · exact Row.upsert_nil qualifier value
  · obtain ⟨old, rfl⟩ := hplain ⟨row, cells⟩ (mem_rows_packed.mpr ⟨bytes, hget, hcells⟩)
    exact Row.upsert_singleton qualifier old value

/-- If a row was replaced by one cell and the others are as before, so are their cells. -/
theorem hasCell_of_replaced {c c' : Contents} {column : Column} {row qualifier value : Bytes}
    (hrows : ∀ other : Row, other ∈ c'.rows column ↔
      if other.key = row then other.cells = [⟨qualifier, value⟩] else other ∈ c.rows column)
    (key v : Bytes) : c'.HasCell column key qualifier v ↔
      if key = row then v = value else c.HasCell column key qualifier v := by
  simp only [HasCell, hrows]
  by_cases hk : key = row
  · subst hk
    rw [if_pos rfl]
    constructor
    · rintro ⟨other, hother, hkey, hcell⟩
      rw [if_pos hkey] at hother
      rw [hother] at hcell
      cases List.mem_singleton.mp hcell
      rfl
    · rintro rfl
      exact ⟨⟨key, [⟨qualifier, v⟩]⟩, by rw [if_pos rfl], rfl, List.mem_singleton.mpr rfl⟩
  · rw [if_neg hk]
    apply exists_congr
    intro other
    apply and_congr_left
    rintro ⟨rfl, _⟩
    rw [if_neg hk]

/-- After a put its cell holds its value, and every other row is as before. -/
theorem hasCell_put {c c' : Contents} {column : Column} {row qualifier value : Bytes}
    (h : c.put column row qualifier value = .ok c') (hplain : c.Plain column qualifier)
    (hq : qualifier.length < Bytes.room 4) (hv : c.fits value) :
    c'.Plain column qualifier ∧ ∀ key v, c'.HasCell column key qualifier v ↔
      if key = row then v = value else c.HasCell column key qualifier v := by
  cases c with
  | memory m =>
    cases h
    refine ⟨trivial, fun key v => ?_⟩
    rw [hasCell_memory, hasCell_memory, Memory.rows_put, if_pos rfl, ExtTreeMap.getD_insert]
    by_cases hk : key = row
    · subst hk
      rw [if_pos ReflCmp.compare_self, if_pos rfl, ExtTreeMap.getElem?_insert_self, Option.some_inj]
      exact eq_comm
    · rw [if_neg fun hc => hk (LawfulEqCmp.eq_of_compare hc).symm, if_neg hk]
  | packed p =>
    obtain ⟨p', hp, rfl⟩ := except_map_eq_ok (except_mapError_eq_ok h)
    obtain ⟨cells, hold, rfl⟩ := Packed.put_eq_ok hp
    have hunpack : Row.unpack (Row.pack [⟨qualifier, value⟩]) = .ok [⟨qualifier, value⟩] := by
      apply Row.unpack_pack
      intro cell hcell
      cases List.mem_singleton.mp hcell
      exact ⟨hq, hv⟩
    have hrows : ∀ other : Row,
        other ∈ (packed ⟨p.trees.insert column.name
          ((p.tree column).insert row (Row.pack (Row.upsert qualifier value cells)))⟩).rows column ↔
        if other.key = row then other.cells = [⟨qualifier, value⟩]
        else other ∈ (packed p).rows column := by
      intro other
      rw [mem_rows_packed_insert, upsert_of_plain hold hplain, hunpack, Except.ok.injEq,
        eq_comm (a := other.cells)]
    refine ⟨fun other hother => ?_, hasCell_of_replaced hrows⟩
    have hother := (hrows other).mp hother
    split at hother
    · exact ⟨value, hother⟩
    · exact hplain other hother

end Contents

namespace StoreM

variable {column : Column} {row qualifier value : Bytes} {s s' : Storage}

theorem put_run : put column row qualifier value s =
    if s.outage s.calls (.put column.table) then
      (.error (.unavailable (Call.put column.table).outageText),
        { s with calls := .put column.table :: s.calls })
    else match s.contents.put column row qualifier value with
      | .ok contents => (.ok (), { s with contents, calls := .put column.table :: s.calls })
      | .error e => (.error e, { s with calls := .put column.table :: s.calls }) := by
  rw [put, exceptT_bind_run, call]
  cases s.outage s.calls (.put column.table) with
  | true => rfl
  | false =>
    change ((liftM (s.contents.put column row qualifier value) : StoreM Contents) >>= fun contents =>
      set { s with contents, calls := .put column.table :: s.calls })
        { s with calls := .put column.table :: s.calls } = _
    rw [exceptT_bind_run]
    cases s.contents.put column row qualifier value with
    | error e => rfl
    | ok contents => rfl

theorem put_eq_ok (h : put column row qualifier value s = (.ok (), s')) :
    s.contents.put column row qualifier value = .ok s'.contents := by
  rw [put_run] at h
  split at h
  · cases h
  · split at h
    · next contents hput =>
      cases h
      exact hput
    · cases h

/-- A put that fails leaves nothing but the call. -/
theorem noting_of_put {e : Error} (h : put column row qualifier value s = (.error e, s')) :
    s' = s.noting [.put column.table] := by
  rw [put_run] at h
  split at h
  · cases h
    rfl
  · split at h
    · cases h
    · cases h
      rfl

theorem put_eq_error {e : Error} (h : put column row qualifier value s = (.error e, s')) :
    s'.contents = s.contents := by
  rw [noting_of_put h]
  rfl

theorem put_run_of_ok {c : Contents} (hs : s.outage = Outage.none)
    (h : s.contents.put column row qualifier value = .ok c) : put column row qualifier value s =
      (.ok (), { s with contents := c, calls := .put column.table :: s.calls }) := by
  rw [put_run, hs, h]
  rfl

end StoreM

end NetAtlas

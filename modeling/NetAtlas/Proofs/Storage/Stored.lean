import NetAtlas.Proofs.Record.Entry
import NetAtlas.Proofs.Storage.PidSets
import NetAtlas.Proofs.Storage.Upsert

set_option autoImplicit false

/-!
# What was stored can be read

Whatever a store held before, a put that succeeds leaves a cell with its value, and a put to another
column does not take it away. So the reports of a view and the addresses of an agent that were stored
can be read and are found by the queries whose range has their time.
-/
namespace NetAtlas

open Std

namespace Contents

variable {c c' : Contents}

/-- A put that succeeds leaves its cell, however the rows of the column look. -/
theorem hasCell_of_put {column : Column} {row qualifier value : Bytes}
    (h : c.put column row qualifier value = .ok c') (hq : qualifier.length < Bytes.room 4)
    (hv : c.fits value) : c'.HasCell column row qualifier value := by
  cases c with
  | memory m =>
    cases h
    rw [hasCell_memory, Memory.rows_put, if_pos rfl, ExtTreeMap.getD_insert_self,
      ExtTreeMap.getElem?_insert_self]
  | packed p =>
    obtain ⟨p', hp, rfl⟩ := except_map_eq_ok (except_mapError_eq_ok h)
    obtain ⟨cells, hold, rfl⟩ := Packed.put_eq_ok hp
    have hunpack := (Row.unpack_pack_upsert_iff hold qualifier value).mpr ⟨hq, hv⟩
    refine ⟨⟨row, Row.upsert qualifier value cells⟩, ?_, rfl, Row.mem_upsert qualifier value cells⟩
    rw [mem_rows_packed_insert, if_pos rfl]
    exact hunpack

theorem HasCell.put {column other : Column} {row qualifier value key q v : Bytes}
    (hcell : c.HasCell other key q v) (h : c.put column row qualifier value = .ok c')
    (hne : column.name ≠ other.name) : c'.HasCell other key q v := by
  rw [HasCell, rows_put_of_ne h hne]
  exact hcell

/-- A put leaves the cells of the other rows. -/
theorem HasCell.put_of_row_ne {column : Column} {row qualifier value key q v : Bytes}
    (hcell : c.HasCell column key q v) (h : c.put column row qualifier value = .ok c')
    (hne : key ≠ row) : c'.HasCell column key q v := by
  cases c with
  | memory m =>
    cases h
    rw [hasCell_memory, Memory.rows_put, if_pos rfl, ExtTreeMap.getD_insert,
      if_neg fun hc => hne (LawfulEqCmp.eq_of_compare hc).symm]
    exact hasCell_memory.mp hcell
  | packed p =>
    obtain ⟨p', hp, rfl⟩ := except_map_eq_ok (except_mapError_eq_ok h)
    obtain ⟨cells, _, rfl⟩ := Packed.put_eq_ok hp
    obtain ⟨found, hfound, rfl, hmem⟩ := hcell
    refine ⟨found, ?_, rfl, hmem⟩
    rw [mem_rows_packed_insert, if_neg hne]
    exact hfound

/-- A put leaves the other cells of its row. -/
theorem HasCell.put_of_qualifier_ne {column : Column} {row qualifier value q v : Bytes}
    (hcell : c.HasCell column row q v) (h : c.put column row qualifier value = .ok c')
    (hq : qualifier.length < Bytes.room 4) (hv : c.fits value) (hne : q ≠ qualifier) :
    c'.HasCell column row q v := by
  cases c with
  | memory m =>
    cases h
    rw [hasCell_memory, Memory.rows_put, if_pos rfl, ExtTreeMap.getD_insert_self,
      ExtTreeMap.getElem?_insert, if_neg fun hc => hne (LawfulEqCmp.eq_of_compare hc).symm]
    exact hasCell_memory.mp hcell
  | packed p =>
    obtain ⟨p', hp, rfl⟩ := except_map_eq_ok (except_mapError_eq_ok h)
    obtain ⟨cells, hold, rfl⟩ := Packed.put_eq_ok hp
    have hunpack := (Row.unpack_pack_upsert_iff hold qualifier value).mpr ⟨hq, hv⟩
    obtain ⟨found, hfound, rfl, hmem⟩ := hcell
    obtain ⟨bytes, hget, hbytes⟩ := mem_rows_packed.mp hfound
    -- the row was there, so its cells are those the put found
    have hcells : cells = found.cells := by
      rw [hget, Row.cells?, hbytes] at hold
      exact (Option.some.inj hold).symm
    refine ⟨⟨found.key, Row.upsert qualifier value cells⟩, ?_, rfl, ?_⟩
    · rw [mem_rows_packed_insert, if_pos rfl]
      exact hunpack
    · exact Row.mem_upsert_of_mem (hcells ▸ hmem) hne

theorem HasCell.mem_readCells {α : Type} {read : Entry → Except Corruption α} {column : Column}
    {key qualifier value : Bytes} {a : α} (h : c.HasCell column key qualifier value)
    (hread : read ⟨key, qualifier, value⟩ = .ok a) {start stop : Bytes}
    (hbetween : Bytes.between start stop key) : a ∈ readCells read (c.scan column start stop) := by
  obtain ⟨row, hrow, rfl, hcell⟩ := h
  rw [scan_eq_filter_rows, readCells, List.mem_flatMap]
  refine ⟨row, List.mem_filter.mpr ⟨hrow, hbetween⟩, List.mem_filterMap.mpr ⟨_, hcell, ?_⟩⟩
  rw [hread]
  rfl

theorem mem_found_of_hasCell {v : View} {o : Observation} {range : TimeRange}
    (hcell : c.HasCell v.column (Entry.ofView v o).row (Entry.ofView v o).qualifier
      (Entry.ofView v o).value)
    (hd : o.direction = v.direction) (ht : range.covers o.time) :
    o ∈ c.found v (v.own o).ip range := by
  have hpos : 0 ≤ o.time := by
    simp only [TimeRange.covers, decide_eq_true_eq] at ht
    exact Int64.le_trans range.first_nonneg (Int64.le_of_lt ht.1)
  have hmem := hcell.mem_readCells (Entry.toView_ofView hd hpos) (Key.between_ipRow.mpr ⟨rfl, ht⟩)
  have hanswer := View.answer_query v (v.own o).ip range c
  rw [View.query, answer_readCells _ rfl rfl] at hanswer
  have hfound : readCells (Entry.toView v) (c.scan v.column (Key.ipRow (v.own o).ip range.last)
      (Key.ipRow (v.own o).ip range.first)) = c.found v (v.own o).ip range := Except.ok.inj hanswer
  rw [← hfound]
  exact hmem

end Contents

theorem AddressSet.read_encode (addresses : List Ip) :
    Reader.addresses.read (encode addresses) = .ok addresses := by
  have hitem : ∀ ip : Ip, Reader.Reads (do Reader.ip (← Reader.family)) (Key.ipStem ip) ip := by
    intro ip
    exact Reader.reads_bind (Reader.reads_family ip.family) (Reader.reads_ip rfl)
  exact Reader.read_many (fun ip _ => hitem ip) fun ip => List.cons_ne_nil _ _

namespace AddressRegistry

theorem read_stored {agent : String} {time : Int64} {row : Bytes}
    (h : Key.agentRow agent time = .ok row) (addresses : List Ip) :
    read ⟨row, qualifier, AddressSet.encode addresses⟩ = .ok ⟨agent, time, addresses⟩ := by
  simp only [read, Registry.read, ne_eq, not_true_eq_false, if_false, Key.readAgentRow_agentRow h,
    AddressSet.read_encode]
  rfl

theorem mem_addresses_of_hasCell {c : Contents} {agent : String} {time : Int64} {row : Bytes}
    {addresses : List Ip} {range : TimeRange} (hrow : Key.agentRow agent time = .ok row)
    (hcell : c.HasCell column row qualifier (AddressSet.encode addresses)) (ht : range.covers time)
    {ip : Ip} (hip : ip ∈ addresses) : ip ∈ c.addresses agent range := by
  obtain ⟨hsize, hkey⟩ := Key.agentRow_eq_ok.mp hrow
  have hrows : ∀ t, Key.agentRow agent t = .ok (Key.agentStem agent ++ Key.timeBytes t) :=
    fun t => Key.agentRow_eq_ok.mpr ⟨hsize, rfl⟩
  have hbetween : Bytes.between (Key.agentStem agent ++ Key.timeBytes range.last)
      (Key.agentStem agent ++ Key.timeBytes range.first) row := by
    rw [hkey]
    exact (Key.between_agentRow hsize hsize).mpr ⟨rfl, ht⟩
  have hmem := hcell.mem_readCells (read_stored hrow addresses) hbetween
  have hanswer := answer_addresses_ok c hsize range
  rw [AddressRegistry.addresses, StoreM.answer_map (reading_query agent range), query,
    answer_readCells _ (hrows _) (hrows _)] at hanswer
  have haddresses : ExtTreeSet.ofList ((readCells read (c.scan column
      (Key.agentStem agent ++ Key.timeBytes range.last)
      (Key.agentStem agent ++ Key.timeBytes range.first))).flatMap (·.addresses)) =
        c.addresses agent range := Except.ok.inj hanswer
  rw [← haddresses, ExtTreeSet.mem_ofList, List.contains_iff_mem]
  exact List.mem_flatMap.mpr ⟨_, hmem, hip⟩

theorem insert_eq_ok {set : AddressSet} {s s' : Storage} (h : insert set s = (.ok (), s')) :
    ∃ row, Key.agentRow set.agent set.time = .ok row ∧
      s.contents.put column row qualifier (AddressSet.encode set.addresses) = .ok s'.contents :=
  Registry.insert_eq_ok h

end AddressRegistry

theorem View.insert_eq_ok {v : View} {o : Observation} {s s' : Storage}
    (h : v.insert o s = (.ok (), s')) : o.direction = v.direction ∧
      s.contents.put v.column (Entry.ofView v o).row (Entry.ofView v o).qualifier
        (Entry.ofView v o).value = .ok s'.contents := by
  rw [insert] at h
  split at h
  · next hd => exact ⟨hd, StoreM.put_eq_ok h⟩
  · cases h

/-- The column and the cell an observation is stored in. -/
def Observation.cell (o : Observation) : Column × Entry :=
  match View.ofDirection? o.direction with
  | some v => (v.column, Entry.ofView v o)
  | none => (SelfView.column, Entry.ofSelf o)

def Contents.writeObservation (c : Contents) (o : Observation) : Except Error Contents :=
  c.put o.cell.1 o.cell.2.row o.cell.2.qualifier o.cell.2.value

/-- Every observation has the direction of the view it is stored in. -/
theorem insertObservation_eq_put (o : Observation) :
    insertObservation o = StoreM.put o.cell.1 o.cell.2.row o.cell.2.qualifier o.cell.2.value := by
  rw [insertObservation, Observation.cell]
  cases hd : o.direction with
  | incoming => exact if_pos hd
  | outgoing => exact if_pos hd
  | internal => exact if_pos hd

/-- What stores an observation writes its cell, or nothing if it fails. -/
theorem contents_insertObservation (o : Observation) (s : Storage) :
    (insertObservation o s).2.contents = s.contents ∨
      s.contents.writeObservation o = .ok (insertObservation o s).2.contents := by
  rw [insertObservation_eq_put]
  rcases hput : StoreM.put o.cell.1 o.cell.2.row o.cell.2.qualifier o.cell.2.value s with ⟨e | u, s'⟩
  · exact Or.inl (StoreM.put_eq_error hput)
  · exact Or.inr (StoreM.put_eq_ok hput)

end NetAtlas

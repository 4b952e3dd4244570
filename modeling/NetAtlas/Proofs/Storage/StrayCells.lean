import NetAtlas.Proofs.Record.Entry
import NetAtlas.Proofs.Storage.Deleting
import NetAtlas.Proofs.Storage.PidSets

set_option autoImplicit false

/-!
# Stray cells

A table may hold any bytes as keys, qualifiers and values beside those that are written here. A query
leaves out what cannot be read. What can be read has a row that says what it is indexed under and when,
so a scan finds it if and only if that is what the query asks for. And a scan only meets rows whose number
in the place of the time is one that a time can be stored as.
-/
namespace NetAtlas

/-- How the rows of a column are written and read: what a row is indexed under makes its stem, behind
which the time is stored. -/
structure Index (κ α : Type) where
  column : Column
  row : κ → Int64 → Except Rejection Bytes
  stem : κ → Bytes
  Admits : κ → Prop
  readStored : Reader (κ × Int64)
  readRow : Reader (κ × Int64)
  read : Entry → Except Corruption α
  name : α → κ
  time : α → Int64
  readRow_eq : readRow = Key.readReversed readStored
  row_eq : ∀ k t, Admits k → row k t = .ok (stem k ++ Key.timeBytes t)
  stem_inj : ∀ {k k' : κ} {x y : Bytes}, Admits k → Admits k' → stem k ++ x = stem k' ++ y →
    k = k' ∧ x = y
  stored_takes : ∀ {c c' : Cursor} {k : κ} {stored : Int64}, readStored c = (.ok (k, stored), c') →
    Admits k ∧ c.rest = stem k ++ (Bytes.ofInt64 stored ++ c'.rest)
  read_row : ∀ {e : Entry} {a : α}, read e = .ok a → readRow.read e.row = .ok (name a, time a)

def View.index (v : View) : Index Ip Observation where
  column := v.column
  row ip t := .ok (Key.ipRow ip t)
  stem := Key.ipStem
  Admits _ := True
  readStored := Key.readIpStored
  readRow := Key.readIpRow
  read := Entry.toView v
  name o := (v.own o).ip
  time := Observation.time
  readRow_eq := Key.readIpRow_eq
  row_eq _ _ _ := rfl
  stem_inj _ _ h := Key.ipStem_inj h
  stored_takes h := ⟨trivial, Key.readIpStored_eq_ok h⟩
  read_row h := by rw [(Entry.toView_eq_ok h).1, Key.readIpRow_ipRow]

def Registry.index {α : Type} (column : Column) (read : Entry → Except Corruption α)
    (agent : α → String) (time : α → Int64)
    (read_row : ∀ {e a}, read e = .ok a → Key.readAgentRow.read e.row = .ok (agent a, time a)) :
    Index String α where
  column := column
  row := Key.agentRow
  stem := Key.agentStem
  Admits agent := agent.utf8ByteSize < 65536
  readStored := Key.readAgentStored
  readRow := Key.readAgentRow
  read := read
  name := agent
  time := time
  readRow_eq := Key.readAgentRow_eq
  row_eq _ _ h := Key.agentRow_eq_ok.mpr ⟨h, rfl⟩
  stem_inj := Key.agentStem_inj
  stored_takes := Key.readAgentStored_eq_ok
  read_row := read_row

theorem AddressRegistry.row_of_read {e : Entry} {set : AddressSet} (h : read e = .ok set) :
    Key.readAgentRow.read e.row = .ok (set.agent, set.time) := by
  obtain ⟨⟨agent, time, addresses⟩, hparts, h⟩ := except_bind_eq_ok h
  cases h
  exact (Registry.read_eq_ok.mp hparts).2.1

def AddressRegistry.index : Index String AddressSet :=
  Registry.index column read AddressSet.agent AddressSet.time row_of_read

def PidRegistry.index : Index String PidSet :=
  Registry.index column read PidSet.agent PidSet.time fun h => (read_eq_ok.mp h).2.1

/-- The contents without the cells of the views and registries that cannot be read. -/
def Contents.cleaned (c : Contents) : Contents :=
  (((c.keepCells View.caller.column (readable (Entry.toView .caller))).keepCells
    View.callee.column (readable (Entry.toView .callee))).keepCells
    AddressRegistry.column (readable AddressRegistry.read)).keepCells
    PidRegistry.column (readable PidRegistry.read)

def Storage.cleaned (s : Storage) : Storage := { s with contents := s.contents.cleaned }

theorem Contents.cleaned_caller (c : Contents) : c.cleaned.rows View.caller.column =
    (c.rows View.caller.column).map (Row.keep (readable (Entry.toView .caller))) := by
  rw [cleaned, rows_keepCells_of_ne _ (by decide), rows_keepCells_of_ne _ (by decide),
    rows_keepCells_of_ne _ (by decide), rows_keepCells]

theorem Contents.cleaned_callee (c : Contents) : c.cleaned.rows View.callee.column =
    (c.rows View.callee.column).map (Row.keep (readable (Entry.toView .callee))) := by
  rw [cleaned, rows_keepCells_of_ne _ (by decide), rows_keepCells_of_ne _ (by decide), rows_keepCells,
    rows_keepCells_of_ne _ (by decide)]

theorem Contents.cleaned_addresses (c : Contents) : c.cleaned.rows AddressRegistry.column =
    (c.rows AddressRegistry.column).map (Row.keep (readable AddressRegistry.read)) := by
  rw [cleaned, rows_keepCells_of_ne _ (by decide), rows_keepCells, rows_keepCells_of_ne _ (by decide),
    rows_keepCells_of_ne _ (by decide)]

theorem Contents.cleaned_pids (c : Contents) : c.cleaned.rows PidRegistry.column =
    (c.rows PidRegistry.column).map (Row.keep (readable PidRegistry.read)) := by
  rw [cleaned, rows_keepCells, rows_keepCells_of_ne _ (by decide), rows_keepCells_of_ne _ (by decide),
    rows_keepCells_of_ne _ (by decide)]

namespace Index

variable {κ α : Type}

def query (I : Index κ α) (k : κ) (range : TimeRange) : StoreM (List α) := do
  return readCells I.read (← scanRange I.column (I.row k) range)

/-- Whatever else is stored, a query finds the cells that can be read and lie where it asks for, its scan
meets no number that cannot be turned back into a time, and cleaning takes away what cannot be read. -/
structure Withstands (I : Index κ α) (s : Storage) (k : κ) (range : TimeRange) (found : List α) :
    Prop where
  mem_iff : ∀ a, a ∈ found ↔ (∃ key qualifier value,
    s.contents.HasCell I.column key qualifier value ∧ I.read ⟨key, qualifier, value⟩ = .ok a) ∧
      I.name a = k ∧ range.covers (I.time a)
  in_range : ∀ rows, (scanRange I.column (I.row k) range s).1 = .ok rows → ∀ row ∈ rows,
    ∀ name stored rest, I.readStored (Cursor.ofBytes row.key) = (.ok (name, stored), rest) →
      (Key.reverseTime stored).toInt = Int64.maxValue.toInt - stored.toInt
  cleaned_iff : ∀ key qualifier value, s.cleaned.contents.HasCell I.column key qualifier value ↔
    s.contents.HasCell I.column key qualifier value ∧ ∃ a, I.read ⟨key, qualifier, value⟩ = .ok a

variable {I : Index κ α} {k : κ} {range : TimeRange}

theorem eq_of_read_row {e : Entry} {a : α} (h : I.read e = .ok a) :
    I.Admits (I.name a) ∧ e.row = I.stem (I.name a) ++ Key.timeBytes (I.time a) := by
  have hread := I.read_row h
  rw [I.readRow_eq] at hread
  obtain ⟨stored, c, hstored, hrest, hbytes⟩ := Key.readReversed_eq_ok hread
  obtain ⟨hname, hrow⟩ := I.stored_takes hstored
  rw [hrest, List.append_nil, hbytes] at hrow
  exact ⟨hname, hrow⟩

theorem answer_query [DecidableEq κ] (hk : I.Admits k) (c : Contents) :
    (I.query k range).answer c = .ok ((readCells I.read (c.rows I.column)).filter fun a =>
      I.name a = k ∧ range.covers (I.time a)) :=
  answer_readCells_stem I.read (fun t => I.row_eq k t hk) (fun _ _ h => (eq_of_read_row h).2)
    (fun _ _ h _ _ => I.stem_inj (eq_of_read_row h).1 hk) c

/-- Whatever a scanned row begins with, the number that is taken from it lies behind the stem of the scan
and so between the times of the range, except for what follows it. -/
theorem reverseTime_of_scanned (hk : I.Admits k) {s : Storage} {rows : List Row}
    (h : (scanRange I.column (I.row k) range s).1 = .ok rows) {row : Row} (hrow : row ∈ rows)
    {name : κ} {stored : Int64} {rest : Cursor}
    (hstored : I.readStored (Cursor.ofBytes row.key) = (.ok (name, stored), rest)) :
    (Key.reverseTime stored).toInt = Int64.maxValue.toInt - stored.toInt := by
  have hanswer := (reading_scanRange I.column (I.row k) range).answer_eq h
  rw [scanRange, I.row_eq k _ hk, I.row_eq k _ hk] at hanswer
  have hscan : s.contents.scan I.column (I.stem k ++ Key.timeBytes range.last)
      (I.stem k ++ Key.timeBytes range.first) = rows := Except.ok.inj hanswer
  rw [← hscan, Contents.scan_eq_filter_rows] at hrow
  obtain ⟨behind, hkey, hbetween⟩ := (Bytes.between_append _ _ _ _).mp (List.mem_filter.mp hrow).2
  obtain ⟨hname, htaken⟩ := I.stored_takes hstored
  obtain ⟨rfl, rfl⟩ := I.stem_inj hk hname (hkey.symm.trans htaken)
  exact Key.toInt_reverseTime (Key.stored_nonneg hbetween)

theorem query_withstands [DecidableEq κ] {s : Storage} (hs : s.AnswersScans) (hk : I.Admits k)
    (hcleaned : s.contents.cleaned.rows I.column =
      (s.contents.rows I.column).map (Row.keep (readable I.read))) (range : TimeRange) :
    ∃ found, (I.query k range s).1 = .ok found ∧ (I.query k range s.cleaned).1 = .ok found ∧
      I.Withstands s k range found := by
  have hreading : StoreM.Reading (I.query k range) := reading_readCells _ _ _ _
  have hanswers : ∀ c, (I.query k range { s with contents := c }).1 = .ok
      ((readCells I.read (c.rows I.column)).filter fun a =>
        I.name a = k ∧ range.covers (I.time a)) := by
    intro c
    obtain ⟨calls, h⟩ := hreading.of_answersScans (s := { s with contents := c }) hs
    rw [h, answer_query hk]
  have hsame : (I.query k range s.cleaned).1 = _ := hanswers s.contents.cleaned
  rw [hcleaned, readCells_keep] at hsame
  refine ⟨_, hanswers s.contents, hsame, ?_,
    fun _ h _ hrow _ _ _ => reverseTime_of_scanned hk h hrow, ?_⟩
  · intro a
    rw [List.mem_filter, mem_readCells_rows, decide_eq_true_iff]
  · intro key qualifier value
    rw [Storage.cleaned, Contents.hasCell_of_rows_eq hcleaned, readable_iff]

end Index

/-- Whatever the tables hold, the queries of the views and of the registries are answered, for agent ids
that a key can have, with what can be read of their address or agent and range and nothing else, and just
so after all that cannot be read was deleted. What a view answers is checked as a new observation is and
has the direction of the view. -/
theorem queries_withstand_stray_cells {s : Storage} (hs : s.AnswersScans) (range : TimeRange) :
    (∀ (v : View) (ip : Ip), ∃ found, (v.query ip range s).1 = .ok found ∧
      (v.query ip range s.cleaned).1 = .ok found ∧ v.index.Withstands s ip range found ∧
      ∀ o ∈ found, o.direction = v.direction ∧ o.draft.build = .ok o) ∧
    ∀ agent : String, agent.utf8ByteSize < 65536 →
      (∃ found, (AddressRegistry.query agent range s).1 = .ok found ∧
        (AddressRegistry.query agent range s.cleaned).1 = .ok found ∧
        AddressRegistry.index.Withstands s agent range found) ∧
      ∃ found, (PidRegistry.query agent range s).1 = .ok found ∧
        (PidRegistry.query agent range s.cleaned).1 = .ok found ∧
        PidRegistry.index.Withstands s agent range found := by
  refine ⟨fun v ip => ?_, fun agent hagent => ⟨?_, ?_⟩⟩
  · have hcleaned : s.contents.cleaned.rows v.index.column =
        (s.contents.rows v.index.column).map (Row.keep (readable v.index.read)) := by
      cases v with
      | caller => exact s.contents.cleaned_caller
      | callee => exact s.contents.cleaned_callee
    obtain ⟨found, hquery, hsame, hfound⟩ :=
      Index.query_withstands (I := v.index) hs trivial hcleaned range
    refine ⟨found, hquery, hsame, hfound, fun o ho => ?_⟩
    obtain ⟨⟨key, qualifier, value, _, hread⟩, _⟩ := (hfound.mem_iff o).mp ho
    obtain ⟨_, hd, htime⟩ := Entry.toView_eq_ok hread
    exact ⟨hd, o.build_draft htime⟩
  · exact AddressRegistry.index.query_withstands hs hagent s.contents.cleaned_addresses range
  · exact PidRegistry.index.query_withstands hs hagent s.contents.cleaned_pids range

namespace Littered

def report : Observation where
  agent := "svc"
  pid := 20
  transport := .tcp
  direction := .outgoing
  src := ⟨⟨.v4, [10, 0, 0, 1], rfl⟩, 5000, by decide⟩
  dst := ⟨⟨.v4, [10, 0, 0, 2], rfl⟩, 80, by decide⟩
  netNs := 0
  counters := { sent := 7 }
  time := 1000
  agent_pos := by decide
  agent_le := by decide
  same_family := rfl
  counters_nonneg := by decide

def pids : PidSet := ⟨"svc", 1000, .ofList [(-3 : Int32), 20]⟩

def cell : Cell := ⟨(Entry.ofView .callee report).qualifier, (Entry.ofView .callee report).value⟩

def pidCell : Cell := ⟨PidRegistry.qualifier, PidSet.encode pids.pids⟩

/-- One cell of each table can be read. Beside it there are cells with other qualifiers, longer and shorter
keys and a row that does not unpack, all among the keys of the range. -/
def storage : Storage where
  contents := .packed (Packed.empty
    |>.putRaw View.callee.column (Key.ipRow report.src.ip 1000) (Row.pack [cell, ⟨[255], [0]⟩])
    |>.putRaw View.callee.column (Key.ipRow report.src.ip 1000 ++ [0]) (Row.pack [cell])
    |>.putRaw View.callee.column (Key.ipStem report.src.ip ++ [127, 255]) (Row.pack [cell])
    |>.putRaw View.callee.column (Key.ipRow report.src.ip 500) [1, 2, 3]
    |>.putRaw PidRegistry.column (Key.agentStem "svc" ++ Key.timeBytes 1000)
      (Row.pack [pidCell, ⟨AddressRegistry.qualifier, [2, 10, 0, 0, 1]⟩])
    |>.putRaw PidRegistry.column (Key.agentStem "svc" ++ [127, 255, 255]) (Row.pack [pidCell]))

def range : TimeRange := ⟨0, 2000, by decide, by decide⟩

end Littered

theorem queries_withstand_stray_cells_littered :
    Littered.storage.AnswersScans ∧ "svc".utf8ByteSize < 65536 ∧
    (View.callee.query Littered.report.src.ip Littered.range Littered.storage).1 =
      .ok [Littered.report] ∧
    (View.callee.query Littered.report.src.ip Littered.range Littered.storage.cleaned).1 =
      .ok [Littered.report] ∧
    View.callee.index.Withstands Littered.storage Littered.report.src.ip Littered.range
      [Littered.report] ∧
    (PidRegistry.query "svc" Littered.range Littered.storage).1 = .ok [Littered.pids] ∧
    PidRegistry.index.Withstands Littered.storage "svc" Littered.range [Littered.pids] := by
  have hscans : Littered.storage.AnswersScans := fun _ _ _ _ => rfl
  have hagent : "svc".utf8ByteSize < 65536 := by decide
  obtain ⟨hviews, hregistries⟩ := queries_withstand_stray_cells hscans Littered.range
  obtain ⟨found, hfound, hcleaned, hview, _⟩ := hviews .callee Littered.report.src.ip
  obtain ⟨_, sets, hsets, _, hpids⟩ := hregistries "svc" hagent
  have hreport : (View.callee.query Littered.report.src.ip Littered.range Littered.storage).1 =
      .ok [Littered.report] := by decide +kernel
  have hset : (PidRegistry.query "svc" Littered.range Littered.storage).1 = .ok [Littered.pids] := by
    decide +kernel
  cases Except.ok.inj (hfound.symm.trans hreport)
  cases Except.ok.inj (hsets.symm.trans hset)
  exact ⟨hscans, hagent, hreport, hcleaned, hview, hset, hpids⟩

end NetAtlas

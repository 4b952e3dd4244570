import NetAtlas.Proofs.Storage.SelfQueries
import NetAtlas.Proofs.Time.Checked

set_option autoImplicit false

/-!
# Scans and the times they meet

A query scans one stem at a time, between the keys of the two times of its range. Whatever the tables hold,
the number that stands in the place of the time in a row it meets can be turned back into a time, and what
is read of the row has a time of the range.
-/
namespace NetAtlas

namespace StoreM

variable {P : Call → Prop} {α β : Type}

/-- Nothing but calls of one kind are made, and nothing is changed. -/
def Calls (P : Call → Prop) (m : StoreM α) : Prop :=
  ∀ s : Storage, ∃ made, (m s).2 = s.noting made ∧ ∀ call ∈ made, P call

theorem calls_none {m : StoreM α} (h : ∀ s, (m s).2 = s) : Calls P m := fun s =>
  ⟨[], h s, fun _ hcall => absurd hcall List.not_mem_nil⟩

theorem calls_pure (a : α) : Calls P (pure a : StoreM α) := calls_none fun _ => rfl

theorem calls_throw (e : Error) : Calls P (throw e : StoreM α) := calls_none fun _ => rfl

theorem calls_scan {column : Column} {start stop : Bytes} (h : P (.scan column.table start stop)) :
    Calls P (scan column start stop) := by
  intro s
  refine ⟨[.scan column.table start stop], ?_, fun call hcall => List.mem_singleton.mp hcall ▸ h⟩
  rw [scan, exceptT_bind_run, call]
  cases hout : s.outage s.calls (.scan column.table start stop) with
  | false => rfl
  | true => rfl

theorem calls_bind {m : StoreM α} {k : α → StoreM β} (hm : Calls P m) (hk : ∀ a, Calls P (k a)) :
    Calls P (m >>= k) := by
  intro s
  obtain ⟨made, hmade, hcalls⟩ := hm s
  rcases exceptT_bind_cases m k s with ⟨e, s', hrun, hbind⟩ | ⟨a, s', hrun, hbind⟩
  · rw [hrun] at hmade
    rw [hbind]
    exact ⟨made, hmade, hcalls⟩
  · rw [hrun] at hmade
    rw [hbind]
    obtain ⟨later, hlater, hcalls'⟩ := hk a s'
    refine ⟨later ++ made, ?_, List.forall_mem_append.mpr ⟨hcalls', hcalls⟩⟩
    rw [Storage.noting_append, ← show s' = s.noting made from hmade]
    exact hlater

theorem calls_map {m : StoreM α} (hm : Calls P m) (f : α → β) :
    Calls P (m >>= fun a => pure (f a)) := calls_bind hm fun a => calls_pure (f a)

theorem calls_mapM {k : α → StoreM β} (xs : List α) (hk : ∀ a, Calls P (k a)) :
    Calls P (xs.mapM k) := by
  induction xs with
  | nil =>
    rw [List.mapM_nil]
    exact calls_pure []
  | cons x xs ih =>
    rw [List.mapM_cons]
    exact calls_bind (hk x) fun b => calls_map ih _

end StoreM

namespace Key

def checkedReverse (time : Int64) : Option Int := Operator.sub.run Int64.maxValue.toInt time.toInt

theorem checkedReverse_eq {time : Int64} (h : 0 ≤ time) :
    checkedReverse time = some (reverseTime time).toInt := by
  have hfits := fits64_toInt (reverseTime time)
  rw [toInt_reverseTime h] at hfits ⊢
  exact Operator.run_exact rfl rfl (fits64_toInt _) (fits64_toInt _) hfits

end Key

/-- What the rows of one stem are about. -/
inductive Subject
  | reports (v : View) (ip : Ip)
  | process (agent : String) (pid : Int32)
  | addresses (agent : String)
  | pids (agent : String)

namespace Subject

def column : Subject → Column
  | reports v _ => v.column
  | process .. => SelfView.column
  | addresses _ => AddressRegistry.column
  | pids _ => PidRegistry.column

def stem : Subject → Bytes
  | reports _ ip => Key.ipStem ip
  | process agent pid => Key.processStem agent pid
  | addresses agent => Key.agentStem agent
  | pids agent => Key.agentStem agent

/-- An agent id that is not too long for the key. -/
def Admitted : Subject → Prop
  | reports .. => True
  | process agent _ => agent.utf8ByteSize ≤ maxAgentSize
  | addresses agent => agent.utf8ByteSize < 65536
  | pids agent => agent.utf8ByteSize < 65536

def scan (x : Subject) (range : TimeRange) : Call :=
  .scan x.column.table (x.stem ++ Key.timeBytes range.last) (x.stem ++ Key.timeBytes range.first)

/-- The rows that a scan meets. -/
def rows (x : Subject) (range : TimeRange) (c : Contents) : List Row :=
  c.scan x.column (x.stem ++ Key.timeBytes range.last) (x.stem ++ Key.timeBytes range.first)

/-- Reads the number in the place of the time, which is reversed when the row is read. -/
def readStored : Subject → Reader Int64
  | reports .. => Prod.snd <$> Key.readIpStored
  | process .. => Prod.snd <$> Key.readProcessStored
  | addresses _ => Prod.snd <$> Key.readAgentStored
  | pids _ => Prod.snd <$> Key.readAgentStored

/-- An entry that is read as an observation. The registries hold none. -/
def Reads : Subject → Entry → Observation → Prop
  | reports v _, e, o => e.toView v = .ok o
  | process .., e, o => e.toSelf = .ok o
  | _, _, _ => False

variable {x : Subject} {range : TimeRange} {c : Contents} {row : Row}

theorem key_of_mem_rows (h : row ∈ x.rows range c) : ∃ rest, row.key = x.stem ++ rest ∧
    Bytes.between (Key.timeBytes range.last) (Key.timeBytes range.first) rest := by
  rw [rows, Contents.scan_eq_filter_rows] at h
  exact (Bytes.between_append _ _ _ _).mp (List.mem_filter.mp h).2

/-- The stored number is what follows the stem that was asked for, though a row may name its subject
otherwise. -/
theorem readStored_eq_ok (hx : x.Admitted) {rest : Bytes} {stored : Int64} {last : Cursor}
    (h : x.readStored (Cursor.ofBytes (x.stem ++ rest)) = (.ok stored, last)) :
    rest = Bytes.ofInt64 stored ++ last.rest := by
  cases x with
  | reports v ip =>
    obtain ⟨⟨ip', _⟩, hread, rfl⟩ := Reader.map_eq_ok h
    exact (Key.ipStem_inj (Key.readIpStored_eq_ok hread)).2
  | process agent pid =>
    obtain ⟨⟨_, _⟩, hread, rfl⟩ := Reader.map_eq_ok h
    obtain ⟨stem, hlength, hkey⟩ := Key.readProcessStored_eq_ok hread
    exact (List.append_inj hkey (by rw [hlength]; exact Key.processStem_length hx pid)).2
  | addresses agent | pids agent =>
    obtain ⟨⟨agent', _⟩, hread, rfl⟩ := Reader.map_eq_ok h
    obtain ⟨hsize, hkey⟩ := Key.readAgentStored_eq_ok hread
    exact (Key.agentStem_inj hx hsize hkey).2

theorem checkedReverse_of_mem_rows (hx : x.Admitted) (hrow : row ∈ x.rows range c) {stored : Int64}
    {last : Cursor} (h : x.readStored (Cursor.ofBytes row.key) = (.ok stored, last)) :
    Key.checkedReverse stored = some (Key.reverseTime stored).toInt := by
  obtain ⟨rest, hkey, hbetween⟩ := key_of_mem_rows hrow
  rw [hkey] at h
  rw [readStored_eq_ok hx h] at hbetween
  exact Key.checkedReverse_eq (Key.stored_nonneg hbetween)

theorem covers_of_mem_rows (hx : x.Admitted) (hrow : row ∈ x.rows range c) {cell : Cell}
    {o : Observation} (h : x.Reads ⟨row.key, cell.qualifier, cell.value⟩ o) : range.covers o.time := by
  obtain ⟨rest, hkey, hbetween⟩ := key_of_mem_rows hrow
  -- what follows the stem that was asked for is the time that is read
  suffices htime : rest = Key.timeBytes o.time by rwa [htime, Key.between_timeBytes] at hbetween
  cases x with
  | reports v ip => exact (Key.ipStem_inj (hkey.symm.trans (Entry.toView_eq_ok h).1)).2
  | process agent pid =>
    obtain ⟨stem, hlength, hread⟩ := Key.time_of_readProcessRow (Entry.row_of_toSelf h)
    refine (List.append_inj (hkey.symm.trans hread) ?_).2
    rw [hlength]
    exact Key.processStem_length hx pid
  | addresses agent | pids agent => exact h.elim

end Subject

/-- A scan of one stem over a range. -/
def Call.Covers (range : TimeRange) (call : Call) : Prop :=
  ∃ x : Subject, x.Admitted ∧ call = x.scan range

section Queries

open StoreM

variable {range : TimeRange}

theorem calls_scanRange {x : Subject} {key : Int64 → Except Rejection Bytes}
    (hkey : ∀ time row, key time = .ok row → x.Admitted ∧ row = x.stem ++ Key.timeBytes time) :
    Calls (Call.Covers range) (scanRange x.column key range) := by
  rw [scanRange]
  cases hstart : key range.last with
  | error e => exact calls_throw _
  | ok start =>
    cases hstop : key range.first with
    | error e => exact calls_throw _
    | ok stop =>
      obtain ⟨hx, rfl⟩ := hkey _ _ hstart
      obtain ⟨_, rfl⟩ := hkey _ _ hstop
      exact calls_scan ⟨x, hx, rfl⟩

theorem View.calls_query (v : View) (ip : Ip) : Calls (Call.Covers range) (v.query ip range) := by
  refine calls_map (calls_scanRange (x := .reports v ip) ?_) _
  rintro time row ⟨⟩
  exact ⟨trivial, rfl⟩

theorem SelfView.calls_query (agent : String) (pid : Int32) :
    Calls (Call.Covers range) (SelfView.query agent pid range) :=
  calls_map (calls_scanRange (x := .process agent pid) fun _ _ => Key.processRow_eq_ok.mp) _

theorem AddressRegistry.calls_addresses (agent : String) :
    Calls (Call.Covers range) (AddressRegistry.addresses agent range) :=
  calls_map (calls_map (calls_scanRange (x := .addresses agent) fun _ _ => Key.agentRow_eq_ok.mp) _) _

theorem PidRegistry.calls_pids (agent : String) :
    Calls (Call.Covers range) (PidRegistry.pids agent range) :=
  calls_map (calls_map (calls_scanRange (x := .pids agent) fun _ _ => Key.agentRow_eq_ok.mp) _) _

end Queries

end NetAtlas

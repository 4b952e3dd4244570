import NetAtlas.Proofs.Storage.Cells
import NetAtlas.Proofs.Storage.Registries

set_option autoImplicit false

/-!
# Stored pid sets

The registry of pids holds one set for each agent and slot. Writing a set replaces that of its agent and
slot, whatever it held, and leaves the others; reports that are stored leave them all. A query finds the
sets of its agent with a slot of its range.
-/
namespace NetAtlas

open Std StoreM

namespace Contents

variable (c : Contents)

/-- All pid sets that can be read. -/
def pidSets : List PidSet := readCells PidRegistry.read (c.rows PidRegistry.column)

/-- A pid table that only the registry has written. -/
def PlainPids : Prop := c.Plain PidRegistry.column PidRegistry.qualifier

/-- A pid table without any row. -/
def NoPids : Prop :=
  match c with
  | memory m => m.rows PidRegistry.column = ∅
  | packed p => p.tree PidRegistry.column = ∅

end Contents

theorem Registry.read_eq_ok {α : Type} {name : String} {qualifier : Bytes} {value : Reader α} {e : Entry}
    {agent : String} {time : Int64} {a : α} :
    read name qualifier value e = .ok (agent, time, a) ↔ e.qualifier = qualifier ∧
      Key.readAgentRow.read e.row = .ok (agent, time) ∧ value.read e.value = .ok a := by
  rw [read]
  by_cases hq : e.qualifier = qualifier
  · rw [if_neg (not_not.mpr hq)]
    constructor
    · intro h
      obtain ⟨⟨agent', time'⟩, hrow, h⟩ := except_bind_eq_ok h
      obtain ⟨a', ha, h⟩ := except_bind_eq_ok h
      cases h
      exact ⟨hq, hrow, ha⟩
    · rintro ⟨_, hrow, ha⟩
      rw [hrow]
      change (value.read e.value >>= fun a => pure (agent, time, a)) = _
      rw [ha]
      rfl
  · rw [if_pos hq]
    exact ⟨fun h => (nomatch h), fun h => absurd h.1 hq⟩

namespace PidRegistry

theorem read_eq_ok {e : Entry} {set : PidSet} :
    read e = .ok set ↔ e.qualifier = qualifier ∧
      Key.readAgentRow.read e.row = .ok (set.agent, set.time) ∧
        Reader.pids.read e.value = .ok set.pids := by
  rw [read, ← @Registry.read_eq_ok _ "pid"]
  constructor
  · intro h
    obtain ⟨⟨agent, time, pids⟩, hparts, h⟩ := except_bind_eq_ok h
    cases h
    exact hparts
  · intro h
    rw [h]
    rfl

end PidRegistry

namespace Contents

variable {c c' : Contents}

theorem mem_pidSets {set : PidSet} :
    set ∈ c.pidSets ↔ ∃ row value, Key.agentRow set.agent set.time = .ok row ∧
      c.HasCell PidRegistry.column row PidRegistry.qualifier value ∧
        Reader.pids.read value = .ok set.pids := by
  rw [pidSets, readCells, List.mem_flatMap]
  constructor
  · rintro ⟨row, hrow, hset⟩
    obtain ⟨cell, hcell, hread⟩ := List.mem_filterMap.mp hset
    obtain ⟨hq, hkey, hvalue⟩ := PidRegistry.read_eq_ok.mp (except_toOption_eq_some hread)
    refine ⟨row.key, cell.value, Key.eq_agentRow_of_read hkey, ⟨row, hrow, rfl, ?_⟩, hvalue⟩
    rw [show PidRegistry.qualifier = cell.qualifier from hq.symm]
    exact hcell
  · rintro ⟨_, value, hkey, ⟨row, hrow, rfl, hcell⟩, hvalue⟩
    refine ⟨row, hrow, List.mem_filterMap.mpr ⟨_, hcell, ?_⟩⟩
    rw [PidRegistry.read_eq_ok.mpr ⟨rfl, Key.readAgentRow_agentRow hkey, hvalue⟩]
    rfl

theorem pidSets_of_noPids (h : c.NoPids) : c.pidSets = [] ∧ c.PlainPids := by
  have hrows : c.rows PidRegistry.column = [] := by
    cases c with
    | memory m =>
      rw [rows, show m.rows PidRegistry.column = ∅ from h]
      rfl
    | packed p =>
      rw [rows, show p.tree PidRegistry.column = ∅ from h]
      rfl
  constructor
  · rw [pidSets, hrows]
    rfl
  · cases c with
    | memory m => trivial
    | packed p =>
      intro row hrow
      rw [hrows] at hrow
      exact absurd hrow List.not_mem_nil

/-- A put replaces the set of its agent and slot. -/
theorem mem_pidSets_put {set : PidSet} {row : Bytes}
    (hrow : Key.agentRow set.agent set.time = .ok row)
    (h : c.put PidRegistry.column row PidRegistry.qualifier (PidSet.encode set.pids) = .ok c')
    (hplain : c.PlainPids) (hfits : c.fits (PidSet.encode set.pids)) :
    c'.PlainPids ∧ ∀ other, other ∈ c'.pidSets ↔
      if other.agent = set.agent ∧ other.time = set.time then other.pids = set.pids
      else other ∈ c.pidSets := by
  obtain ⟨hplain', hcells⟩ := hasCell_put h hplain (by decide) hfits
  refine ⟨hplain', fun other => ?_⟩
  rw [mem_pidSets]
  simp only [hcells]
  by_cases hsame : other.agent = set.agent ∧ other.time = set.time
  · rw [if_pos hsame, hsame.1, hsame.2]
    constructor
    · rintro ⟨key, value, hkey, hvalue, hread⟩
      rw [if_pos (Except.ok.inj (hkey.symm.trans hrow))] at hvalue
      rw [hvalue, PidSet.read_encode] at hread
      exact (Except.ok.inj hread).symm
    · intro hpids
      refine ⟨row, PidSet.encode set.pids, hrow, ?_, ?_⟩
      · rw [if_pos rfl]
      · rw [hpids, PidSet.read_encode]
  · rw [if_neg hsame, mem_pidSets]
    apply exists_congr
    intro key
    apply exists_congr
    intro value
    apply and_congr_right
    intro hkey
    have hne : key ≠ row := by
      rintro rfl
      have hboth := (Key.readAgentRow_agentRow hkey).symm.trans (Key.readAgentRow_agentRow hrow)
      exact hsame (Prod.mk.inj (Except.ok.inj hboth))
    rw [if_neg hne]

theorem fits_put {column : Column} {row qualifier value : Bytes}
    (h : c.put column row qualifier value = .ok c') (bytes : Bytes) : c'.fits bytes ↔ c.fits bytes := by
  cases c with
  | memory m =>
    cases h
    exact Iff.rfl
  | packed p =>
    obtain ⟨p', _, rfl⟩ := except_map_eq_ok (except_mapError_eq_ok h)
    exact Iff.rfl

/-- What leaves the pid table as it is. -/
structure KeepsPids (c c' : Contents) : Prop where
  sets : c'.pidSets = c.pidSets
  plain : c.PlainPids → c'.PlainPids
  fits : ∀ bytes, c'.fits bytes ↔ c.fits bytes

theorem KeepsPids.of_eq (h : c' = c) : c.KeepsPids c' := by
  subst h
  exact ⟨rfl, id, fun _ => Iff.rfl⟩

theorem keepsPids_put {column : Column} {row qualifier value : Bytes}
    (h : c.put column row qualifier value = .ok c')
    (hne : column.name ≠ PidRegistry.column.name) : c.KeepsPids c' := by
  have hrows := rows_put_of_ne h hne
  refine ⟨by rw [pidSets, pidSets, hrows], fun hplain => ?_, fits_put h⟩
  cases c with
  | memory m =>
    cases h
    trivial
  | packed p =>
    obtain ⟨p', _, rfl⟩ := except_map_eq_ok (except_mapError_eq_ok h)
    intro other hother
    rw [hrows] at hother
    exact hplain other hother

end Contents

/-- A query finds the stored sets of its agent with slots of its range. -/
theorem PidRegistry.answer_query {agent : String} (h : agent.utf8ByteSize < 65536) (range : TimeRange)
    (c : Contents) : (PidRegistry.query agent range).answer c =
      .ok (c.pidSets.filter fun set => set.agent = agent ∧ range.covers set.time) := by
  have hrow : ∀ e set, read e = .ok set → set.agent.utf8ByteSize < 65536 ∧
      e.row = Key.agentStem set.agent ++ Key.timeBytes set.time := by
    intro e set hset
    exact Key.agentRow_eq_ok.mp (Key.eq_agentRow_of_read (read_eq_ok.mp hset).2.1)
  exact answer_readCells_stem read (fun _ => Key.agentRow_eq_ok.mpr ⟨h, rfl⟩)
    (fun e set hset => (hrow e set hset).2)
    (fun e set hset _ _ => Key.agentStem_inj (hrow e set hset).1 h) c

section Inserts

variable {s s' : Storage} {answer : Except Error Unit}

theorem Registry.insert_eq_ok {column : Column} {qualifier value : Bytes} {agent : String}
    {time : Int64} (h : insert column qualifier agent time value s = (.ok (), s')) :
    ∃ row, Key.agentRow agent time = .ok row ∧
      s.contents.put column row qualifier value = .ok s'.contents := by
  rw [insert] at h
  split at h
  · cases h
  · rw [exceptT_bind_run] at h
    cases hrow : Key.agentRow agent time with
    | error e =>
      rw [hrow] at h
      cases h
    | ok row =>
      rw [hrow] at h
      exact ⟨row, rfl, put_eq_ok h⟩

theorem PidRegistry.insert_eq_ok {set : PidSet} (h : insert set s = (.ok (), s')) :
    ∃ row, Key.agentRow set.agent set.time = .ok row ∧
      s.contents.put column row qualifier (PidSet.encode set.pids) = .ok s'.contents :=
  Registry.insert_eq_ok h

/-- What an agent whose name is not empty and not too long registers reaches its table. -/
theorem Registry.insert_eq_put {column : Column} {qualifier value row : Bytes} {agent : String}
    {time : Int64} (hagent : 0 < agent.utf8ByteSize) (hrow : Key.agentRow agent time = .ok row) :
    insert column qualifier agent time value = StoreM.put column row qualifier value := by
  have hne : ¬ agent.isEmpty := by
    intro hempty
    rw [String.isEmpty_iff.mp hempty] at hagent
    exact Nat.lt_irrefl 0 hagent
  rw [insert, if_neg hne, hrow]
  rfl

theorem Registry.noting_of_insert {column : Column} {qualifier value : Bytes} {agent : String}
    {time : Int64} {e : Error} (h : insert column qualifier agent time value s = (.error e, s')) :
    ∃ made, s' = s.noting made := by
  rw [insert] at h
  split at h
  · cases h
    exact ⟨[], rfl⟩
  · rw [exceptT_bind_run] at h
    cases hrow : Key.agentRow agent time with
    | error e =>
      rw [hrow] at h
      cases h
      exact ⟨[], rfl⟩
    | ok row =>
      rw [hrow] at h
      exact ⟨_, noting_of_put h⟩

theorem PidRegistry.insert_eq_error {set : PidSet} {e : Error} (h : insert set s = (.error e, s')) :
    s'.contents = s.contents := by
  obtain ⟨made, rfl⟩ := Registry.noting_of_insert h
  rfl

theorem keepsPids_of_put {column : Column} {row qualifier value : Bytes}
    (h : put column row qualifier value s = (answer, s'))
    (hne : column.name ≠ PidRegistry.column.name) : s.contents.KeepsPids s'.contents := by
  cases answer with
  | ok u => exact Contents.keepsPids_put (put_eq_ok h) hne
  | error e => exact Contents.KeepsPids.of_eq (put_eq_error h)

/-- Reports are stored in tables of their own. -/
theorem keepsPids_of_insertObservation {o : Observation}
    (h : insertObservation o s = (answer, s')) : s.contents.KeepsPids s'.contents := by
  rw [insertObservation] at h
  cases hv : View.ofDirection? o.direction with
  | some v =>
    rw [hv] at h
    change View.insert v o s = _ at h
    rw [View.insert] at h
    split at h
    · exact keepsPids_of_put h (by cases v <;> decide)
    · cases h
      exact Contents.KeepsPids.of_eq rfl
  | none =>
    rw [hv] at h
    change SelfView.insert o s = _ at h
    rw [SelfView.insert] at h
    split at h
    · exact keepsPids_of_put h (by decide)
    · cases h
      exact Contents.KeepsPids.of_eq rfl

end Inserts

end NetAtlas

import NetAtlas.Proofs.Atlas.Ingestion
import NetAtlas.Proofs.Atlas.LocalLinks
import NetAtlas.Proofs.Collector.Written
import NetAtlas.Proofs.Storage.SelfQueries

set_option autoImplicit false

/-!
# From reports to local links

A local report is stored at the start of a slot; its pid waits in the buffer and is written at the start
of a slot of another length. The links of a host show the report exactly if their range has both: the time
of the report and a time at which its pid was written.
-/
namespace NetAtlas

open Std

namespace Contents

/-- A cell of the self view has the row and the qualifier of an observation and counters of one. -/
def HasLocal (c : Contents) (o : Observation) : Prop :=
  ∃ p, c.HasCell SelfView.column (Entry.ofSelf o).row (Entry.ofSelf o).qualifier (Entry.countersValue p)

section HasLocal

variable {c c' : Contents} {o p : Observation}

theorem fits_countersValue (c : Contents) (o : Observation) : c.fits (Entry.countersValue o) := by
  cases c with
  | memory m => trivial
  | packed p => exact Entry.countersValue_length_lt o

theorem hasLocal_of_write (hd : o.direction = .internal) (h : c.writeObservation o = .ok c') :
    c'.HasLocal o := by
  rw [writeObservation, Observation.cell, hd] at h
  exact ⟨o, hasCell_of_put h (Entry.ofSelf_qualifier_length_lt o) (fits_countersValue c o)⟩

theorem HasLocal.write (hcell : c.HasLocal o) (h : c.writeObservation p = .ok c') : c'.HasLocal o := by
  obtain ⟨last, hcell⟩ := hcell
  rw [writeObservation, Observation.cell] at h
  cases hview : View.ofDirection? p.direction with
  | some v =>
    have hne : v.column.name ≠ SelfView.column.name := by cases v <;> decide
    rw [hview] at h
    exact ⟨last, hcell.put h hne⟩
  | none =>
    rw [hview] at h
    have hlength := Entry.ofSelf_qualifier_length_lt p
    by_cases hrow : (Entry.ofSelf o).row = (Entry.ofSelf p).row
    · rw [HasLocal, hrow]
      rw [hrow] at hcell
      by_cases hq : (Entry.ofSelf o).qualifier = (Entry.ofSelf p).qualifier
      · -- the cell is overwritten with other counters
        rw [hq]
        exact ⟨p, hasCell_of_put h hlength (fits_countersValue c p)⟩
      · exact ⟨last, hcell.put_of_qualifier_ne h hlength (fits_countersValue c p) hq⟩
    · exact ⟨last, hcell.put_of_row_ne h hrow⟩

theorem HasLocal.writePids {sets : List PidSet} (hcell : c.HasLocal o)
    (h : sets.foldlM Contents.writePids c = .ok c') : c'.HasLocal o := by
  induction sets generalizing c with
  | nil =>
    cases h
    exact hcell
  | cons set sets ih =>
    rw [List.foldlM_cons] at h
    obtain ⟨c₁, hwrite, h⟩ := except_bind_eq_ok h
    obtain ⟨row, _, hput⟩ := writePids_eq_ok.mp hwrite
    obtain ⟨last, hcell⟩ := hcell
    exact ih ⟨last, hcell.put hput (by decide)⟩ h

end HasLocal

/-- The pids an agent was seen with in a range, by the sets that can be read. -/
def pids (c : Contents) (agent : String) (range : TimeRange) : PidGroup :=
  ExtTreeSet.ofList ((c.pidSets.filter fun set => set.agent = agent ∧ range.covers set.time).flatMap
    (·.pids.toList))

theorem mem_pids {c : Contents} {agent : String} {range : TimeRange} {pid : Int32} :
    pid ∈ c.pids agent range ↔
      ∃ set ∈ c.pidSets, set.agent = agent ∧ range.covers set.time ∧ pid ∈ set.pids := by
  rw [pids, ExtTreeSet.mem_ofList, List.contains_iff_mem, List.mem_flatMap]
  simp only [List.mem_filter, decide_eq_true_eq, ExtTreeSet.mem_toList, and_assoc]

end Contents

namespace LocalLinks

/-- The link of a local observation: the process that reported it is at both ends. -/
def key (o : Observation) : LinkKey :=
  ⟨⟨o.src, some o.node⟩, ⟨o.dst, some o.node⟩, o.transport, .internal⟩

variable {c : Contents} {o : Observation} {agent : String} {range : TimeRange}

/-- A stored observation is found by the query for its process, with the counters that were stored last. -/
theorem exists_found (h : c.HasLocal o) (hd : o.direction = .internal) (ha : Key.ZeroFree o.agent)
    (ht : range.covers o.time) : ∃ p ∈ SelfView.found c o.agent o.pid range, key p = key o := by
  obtain ⟨last, hcell⟩ := h
  have hpos : 0 ≤ o.time := by
    simp only [TimeRange.covers, decide_eq_true_eq] at ht
    exact Int64.le_trans range.first_nonneg (Int64.le_of_lt ht.1)
  let read : Observation :=
    { o with counters := last.counters, netNs := last.netNs, counters_nonneg := last.counters_nonneg }
  have hread : (Entry.ofSelf read).toSelf = .ok read := Entry.toSelf_ofSelf hd hpos ha
  exact ⟨read, hcell.mem_readCells hread ((SelfView.between_row o.agent_le ha ha).mpr ⟨rfl, rfl, ht⟩), rfl⟩

theorem answer_pids (hle : agent.utf8ByteSize ≤ maxAgentSize) :
    (PidRegistry.pids agent range).answer c = .ok (c.pids agent range) := by
  rw [PidRegistry.pids, StoreM.answer_map (PidRegistry.reading_query agent range),
    PidRegistry.answer_query (Nat.lt_of_le_of_lt hle (by decide))]
  rfl

theorem mem_select (c : Contents) (w : Window) (hle : agent.utf8ByteSize ≤ maxAgentSize) :
    ∃ m, (select w agent).answer c = .ok m ∧ ∀ k, k ∈ m ↔
      ∃ pid ∈ c.pids agent w.range, ∃ o ∈ SelfView.found c agent pid w.range, key o = k := by
  have hanswer : (select w agent).answer c = .ok (LinkMap.ofList
      (((c.pids agent w.range).toList.map fun pid =>
        SelfView.found c agent pid w.range).flatten.map (contribution w))) := by
    rw [answer_select, answer_pids hle]
    change (((c.pids agent w.range).toList.mapM fun pid =>
      (SelfView.query agent pid w.range).answer c) >>= _) = _
    rw [except_mapM_ok fun pid _ => SelfView.answer_query hle c]
    rfl
  refine ⟨_, hanswer, fun k => ?_⟩
  rw [ofList_contributions, LinkMap.mem_ofPostings, List.map_map, List.mem_map]
  simp only [List.mem_flatten, List.mem_map, ExtTreeSet.mem_toList]
  constructor
  · rintro ⟨o, ⟨_, ⟨pid, hpid, rfl⟩, ho⟩, rfl⟩
    exact ⟨pid, hpid, o, ho, rfl⟩
  · rintro ⟨pid, hpid, o, ho, rfl⟩
    exact ⟨o, ⟨_, ⟨pid, hpid, rfl⟩, ho⟩, rfl⟩

end LocalLinks

section Queries

variable {s : Storage} {agent : String}

theorem Query.pids_ok (range : TimeRange) (hs : s.AnswersScans)
    (hle : agent.utf8ByteSize ≤ maxAgentSize) :
    (Query.pids agent range s).1 = .ok (s.contents.pids agent range).toList := by
  have hreading : StoreM.Reading (Query.pids agent range) := StoreM.reading_map (reading_pids _ _) _
  obtain ⟨calls, hquery⟩ := hreading.of_answersScans hs
  rw [hquery, Query.pids, StoreM.answer_map (reading_pids _ _), LocalLinks.answer_pids hle]
  rfl

theorem Query.localLinks_ok (settings : QuerySettings) (range : TimeRange) (hs : s.AnswersScans)
    (hle : agent.utf8ByteSize ≤ maxAgentSize) :
    ∃ links, (Query.localLinks settings.sampler agent range s).1 = .ok links ∧
      ∀ k, (∃ l ∈ links, l.key = k) ↔ ∃ pid ∈ s.contents.pids agent range,
        ∃ o ∈ SelfView.found s.contents agent pid range, LocalLinks.key o = k := by
  obtain ⟨w, hw, rfl⟩ := settings.window_ok range
  obtain ⟨m, hm, hmem⟩ := LocalLinks.mem_select s.contents w hle
  have hselect := LocalLinks.reading_select w agent
  obtain ⟨calls, hquery⟩ := (StoreM.reading_map hselect LinkMap.links).of_answersScans hs
  rw [StoreM.answer_map hselect, hm] at hquery
  refine ⟨m.links, ?_, fun k => ?_⟩
  · rw [Query.localLinks, hw]
    exact congrArg Prod.fst hquery
  · rw [← hmem, LinkMap.exists_mem_links]

end Queries

namespace Collector

/-- A local report that was taken in: it is stored, and its pid waits to be written. -/
structure Pending (o : Observation) (slot : Int64) (c : Collector) : Prop where
  stored : c.storage.contents.HasLocal o
  buffered : o.pid ∈ c.buffer.pids slot o.agent

variable {c c' : Collector} {accepted noted : Int64} {o p : Observation} {slot : Int64}

theorem contents_report (accepted noted : Int64) (p : Observation) (c : Collector) :
    (report accepted noted p c).2.storage.contents = c.storage.contents ∨
      c.storage.contents.writeObservation (p.stamp (slotOf accepted c.settings.observationSlot)) =
        .ok (report accepted noted p c).2.storage.contents := by
  have hcontents :=
    contents_insertObservation (p.stamp (slotOf accepted c.settings.observationSlot)) c.storage
  rw [report_run]
  rcases hinsert : insertObservation (p.stamp (slotOf accepted c.settings.observationSlot)) c.storage with
    ⟨e | u, storage⟩
  · rw [hinsert] at hcontents
    exact hcontents
  · rw [hinsert] at hcontents
    exact hcontents

theorem buffer_report (accepted noted : Int64) (p : Observation) (c : Collector) :
    (report accepted noted p c).2.buffer = c.buffer ∨
      (report accepted noted p c).2.buffer =
        c.buffer.add (slotOf noted c.buffer.slotSize) p.agent {p.pid} := by
  rw [report_run]
  split
  · by_cases hpid : 0 ≤ p.pid
    · rw [if_pos hpid, PidBuffer.increment_eq_add]
      exact Or.inr rfl
    · rw [if_neg hpid]
      exact Or.inl rfl
  · exact Or.inl rfl

theorem Pending.report (h : Pending o slot c) (accepted noted : Int64) (p : Observation) :
    Pending o slot (Collector.report accepted noted p c).2 where
  stored := by
    rcases contents_report accepted noted p c with hsame | hwrite
    · rw [hsame]
      exact h.stored
    · exact h.stored.write hwrite
  buffered := by
    rcases buffer_report accepted noted p c with hsame | hadd
    · rw [hsame]
      exact h.buffered
    · rw [hadd, PidBuffer.mem_pids_add]
      exact Or.inl h.buffered

theorem Pending.reports (h : Pending o slot c) (later : List (Int64 × Int64 × Observation)) :
    Pending o slot (run (later.map fun (accepted, noted, p) => .report accepted noted p) c) := by
  induction later generalizing c with
  | nil => exact h
  | cons r later ih => exact ih (h.report r.1 r.2.1 r.2.2)

theorem pending_of_report (hd : o.direction = .internal) (hpid : 0 ≤ o.pid)
    (h : report accepted noted o c = (.ok (), c')) :
    Pending (o.stamp (slotOf accepted c.settings.observationSlot)) (slotOf noted c.buffer.slotSize) c' := by
  rw [report_run] at h
  rcases hinsert : insertObservation (o.stamp (slotOf accepted c.settings.observationSlot)) c.storage with
    ⟨e | u, storage⟩
  · rw [hinsert] at h
    cases h
  · rw [hinsert] at h
    cases h
    constructor
    · rw [insertObservation_eq_put] at hinsert
      exact Contents.hasLocal_of_write hd (StoreM.put_eq_ok hinsert)
    · rw [if_pos hpid, PidBuffer.increment_eq_add, PidBuffer.mem_pids_add]
      exact Or.inr ⟨rfl, rfl, ExtTreeSet.mem_insert.mpr (Or.inl ReflCmp.compare_self)⟩

theorem flushAllPids_eq_ok {n : Nat} (h : flushAllPids c = (.ok n, c')) :
    c.buffer.drainAll.1.foldlM Contents.writePids c.storage.contents = .ok c'.storage.contents := by
  rw [flushAllPids_run] at h
  rcases hwritten : writeSets c.buffer.drainAll.1 c.withoutAll with ⟨e | u, written⟩
  · rw [hwritten] at h
    cases h
  · rw [hwritten] at h
    cases h
    exact writeSets_eq_ok (c := c.withoutAll) hwritten

/-- A flush of everything writes its pid and leaves it stored. -/
theorem Pending.flush {n : Nat} (h : Pending o slot c) (hflush : flushAllPids c = (.ok n, c'))
    (hfits : c.storage.contents.fits (PidSet.encode (c.buffer.pids slot o.agent))) :
    c'.storage.contents.HasLocal o ∧ ∃ set ∈ c'.storage.contents.pidSets,
      set.agent = o.agent ∧ set.time = slot ∧ o.pid ∈ set.pids := by
  have hwrites := flushAllPids_eq_ok hflush
  refine ⟨h.stored.writePids hwrites, ⟨o.agent, slot, c.buffer.pids slot o.agent⟩, ?_, rfl, rfl,
    h.buffered⟩
  refine Contents.mem_pidSets_of_mem_writes hwrites c.buffer.drainAll_drains.inHand.apart ?_ hfits
  have hbuffered := h.buffered
  rw [PidBuffer.mem_drainAll]
  rw [PidBuffer.pids_eq_held] at hbuffered ⊢
  cases hheld : c.buffer.held slot o.agent with
  | some pids => rfl
  | none =>
    rw [hheld] at hbuffered
    exact absurd hbuffered ExtTreeSet.not_mem_empty

/-- A local report is taken in, other reports may follow, and then everything is flushed. The pids of a
range that has the slot of the pid have the reporting one; and the links of a range that has the time of
the report have the link of the report exactly if the pids of that range have the reporting one. -/
theorem local_links_show_reported (c c₁ c₂ c' : Collector) (accepted noted : Int64) (o : Observation)
    (hd : o.direction = .internal) (hpid : 0 ≤ o.pid) (hagent : Key.ZeroFree o.agent)
    (hreport : report accepted noted o c = (.ok (), c₁)) (later : List (Int64 × Int64 × Observation))
    (hlater : run (later.map fun (accepted, noted, p) => .report accepted noted p) c₁ = c₂)
    (hfits : c₂.storage.contents.fits
      (PidSet.encode (c₂.buffer.pids (slotOf noted c.buffer.slotSize) o.agent)))
    (n : Nat) (hflush : flushAllPids c₂ = (.ok n, c')) (hscans : c'.storage.AnswersScans)
    (settings : QuerySettings) (range : TimeRange)
    (hrange : range.covers (slotOf accepted c.settings.observationSlot)) :
    ∃ pids links, (Query.pids o.agent range c'.storage).1 = .ok pids ∧
      (Query.localLinks settings.sampler o.agent range c'.storage).1 = .ok links ∧
      (range.covers (slotOf noted c.buffer.slotSize) → o.pid ∈ pids) ∧
      ((∃ l ∈ links, l.key = LocalLinks.key o) ↔ o.pid ∈ pids) := by
  have hpending := (pending_of_report hd hpid hreport).reports later
  rw [hlater] at hpending
  obtain ⟨hlocal, set, hset, hsetAgent, hsetTime, hmem⟩ := hpending.flush hflush hfits
  obtain ⟨links, hlinks, hkey⟩ := Query.localLinks_ok settings range hscans o.agent_le
  refine ⟨_, links, Query.pids_ok range hscans o.agent_le, hlinks, fun hslot => ?_, ?_⟩
  · rw [ExtTreeSet.mem_toList, Contents.mem_pids]
    exact ⟨set, hset, hsetAgent, hsetTime ▸ hslot, hmem⟩
  rw [hkey, ExtTreeSet.mem_toList]
  constructor
  · -- a link with the report's node comes from a query for its pid
    rintro ⟨pid, hlisted, p, hp, hsame⟩
    obtain ⟨_, hprocess⟩ := SelfView.process_of_mem_found o.agent_le hagent hp
    have hnode : p.node = o.node := Option.some.inj (congrArg (·.src.node) hsame)
    obtain ⟨_, hpids | ⟨_, hneg⟩⟩ := Observation.pid_of_node_eq hnode
    · rw [← hpids, hprocess]
      exact hlisted
    · exact absurd hneg (Int32.not_lt.mpr hpid)
  · intro hlisted
    obtain ⟨p, hp, hsame⟩ := LocalLinks.exists_found hlocal hd hagent hrange
    exact ⟨o.pid, hlisted, p, hp, hsame⟩

def localReport : Observation :=
  SelfView.report "A" (Sample.sighting 1).agent_pos (Sample.sighting 1).agent_le

/-- Slots of pids are five times as long as those of reports. -/
def longSlots : Settings := { collector := { pidSlot := 300000 } }

def beforeFlush : Collector :=
  (report 460000 460000 localReport (.start longSlots.collector { contents := .memory .empty })).2

def afterFlush : Collector := (flushAllPids beforeFlush).2

theorem report_beforeFlush :
    report 460000 460000 localReport (.start longSlots.collector { contents := .memory .empty }) =
      (.ok (), beforeFlush) := rfl

theorem flush_afterFlush : flushAllPids beforeFlush = (.ok 1, afterFlush) := rfl

theorem local_links_show_reported_from_start :
    localReport.direction = .internal ∧ 0 ≤ localReport.pid ∧ Key.ZeroFree localReport.agent ∧
    report 460000 460000 localReport (.start longSlots.collector { contents := .memory .empty }) =
      (.ok (), beforeFlush) ∧
    beforeFlush.storage.contents.fits (PidSet.encode (beforeFlush.buffer.pids 300000 "A")) ∧
    flushAllPids beforeFlush = (.ok 1, afterFlush) ∧ afterFlush.storage.AnswersScans ∧
    ∃ links, (Query.localLinks ({} : QuerySettings).sampler "A" ⟨0, 500000, by decide, by decide⟩
        afterFlush.storage).1 = .ok links ∧
      ∃ l ∈ links, l.key = LocalLinks.key localReport := by
  have hscans : afterFlush.storage.AnswersScans := fun _ _ _ _ => rfl
  have hagent : Key.ZeroFree localReport.agent := by decide
  obtain ⟨pids, links, _, hlinks, hlisted, hshown⟩ := local_links_show_reported
    (.start longSlots.collector { contents := .memory .empty }) beforeFlush beforeFlush afterFlush 460000
    460000 localReport rfl (by decide) hagent report_beforeFlush [] rfl trivial 1 flush_afterFlush hscans {}
    ⟨0, 500000, by decide, by decide⟩ (by decide +kernel)
  exact ⟨rfl, by decide, hagent, report_beforeFlush, trivial, flush_afterFlush, hscans, links, hlinks,
    hshown.mpr (hlisted (by decide +kernel))⟩

/-- The report is stored at 420000 and its pid at 300000. A range from 400000 on has the report and no
local links. -/
theorem local_report_unseen_between_slots :
    Settings.validate longSlots = .ok () ∧
    report 460000 460000 localReport (.start longSlots.collector { contents := .memory .empty }) =
      (.ok (), beforeFlush) ∧
    flushAllPids beforeFlush = (.ok 1, afterFlush) ∧
    (⟨400000, 500000, by decide, by decide⟩ : TimeRange).covers
      (slotOf 460000 longSlots.collector.observationSlot) ∧
    (Query.localLinks ({} : QuerySettings).sampler "A" ⟨400000, 500000, by decide, by decide⟩
      afterFlush.storage).1 = .ok [] :=
  ⟨by decide +kernel, report_beforeFlush, flush_afterFlush, by decide +kernel, by decide +kernel⟩

end Collector

end NetAtlas

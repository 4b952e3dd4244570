import NetAtlas.Proofs.Storage.Registries
import NetAtlas.Proofs.Storage.ViewQueries

set_option autoImplicit false

/-!
# What the self view answers

A row of the self view begins with an agent id that is padded with zero bytes and is read up to its
first zero byte. So ids without zero bytes are kept apart, and a query finds what the agent's process
inserted last under each identity. An id that ends in a zero byte shares its rows with the id without it,
and what is read of them carries the shorter one.
-/
namespace NetAtlas

open Std

namespace Key

theorem paddedAgent_inj {a b : String} (ha : ZeroFree a) (hb : ZeroFree b)
    (h : paddedAgent a = paddedAgent b) : a = b := by
  apply Utf8.encode_inj
  rw [← takeWhile_paddedAgent ha, h, takeWhile_paddedAgent hb]

theorem processStem_inj {a b : String} {p q : Int32} (hla : a.utf8ByteSize ≤ maxAgentSize)
    (hlb : b.utf8ByteSize ≤ maxAgentSize) (ha : ZeroFree a) (hb : ZeroFree b)
    (h : processStem a p = processStem b q) : a = b ∧ p = q := by
  obtain ⟨hagent, hpid⟩ := List.append_inj h (by rw [paddedAgent_length hla, paddedAgent_length hlb])
  refine ⟨paddedAgent_inj ha hb hagent, ?_⟩
  rw [← Bytes.toInt32_ofInt32 p, hpid, Bytes.toInt32_ofInt32]

theorem zeroFree_of_readProcessRow {row : Bytes} {agent : String} {pid : Int32} {time : Int64}
    (h : readProcessRow.read row = .ok (agent, pid, time)) : ZeroFree agent := by
  obtain ⟨last, hrun⟩ := exceptT_exists_run h
  obtain ⟨read, c₁, hagent, hrun⟩ := Reader.bind_eq_ok hrun
  obtain ⟨_, c₂, _, hrun⟩ := Reader.bind_eq_ok hrun
  obtain ⟨_, c₃, _, hrun⟩ := Reader.bind_eq_ok hrun
  obtain ⟨_, c₄, _, hrun⟩ := Reader.bind_eq_ok hrun
  cases hrun
  obtain ⟨bs, c₅, _, hagent⟩ := Reader.bind_eq_ok hagent
  cases hdecode : Utf8.decode (bs.takeWhile (· ≠ 0)) with
  | error fault =>
    rw [hdecode] at hagent
    cases hagent
  | ok text =>
    rw [hdecode] at hagent
    cases hagent
    -- what was decoded ends before the first zero byte
    intro hzero
    rw [Utf8.encode_of_decode hdecode] at hzero
    simpa using List.all_eq_true.mp List.all_takeWhile 0 hzero

/-- A row that begins with a process is read as one of that process, whatever follows. -/
theorem process_of_readProcessRow {agent name : String} {pid id : Int32} {rest : Bytes} {time : Int64}
    (hle : agent.utf8ByteSize ≤ maxAgentSize) (ha : ZeroFree agent)
    (h : readProcessRow.read (processStem agent pid ++ rest) = .ok (name, id, time)) :
    name = agent ∧ id = pid := by
  rw [Reader.read, Cursor.ofBytes, processStem, List.append_assoc, readProcessRow,
    (reads_agent hle ha).run_bind, (Reader.reads_int32 pid).run_bind] at h
  generalize hcursor : (⟨_, rest⟩ : Cursor) = cursor at h
  obtain ⟨last, hrun⟩ := exceptT_exists_run h
  obtain ⟨_, c₁, _, hrun⟩ := Reader.bind_eq_ok hrun
  obtain ⟨_, c₂, _, hrun⟩ := Reader.bind_eq_ok hrun
  cases hrun
  exact ⟨rfl, rfl⟩

def readProcessStored : Reader ((String × Int32) × Int64) := do
  let agent ← readAgent
  let pid ← Reader.int32
  return ((agent, pid), ← Reader.int64)

theorem readProcessRow_eq :
    readProcessRow = (fun x => (x.1.1, x.1.2, x.2)) <$> readReversed readProcessStored := by
  simp only [readProcessRow, readReversed, readProcessStored, readTime, map_eq_pure_bind, bind_assoc,
    pure_bind]

/-- The stored number lies behind as many bytes as every stem has. -/
theorem readProcessStored_eq_ok {c c' : Cursor} {process : String × Int32} {stored : Int64}
    (h : readProcessStored c = (.ok (process, stored), c')) :
    ∃ stem : Bytes, stem.length = maxAgentSize + 4 ∧
      c.rest = stem ++ (Bytes.ofInt64 stored ++ c'.rest) := by
  obtain ⟨agent, c₁, hagent, h⟩ := Reader.bind_eq_ok h
  obtain ⟨pid, c₂, hpid, h⟩ := Reader.bind_eq_ok h
  obtain ⟨stored', c₃, hstored, h⟩ := Reader.bind_eq_ok h
  cases h
  obtain ⟨padded, c₄, htake, hagent⟩ := Reader.bind_eq_ok hagent
  obtain ⟨number, c₅, htake', hpid⟩ := Reader.bind_eq_ok hpid
  obtain ⟨hpadded, hrow⟩ := Reader.take_eq_ok htake
  obtain ⟨hnumber, hrest⟩ := Reader.take_eq_ok htake'
  cases hpid
  refine ⟨padded ++ number, by simp [hpadded, hnumber], ?_⟩
  rw [← Reader.int64_takes _ _ _ hstored, List.append_assoc, ← hrest]
  cases hdecode : Utf8.decode (padded.takeWhile (· ≠ 0)) with
  | error fault =>
    rw [hdecode] at hagent
    cases hagent
  | ok text =>
    rw [hdecode] at hagent
    cases hagent
    exact hrow

/-- A row that is read as one of a process ends in its time. -/
theorem time_of_readProcessRow {row : Bytes} {agent : String} {pid : Int32} {time : Int64}
    (h : readProcessRow.read row = .ok (agent, pid, time)) :
    ∃ stem : Bytes, stem.length = maxAgentSize + 4 ∧ row = stem ++ timeBytes time := by
  rw [readProcessRow_eq] at h
  obtain ⟨⟨process, time'⟩, hread, hparts⟩ := Reader.read_map_eq_ok h
  cases hparts
  obtain ⟨stored, c, hstored, hrest, hbytes⟩ := readReversed_eq_ok hread
  obtain ⟨stem, hstem, hrow⟩ := readProcessStored_eq_ok hstored
  rw [hrest, List.append_nil, hbytes] at hrow
  exact ⟨stem, hstem, hrow⟩

end Key

theorem Entry.row_of_toSelf {e : Entry} {o : Observation} (h : e.toSelf = .ok o) :
    Key.readProcessRow.read e.row = .ok (o.agent, o.pid, o.time) := by
  obtain ⟨⟨agent, pid, time⟩, hrow, h⟩ := except_bind_eq_ok h
  obtain ⟨q, _, h⟩ := except_bind_eq_ok h
  obtain ⟨⟨counters, netNs⟩, _, h⟩ := except_bind_eq_ok h
  have hbuilt := except_mapError_eq_ok h
  obtain ⟨hagent, _, _, _, htime, _⟩ := Draft.build_eq_ok hbuilt
  rw [hrow, ← show agent = o.agent from hagent, show o.pid = pid from Draft.pid_of_build hbuilt,
    show o.time = time from htime]

theorem Entry.zeroFree_of_toSelf {e : Entry} {o : Observation} (h : e.toSelf = .ok o) :
    Key.ZeroFree o.agent := Key.zeroFree_of_readProcessRow (row_of_toSelf h)

namespace SelfView

/-- Among ids without zero bytes row and qualifier are the identity and nothing else. -/
theorem samePlace_iff {o p : Observation} (ho : Key.ZeroFree o.agent) (hp : Key.ZeroFree p.agent) :
    (Entry.ofSelf o).samePlace (Entry.ofSelf p) ↔ o.identity = p.identity := by
  simp only [Entry.samePlace, decide_eq_true_eq, Observation.identity, Identity.mk.injEq]
  constructor
  · rintro ⟨hrow, hqualifier⟩
    obtain ⟨hstem, htime⟩ := List.append_inj hrow
      (by rw [Key.processStem_length o.agent_le, Key.processStem_length p.agent_le])
    obtain ⟨hagent, hpid⟩ := Key.processStem_inj o.agent_le p.agent_le ho hp hstem
    have hq := Entry.readSelfQualifier_ofSelf o
    rw [hqualifier, Entry.readSelfQualifier_ofSelf p] at hq
    simp only [Except.ok.injEq, Entry.SelfQualifier.mk.injEq, Prod.mk.injEq] at hq
    obtain ⟨htransport, _, ⟨hsrc, hsrcPort⟩, hdst, hdstPort⟩ := hq
    exact ⟨hagent, htransport.symm, Endpoint.eq_of_portNumber hsrc.symm hsrcPort.symm,
      Endpoint.eq_of_portNumber hdst.symm hdstPort.symm, hpid, Key.timeBytes_inj htime⟩
  · rintro ⟨hagent, htransport, hsrc, hdst, hpid, htime⟩
    simp only [Entry.ofSelf, Observation.family, hagent, htransport, hsrc, hdst, hpid, htime, and_self]

def rowStart (agent : String) (pid : Int32) (time : Int64) : Bytes :=
  Key.processStem agent pid ++ Key.timeBytes time

/-- A scan of one process finds that process alone, at the times of the range. -/
theorem between_row {agent : String} {pid : Int32} {range : TimeRange} {o : Observation}
    (hle : agent.utf8ByteSize ≤ maxAgentSize) (ha : Key.ZeroFree agent) (ho : Key.ZeroFree o.agent) :
    Bytes.between (rowStart agent pid range.last) (rowStart agent pid range.first) (Entry.ofSelf o).row ↔
      o.agent = agent ∧ o.pid = pid ∧ range.covers o.time := by
  have hinj : ∀ x y : Bytes, Key.processStem o.agent o.pid ++ x = Key.processStem agent pid ++ y →
      (o.agent, o.pid) = (agent, pid) ∧ x = y := by
    intro x y heq
    obtain ⟨hstem, hrest⟩ := List.append_inj heq
      (by rw [Key.processStem_length o.agent_le, Key.processStem_length hle])
    obtain ⟨hagent, hpid⟩ := Key.processStem_inj o.agent_le hle ho ha hstem
    exact ⟨by rw [hagent, hpid], hrest⟩
  have hbetween := @Key.between_stem _ (fun p : String × Int32 => Key.processStem p.1 p.2)
    (agent, pid) (o.agent, o.pid) range o.time hinj
  rw [Prod.mk.injEq, and_assoc] at hbetween
  exact hbetween

/-- What a query for a process finds after some inserts. -/
structure LastInserted (os : List Observation) (agent : String) (pid : Int32) (range : TimeRange)
    (found : List Observation) : Prop where
  mem_iff : ∀ o, o ∈ found ↔ lastOf (fun x => x.identity = o.identity) os = some o ∧
    o.agent = agent ∧ o.pid = pid ∧ range.covers o.time
  exists_of_mem : ∀ o ∈ os, o.agent = agent → o.pid = pid → range.covers o.time →
    ∃ x ∈ found, x.identity = o.identity
  nodup : (found.map Observation.identity).Nodup

def insertAll (os : List Observation) (s : Storage) : Storage :=
  os.foldl (fun s o => (insert o s).2) s

theorem insertAll_concat (os : List Observation) (o : Observation) (s : Storage) :
    insertAll (os ++ [o]) s = (insert o (insertAll os s)).2 := by
  simp [insertAll]

def write (o : Observation) : Write := ⟨column, Entry.ofSelf o⟩

section Inserts

variable {s : Storage} {ws : List Write} {os : List Observation} {agent : String} {pid : Int32}
  {range : TimeRange} {o : Observation}

theorem fits_write (o : Observation) : (write o).Fits :=
  ⟨Entry.ofSelf_qualifier_length_lt o, Entry.countersValue_length_lt o⟩

theorem insert_eq_put (h : o.direction = .internal) : insert o =
    StoreM.put column (Entry.ofSelf o).row (Entry.ofSelf o).qualifier (Entry.ofSelf o).value := by
  rw [insert, if_pos h]

theorem insert_of_internal (hs : s.Holds ws) (h : o.direction = .internal) :
    ∃ s', insert o s = (.ok (), s') ∧ s'.Holds (ws ++ [write o]) := by
  rw [insert_eq_put h]
  obtain ⟨s', hput, hs'⟩ := hs.put (fits_write o)
  exact ⟨s', hput, hs'⟩

theorem holds_insertAll (hs : s.Holds []) (h : ∀ o ∈ os, o.direction = .internal) :
    (insertAll os s).Holds (os.map write) := by
  induction os using List.reverseRecOn with
  | nil => exact hs
  | append_singleton os o ih =>
    obtain ⟨s', hinsert, hs'⟩ :=
      insert_of_internal (ih fun p hp => h p (by simp [hp])) (h o (by simp))
    rw [insertAll_concat, hinsert, List.map_append]
    exact hs'

def found (c : Contents) (agent : String) (pid : Int32) (range : TimeRange) : List Observation :=
  readCells Entry.toSelf
    (c.scan column (rowStart agent pid range.last) (rowStart agent pid range.first))

theorem answer_query (hle : agent.utf8ByteSize ≤ maxAgentSize) (c : Contents) :
    (query agent pid range).answer c = .ok (found c agent pid range) := by
  have hkey : ∀ time, Key.processRow agent pid time = .ok (rowStart agent pid time) :=
    fun _ => if_neg (Nat.not_lt.mpr hle)
  rw [query, answer_readCells _ (hkey _) (hkey _)]
  rfl

theorem query_run (hs : s.Holds ws) (hle : agent.utf8ByteSize ≤ maxAgentSize) :
    (query agent pid range s).1 = .ok (found s.contents agent pid range) := by
  obtain ⟨calls, hquery⟩ := (reading_selfQuery agent pid range).of_answersScans hs.answersScans
  rw [hquery, answer_query hle]

theorem zeroFree_of_mem_found {c : Contents} (ho : o ∈ found c agent pid range) :
    Key.ZeroFree o.agent := by
  simp only [found, readCells, List.mem_flatMap, List.mem_filterMap] at ho
  obtain ⟨row, _, cell, _, hread⟩ := ho
  exact Entry.zeroFree_of_toSelf (except_toOption_eq_some hread)

/-- The row of what a query finds begins with the stem of the scan and goes on within its bounds. -/
theorem row_of_mem_found {c : Contents} (ho : o ∈ found c agent pid range) :
    ∃ rest : Bytes, Bytes.between (Key.timeBytes range.last) (Key.timeBytes range.first) rest ∧
      Key.readProcessRow.read (Key.processStem agent pid ++ rest) = .ok (o.agent, o.pid, o.time) := by
  rw [found, Contents.scan_eq_filter_rows] at ho
  obtain ⟨row, hrow, ho⟩ := List.mem_flatMap.mp ho
  obtain ⟨cell, _, hread⟩ := List.mem_filterMap.mp ho
  have hbetween := (List.mem_filter.mp hrow).2
  rw [rowStart, rowStart, Bytes.between_append] at hbetween
  obtain ⟨rest, hkey, hrest⟩ := hbetween
  have hprocess := Entry.row_of_toSelf (except_toOption_eq_some hread)
  rw [show row.key = _ from hkey] at hprocess
  exact ⟨rest, hrest, hprocess⟩

/-- Whatever the rows look like, a query finds observations of its process alone. -/
theorem process_of_mem_found {c : Contents} (hle : agent.utf8ByteSize ≤ maxAgentSize)
    (ha : Key.ZeroFree agent) (ho : o ∈ found c agent pid range) : o.agent = agent ∧ o.pid = pid := by
  obtain ⟨rest, _, hread⟩ := row_of_mem_found ho
  exact Key.process_of_readProcessRow hle ha hread

/-- And at the times of its range alone: the stem of the scan is as long as that of any row, so what
follows it is the time. -/
theorem covers_of_mem_found {c : Contents} (hle : agent.utf8ByteSize ≤ maxAgentSize)
    (ho : o ∈ found c agent pid range) : range.covers o.time := by
  obtain ⟨rest, hrest, hread⟩ := row_of_mem_found ho
  obtain ⟨stem, hstem, hrow⟩ := Key.time_of_readProcessRow hread
  obtain ⟨_, rfl⟩ := List.append_inj hrow (by rw [Key.processStem_length hle, hstem])
  exact Key.between_timeBytes.mp hrest

theorem agent_le_of_answer {c : Contents} {os : List Observation}
    (h : (query agent pid range).answer c = .ok os) : agent.utf8ByteSize ≤ maxAgentSize := by
  apply Nat.le_of_not_lt
  intro hlt
  have hkey : ∀ time, Key.processRow agent pid time = .error (.agentTooLong agent) :=
    fun _ => if_pos hlt
  rw [query, StoreM.answer_map (reading_scanRange _ _ _), scanRange, hkey] at h
  cases h

theorem covers_of_answer {c : Contents} {os : List Observation}
    (h : (query agent pid range).answer c = .ok os) (ho : o ∈ os) : range.covers o.time := by
  have hle := agent_le_of_answer h
  rw [answer_query hle] at h
  cases h
  exact covers_of_mem_found hle ho

/-- Observations that are read back as they were inserted. -/
def Sound (o : Observation) : Prop := o.direction = .internal ∧ 0 ≤ o.time ∧ Key.ZeroFree o.agent

theorem toSelf_of_sound (hos : ∀ o ∈ os, Sound o) : ∀ o ∈ os, (Entry.ofSelf o).toSelf = .ok o :=
  fun o ho => Entry.toSelf_ofSelf (hos o ho).1 (hos o ho).2.1 (hos o ho).2.2

theorem filter_writes (os : List Observation) :
    (os.map write).filter (·.column = column) = os.map fun o => ⟨column, Entry.ofSelf o⟩ := by
  simp [List.filter_map, write, Function.comp_def]

theorem lastOf_samePlace (hos : ∀ o ∈ os, Sound o) (ho : Key.ZeroFree o.agent) :
    lastOf (fun x => (Entry.ofSelf x).samePlace (Entry.ofSelf o)) os =
      lastOf (fun x => x.identity = o.identity) os := by
  apply lastOf_congr
  intro x hx
  rw [Bool.eq_iff_iff, samePlace_iff (hos x hx).2.2 ho, decide_eq_true_iff]

section Sound

variable (hs : s.Holds (os.map write)) (hos : ∀ o ∈ os, Sound o)

include hs hos

theorem found_ascends : (found s.contents agent pid range).Pairwise
    fun a b => (Entry.ofSelf a).Before (Entry.ofSelf b) := by
  rw [found, hs.2.readCells_scan (toSelf_of_sound hos) (filter_writes os)]
  exact (hs.2.records_ascend (toSelf_of_sound hos) (filter_writes os)).filter _

variable (hle : agent.utf8ByteSize ≤ maxAgentSize) (ha : Key.ZeroFree agent)

include hle ha

theorem mem_found : o ∈ found s.contents agent pid range ↔
    lastOf (fun x => x.identity = o.identity) os = some o ∧
      o.agent = agent ∧ o.pid = pid ∧ range.covers o.time := by
  rw [found, hs.2.readCells_scan (toSelf_of_sound hos) (filter_writes os), List.mem_filter,
    hs.2.mem_records (toSelf_of_sound hos) (filter_writes os)]
  by_cases ho : Key.ZeroFree o.agent
  · rw [lastOf_samePlace hos ho, between_row hle ha ho]
  · -- such an observation is not among those inserted
    constructor
    · intro h
      exact absurd (hos o (mem_of_lastOf h.1).1).2.2 ho
    · intro h
      exact absurd (hos o (mem_of_lastOf h.1).1).2.2 ho

theorem lastInserted_found (pid : Int32) (range : TimeRange) :
    LastInserted os agent pid range (found s.contents agent pid range) := by
  have hmem : ∀ o, o ∈ found s.contents agent pid range ↔ _ :=
    fun o => mem_found hs hos hle ha
  refine ⟨hmem, ?_, ?_⟩
  · intro o ho hagent hpid hcovers
    obtain ⟨x, hx, hid⟩ := exists_lastOf_identity ho
    refine ⟨x, (hmem x).mpr ⟨hx, ?_, ?_, ?_⟩, hid⟩
    · exact (congrArg Identity.agent hid).trans hagent
    · exact (congrArg Identity.pid hid).trans hpid
    · rw [show x.time = o.time from congrArg Identity.time hid]
      exact hcovers
  · rw [List.Nodup, List.pairwise_map]
    apply (found_ascends hs hos).imp_of_mem
    intro a b hma hmb hab hid
    have hza := zeroFree_of_mem_found hma
    have hzb := zeroFree_of_mem_found hmb
    exact hab.not_samePlace ((samePlace_iff hza hzb).mpr hid)

theorem query_concat_sound (pid : Int32) (range : TimeRange) (ho : Sound o) (hne : o.agent ≠ agent) :
    (insert o s).1 = .ok () ∧
      (query agent pid range (insert o s).2).1 = (query agent pid range s).1 := by
  obtain ⟨s', hinsert, hs'⟩ := insert_of_internal hs ho.1
  have hs'' : s'.Holds ((os ++ [o]).map write) := by
    rw [List.map_append]
    exact hs'
  have hos' : ∀ p ∈ os ++ [o], Sound p :=
    List.forall_mem_append.mpr ⟨hos, List.forall_mem_singleton.mpr ho⟩
  rw [hinsert]
  refine ⟨rfl, ?_⟩
  rw [query_run hs hle, query_run hs'' hle]
  have hasymm : Std.Asymm fun a b : Observation => (Entry.ofSelf a).Before (Entry.ofSelf b) :=
    ⟨fun _ _ => Entry.Before.asymm⟩
  apply congrArg Except.ok
  apply (found_ascends hs'' hos').eq_of_mem_iff (found_ascends hs hos)
  intro p
  rw [mem_found hs hos hle ha, mem_found hs'' hos' hle ha, lastOf_concat]
  split
  · next hid =>
    have hagent : o.agent = p.agent := congrArg Identity.agent (of_decide_eq_true hid)
    have hpagent : p.agent ≠ agent := hagent ▸ hne
    simp [hpagent]
  · rfl

end Sound

end Inserts

/-- No insert of an agent changes what a query for another agent finds, and each query finds the
observations that its process inserted last under their identities, with any of these agent ids that
an observation can have. -/
def Isolates (ids : String → Prop) : Prop :=
  ∀ c ∈ [Contents.memory .empty, Contents.packed .empty], ∀ os : List Observation,
    (∀ o ∈ os, o.direction = .internal ∧ 0 ≤ o.time ∧ ids o.agent) →
    ∀ agent, ids agent → 0 < agent.utf8ByteSize → agent.utf8ByteSize ≤ maxAgentSize →
    ∀ pid range, ∃ found,
      (query agent pid range (insertAll os { contents := c })).1 = .ok found ∧
      LastInserted os agent pid range found ∧
      ∀ o, o.direction = .internal → 0 ≤ o.time → ids o.agent → o.agent ≠ agent →
        (insert o (insertAll os { contents := c })).1 = .ok () ∧
        (query agent pid range (insert o (insertAll os { contents := c })).2).1 = .ok found

def report (agent : String) (hpos : 0 < agent.utf8ByteSize)
    (hle : agent.utf8ByteSize ≤ maxAgentSize) : Observation where
  agent
  pid := 1
  transport := .tcp
  direction := .internal
  src := ⟨⟨.v4, [127, 0, 0, 1], rfl⟩, 41000, by decide⟩
  dst := ⟨⟨.v4, [127, 0, 0, 1], rfl⟩, 8100, by decide⟩
  netNs := 0
  counters := { sent := 1 }
  time := 10000
  agent_pos := hpos
  agent_le := hle
  same_family := rfl
  counters_nonneg := by decide

def reportRange : TimeRange := ⟨9999, 10000, by decide, by decide⟩

/-- The self view keeps agents apart exactly if no id has a zero byte. -/
theorem isolates_iff_zeroFree (ids : String → Prop) :
    Isolates ids ↔ ∀ agent, ids agent → 0 < agent.utf8ByteSize → agent.utf8ByteSize ≤ maxAgentSize →
      Key.ZeroFree agent := by
  constructor
  · -- an agent that is kept apart finds its own report, and what is found has no zero byte
    intro h agent hid hpos hle
    have hs := Storage.holds_of_empty (c := .memory .empty) (by simp)
    have hinternal : ∀ o ∈ [report agent hpos hle], o.direction = .internal := by simp [report]
    have hinserted := holds_insertAll hs hinternal
    obtain ⟨found, hquery, hlast, _⟩ := h (.memory .empty) (by simp) [report agent hpos hle]
      (by simpa [report] using hid) agent hid hpos hle 1 reportRange
    have hmem : report agent hpos hle ∈ found := by
      rw [hlast.mem_iff]
      refine ⟨by simp [lastOf], rfl, rfl, ?_⟩
      change TimeRange.covers reportRange 10000
      decide
    rw [query_run hinserted hle] at hquery
    cases hquery
    exact zeroFree_of_mem_found hmem
  · intro h c hc os hos agent hid hpos hle pid range
    have hempty := Storage.holds_of_empty hc
    have hsound : ∀ o ∈ os, Sound o := fun o ho =>
      ⟨(hos o ho).1, (hos o ho).2.1, h o.agent (hos o ho).2.2 o.agent_pos o.agent_le⟩
    have ha := h agent hid hpos hle
    have hs := holds_insertAll hempty fun o ho => (hos o ho).1
    refine ⟨_, query_run hs hle, lastInserted_found hs hsound hle ha pid range,
      fun o hd htime hoid hne => ?_⟩
    rw [← query_run hs hle]
    exact query_concat_sound hs hsound hle ha pid range
      ⟨hd, htime, h o.agent hoid o.agent_pos o.agent_le⟩ hne

/-- A query for the agent A finds what was inserted by an agent whose id is an A and a zero byte. -/
theorem isolates_fails_on_zero_byte : ¬ Isolates fun _ => True := by
  intro h
  obtain ⟨found, hquery, _, hkept⟩ := h (.memory .empty) (by simp) [] (by simp) "A" trivial
    (by decide) (by decide) 1 reportRange
  have hafter := (hkept (report "A\x00" (by decide) (by decide)) rfl (by decide) trivial
    (by decide)).2
  have hnone : (query "A" 1 reportRange (insertAll [] { contents := .memory .empty })).1 = .ok [] := by
    decide +kernel
  have hone : (query "A" 1 reportRange (insert (report "A\x00" (by decide) (by decide))
      (insertAll [] { contents := .memory .empty })).2).1 =
        .ok [report "A" (by decide) (by decide)] := by
    decide +kernel
  rw [hnone] at hquery
  cases hquery
  rw [hone] at hafter
  cases hafter

end SelfView

end NetAtlas

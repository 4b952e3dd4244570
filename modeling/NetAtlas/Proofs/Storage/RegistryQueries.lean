import NetAtlas.Proofs.Storage.Records
import NetAtlas.Proofs.Storage.Stored

set_option autoImplicit false

/-!
# What the registries answer

A row of a registry is an agent and a time, so a registry has one set of each agent and time: the one
registered last. A query answers those of its agent with times of its range, newest first. The length of
an id stands in front of it, so agents are told apart even if one id begins with another.
-/
namespace NetAtlas

open Std

/-- A registry: how the sets of one kind are stored and read back. -/
structure Register (α : Type) where
  column : Column
  qualifier : Bytes
  agent : α → String
  time : α → Int64
  value : α → Bytes
  read : Entry → Except Corruption α
  qualifier_fits : qualifier.length < Bytes.room 4
  read_stored : ∀ a row, Key.agentRow (agent a) (time a) = .ok row →
    read ⟨row, qualifier, value a⟩ = .ok a

def AddressRegistry.register : Register AddressSet where
  column := column
  qualifier := qualifier
  agent := AddressSet.agent
  time := AddressSet.time
  value set := AddressSet.encode set.addresses
  read := read
  qualifier_fits := by decide
  read_stored set _ h := read_stored h set.addresses

def PidRegistry.register : Register PidSet where
  column := column
  qualifier := qualifier
  agent := PidSet.agent
  time := PidSet.time
  value set := PidSet.encode set.pids
  read := read
  qualifier_fits := by decide
  read_stored set _ h := read_eq_ok.mpr ⟨rfl, Key.readAgentRow_agentRow h, PidSet.read_encode set.pids⟩

namespace Register

/-- The ids that agents can register under. -/
def Admits (agent : String) : Prop := 0 < agent.utf8ByteSize ∧ agent.utf8ByteSize < 65536

instance (agent : String) : Decidable (Admits agent) := inferInstanceAs (Decidable (_ ∧ _))

variable {α : Type} (R : Register α)

def insert (a : α) : StoreM Unit :=
  Registry.insert R.column R.qualifier (R.agent a) (R.time a) (R.value a)

def query (agent : String) (range : TimeRange) : StoreM (List α) := do
  return readCells R.read (← scanRange R.column (Key.agentRow agent) range)

def entry (a : α) : Entry :=
  ⟨Key.agentStem (R.agent a) ++ Key.timeBytes (R.time a), R.qualifier, R.value a⟩

def write (a : α) : Write := ⟨R.column, R.entry a⟩

def sameSlot (a b : α) : Bool := R.agent b = R.agent a ∧ R.time b = R.time a

/-- What a query for an agent finds after some sets were registered. -/
structure LastRegistered (sets : List α) (agent : String) (range : TimeRange) (found : List α) :
    Prop where
  mem_iff : ∀ a, a ∈ found ↔
    lastOf (R.sameSlot a) sets = some a ∧ R.agent a = agent ∧ range.covers (R.time a)
  exists_of_mem : ∀ a ∈ sets, R.agent a = agent → range.covers (R.time a) →
    ∃ b ∈ found, R.time b = R.time a
  newest_first : found.Pairwise fun a b => R.time b < R.time a

variable {R}

theorem sameSlot_iff {a b : α} : R.sameSlot a b ↔ R.agent b = R.agent a ∧ R.time b = R.time a :=
  decide_eq_true_iff

theorem LastRegistered.unique {sets : List α} {agent : String} {range : TimeRange}
    {found found' : List α} (h : R.LastRegistered sets agent range found)
    (h' : R.LastRegistered sets agent range found') : found = found' := by
  have hasymm : Std.Asymm fun a b : α => R.time b < R.time a := ⟨fun _ _ => Int64.lt_asymm⟩
  -- both are sorted by their times, so their members determine them
  exact h.newest_first.eq_of_mem_iff h'.newest_first fun a => (h.mem_iff a).trans (h'.mem_iff a).symm

/-- The sets of the other agents have no part in it. -/
theorem LastRegistered.of_filter {sets : List α} {agent : String} {range : TimeRange} {found : List α}
    {wanted : α → Bool} (hwanted : ∀ a, R.agent a = agent → wanted a)
    (h : R.LastRegistered (sets.filter wanted) agent range found) :
    R.LastRegistered sets agent range found where
  mem_iff a := by
    rw [h.mem_iff]
    apply and_congr_left
    rintro ⟨hagent, _⟩
    rw [lastOf_filter fun b hb => hwanted b ((sameSlot_iff.mp hb).1.trans hagent)]
  exists_of_mem a ha hagent := h.exists_of_mem a (List.mem_filter.mpr ⟨ha, hwanted a hagent⟩) hagent
  newest_first := h.newest_first

theorem samePlace_iff {a b : α} (ha : Admits (R.agent a)) (hb : Admits (R.agent b)) :
    (R.entry b).samePlace (R.entry a) ↔ R.sameSlot a b := by
  rw [sameSlot_iff]
  simp only [Entry.samePlace, decide_eq_true_eq, entry, and_true]
  constructor
  · intro hrow
    obtain ⟨hagent, htime⟩ := Key.agentStem_inj hb.2 ha.2 hrow
    exact ⟨hagent, Key.timeBytes_inj htime⟩
  · rintro ⟨hagent, htime⟩
    rw [hagent, htime]

theorem read_entry {a : α} (ha : Admits (R.agent a)) : R.read (R.entry a) = .ok a :=
  R.read_stored a _ (Key.agentRow_eq_ok.mpr ⟨ha.2, rfl⟩)

theorem insert_of_admits {a : α} (ha : Admits (R.agent a)) :
    R.insert a = StoreM.put R.column (R.entry a).row (R.entry a).qualifier (R.entry a).value :=
  Registry.insert_eq_put ha.1 (Key.agentRow_eq_ok.mpr ⟨ha.2, rfl⟩)

theorem insert_of_not_admits {a : α} (ha : ¬ Admits (R.agent a)) (s : Storage) :
    ∃ e, R.insert a s = (.error e, s) := by
  rw [insert, Registry.insert]
  split
  · exact ⟨_, rfl⟩
  · next hempty =>
    have hpos : 0 < (R.agent a).utf8ByteSize := by
      apply Nat.pos_of_ne_zero
      intro hzero
      exact hempty (String.isEmpty_iff.mpr (String.utf8ByteSize_eq_zero_iff.mp hzero))
    rw [Key.agentRow, Field.encodeText, if_neg fun hlt => ha ⟨hpos, hlt⟩]
    exact ⟨_, rfl⟩

theorem insert_run (R : Register α) {s : Storage} {ws : List Write} {a : α} (hs : s.Holds ws)
    (ha : Admits (R.agent a)) (hfits : s.contents.fits (R.value a)) :
    ∃ s', R.insert a s = (.ok (), s') ∧ s'.Holds (ws ++ [R.write a]) ∧
      ∀ bytes, s'.contents.fits bytes ↔ s.contents.fits bytes := by
  rw [insert_of_admits ha]
  obtain ⟨s', hput, hs'⟩ := hs.put_of_fits (w := R.write a) R.qualifier_fits hfits
  exact ⟨s', hput, hs', Contents.fits_put (StoreM.put_eq_ok hput)⟩

section Found

variable {s : Storage} {ws : List Write} {sets : List α} {agent : String} {range : TimeRange}

variable (R) in
def found (c : Contents) (agent : String) (range : TimeRange) : List α :=
  readCells R.read (c.scan R.column (Key.agentStem agent ++ Key.timeBytes range.last)
    (Key.agentStem agent ++ Key.timeBytes range.first))

theorem query_run (hs : s.Holds ws) (hagent : agent.utf8ByteSize < 65536) :
    (R.query agent range s).1 = .ok (R.found s.contents agent range) := by
  have hreading : StoreM.Reading (R.query agent range) := reading_readCells _ _ _ _
  have hkey : ∀ time, Key.agentRow agent time = .ok (Key.agentStem agent ++ Key.timeBytes time) :=
    fun _ => Key.agentRow_eq_ok.mpr ⟨hagent, rfl⟩
  obtain ⟨calls, hquery⟩ := hreading.of_answersScans hs.answersScans
  rw [hquery, query, answer_readCells _ (hkey _) (hkey _)]
  rfl

theorem lastOf_samePlace (hsets : ∀ a ∈ sets, Admits (R.agent a)) {a : α} (ha : Admits (R.agent a)) :
    lastOf (fun b => (R.entry b).samePlace (R.entry a)) sets = lastOf (R.sameSlot a) sets :=
  lastOf_congr fun b hb => Bool.eq_iff_iff.mpr (samePlace_iff ha (hsets b hb))

theorem lastOf_sameSlot {a b : α} (h : R.sameSlot a b) :
    lastOf (R.sameSlot b) sets = lastOf (R.sameSlot a) sets := by
  obtain ⟨hagent, htime⟩ := sameSlot_iff.mp h
  congr 1
  funext x
  rw [sameSlot, sameSlot, hagent, htime]

section Sets

variable (hs : s.Holds ws) (hsets : ∀ a ∈ sets, Admits (R.agent a))
  (hws : ws.filter (·.column = R.column) = sets.map fun a => ⟨R.column, R.entry a⟩)
  (hagent : agent.utf8ByteSize < 65536)

include hs hsets hws hagent

theorem mem_found {a : α} : a ∈ R.found s.contents agent range ↔
    lastOf (R.sameSlot a) sets = some a ∧ R.agent a = agent ∧ range.covers (R.time a) := by
  have hread : ∀ a ∈ sets, R.read (R.entry a) = .ok a := fun a ha => read_entry (hsets a ha)
  rw [found, hs.2.readCells_scan hread hws, List.mem_filter, hs.2.mem_records hread hws]
  by_cases ha : Admits (R.agent a)
  · rw [lastOf_samePlace hsets ha]
    exact and_congr_right fun _ => Key.between_agentRow hagent ha.2
  · -- such a set is not among those registered
    constructor
    · intro h
      exact absurd (hsets a (mem_of_lastOf h.1).1) ha
    · intro h
      exact absurd (hsets a (mem_of_lastOf h.1).1) ha

theorem found_newest_first :
    (R.found s.contents agent range).Pairwise fun a b => R.time b < R.time a := by
  have hread : ∀ a ∈ sets, R.read (R.entry a) = .ok a := fun a ha => read_entry (hsets a ha)
  have hbefore : (R.found s.contents agent range).Pairwise fun a b => (R.entry a).Before (R.entry b) := by
    rw [found, hs.2.readCells_scan hread hws]
    exact (hs.2.records_ascend hread hws).filter _
  apply hbefore.imp_of_mem
  intro a b ha hb hab
  obtain ⟨_, ha, _⟩ := (mem_found hs hsets hws hagent).mp ha
  obtain ⟨_, hb, _⟩ := (mem_found hs hsets hws hagent).mp hb
  -- the rows begin alike and end with the times, later ones first
  rcases hab with hlt | ⟨_, hlt⟩
  · rw [entry, entry, ha, hb, Bytes.compare_append, Key.compare_timeBytes] at hlt
    exact hlt
  · simp [entry, ReflCmp.compare_self] at hlt

theorem lastRegistered_found (range : TimeRange) :
    R.LastRegistered sets agent range (R.found s.contents agent range) where
  mem_iff _ := mem_found hs hsets hws hagent
  exists_of_mem a ha hname hcovers := by
    obtain ⟨b, hb⟩ := exists_lastOf ha (p := R.sameSlot a) (sameSlot_iff.mpr ⟨rfl, rfl⟩)
    have hslot := (mem_of_lastOf hb).2
    obtain ⟨hbagent, hbtime⟩ := sameSlot_iff.mp hslot
    refine ⟨b, (mem_found hs hsets hws hagent).mpr ⟨?_, hbagent.trans hname, ?_⟩, hbtime⟩
    · rw [lastOf_sameSlot hslot, hb]
    · rw [hbtime]
      exact hcovers
  newest_first := found_newest_first hs hsets hws hagent

end Sets

end Found

end Register

/-- A set on its way into the registry of its kind. -/
inductive Registration
  | addresses (set : AddressSet)
  | pids (set : PidSet)

namespace Registration

open Register

def agent : Registration → String
  | addresses set => set.agent
  | pids set => set.agent

def value : Registration → Bytes
  | addresses set => AddressSet.encode set.addresses
  | pids set => PidSet.encode set.pids

def insert : Registration → StoreM Unit
  | addresses set => AddressRegistry.insert set
  | pids set => PidRegistry.insert set

def write : Registration → Write
  | addresses set => AddressRegistry.register.write set
  | pids set => PidRegistry.register.write set

def addressSet? : Registration → Option AddressSet
  | addresses set => some set
  | pids _ => none

def pidSet? : Registration → Option PidSet
  | addresses _ => none
  | pids set => some set

/-- The storage after some registrations; those that are refused are passed over. -/
def insertAll (rs : List Registration) (s : Storage) : Storage := rs.foldl (fun s r => (r.insert s).2) s

theorem insertAll_concat (rs : List Registration) (r : Registration) (s : Storage) :
    insertAll (rs ++ [r]) s = (r.insert (insertAll rs s)).2 := by
  rw [insertAll, List.foldl_append]
  rfl

section Runs

variable {s : Storage} {ws : List Write} {r : Registration} {rs : List Registration}

theorem insert_of_admits (hs : s.Holds ws) (hfits : s.contents.fits r.value) (h : Admits r.agent) :
    ∃ s', r.insert s = (.ok (), s') ∧ s'.Holds (ws ++ [r.write]) ∧
      ∀ bytes, s'.contents.fits bytes ↔ s.contents.fits bytes := by
  cases r with
  | addresses set => exact AddressRegistry.register.insert_run hs h hfits
  | pids set => exact PidRegistry.register.insert_run hs h hfits

theorem insert_of_not_admits (h : ¬ Admits r.agent) (s : Storage) : ∃ e, r.insert s = (.error e, s) := by
  cases r with
  | addresses set => exact Register.insert_of_not_admits (R := AddressRegistry.register) h s
  | pids set => exact Register.insert_of_not_admits (R := PidRegistry.register) h s

def admitted (rs : List Registration) : List Registration := rs.filter fun r => Admits r.agent

theorem holds_insertAll (hs : s.Holds []) (hfits : ∀ r ∈ rs, s.contents.fits r.value) :
    (insertAll rs s).Holds ((admitted rs).map write) ∧
      ∀ bytes, (insertAll rs s).contents.fits bytes ↔ s.contents.fits bytes := by
  induction rs using List.reverseRecOn with
  | nil => exact ⟨hs, fun _ => Iff.rfl⟩
  | append_singleton rs r ih =>
    obtain ⟨hheld, hsame⟩ := ih fun x hx => hfits x (List.mem_append_left _ hx)
    rw [insertAll_concat, admitted, List.filter_append, List.map_append, List.filter_singleton]
    by_cases h : Admits r.agent
    · have hvalue := (hsame _).mpr (hfits r List.mem_concat_self)
      obtain ⟨s', hinsert, hs', hkept⟩ := insert_of_admits hheld hvalue h
      rw [decide_eq_true h, hinsert]
      exact ⟨hs', fun bytes => (hkept bytes).trans (hsame bytes)⟩
    · -- what is refused changes nothing
      obtain ⟨e, hinsert⟩ := insert_of_not_admits h (insertAll rs s)
      rw [decide_eq_false h, hinsert]
      exact ⟨by simpa [admitted] using hheld, hsame⟩

end Runs

/-- The registrations of one kind are those that its register stores. -/
structure Picks {α : Type} (pick : Registration → Option α) (R : Register α) : Prop where
  write_eq : ∀ r, (pick r).map R.write = if r.write.column = R.column then some r.write else none
  agent_eq : ∀ r a, pick r = some a → R.agent a = r.agent

theorem addressSet?_picks : Picks addressSet? AddressRegistry.register where
  write_eq r := by
    cases r with
    | addresses set => rfl
    | pids set => rfl
  agent_eq r set h := by
    cases r with
    | addresses other =>
      cases h
      rfl
    | pids other => cases h

theorem pidSet?_picks : Picks pidSet? PidRegistry.register where
  write_eq r := by
    cases r with
    | addresses set => rfl
    | pids set => rfl
  agent_eq r set h := by
    cases r with
    | addresses other => cases h
    | pids other =>
      cases h
      rfl

section Picks

variable {α : Type} {pick : Registration → Option α} {R : Register α} (h : Picks pick R)
  {s : Storage} {rs : List Registration} {agent : String}

include h

theorem Picks.filterMap_filter (rs : List Registration) (p : String → Bool) :
    (rs.filter fun r => p r.agent).filterMap pick = (rs.filterMap pick).filter fun a => p (R.agent a) := by
  rw [List.filterMap_filter, List.filter_filterMap]
  congr 1
  funext r
  cases hr : pick r with
  | none => simp
  | some a => rw [Option.filter_some, h.agent_eq r a hr]

theorem Picks.filter_writes (rs : List Registration) :
    (rs.map write).filter (·.column = R.column) =
      (rs.filterMap pick).map fun a => ⟨R.column, R.entry a⟩ := by
  rw [List.map_filterMap, ← List.filterMap_eq_filter, List.filterMap_map]
  congr 1
  funext r
  have hwrite := h.write_eq r
  simp only [Function.comp_apply, Option.guard, decide_eq_true_eq]
  exact hwrite.symm

theorem Picks.query_run (hs : s.Holds []) (hfits : ∀ r ∈ rs, s.contents.fits r.value)
    (hagent : Admits agent) (range : TimeRange) :
    ∃ found, (R.query agent range (insertAll rs s)).1 = .ok found ∧
      R.LastRegistered (rs.filterMap pick) agent range found := by
  have hheld := (holds_insertAll hs hfits).1
  have hsets : ∀ a ∈ (admitted rs).filterMap pick, Admits (R.agent a) := by
    intro a ha
    rw [admitted, h.filterMap_filter rs fun agent => Admits agent] at ha
    exact of_decide_eq_true (List.mem_filter.mp ha).2
  -- the registry holds the admitted ones only, and the agent's own are all admitted
  have hfound := lastRegistered_found hheld hsets (h.filter_writes _) hagent.2 range
  rw [admitted, h.filterMap_filter rs fun agent => Admits agent] at hfound
  exact ⟨_, Register.query_run hheld hagent.2,
    hfound.of_filter fun a ha => decide_eq_true (ha ▸ hagent)⟩

/-- The answer is the same if only the query's agent has registered anything. -/
theorem Picks.query_own (hs : s.Holds []) (hfits : ∀ r ∈ rs, s.contents.fits r.value)
    (hagent : Admits agent) (range : TimeRange) :
    ∃ found, (R.query agent range (insertAll rs s)).1 = .ok found ∧
      R.LastRegistered (rs.filterMap pick) agent range found ∧
      (R.query agent range (insertAll (rs.filter (·.agent = agent)) s)).1 = .ok found := by
  obtain ⟨found, hquery, hfound⟩ := h.query_run hs hfits hagent range
  have hfitsOwn : ∀ r ∈ rs.filter (·.agent = agent), s.contents.fits r.value :=
    fun r hr => hfits r (List.mem_filter.mp hr).1
  obtain ⟨own, hown, hlast⟩ := h.query_run hs hfitsOwn hagent range
  rw [h.filterMap_filter rs (· = agent)] at hlast
  refine ⟨found, hquery, hfound, ?_⟩
  rw [hown, (hlast.of_filter fun a => decide_eq_true).unique hfound]

end Picks

/-- After any registrations, in memory or packed, a query finds one set of its agent for each time of its
range that one was registered at: the last, newest first. Registrations of other agents change no answer,
and every set is taken that has an id of a registry's length and fits into the storage. -/
theorem queries_find_last_registered (rs : List Registration) (agent : String) (hagent : Admits agent)
    (range : TimeRange) :
    ∀ c ∈ [Contents.memory .empty, Contents.packed .empty], (∀ r ∈ rs, c.fits r.value) →
      (∃ found, (AddressRegistry.query agent range (insertAll rs { contents := c })).1 = .ok found ∧
        AddressRegistry.register.LastRegistered (rs.filterMap addressSet?) agent range found ∧
        (AddressRegistry.query agent range
          (insertAll (rs.filter (·.agent = agent)) { contents := c })).1 = .ok found) ∧
      (∃ found, (PidRegistry.query agent range (insertAll rs { contents := c })).1 = .ok found ∧
        PidRegistry.register.LastRegistered (rs.filterMap pidSet?) agent range found ∧
        (PidRegistry.query agent range
          (insertAll (rs.filter (·.agent = agent)) { contents := c })).1 = .ok found) ∧
      ∀ r : Registration, Admits r.agent → c.fits r.value →
        (r.insert (insertAll rs { contents := c })).1 = .ok () := by
  intro c hc hfits
  have hempty := Storage.holds_of_empty hc
  refine ⟨addressSet?_picks.query_own hempty hfits hagent range,
    pidSet?_picks.query_own hempty hfits hagent range, fun r hadmits hvalue => ?_⟩
  obtain ⟨hheld, hsame⟩ := holds_insertAll hempty hfits
  obtain ⟨s', hinsert, _⟩ := insert_of_admits hheld ((hsame r.value).mpr hvalue) hadmits
  rw [hinsert]

/-- Sets of an agent are replaced, by one of both families and by an empty one; the ids of the others begin
with its own. -/
def sample : List Registration :=
  [.addresses ⟨"a", 2000, [⟨.v4, [10, 0, 7, 1], rfl⟩]⟩,
    .pids ⟨"a", 1000, .ofList [(7 : Int32), -3]⟩,
    .pids ⟨"a", 2000, .ofList [(9 : Int32)]⟩,
    .addresses ⟨"ab", 2000, []⟩,
    .pids ⟨"a\x00", 2000, .ofList [(4 : Int32)]⟩,
    .addresses ⟨"a", 2000, [⟨.v6, List.replicate 16 1, rfl⟩, ⟨.v4, [10, 0, 7, 2], rfl⟩]⟩,
    .pids ⟨"a", 2000, ∅⟩]

def sampleRange : TimeRange := ⟨1000, 2000, by decide, by decide⟩

theorem queries_find_last_registered_of_prefix :
    Admits "a" ∧ (∀ r ∈ sample, (Contents.memory .empty).fits r.value) ∧
    (AddressRegistry.query "a" sampleRange (insertAll sample { contents := .memory .empty })).1 =
      .ok [⟨"a", 2000, [⟨.v6, List.replicate 16 1, rfl⟩, ⟨.v4, [10, 0, 7, 2], rfl⟩]⟩] ∧
    (PidRegistry.query "a" sampleRange (insertAll sample { contents := .memory .empty })).1 =
      .ok [⟨"a", 2000, ∅⟩] := by
  have hagent : Admits "a" := by decide
  have hfits : ∀ r ∈ sample, (Contents.memory .empty).fits r.value := fun _ _ => trivial
  obtain ⟨⟨sets, hsets, _, hownSets⟩, ⟨pids, hpids, _, hownPids⟩, _⟩ :=
    queries_find_last_registered sample "a" hagent sampleRange (.memory .empty) (by simp) hfits
  refine ⟨hagent, hfits, hsets.trans ?_, hpids.trans ?_⟩
  · rw [← hownSets]
    decide +kernel
  · rw [← hownPids]
    decide +kernel

end Registration

end NetAtlas

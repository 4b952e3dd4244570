import NetAtlas.Proofs.Collector.Flushes

set_option autoImplicit false

/-!
# Runs of a collector

A collector takes turns: it takes a report in, flushes what is ready, flushes everything, or is replaced
by a new one after such a flush. The events of its turns are a history of pids, and that history tells
what its buffer holds and what the registry has stored, even if some of the puts fail.
-/
namespace NetAtlas

open Std

namespace Collector

/-- The sets that a history stores fit into cells. -/
def Fits (initial : Contents) (es : List PidEvent) : Prop :=
  ∀ now timed set, .put now timed set true ∈ es → initial.fits (PidSet.encode set.pids)

/-- The buffer holds what is not stored yet, and the registry has the sets that were stored last beside
those it had initially. -/
structure Told (initial : Contents) (es : List PidEvent) (c : Collector) : Prop where
  faithful : History.Faithful es
  held : ∀ slot agent, c.buffer.held slot agent = History.unstored es slot agent
  slotSize : c.buffer.slotSize = c.settings.pidSlot
  delay : c.buffer.delay = c.settings.pidFlushDelay
  fits : ∀ bytes, c.storage.contents.fits bytes ↔ initial.fits bytes
  stored : Fits initial es → c.storage.contents.PlainPids ∧
    ∀ set, set ∈ c.storage.contents.pidSets ↔
      History.latest es set.time set.agent = some set.pids ∨
        History.latest es set.time set.agent = none ∧ set ∈ initial.pidSets

/-- A collector to whose buffer some sets come back. -/
def holding (sets : List PidSet) (c : Collector) : Collector :=
  { c with buffer := c.buffer.restore sets }

section Told

variable {initial : Contents} {es : List PidEvent} {c : Collector}

theorem Fits.append_left {fs : List PidEvent} (h : Fits initial (es ++ fs)) : Fits initial es :=
  fun now timed set hput => h now timed set (List.mem_append_left _ hput)

theorem told_start (settings : CollectorSettings) {storage : Storage}
    (h : storage.contents.PlainPids) : Told storage.contents [] (start settings storage) where
  faithful := History.faithful_nil
  held := PidBuffer.held_of_no_slots rfl
  slotSize := rfl
  delay := rfl
  fits _ := Iff.rfl
  stored _ := ⟨h, fun _ => ⟨fun hset => Or.inr ⟨rfl, hset⟩, fun hset =>
    hset.elim (fun hlatest => nomatch hlatest) And.right⟩⟩

theorem Told.keep {c' : Collector} (h : Told initial es c) (halike : c.Alike c')
    (hheld : ∀ slot agent, c'.buffer.held slot agent = c.buffer.held slot agent)
    (hkeeps : c.storage.contents.KeepsPids c'.storage.contents) : Told initial es c' where
  faithful := h.faithful
  held slot agent := (hheld slot agent).trans (h.held slot agent)
  slotSize := by rw [halike.slotSize, halike.settings, h.slotSize]
  delay := by rw [halike.delay, halike.settings, h.delay]
  fits bytes := (hkeeps.fits bytes).trans (h.fits bytes)
  stored hfits := by
    obtain ⟨hplain, hsets⟩ := h.stored hfits
    rw [hkeeps.sets]
    exact ⟨hkeeps.plain hplain, hsets⟩

section Puts

variable {set : PidSet} (now : Int64) (timed : Bool)

/-- A put that fails leaves its set unstored. -/
theorem Told.concat_failed (h : Told initial es c)
    (hput : History.unstored es set.time set.agent = some set.pids) :
    Told initial (es ++ [.put now timed set false]) c where
  faithful := h.faithful.concat fun _ _ _ _ hsame => by
    cases hsame
    exact hput
  held slot agent := by
    rw [h.held, History.unstored_concat, PidEvent.unstoredAfter,
      if_neg fun hkey => Bool.false_ne_true hkey.1]
  slotSize := h.slotSize
  delay := h.delay
  fits := h.fits
  stored hfits := by
    obtain ⟨hplain, hsets⟩ := h.stored hfits.append_left
    refine ⟨hplain, fun other => ?_⟩
    rw [hsets, History.latest_concat, PidEvent.latestAfter,
      if_neg fun hkey => Bool.false_ne_true hkey.1]

/-- A put that succeeds stores its set in the place of the one before. -/
theorem Told.concat_stored {buffer : PidBuffer} (h : Told initial es c)
    (hput : History.unstored es set.time set.agent = some set.pids) (hwrites : c.writes set)
    (hheld : ∀ slot agent, buffer.held slot agent =
      if set.time = slot ∧ set.agent = agent then none else c.buffer.held slot agent)
    (halike : c.Alike { c with buffer }) :
    Told initial (es ++ [.put now timed set true]) { c.afterPut set with buffer } := by
  obtain ⟨row, hrow, hcontents⟩ := PidRegistry.insert_eq_ok (insert_of_writes hwrites)
  have hkind := fun bytes => (Contents.fits_put hcontents bytes).trans (h.fits bytes)
  refine ⟨h.faithful.concat ?_, fun slot agent => ?_, halike.slotSize.trans h.slotSize,
    halike.delay.trans h.delay, hkind, fun hfits => ?_⟩
  · rintro _ _ _ _ ⟨⟩
    exact hput
  · rw [hheld, h.held, History.unstored_concat, PidEvent.unstoredAfter]
    exact if_congr (and_iff_right rfl).symm rfl rfl
  · obtain ⟨hplain, hsets⟩ := h.stored hfits.append_left
    have hfit := (h.fits _).mpr (hfits now timed set (List.mem_concat_self))
    obtain ⟨hplain', hsets'⟩ := Contents.mem_pidSets_put hrow hcontents hplain hfit
    refine ⟨hplain', fun other => ?_⟩
    rw [hsets', hsets, History.latest_concat, PidEvent.latestAfter]
    by_cases hsame : set.time = other.time ∧ set.agent = other.agent
    · rw [if_pos ⟨hsame.2.symm, hsame.1.symm⟩, if_pos ⟨rfl, hsame⟩]
      constructor
      · intro hpids
        exact Or.inl (congrArg some hpids.symm)
      · rintro (hpids | ⟨hnone, _⟩)
        · exact (Option.some.inj hpids).symm
        · cases hnone
    · rw [if_neg fun hs => hsame ⟨hs.2.symm, hs.1.symm⟩, if_neg fun hs => hsame hs.2]

/-- The sets in hand are written up to the first put that fails. -/
theorem Told.write {sets : List PidSet} (h : Told initial es (c.holding sets))
    (hand : c.buffer.InHand sets) :
    Told initial (es ++ writing now timed sets c) (writeSets sets c).2 := by
  -- the sets in hand count as held: each put that succeeds takes its set out of both
  induction sets generalizing es c with
  | nil =>
    rw [writing, List.append_nil]
    exact h
  | cons set sets ih =>
    have hput : History.unstored es set.time set.agent = some set.pids := by
      rw [← h.held]
      exact hand.held_restore_head
    rw [writing]
    by_cases hw : c.writes set
    · rw [writeSets_of_writes hw, if_pos hw, hw, ← List.singleton_append, ← List.append_assoc]
      have halike := (alike_restore (set :: sets) c).symm.trans (alike_restore sets c)
      exact ih (h.concat_stored now timed hput hw hand.held_restore_cons halike) hand.tail
    · obtain ⟨e, he⟩ := writeSets_of_not_writes hw sets
      obtain ⟨_, hinsert⟩ := insert_of_not_writes hw
      have hcontents := PidRegistry.insert_eq_error hinsert
      rw [he, if_neg hw, Bool.eq_false_iff.mpr hw]
      exact (h.concat_failed now timed hput).keep ⟨rfl, rfl, rfl⟩ (fun _ _ => rfl)
        (Contents.KeepsPids.of_eq hcontents)

theorem Told.drain {sets : List PidSet} {buffer : PidBuffer} (h : Told initial es c)
    (hdrains : c.buffer.Drains sets buffer) :
    Told initial es (holding sets { c with buffer }) := by
  have hback := alike_restore sets { c with buffer }
  refine h.keep ?_ hdrains.held (Contents.KeepsPids.of_eq rfl)
  exact ⟨rfl, hback.slotSize.trans hdrains.slotSize, hback.delay.trans hdrains.delay⟩

theorem Told.flush {fuel : Nat} (h : Told initial es c) :
    Told initial (es ++ flushing now fuel c) (flushReady now fuel c).2 := by
  induction fuel generalizing es c with
  | zero =>
    rw [flushing, List.append_nil]
    exact h
  | succ fuel ih =>
    have hdrains := (c.buffer.drainReady_drains now).1
    have hafter : Told initial (es ++ writing now true (c.readySets now) (c.withoutReady now))
        (c.afterReady now) := (h.drain hdrains).write now true hdrains.inHand
    rw [flushReady_succ, flushing, ← List.append_assoc]
    split
    · exact ih hafter
    · rw [List.append_nil]
      exact hafter

theorem Told.flushAll (h : Told initial es c) :
    Told initial (es ++ emptying now c) (flushAllPids c).2 := by
  have hdrains := c.buffer.drainAll_drains
  rw [flushAllPids_run]
  exact (h.drain hdrains).write now false hdrains.inHand

end Puts

theorem Told.concat_seen (h : Told initial es c) (now : Int64) (agent : String) (pid : Int32) :
    Told initial (es ++ [.seen now agent (slotOf now c.settings.pidSlot) pid])
      { c with buffer := c.buffer.increment now agent pid } where
  faithful := h.faithful.concat fun _ _ _ _ hsame => nomatch hsame
  held slot other := by
    rw [PidBuffer.increment_eq_add, PidBuffer.held_add, h.slotSize, h.held, History.unstored_concat]
    rfl
  slotSize := by
    rw [PidBuffer.increment_eq_add]
    exact h.slotSize
  delay := by
    rw [PidBuffer.increment_eq_add]
    exact h.delay
  fits := h.fits
  stored hfits := by
    obtain ⟨hplain, hsets⟩ := h.stored hfits.append_left
    refine ⟨hplain, fun other => ?_⟩
    rw [hsets, History.latest_concat]
    rfl

theorem Told.report (h : Told initial es c) (accepted noted : Int64) (o : Observation) :
    Told initial (es ++ reporting accepted noted o c) (Collector.report accepted noted o c).2 := by
  rw [reporting, report_run]
  rcases hinsert : insertObservation (o.stamp (slotOf accepted c.settings.observationSlot)) c.storage
    with ⟨answer, storage⟩
  have hkeep : Told initial es { c with storage } :=
    h.keep ⟨rfl, rfl, rfl⟩ (fun _ _ => rfl) (keepsPids_of_insertObservation hinsert)
  cases answer with
  | error e =>
    change Told initial (es ++ ite (false = true ∧ 0 ≤ o.pid) _ []) { c with storage }
    rw [if_neg fun hok => Bool.false_ne_true hok.1, List.append_nil]
    exact hkeep
  | ok u =>
    by_cases hpid : 0 ≤ o.pid
    · rw [if_pos ⟨rfl, hpid⟩, if_pos hpid]
      exact hkeep.concat_seen noted o.agent o.pid
    · rw [if_neg fun hok => hpid hok.2, if_neg hpid, List.append_nil]
      exact hkeep

/-- A new collector goes on where one with an empty buffer ends. -/
theorem Told.renew (h : Told initial es c) (settings : CollectorSettings)
    (hempty : c.buffer.slots = ∅) : Told initial es (start settings c.storage) where
  faithful := h.faithful
  held slot agent := by
    rw [← h.held, PidBuffer.held_of_no_slots hempty]
    exact PidBuffer.held_of_no_slots rfl slot agent
  slotSize := rfl
  delay := rfl
  fits := h.fits
  stored := h.stored

end Told

/-! ### Turns -/

/-- What a collector is asked to do, with the clock reading at that time. For a report the clock is read
when it is accepted, and again when its pid is noted. -/
inductive Turn
  | report (accepted noted : Int64) (o : Observation)
  | flush (now : Int64)
  | flushAll (now : Int64)
  | restart (now : Int64) (settings : CollectorSettings)

namespace Turn

/-- The reading that tells the slot of a pid, or whether a slot is ready. -/
def now : Turn → Int64
  | report _ noted _ => noted
  | flush now => now
  | flushAll now => now
  | restart now _ => now

/-- A collector is replaced once it has written everything. -/
def act : Turn → CollectM Unit
  | report accepted noted o => Collector.report accepted noted o
  | flush now => discard (flushPids now)
  | flushAll _ => discard flushAllPids
  | restart _ settings => do
    discard flushAllPids
    modify fun c => start settings c.storage

def after (t : Turn) (c : Collector) : Collector := (t.act c).2

def events (c : Collector) : Turn → List PidEvent
  | report accepted noted o => reporting accepted noted o c
  | flush now => flushing now c.buffer.size c
  | flushAll now => emptying now c
  | restart now _ => emptying now c

end Turn

/-- A turn sees the pid of its report, or it puts sets. -/
theorem mem_events {t : Turn} {c : Collector} {e : PidEvent} (h : e ∈ t.events c) :
    (∃ accepted noted o, t = .report accepted noted o ∧ (Collector.report accepted noted o c).1.isOk ∧
      0 ≤ o.pid ∧ e = .seen noted o.agent (slotOf noted c.settings.pidSlot) o.pid) ∨
    ∃ timed set stored, (∀ accepted noted o, t ≠ .report accepted noted o) ∧
      e = .put t.now timed set stored := by
  cases t with
  | report accepted noted o =>
    change e ∈ reporting accepted noted o c at h
    rw [reporting] at h
    split at h
    · next hok => exact Or.inl ⟨accepted, noted, o, rfl, hok.1, hok.2, List.mem_singleton.mp h⟩
    · cases h
  | flush now =>
    obtain ⟨set, stored, he, _⟩ := mem_flushing h
    exact Or.inr ⟨true, set, stored, by rintro _ _ _ ⟨⟩, he⟩
  | flushAll now =>
    obtain ⟨set, _, stored, he⟩ := mem_writing h
    exact Or.inr ⟨false, set, stored, by rintro _ _ _ ⟨⟩, he⟩
  | restart now settings =>
    obtain ⟨set, _, stored, he⟩ := mem_writing h
    exact Or.inr ⟨false, set, stored, by rintro _ _ _ ⟨⟩, he⟩

theorem now_of_mem_events {t : Turn} {c : Collector} {e : PidEvent} (h : e ∈ t.events c) :
    e.now = t.now := by
  rcases mem_events h with ⟨accepted, noted, o, rfl, _, _, rfl⟩ | ⟨timed, set, stored, _, rfl⟩
  · rfl
  · rfl

theorem not_sees_of_not_report {t : Turn} {c : Collector}
    (h : ∀ accepted noted o, t ≠ .report accepted noted o) :
    ∀ e ∈ t.events c, ∀ slot agent, ¬ e.sees slot agent := by
  intro e he slot agent
  rcases mem_events he with ⟨accepted, noted, o, ht, _⟩ | ⟨timed, set, stored, _, rfl⟩
  · exact absurd ht (h accepted noted o)
  · exact Bool.false_ne_true

def run (ts : List Turn) (c : Collector) : Collector := ts.foldl (fun c t => t.after c) c

/-- The events of some turns. -/
def trace : List Turn → Collector → List PidEvent
  | [], _ => []
  | t :: ts, c => t.events c ++ trace ts (t.after c)

theorem run_append (ts us : List Turn) (c : Collector) : run (ts ++ us) c = run us (run ts c) :=
  List.foldl_append

theorem trace_append (ts us : List Turn) (c : Collector) :
    trace (ts ++ us) c = trace ts c ++ trace us (run ts c) := by
  induction ts generalizing c with
  | nil => rfl
  | cons t ts ih =>
    rw [List.cons_append, trace, ih, trace, List.append_assoc]
    rfl

theorem trace_flushAll (ts : List Turn) (now : Int64) (c : Collector) :
    trace (ts ++ [.flushAll now]) c = trace ts c ++ emptying now (run ts c) := by
  rw [trace_append, trace, trace, List.append_nil]
  rfl

theorem exists_of_mem_trace {ts : List Turn} {c : Collector} {e : PidEvent} (h : e ∈ trace ts c) :
    ∃ us t vs, ts = us ++ t :: vs ∧ e ∈ t.events (run us c) := by
  induction ts generalizing c with
  | nil => cases h
  | cons t ts ih =>
    rcases List.mem_append.mp h with h | h
    · exact ⟨[], t, ts, rfl, h⟩
    · obtain ⟨us, u, vs, rfl, hu⟩ := ih h
      exact ⟨t :: us, u, vs, rfl, hu⟩

/-- The pids that are seen are those of the accepted reports. -/
theorem mem_accepted_trace {ts : List Turn} {c : Collector} {slot : Int64} {agent : String}
    {pid : Int32} : pid ∈ History.accepted (trace ts c) slot agent ↔
      ∃ us accepted noted o vs, ts = us ++ .report accepted noted o :: vs ∧
        (report accepted noted o (run us c)).1.isOk ∧ 0 ≤ o.pid ∧
        slotOf noted (run us c).settings.pidSlot = slot ∧ o.agent = agent ∧ o.pid = pid := by
  rw [History.mem_accepted]
  constructor
  · rintro ⟨e, he, hpid⟩
    obtain ⟨us, t, vs, rfl, ht⟩ := exists_of_mem_trace he
    rcases mem_events ht with ⟨accepted, noted, o, rfl, hok, hnonneg, rfl⟩ | ⟨_, _, _, _, rfl⟩
    · obtain ⟨⟨hslot, hagent⟩, hsame⟩ := Option.ite_none_right_eq_some.mp hpid
      exact ⟨us, accepted, noted, o, vs, rfl, hok, hnonneg, hslot, hagent, Option.some.inj hsame⟩
    · cases hpid
  · rintro ⟨us, accepted, noted, o, vs, rfl, hok, hpid, rfl, rfl, rfl⟩
    refine ⟨.seen noted o.agent (slotOf noted (run us c).settings.pidSlot) o.pid, ?_,
      if_pos ⟨rfl, rfl⟩⟩
    rw [trace_append]
    apply List.mem_append_right
    apply List.mem_append_left
    change _ ∈ reporting accepted noted o (run us c)
    rw [reporting, if_pos ⟨hok, hpid⟩]
    exact List.mem_singleton.mpr rfl

theorem discard_run {α : Type} (m : CollectM α) (c : Collector) :
    (discard m c : Except Error Unit × Collector) = ((m c).1.map fun _ => (), (m c).2) := by
  change (m >>= fun _ => pure ()) c = _
  rw [exceptT_bind_run]
  rcases m c with ⟨e | a, c'⟩ <;> rfl

theorem Told.turn {initial : Contents} {es : List PidEvent} {c : Collector} (h : Told initial es c)
    (t : Turn) : Told initial (es ++ t.events c) (t.after c) := by
  cases t with
  | report accepted noted o => exact h.report accepted noted o
  | flush now =>
    rw [Turn.after, Turn.act, discard_run]
    exact h.flush now
  | flushAll now =>
    rw [Turn.after, Turn.act, discard_run]
    exact h.flushAll now
  | restart now settings =>
    -- only a flush that has emptied the buffer is followed by a new collector
    rw [Turn.after, Turn.act, exceptT_bind_run, discard_run]
    have hflush := h.flushAll now
    have hslots := slots_flushAllPids (c := c)
    rcases hrun : flushAllPids c with ⟨e | n, c'⟩
    · rw [hrun] at hflush
      exact hflush
    · rw [hrun] at hflush hslots
      exact hflush.renew settings (hslots rfl)

/-- What the events of a run tell of the collector after it. -/
theorem Told.run {initial : Contents} {es : List PidEvent} {c : Collector} (h : Told initial es c)
    (ts : List Turn) : Told initial (es ++ trace ts c) (run ts c) := by
  induction ts generalizing es c with
  | nil =>
    rw [trace, List.append_nil]
    exact h
  | cons t ts ih =>
    rw [trace, ← List.append_assoc]
    exact ih (h.turn t)

theorem told_run (settings : CollectorSettings) {storage : Storage} (h : storage.contents.PlainPids)
    (ts : List Turn) : Told storage.contents (trace ts (start settings storage))
      (run ts (start settings storage)) :=
  (told_start settings h).run ts

theorem Told.pids_eq {initial : Contents} {es : List PidEvent} {c : Collector} (h : Told initial es c)
    (slot : Int64) (agent : String) :
    c.buffer.pids slot agent = (History.unstored es slot agent).getD ∅ := by
  rw [PidBuffer.pids_eq_held, h.held]

end Collector

namespace Sample

/-- A process of one agent is seen with a connection. -/
def sighting (pid : Int32) : Observation where
  agent := "A"
  pid
  transport := .tcp
  direction := .outgoing
  src := ⟨⟨.v4, [10, 0, 7, 1], by decide⟩, 40700, by decide⟩
  dst := ⟨⟨.v4, [10, 0, 7, 2], by decide⟩, 8070, by decide⟩
  netNs := 0
  counters := {}
  time := 0
  agent_pos := by decide
  agent_le := by decide
  same_family := rfl
  counters_nonneg := by decide

/-- A new collector over a storage with nothing in it. -/
def collector (outage : Outage) : Collector := .start {} { contents := .memory .empty, outage }

end Sample

end NetAtlas

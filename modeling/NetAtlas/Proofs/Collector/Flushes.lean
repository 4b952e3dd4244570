import NetAtlas.Collector.Basic
import NetAtlas.Proofs.Collector.Events
import NetAtlas.Proofs.Storage.PidSets

set_option autoImplicit false

/-!
# Reports and flushes as events

A report is an event if it is stored and has a pid. A flush is one event for each set it puts, up to the
first one that fails. A flush of what is ready puts slots that are ready and no others.
-/
namespace NetAtlas

open Std

namespace Collector

def writes (set : PidSet) (c : Collector) : Bool := (PidRegistry.insert set c.storage).1.isOk

def afterPut (set : PidSet) (c : Collector) : Collector :=
  { c with storage := (PidRegistry.insert set c.storage).2 }

theorem writeSets_cons (set : PidSet) (sets : List PidSet) (c : Collector) :
    writeSets (set :: sets) c = match PidRegistry.insert set c.storage with
      | (.ok _, storage) => writeSets sets { c with storage }
      | (.error e, storage) =>
        (.error e, { c with storage, buffer := c.buffer.restore (set :: sets) }) := by
  rw [writeSets, exceptT_bind_run, exceptT_tryCatch_run, stored]
  rcases PidRegistry.insert set c.storage with ⟨e | u, storage⟩ <;> rfl

theorem insert_of_writes {set : PidSet} {c : Collector} (h : c.writes set) :
    PidRegistry.insert set c.storage = (.ok (), (c.afterPut set).storage) := by
  rw [afterPut]
  rw [writes] at h
  rcases hput : PidRegistry.insert set c.storage with ⟨e | u, storage⟩
  · rw [hput] at h
    cases h
  · rfl

theorem insert_of_not_writes {set : PidSet} {c : Collector} (h : ¬ c.writes set) :
    ∃ e, PidRegistry.insert set c.storage = (.error e, (c.afterPut set).storage) := by
  rw [afterPut]
  rw [writes] at h
  rcases hput : PidRegistry.insert set c.storage with ⟨e | u, storage⟩
  · exact ⟨e, rfl⟩
  · rw [hput] at h
    exact absurd rfl h

theorem writeSets_of_writes {set : PidSet} {c : Collector} (h : c.writes set) (sets : List PidSet) :
    writeSets (set :: sets) c = writeSets sets (c.afterPut set) := by
  rw [writeSets_cons, insert_of_writes h]
  rfl

/-- Sets that cannot be written come back. -/
theorem writeSets_of_not_writes {set : PidSet} {c : Collector} (h : ¬ c.writes set)
    (sets : List PidSet) : ∃ e, writeSets (set :: sets) c =
      (.error e, { c.afterPut set with buffer := c.buffer.restore (set :: sets) }) := by
  obtain ⟨e, he⟩ := insert_of_not_writes h
  refine ⟨e, ?_⟩
  rw [writeSets_cons, he]
  rfl

/-- Whatever fails, writing changes the store and gives back the sets from the first that was not written. -/
theorem exists_restored (sets : List PidSet) (c : Collector) : ∃ storage back, back <:+ sets ∧
    (writeSets sets c).2 = { c with storage, buffer := c.buffer.restore back } := by
  induction sets generalizing c with
  | nil => exact ⟨c.storage, [], List.suffix_rfl, rfl⟩
  | cons set sets ih =>
    by_cases h : c.writes set
    · obtain ⟨storage, back, hback, hrest⟩ := ih (c.afterPut set)
      rw [writeSets_of_writes h]
      exact ⟨storage, back, hback.trans (List.suffix_cons set sets), hrest⟩
    · obtain ⟨e, he⟩ := writeSets_of_not_writes h sets
      exact ⟨_, set :: sets, List.suffix_rfl, congrArg Prod.snd he⟩

/-- The puts by which sets are written. -/
def writing (now : Int64) (timed : Bool) : List PidSet → Collector → List PidEvent
  | [], _ => []
  | set :: sets, c => .put now timed set (c.writes set) ::
    if c.writes set then writing now timed sets (c.afterPut set) else []

def readySets (now : Int64) (c : Collector) : List PidSet := (c.buffer.drainReady now).1

def withoutReady (now : Int64) (c : Collector) : Collector :=
  { c with buffer := (c.buffer.drainReady now).2 }

/-- The collector after it has written the oldest slot, if that is ready. -/
def afterReady (now : Int64) (c : Collector) : Collector :=
  (writeSets (c.readySets now) (c.withoutReady now)).2

/-- A flush goes on while it finds slots that are ready and can write them. -/
def goesOn (now : Int64) (c : Collector) : Bool :=
  !(c.readySets now).isEmpty && (writeSets (c.readySets now) (c.withoutReady now)).1.isOk

section Drained

variable {ε : Type} {failed : Error → ε} {takes : List (PidBuffer → Except ε (List PidSet × PidBuffer))}

/-- A flush writes what a drain takes out and goes on if that comes through. -/
theorem flushDrained_cons (failed : Error → ε) (take : PidBuffer → Except ε (List PidSet × PidBuffer))
    (takes : List (PidBuffer → Except ε (List PidSet × PidBuffer))) (c : Collector) :
    flushDrained failed (take :: takes) c = match take c.buffer with
      | .error e => (.error e, c)
      | .ok (sets, buffer) =>
        if sets.isEmpty then (.ok 0, { c with buffer })
        else match writeSets sets { c with buffer } with
          | (.ok _, c') => ((flushDrained failed takes c').1.map (· + sets.length),
              (flushDrained failed takes c').2)
          | (.error e, c') => (.error (failed e), c') := by
  rw [flushDrained, exceptT_bind_run, drain]
  rcases take c.buffer with e | ⟨sets, buffer⟩
  · rfl
  change (ite (sets.isEmpty = true) (pure 0 : ExceptT ε (StateM Collector) Nat) (do
    (writeSets sets).adapt failed
    return (← flushDrained failed takes) + sets.length)) { c with buffer } = ite _ _ _
  by_cases hsets : sets.isEmpty
  · rw [if_pos hsets, if_pos hsets]
    rfl
  · rw [if_neg hsets, if_neg hsets, exceptT_bind_run, exceptT_adapt_run]
    rcases writeSets sets { c with buffer } with ⟨e | u, c'⟩
    · rfl
    · change ((flushDrained failed takes >>= fun n => pure (n + sets.length)) :
        ExceptT ε (StateM Collector) Nat) c' = _
      rw [exceptT_bind_run]
      change _ = ((flushDrained failed takes c').1.map _, (flushDrained failed takes c').2)
      rcases flushDrained failed takes c' with ⟨e | n, c''⟩ <;> rfl

theorem flushDrained_of_drainReady {now : Int64} {c : Collector}
    {take : PidBuffer → Except ε (List PidSet × PidBuffer)}
    (h : take c.buffer = .ok (c.buffer.drainReady now)) :
    flushDrained failed (take :: takes) c =
      if (c.readySets now).isEmpty then (.ok 0, c.withoutReady now)
      else match writeSets (c.readySets now) (c.withoutReady now) with
        | (.ok _, c') => ((flushDrained failed takes c').1.map (· + (c.readySets now).length),
            (flushDrained failed takes c').2)
        | (.error e, c') => (.error (failed e), c') := by
  rw [flushDrained_cons, h]
  rfl

/-- What holds after the sets of each drain are written, holds after a flush. -/
theorem flushDrained_keeps {P : Collector → Prop}
    (hstep : ∀ take ∈ takes, ∀ (c : Collector) sets buffer, P c → take c.buffer = .ok (sets, buffer) →
      P (writeSets sets { c with buffer }).2)
    {c : Collector} (h : P c) : P (flushDrained failed takes c).2 := by
  induction takes generalizing c with
  | nil => exact h
  | cons take takes ih =>
    obtain ⟨hhead, htail⟩ := List.forall_mem_cons.mp hstep
    rw [flushDrained_cons]
    rcases htake : take c.buffer with e | ⟨sets, buffer⟩
    · exact h
    have hwritten := hhead c sets buffer h htake
    change P (ite _ _ _ : Except ε Nat × Collector).2
    split
    · next hsets =>
      rw [List.isEmpty_iff.mp hsets] at hwritten
      exact hwritten
    · rcases hrun : writeSets sets { c with buffer } with ⟨e | u, c'⟩
      · rw [hrun] at hwritten
        exact hwritten
      · rw [hrun] at hwritten
        exact ih htail hwritten

end Drained

section Ready

variable {P : Collector → Prop} {c : Collector}

theorem afterReady_of_drainReady {now : Int64} {sets : List PidSet} {buffer : PidBuffer}
    (h : c.buffer.drainReady now = (sets, buffer)) :
    c.afterReady now = (writeSets sets { c with buffer }).2 := by
  rw [afterReady, readySets, withoutReady, h]

theorem flushReady_keeps {now : Int64} (hstep : ∀ c, P c → P (c.afterReady now)) (fuel : Nat)
    (h : P c) : P (flushReady now fuel c).2 := by
  refine flushDrained_keeps (fun take htake c sets buffer hc hdrained => ?_) h
  rw [List.eq_of_mem_replicate htake] at hdrained
  rw [← afterReady_of_drainReady (Except.ok.inj hdrained)]
  exact hstep c hc

/-- Drains in 64 bits that come through are the exact ones. So what holds after each of these holds after a
flush, also if a trap ends it. -/
theorem flushPids64_keeps (hstep : ∀ now c, P c → P (c.afterReady now)) (clock : Clock) (h : P c) :
    P (flushPids64 clock c).2 := by
  refine flushDrained_keeps (fun take htake c sets buffer hc hdrained => ?_) h
  obtain ⟨i, _, rfl⟩ := List.mem_map.mp htake
  have hready := PidBuffer.drainReady_of_drainReady64 (except_mapError_eq_ok hdrained)
  rw [← afterReady_of_drainReady hready]
  exact hstep (clock i) c hc

end Ready

theorem flushReady_run (now : Int64) (fuel : Nat) (c : Collector) :
    flushReady now (fuel + 1) c =
      if (c.readySets now).isEmpty then (.ok 0, c.withoutReady now)
      else match writeSets (c.readySets now) (c.withoutReady now) with
        | (.ok _, c') => ((flushReady now fuel c').1.map (· + (c.readySets now).length),
            (flushReady now fuel c').2)
        | (.error e, c') => (.error e, c') :=
  flushDrained_of_drainReady rfl

theorem flushReady_succ (now : Int64) (fuel : Nat) (c : Collector) :
    (flushReady now (fuel + 1) c).2 =
      if c.goesOn now then (flushReady now fuel (c.afterReady now)).2 else c.afterReady now := by
  rw [flushReady_run, goesOn, afterReady]
  cases hsets : c.readySets now with
  | nil => rfl
  | cons set sets => rcases writeSets (set :: sets) (c.withoutReady now) with ⟨e | u, c'⟩ <;> rfl

def flushing (now : Int64) : Nat → Collector → List PidEvent
  | 0, _ => []
  | fuel + 1, c => writing now true (c.readySets now) (c.withoutReady now) ++
    if c.goesOn now then flushing now fuel (c.afterReady now) else []

def withoutAll (c : Collector) : Collector := { c with buffer := c.buffer.drainAll.2 }

theorem flushAllPids_run (c : Collector) :
    flushAllPids c =
      ((writeSets c.buffer.drainAll.1 c.withoutAll).1.map fun _ => c.buffer.drainAll.1.length,
        (writeSets c.buffer.drainAll.1 c.withoutAll).2) := by
  rw [flushAllPids, exceptT_bind_run]
  change (writeSets c.buffer.drainAll.1 >>= fun _ => pure c.buffer.drainAll.1.length) c.withoutAll = _
  rw [exceptT_bind_run]
  rcases writeSets c.buffer.drainAll.1 c.withoutAll with ⟨e | u, c'⟩ <;> rfl

theorem buffer_writeSets {sets : List PidSet} {c : Collector} (h : (writeSets sets c).1.isOk) :
    (writeSets sets c).2.buffer = c.buffer := by
  induction sets generalizing c with
  | nil => rfl
  | cons set sets ih =>
    by_cases hw : c.writes set
    · rw [writeSets_of_writes hw] at h ⊢
      exact ih h
    · obtain ⟨e, he⟩ := writeSets_of_not_writes hw sets
      rw [he] at h
      cases h

theorem writeSets_isOk {now : Int64} {timed : Bool} {sets : List PidSet} {c : Collector}
    (h : ∀ e ∈ writing now timed sets c, e.isStored) : (writeSets sets c).1.isOk := by
  induction sets generalizing c with
  | nil => rfl
  | cons set sets ih =>
    have hw : c.writes set := h _ List.mem_cons_self
    rw [writeSets_of_writes hw]
    apply ih
    intro e he
    apply h e
    rw [writing, if_pos hw]
    exact List.mem_cons_of_mem _ he

theorem slots_flushAllPids {c : Collector} (h : (flushAllPids c).1.isOk) :
    (flushAllPids c).2.buffer.slots = ∅ := by
  rw [flushAllPids_run] at h ⊢
  rw [buffer_writeSets]
  · rfl
  · rcases hanswer : (writeSets c.buffer.drainAll.1 c.withoutAll).1 with e | u
    · rw [hanswer] at h
      cases h
    · rfl

def emptying (now : Int64) (c : Collector) : List PidEvent :=
  writing now false c.buffer.drainAll.1 c.withoutAll

theorem mem_writing {now : Int64} {timed : Bool} {sets : List PidSet} {c : Collector} {e : PidEvent}
    (h : e ∈ writing now timed sets c) : ∃ set ∈ sets, ∃ stored, e = .put now timed set stored := by
  induction sets generalizing c with
  | nil => cases h
  | cons set sets ih =>
    rcases List.mem_cons.mp h with rfl | h
    · exact ⟨set, List.mem_cons_self, _, rfl⟩
    · split at h
      · obtain ⟨other, hother, hput⟩ := ih h
        exact ⟨other, List.mem_cons_of_mem _ hother, hput⟩
      · cases h

theorem not_sees_of_mem_emptying {now : Int64} {c : Collector} :
    ∀ e ∈ emptying now c, ∀ slot agent, ¬ e.sees slot agent := by
  intro e he slot agent
  obtain ⟨_, _, _, rfl⟩ := mem_writing he
  exact Bool.false_ne_true

theorem flushAllPids_isOk {now : Int64} {c : Collector} (h : ∀ e ∈ emptying now c, e.isStored) :
    (flushAllPids c).1.isOk := by
  have hwritten := writeSets_isOk h
  rw [flushAllPids_run]
  rcases hanswer : (writeSets c.buffer.drainAll.1 c.withoutAll).1 with e | u
  · rw [hanswer] at hwritten
    cases hwritten
  · rfl

/-- Two collectors with the same settings and buffers for the same slots. -/
structure Alike (c c' : Collector) : Prop where
  settings : c'.settings = c.settings
  slotSize : c'.buffer.slotSize = c.buffer.slotSize
  delay : c'.buffer.delay = c.buffer.delay

theorem Alike.refl (c : Collector) : c.Alike c := ⟨rfl, rfl, rfl⟩

theorem Alike.symm {c c' : Collector} (h : c.Alike c') : c'.Alike c :=
  ⟨h.settings.symm, h.slotSize.symm, h.delay.symm⟩

theorem Alike.trans {c c' c'' : Collector} (h : c.Alike c') (h' : c'.Alike c'') : c.Alike c'' :=
  ⟨h'.settings.trans h.settings, h'.slotSize.trans h.slotSize, h'.delay.trans h.delay⟩

theorem alike_restore (sets : List PidSet) (c : Collector) :
    c.Alike { c with buffer := c.buffer.restore sets } := by
  induction sets generalizing c with
  | nil => exact Alike.refl c
  | cons set sets ih =>
    have h := ih { c with buffer := c.buffer.add set.time set.agent set.pids }
    exact ⟨rfl, h.slotSize, h.delay⟩

theorem alike_writeSets (sets : List PidSet) (c : Collector) : c.Alike (writeSets sets c).2 := by
  obtain ⟨storage, back, _, hrun⟩ := exists_restored sets c
  rw [hrun]
  have hback := alike_restore back c
  exact ⟨rfl, hback.slotSize, hback.delay⟩

theorem alike_afterReady (now : Int64) (c : Collector) : c.Alike (c.afterReady now) := by
  have hdrain := (c.buffer.drainReady_drains now).1
  have hwithout : c.Alike (c.withoutReady now) := ⟨rfl, hdrain.slotSize, hdrain.delay⟩
  exact hwithout.trans (alike_writeSets _ _)

theorem alike_flushReady (now : Int64) (fuel : Nat) (c : Collector) :
    c.Alike (flushReady now fuel c).2 :=
  flushReady_keeps (fun c' h => h.trans (alike_afterReady now c')) fuel (Alike.refl c)

theorem alike_flushPids64 (clock : Clock) (c : Collector) : c.Alike (flushPids64 clock c).2 :=
  flushPids64_keeps (fun now c' h => h.trans (alike_afterReady now c')) clock (Alike.refl c)

/-- A flush of what is ready puts no slot that is not. -/
theorem mem_flushing {now : Int64} {fuel : Nat} {c : Collector} {e : PidEvent}
    (h : e ∈ flushing now fuel c) :
    ∃ set stored, e = .put now true set stored ∧ c.buffer.readyAfter set.time < now.toInt := by
  induction fuel generalizing c with
  | zero => cases h
  | succ fuel ih =>
    rcases List.mem_append.mp h with h | h
    · obtain ⟨set, hset, stored, rfl⟩ := mem_writing h
      exact ⟨set, stored, rfl, (c.buffer.drainReady_drains now).2 set hset⟩
    · split at h
      · obtain ⟨set, stored, he, hready⟩ := ih h
        have hsame := alike_afterReady now c
        rw [PidBuffer.readyAfter, hsame.slotSize, hsame.delay] at hready
        exact ⟨set, stored, he, hready⟩
      · cases h

/-- A report is stored first; only then its pid is noted. -/
theorem report_run (accepted noted : Int64) (o : Observation) (c : Collector) :
    report accepted noted o c =
      match insertObservation (o.stamp (slotOf accepted c.settings.observationSlot)) c.storage with
      | (.ok _, storage) => (.ok (), { c with
          storage, buffer := if 0 ≤ o.pid then c.buffer.increment noted o.agent o.pid else c.buffer })
      | (.error e, storage) => (.error e, { c with storage }) := by
  rw [report, exceptT_bind_run]
  change ((stored (insertObservation (o.stamp (slotOf accepted c.settings.observationSlot))) >>= fun _ =>
    if 0 ≤ o.pid then modify fun c => { c with buffer := c.buffer.increment noted o.agent o.pid }
    else pure ()) : CollectM Unit) c = _
  rw [exceptT_bind_run, stored]
  rcases insertObservation _ c.storage with ⟨e | u, storage⟩
  · rfl
  · by_cases hpid : 0 ≤ o.pid
    · rw [if_pos hpid, if_pos hpid]
      rfl
    · rw [if_neg hpid, if_neg hpid]
      rfl

theorem reportAddresses_run (now : Int64) (agent : String) (addresses : List Ip) (c : Collector) :
    reportAddresses now agent addresses c =
      if agent.isEmpty then (.error (.rejected .emptyAgent), c)
      else if addresses.isEmpty then (.error (.rejected (.noAddresses agent)), c)
      else stored (AddressRegistry.insert
        ⟨agent, slotOf now c.settings.addressSlot, addresses⟩) c := by
  by_cases hagent : agent.isEmpty = true
  · simp only [reportAddresses, hagent, if_true]
    rfl
  · by_cases hempty : addresses.isEmpty = true
    · simp only [reportAddresses, hagent, hempty, if_true]
      rfl
    · simp only [reportAddresses, hagent, hempty]
      rfl

/-- The pid that is seen in a report, if the report is accepted. -/
def reporting (accepted noted : Int64) (o : Observation) (c : Collector) : List PidEvent :=
  if (report accepted noted o c).1.isOk ∧ 0 ≤ o.pid then
    [.seen noted o.agent (slotOf noted c.settings.pidSlot) o.pid]
  else []

theorem alike_report (accepted noted : Int64) (o : Observation) (c : Collector) :
    c.Alike (report accepted noted o c).2 := by
  rw [report_run]
  split
  · by_cases hpid : 0 ≤ o.pid
    · rw [if_pos hpid, PidBuffer.increment_eq_add]
      exact ⟨rfl, rfl, rfl⟩
    · rw [if_neg hpid]
      exact ⟨rfl, rfl, rfl⟩
  · exact ⟨rfl, rfl, rfl⟩

end Collector

end NetAtlas

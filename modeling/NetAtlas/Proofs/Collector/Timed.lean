import NetAtlas.Proofs.Collector.Runs

set_option autoImplicit false

/-!
# Timed flushes

A flush of what is ready writes a slot only after its end and the grace delay. A clock that does not go
back sees nothing of that slot any more, so the set that is written is whole, and as the slot leaves the
buffer it is written once. A put that fails brings its set back for the next flush.
-/
namespace NetAtlas

open Std PidEvent History

theorem toInt_slotOf {now : Int64} (h : 0 ≤ now) (slot : Int64) :
    (slotOf now slot).toInt = slotStart now.toInt (max 1 slot.toInt) := by
  have hpos : 0 < max 1 slot.toInt := Int.lt_of_lt_of_le Int.zero_lt_one (Int.le_max_left 1 _)
  have hnonneg : 0 ≤ now.toInt := Int64.le_iff_toInt_le.mp h
  have hle := slotStart_le hpos now.toInt
  have hstart : 0 ≤ slotStart now.toInt (max 1 slot.toInt) :=
    Int.mul_nonneg (Int.ediv_nonneg hnonneg (Int.le_of_lt hpos)) (Int.le_of_lt hpos)
  have hlt := Int64.toInt_lt now
  apply Int64.toInt_ofInt_of_le
  · omega
  · omega

theorem lt_slotOf_add {now : Int64} (h : 0 ≤ now) (slot : Int64) :
    now.toInt < (slotOf now slot).toInt + max 1 slot.toInt := by
  rw [toInt_slotOf h]
  exact lt_slotStart_add (Int.lt_of_lt_of_le Int.zero_lt_one (Int.le_max_left 1 _)) _

namespace Collector

/-- A pid is seen in the slot of the clock reading, and a set is put by a timed flush when the slot has
ended and the grace delay has passed. -/
def OnTime (settings : CollectorSettings) : PidEvent → Prop
  | .seen now _ slot _ => 0 ≤ now ∧ slot = slotOf now settings.pidSlot
  | .put now timed set _ => timed = true ∧
    set.time.toInt + max 1 settings.pidSlot.toInt + settings.pidFlushDelay.toInt < now.toInt

theorem OnTime.closes {settings : CollectorSettings} {e f : PidEvent} (he : OnTime settings e)
    (hf : OnTime settings f) (hdelay : 0 ≤ settings.pidFlushDelay) (hle : e.now ≤ f.now) :
    e.Closes f := by
  intro slot agent hputs hsees
  cases e with
  | seen => cases hputs
  | put now timed set stored =>
    cases f with
    | put => cases hsees
    | seen now' a s pid =>
      obtain ⟨rfl, rfl⟩ := of_decide_eq_true hputs
      have hkey : s = set.time := by
        obtain ⟨p, hp⟩ := Option.isSome_iff_exists.mp hsees
        exact (Option.ite_none_right_eq_some.mp hp).1.1
      have hend := lt_slotOf_add hf.1 settings.pidSlot
      have hready := he.2
      rw [← hf.2, hkey] at hend
      have hnow := Int64.le_iff_toInt_le.mp hle
      have hnonneg := Int64.le_iff_toInt_le.mp hdelay
      have hzero : (0 : Int64).toInt = 0 := rfl
      simp only [PidEvent.now] at hnow
      omega

/-- Reports and flushes of what is ready. -/
def Turn.isTimed : Turn → Bool
  | .report .. => true
  | .flush _ => true
  | _ => false

theorem alike_turn {t : Turn} (h : t.isTimed) (c : Collector) : c.Alike (t.after c) := by
  cases t with
  | report accepted noted o => exact alike_report accepted noted o c
  | flush now =>
    rw [Turn.after, Turn.act, discard_run]
    exact alike_flushReady now c.buffer.size c
  | flushAll => cases h
  | restart => cases h

theorem alike_run {ts : List Turn} (h : ∀ t ∈ ts, t.isTimed) (c : Collector) :
    c.Alike (run ts c) := by
  induction ts generalizing c with
  | nil => exact Alike.refl c
  | cons t ts ih =>
    have hrest := ih (fun u hu => h u (List.mem_cons_of_mem _ hu)) (t.after c)
    exact (alike_turn (h t List.mem_cons_self) c).trans hrest

theorem onTime_of_mem_events {t : Turn} {c : Collector} {e : PidEvent} (h : e ∈ t.events c)
    (htimed : t.isTimed) (hnow : 0 ≤ t.now) (hsize : c.buffer.slotSize = c.settings.pidSlot)
    (hdelay : c.buffer.delay = c.settings.pidFlushDelay) : OnTime c.settings e := by
  cases t with
  | report accepted noted o =>
    change e ∈ reporting accepted noted o c at h
    rw [reporting] at h
    split at h
    · rw [List.mem_singleton.mp h]
      exact ⟨hnow, rfl⟩
    · cases h
  | flush now =>
    obtain ⟨set, stored, rfl, hready⟩ := mem_flushing h
    rw [PidBuffer.readyAfter, hsize, hdelay] at hready
    exact ⟨rfl, hready⟩
  | flushAll => cases htimed
  | restart => cases htimed

theorem ordered_trace {ts : List Turn} (h : ts.Pairwise fun t u => t.now ≤ u.now) (c : Collector) :
    (trace ts c).Pairwise fun e f => e.now ≤ f.now := by
  induction ts generalizing c with
  | nil => exact List.Pairwise.nil
  | cons t ts ih =>
    obtain ⟨hlater, hrest⟩ := List.pairwise_cons.mp h
    refine List.pairwise_append.mpr ⟨?_, ih hrest _, fun e he f hf => ?_⟩
    · apply List.pairwise_of_forall_mem_list
      intro e he f hf
      rw [now_of_mem_events he, now_of_mem_events hf]
      exact Int64.le_refl _
    · obtain ⟨us, u, vs, rfl, hu⟩ := exists_of_mem_trace hf
      rw [now_of_mem_events he, now_of_mem_events hu]
      exact hlater u (List.mem_append_right _ List.mem_cons_self)

section

variable {settings : CollectorSettings} {storage : Storage} {ts : List Turn}

theorem onTime_of_mem_trace (htimed : ∀ t ∈ ts, t.isTimed) (hclock : ∀ t ∈ ts, 0 ≤ t.now) :
    ∀ e ∈ trace ts (start settings storage), OnTime settings e := by
  intro e he
  obtain ⟨us, t, vs, rfl, ht⟩ := exists_of_mem_trace he
  have hmem : t ∈ us ++ t :: vs := List.mem_append_right _ List.mem_cons_self
  have halike := alike_run (fun u hu => htimed u (List.mem_append_left _ hu)) (start settings storage)
  have honTime := onTime_of_mem_events ht (htimed t hmem) (hclock t hmem)
    (halike.slotSize.trans (congrArg CollectorSettings.pidSlot halike.settings.symm))
    (halike.delay.trans (congrArg CollectorSettings.pidFlushDelay halike.settings.symm))
  rw [halike.settings] at honTime
  exact honTime

theorem closes_trace (hdelay : 0 ≤ settings.pidFlushDelay) (htimed : ∀ t ∈ ts, t.isTimed)
    (hclock : ∀ t ∈ ts, 0 ≤ t.now) (hordered : ts.Pairwise fun t u => t.now ≤ u.now) :
    (trace ts (start settings storage)).Pairwise Closes := by
  have honTime : ∀ e ∈ trace ts (start settings storage), OnTime settings e :=
    onTime_of_mem_trace htimed hclock
  apply (ordered_trace hordered (start settings storage)).imp_of_mem
  intro e f he hf hle
  exact (honTime e he).closes (honTime f hf) hdelay hle

/-- What reports and flushes of what is ready make of the pids, up to one flush of everything at the
end. -/
structure WritesOnce (settings : CollectorSettings) (es : List PidEvent) : Prop where
  once : ∀ slot agent, es.countP (stores slot agent) ≤ 1
  late : ∀ now set stored, .put now true set stored ∈ es →
    set.time.toInt + max 1 settings.pidSlot.toInt + settings.pidFlushDelay.toInt < now.toInt
  whole : ∀ now timed set stored, .put now timed set stored ∈ es →
    set.pids = accepted es set.time set.agent
  reached : ∀ now timed set stored, .put now timed set stored ∈ es → ∃ row,
    PidRegistry.insert set =
      StoreM.put PidRegistry.column row PidRegistry.qualifier (PidSet.encode set.pids)

/-- Sets that are put are those of reporters, so nothing but the put itself can fail. -/
theorem insert_eq_put_of_mem_trace (hplain : storage.contents.PlainPids) {now : Int64} {timed : Bool}
    {set : PidSet} {stored : Bool}
    (h : .put now timed set stored ∈ trace ts (start settings storage)) : ∃ row,
      PidRegistry.insert set =
        StoreM.put PidRegistry.column row PidRegistry.qualifier (PidSet.encode set.pids) := by
  have hfaithful := (told_run settings hplain ts).faithful
  obtain ⟨pre, post, hsplit⟩ := List.mem_iff_append.mp h
  rw [hsplit] at hfaithful
  obtain ⟨pid, hpid⟩ := exists_mem_of_unstored hfaithful.unstored_of_split
  have haccepted := hfaithful.mem_accepted_of_put (hsplit ▸ h) hpid
  rw [← hsplit] at haccepted
  obtain ⟨_, _, _, o, _, _, _, _, _, hagent, _⟩ := mem_accepted_trace.mp haccepted
  have hsize : set.agent.utf8ByteSize < 65536 := by
    rw [← hagent]
    exact Nat.lt_of_le_of_lt o.agent_le (by decide)
  obtain ⟨row, hrow⟩ := agentRow_ok hsize set.time
  exact ⟨row, Registry.insert_eq_put (hagent ▸ o.agent_pos) hrow⟩

theorem closes_trace_flushAll (hdelay : 0 ≤ settings.pidFlushDelay) (htimed : ∀ t ∈ ts, t.isTimed)
    (hclock : ∀ t ∈ ts, 0 ≤ t.now) (hordered : ts.Pairwise fun t u => t.now ≤ u.now) (now : Int64) :
    (trace (ts ++ [.flushAll now]) (start settings storage)).Pairwise Closes := by
  rw [trace_flushAll]
  refine List.pairwise_append.mpr ⟨closes_trace hdelay htimed hclock hordered, ?_, ?_⟩
  · apply List.pairwise_of_forall_mem_list
    exact fun e _ f hf slot agent _ => not_sees_of_mem_emptying f hf slot agent
  · exact fun e _ f hf slot agent _ => not_sees_of_mem_emptying f hf slot agent

theorem accepted_trace_flushAll (ts : List Turn) (now : Int64) (c : Collector) (slot : Int64)
    (agent : String) :
    accepted (trace (ts ++ [.flushAll now]) c) slot agent = accepted (trace ts c) slot agent := by
  rw [trace_flushAll]
  apply accepted_append
  exact fun f hf => not_sees_of_mem_emptying f hf slot agent

theorem writesOnce_of_closes (hplain : storage.contents.PlainPids)
    (hcloses : (trace ts (start settings storage)).Pairwise Closes)
    (hlate : ∀ now set stored, .put now true set stored ∈ trace ts (start settings storage) →
      OnTime settings (.put now true set stored)) :
    WritesOnce settings (trace ts (start settings storage)) where
  once _ _ := countP_stores_le_one (told_run settings hplain ts).faithful hcloses
  late now set stored hput := (hlate now set stored hput).2
  whole _ _ _ _ hput := pids_of_put (told_run settings hplain ts).faithful hcloses hput
  reached _ _ _ _ hput := insert_eq_put_of_mem_trace hplain hput

/-- A last flush of everything leaves the buffer empty, and the registry has what was accepted. -/
theorem pidSets_of_flushAll {now : Int64} (hempty : storage.contents.NoPids)
    (hcloses : (trace (ts ++ [.flushAll now]) (start settings storage)).Pairwise Closes)
    (hstored : ∀ e ∈ emptying now (run ts (start settings storage)), e.isStored) :
    (run (ts ++ [.flushAll now]) (start settings storage)).buffer.isEmpty ∧
      ((∀ slot agent, storage.contents.fits
          (PidSet.encode (accepted (trace ts (start settings storage)) slot agent))) →
        ∀ set, set ∈ (run (ts ++ [.flushAll now]) (start settings storage)).storage.contents.pidSets ↔
          set.pids ≠ ∅ ∧
            set.pids = accepted (trace ts (start settings storage)) set.time set.agent) := by
  obtain ⟨hnone, hplain⟩ := Contents.pidSets_of_noPids hempty
  have htold := told_run settings hplain (ts ++ [.flushAll now])
  have hslots : (run (ts ++ [.flushAll now]) (start settings storage)).buffer.slots = ∅ := by
    rw [run_append]
    change ((discard flushAllPids : CollectM Unit) _).2.buffer.slots = ∅
    rw [discard_run]
    exact slots_flushAllPids (flushAllPids_isOk hstored)
  refine ⟨by rw [PidBuffer.isEmpty, hslots]; rfl, fun hfits set => ?_⟩
  have hheld : unstored (trace (ts ++ [.flushAll now]) (start settings storage)) set.time set.agent =
      none := by
    rw [← htold.held, PidBuffer.held_of_no_slots hslots]
  have hfits' : Fits storage.contents (trace (ts ++ [.flushAll now]) (start settings storage)) := by
    intro now timed set hput
    rw [pids_of_put htold.faithful hcloses hput, accepted_trace_flushAll]
    exact hfits _ _
  rw [(htold.stored hfits').2, latest_of_closed htold.faithful hcloses hheld, accepted_trace_flushAll,
    hnone]
  exact or_iff_left fun hinitial => List.not_mem_nil hinitial.2

/-- Timed flushes write each pid set once, whole and not early, even if puts fail, and the buffer holds
what they have not written. After a last flush of everything, all of whose puts succeed, the registry has
the accepted pids of every agent and slot. -/
theorem timed_flushes_write_once (hdelay : 0 ≤ settings.pidFlushDelay)
    (hempty : storage.contents.NoPids) (htimed : ∀ t ∈ ts, t.isTimed) (hclock : ∀ t ∈ ts, 0 ≤ t.now)
    (hordered : ts.Pairwise fun t u => t.now ≤ u.now) (now : Int64) :
    WritesOnce settings (trace ts (start settings storage)) ∧
      (∀ slot agent, (∀ e ∈ trace ts (start settings storage), ¬ e.stores slot agent) →
        (run ts (start settings storage)).buffer.pids slot agent =
          accepted (trace ts (start settings storage)) slot agent) ∧
      WritesOnce settings (trace (ts ++ [.flushAll now]) (start settings storage)) ∧
      ((∀ e ∈ emptying now (run ts (start settings storage)), e.isStored) →
        (run (ts ++ [.flushAll now]) (start settings storage)).buffer.isEmpty ∧
        ((∀ slot agent, storage.contents.fits
            (PidSet.encode (accepted (trace ts (start settings storage)) slot agent))) →
          ∀ set,
            set ∈ (run (ts ++ [.flushAll now]) (start settings storage)).storage.contents.pidSets ↔
              set.pids ≠ ∅ ∧
                set.pids = accepted (trace ts (start settings storage)) set.time set.agent)) := by
  have hplain := (Contents.pidSets_of_noPids hempty).2
  have honTime : ∀ e ∈ trace ts (start settings storage), OnTime settings e :=
    onTime_of_mem_trace htimed hclock
  have hcloses : (trace (ts ++ [.flushAll now]) (start settings storage)).Pairwise Closes :=
    closes_trace_flushAll hdelay htimed hclock hordered now
  refine ⟨?_, fun slot agent hnone => ?_, ?_, fun hstored => ?_⟩
  · apply writesOnce_of_closes hplain (closes_trace hdelay htimed hclock hordered)
    exact fun now set stored hput => honTime _ hput
  · rw [(told_run settings hplain ts).pids_eq, unstored_getD hnone]
  · apply writesOnce_of_closes hplain hcloses
    intro now' set stored hput
    rw [trace_flushAll] at hput
    rcases List.mem_append.mp hput with hput | hput
    · exact honTime _ hput
    · obtain ⟨_, _, _, hfalse⟩ := mem_writing hput
      cases hfalse
  · exact pidSets_of_flushAll hempty hcloses hstored

end

/-- Three pids in two slots. The first put of the slot that is ready fails, the second one succeeds. -/
def interrupted : List Turn :=
  [.report 60000 60000 (Sample.sighting 1), .report 99999 100000 (Sample.sighting 2), .flush 300000,
    .flush 300001, .report 310000 310000 (Sample.sighting 3), .flush 310000]

/-- The first put to the pid table fails. -/
def firstPutFails : Collector :=
  Sample.collector fun calls call => call = .put .pids ∧ .put .pids ∉ calls

theorem timed_flushes_write_once_interrupted :
    0 ≤ firstPutFails.settings.pidFlushDelay ∧ firstPutFails.storage.contents.NoPids ∧
    (∀ t ∈ interrupted, t.isTimed) ∧ (∀ t ∈ interrupted, 0 ≤ t.now) ∧
    (interrupted.Pairwise fun t u => t.now ≤ u.now) ∧
    (trace interrupted firstPutFails).map isStored = [false, false, false, false, true] ∧
    WritesOnce firstPutFails.settings (trace (interrupted ++ [.flushAll 320000]) firstPutFails) ∧
    ∀ set, set ∈ (run (interrupted ++ [.flushAll 320000]) firstPutFails).storage.contents.pidSets ↔
      set.pids ≠ ∅ ∧ set.pids = accepted (trace interrupted firstPutFails) set.time set.agent := by
  have hdelay : 0 ≤ firstPutFails.settings.pidFlushDelay := by decide
  have hempty : firstPutFails.storage.contents.NoPids := rfl
  have htimed : ∀ t ∈ interrupted, t.isTimed := by decide
  have hclock : ∀ t ∈ interrupted, 0 ≤ t.now := by decide
  have hordered : interrupted.Pairwise fun t u => t.now ≤ u.now := by decide
  have hstored : ∀ e ∈ emptying 320000 (run interrupted firstPutFails), e.isStored := by
    decide +kernel
  obtain ⟨_, _, honce, hall⟩ :=
    timed_flushes_write_once hdelay hempty htimed hclock hordered 320000
  exact ⟨hdelay, hempty, htimed, hclock, hordered, by decide +kernel, honce,
    (hall hstored).2 fun _ _ => trivial⟩

end Collector

end NetAtlas

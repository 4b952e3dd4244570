import NetAtlas.Proofs.Collector.Timed
import NetAtlas.Proofs.Collector.Written
import NetAtlas.Proofs.Time.Fits
import NetAtlas.Settings.Basic

set_option autoImplicit false

/-!
# The grace delay in 64 bits

A flush tests with sums of 64 bits which slots are ready. Where the sums of the slots that are held fit, it
flushes as by the exact ones, and no slot leaves the buffer before its end and the grace delay; a sum that
does not fit is a trap. Up to a clock reading all sums fit exactly if that for the slot of the reading
does. A delay may be of any length, so this does not hold of all settings that are accepted: with the
longest delay no slot can be flushed.
-/
namespace NetAtlas

open Std

namespace PidBuffer

variable {b : PidBuffer}

/-- The sums of all slots that are held fit. -/
def SumsFit (b : PidBuffer) : Prop := ∀ slot ∈ b.slots, b.SumFits slot

theorem sumFits_congr {b' : PidBuffer} (hsize : b'.slotSize = b.slotSize) (hdelay : b'.delay = b.delay)
    {slot : Int64} : b'.SumFits slot ↔ b.SumFits slot := by
  rw [SumFits, SumFits, readyAfter, readyAfter, hsize, hdelay]

theorem mem_slots_of_head {slot : Int64} (h : b.slots.keys.head? = some slot) : slot ∈ b.slots :=
  ExtTreeMap.mem_keys.mp (List.mem_of_head? h)

theorem drainReady64_of_sumsFit (h : b.SumsFit) (now : Int64) :
    b.drainReady64 now = .ok (b.drainReady now) :=
  drainReady64_of_fits (fun slot hhead => h slot (mem_slots_of_head hhead)) now

theorem mem_slots_of_drainOldest {ready : Int64 → Bool} {slot : Int64} (h : slot ∈ (b.drainOldest ready).2.slots) :
    slot ∈ b.slots := by
  rw [drainOldest] at h
  split at h
  · split at h
    · exact ExtTreeMap.mem_of_mem_erase h
    · exact h
  · exact h

/-! ### The slots that are held -/

section Slots

variable {P : Int64 → Prop}

/-- Every slot that is held has a property. -/
def SlotsHave (b : PidBuffer) (P : Int64 → Prop) : Prop := ∀ slot ∈ b.slots, P slot

theorem mem_slots_add {slot other : Int64} {agent : String} {pids : PidGroup} :
    other ∈ (b.add slot agent pids).slots ↔ slot = other ∨ other ∈ b.slots := by
  rw [add, ExtTreeMap.mem_alter]
  by_cases h : slot = other
  · rw [if_pos (LawfulEqCmp.compare_eq_iff_eq.mpr h)]
    exact iff_of_true rfl (Or.inl h)
  · rw [if_neg fun hc => h (LawfulEqCmp.eq_of_compare hc)]
    exact (or_iff_right h).symm

theorem head?_keys_add_of_no_slots (h : b.slots = ∅) (slot : Int64) (agent : String) (pids : PidGroup) :
    (b.add slot agent pids).slots.keys.head? = some slot := by
  cases hhead : (b.add slot agent pids).slots.keys.head? with
  | none =>
    have hmem : slot ∈ (b.add slot agent pids).slots := mem_slots_add.mpr (Or.inl rfl)
    rw [← ExtTreeMap.mem_keys, List.head?_eq_none_iff.mp hhead] at hmem
    exact absurd hmem List.not_mem_nil
  | some other =>
    rcases mem_slots_add.mp (mem_slots_of_head hhead) with rfl | hother
    · rfl
    · rw [h] at hother
      exact absurd hother ExtTreeMap.not_mem_empty

theorem SlotsHave.add (h : b.SlotsHave P) {slot : Int64} (hslot : P slot) (agent : String)
    (pids : PidGroup) : (b.add slot agent pids).SlotsHave P := by
  intro other hother
  rcases mem_slots_add.mp hother with rfl | hother
  · exact hslot
  · exact h other hother

theorem SlotsHave.restore (h : b.SlotsHave P) {sets : List PidSet} (hsets : ∀ set ∈ sets, P set.time) :
    (b.restore sets).SlotsHave P := by
  induction sets generalizing b with
  | nil => exact h
  | cons set sets ih =>
    obtain ⟨hset, hsets⟩ := List.forall_mem_cons.mp hsets
    exact ih (h.add hset set.agent set.pids) hsets

/-- Sets are taken out of slots that are held. -/
theorem SlotsHave.of_drains {sets : List PidSet} {b' : PidBuffer} (h : b.SlotsHave P)
    (hdrains : b.Drains sets b') : ∀ set ∈ sets, P set.time := by
  intro set hset
  have hheld : b.held set.time set.agent = some set.pids := by
    rw [← hdrains.held]
    exact hdrains.inHand.held_restore_of_mem hset
  obtain ⟨agents, hslot, _⟩ := Option.bind_eq_some_iff.mp hheld
  exact h _ (ExtTreeMap.mem_iff_isSome_getElem?.mpr (Option.isSome_of_eq_some hslot))

theorem SlotsHave.drainOldest (h : b.SlotsHave P) (ready : Int64 → Bool) :
    (b.drainOldest ready).2.SlotsHave P := fun slot hslot => h slot (mem_slots_of_drainOldest hslot)

theorem SlotsHave.drainAll (b : PidBuffer) (P : Int64 → Prop) : b.drainAll.2.SlotsHave P :=
  fun _ h => absurd h ExtTreeMap.not_mem_empty

end Slots

end PidBuffer

namespace Collector

variable {c : Collector}

section Slots

variable {P : Int64 → Prop}

theorem slotsHave_writeSets {sets : List PidSet} (h : c.buffer.SlotsHave P)
    (hsets : ∀ set ∈ sets, P set.time) : (writeSets sets c).2.buffer.SlotsHave P := by
  obtain ⟨storage, back, hback, hrun⟩ := exists_restored sets c
  rw [hrun]
  exact h.restore fun set hset => hsets set (hback.subset hset)

theorem slotsHave_afterReady (h : c.buffer.SlotsHave P) (now : Int64) :
    (c.afterReady now).buffer.SlotsHave P :=
  slotsHave_writeSets (c := c.withoutReady now) (h.drainOldest _)
    (h.of_drains (c.buffer.drainReady_drains now).1)

theorem slotsHave_flushPids64 (h : c.buffer.SlotsHave P) (clock : Clock) :
    (flushPids64 clock c).2.buffer.SlotsHave P :=
  flushPids64_keeps (P := fun c => c.buffer.SlotsHave P)
    (fun now _ hc => slotsHave_afterReady hc now) clock h

theorem slotsHave_flushAllPids (h : c.buffer.SlotsHave P) :
    (flushAllPids c).2.buffer.SlotsHave P := by
  rw [flushAllPids_run]
  exact slotsHave_writeSets (PidBuffer.SlotsHave.drainAll c.buffer P)
    (h.of_drains c.buffer.drainAll_drains)

theorem slotsHave_report (h : c.buffer.SlotsHave P) (accepted : Int64) {noted : Int64}
    (hslot : P (slotOf noted c.buffer.slotSize)) (o : Observation) :
    (report accepted noted o c).2.buffer.SlotsHave P := by
  rw [report_run]
  split
  · by_cases hpid : 0 ≤ o.pid
    · rw [if_pos hpid, PidBuffer.increment_eq_add]
      exact h.add hslot o.agent {o.pid}
    · rw [if_neg hpid]
      exact h
  · exact h

end Slots

/-! ### Flushes with sums that fit -/

section Fitting

variable {now : Int64}

theorem sumsFit_afterReady (h : c.buffer.SumsFit) (now : Int64) : (c.afterReady now).buffer.SumsFit := by
  intro slot hslot
  have halike := alike_afterReady now c
  rw [PidBuffer.sumFits_congr halike.slotSize halike.delay]
  exact slotsHave_afterReady h now slot hslot

theorem flushDrained_of_sumsFit (h : c.buffer.SumsFit) (now : Int64) (fuel : Nat) :
    flushDrained .failed
        (List.replicate fuel fun b => (b.drainReady64 now).mapError Halt.trapped) c =
      ((flushReady now fuel c).1.mapError .failed, (flushReady now fuel c).2) := by
  induction fuel generalizing c with
  | zero => rfl
  | succ fuel ih =>
    have hdrain := PidBuffer.drainReady64_of_sumsFit h now
    rw [List.replicate_succ, flushDrained_of_drainReady (congrArg (·.mapError Halt.trapped) hdrain),
      flushReady_run]
    by_cases hsets : (c.readySets now).isEmpty
    · rw [if_pos hsets, if_pos hsets]
      rfl
    · rw [if_neg hsets, if_neg hsets]
      have hafter := sumsFit_afterReady h now
      rw [afterReady] at hafter
      rcases hrun : writeSets (c.readySets now) (c.withoutReady now) with ⟨e | u, c'⟩
      · rfl
      · rw [hrun] at hafter
        simp only [ih hafter]
        rcases flushReady now fuel c' with ⟨e | n, c''⟩ <;> rfl

/-- Where the sums fit, a flush is the exact one. -/
theorem flushPids64_eq (h : c.buffer.SumsFit) (now : Int64) :
    flushPids64 (.still now) c = ((flushPids now c).1.mapError .failed, (flushPids now c).2) := by
  have hfits := flushDrained_of_sumsFit h now c.buffer.size
  rw [← List.length_range (n := c.buffer.size), ← List.map_const'] at hfits
  rw [List.length_range] at hfits
  exact hfits

theorem flushPids64_not_trapped (h : c.buffer.SumsFit) (clock : Clock) (t : Trap) :
    (flushPids64 clock c).1 ≠ .error (.trapped t) := by
  change (flushDrained .failed ((List.range c.buffer.size).map fun i b =>
    (b.drainReady64 (clock i)).mapError Halt.trapped) c).1 ≠ _
  generalize List.range c.buffer.size = readings
  induction readings generalizing c with
  | nil =>
    intro hzero
    cases hzero
  | cons i readings ih =>
    have hdrain := PidBuffer.drainReady64_of_sumsFit h (clock i)
    rw [List.map_cons, flushDrained_of_drainReady (congrArg (·.mapError Halt.trapped) hdrain)]
    split
    · intro hzero
      cases hzero
    · have hafter := sumsFit_afterReady h (clock i)
      rw [afterReady] at hafter
      rcases hrun : writeSets (c.readySets (clock i)) (c.withoutReady (clock i)) with ⟨e | u, c'⟩
      · intro hfailed
        cases hfailed
      · rw [hrun] at hafter
        exact fun htrapped => ih hafter (except_map_eq_error htrapped)

/-- A flush that meets a sum that does not fit ends there. -/
theorem flushPids64_traps {slot : Int64} (holdest : c.buffer.slots.keys.head? = some slot)
    (h : ¬ c.buffer.SumFits slot) (clock : Clock) :
    flushPids64 clock c = (.error (.trapped .overflow), c) := by
  have hpos : 0 < c.buffer.size := by
    rw [PidBuffer.size, ← ExtTreeMap.length_keys]
    exact List.length_pos_of_mem (List.mem_of_head? holdest)
  obtain ⟨n, hn⟩ := Nat.exists_eq_succ_of_ne_zero (Nat.ne_of_gt hpos)
  change flushDrained Halt.failed ((List.range c.buffer.size).map _) c = _
  rw [hn, List.range_succ_eq_map, List.map_cons, flushDrained_cons,
    PidBuffer.drainReady64_of_not_fits holdest h]
  rfl

end Fitting

/-! ### Up to a clock reading -/

/-- The collectors there can be whose pids were noted at readings of the clock from zero to the latest
one. -/
inductive Within (settings : CollectorSettings) (latest : Int64) : Collector → Prop
  | start (storage : Storage) : Within settings latest (.start settings storage)
  | report {c : Collector} (h : Within settings latest c) (accepted : Int64) {noted : Int64}
      (hnoted : 0 ≤ noted) (hlatest : noted ≤ latest) (o : Observation) :
      Within settings latest (report accepted noted o c).2
  | flush {c : Collector} (h : Within settings latest c) (clock : Clock) :
      Within settings latest (flushPids64 clock c).2
  | flushAll {c : Collector} (h : Within settings latest c) : Within settings latest (flushAllPids c).2

section Within

variable {settings : CollectorSettings} {latest : Int64}

theorem Within.alike (h : Within settings latest c) (storage : Storage) :
    (Collector.start settings storage).Alike c := by
  induction h with
  | start storage => exact ⟨rfl, rfl, rfl⟩
  | report _ accepted _ _ o ih => exact ih.trans (alike_report accepted _ o _)
  | flush _ clock ih => exact ih.trans (alike_flushPids64 clock _)
  | @flushAll c _ ih =>
    have hdrained : c.Alike c.withoutAll := ⟨rfl, rfl, rfl⟩
    rw [flushAllPids_run]
    exact ih.trans (hdrained.trans (alike_writeSets c.buffer.drainAll.1 c.withoutAll))

/-- Each slot that is held is that of a reading. -/
theorem Within.slotsHave (h : Within settings latest c) :
    c.buffer.SlotsHave fun slot => ∃ now, 0 ≤ now ∧ now ≤ latest ∧ slot = slotOf now settings.pidSlot := by
  induction h with
  | start storage => exact fun _ hslot => absurd hslot ExtTreeMap.not_mem_empty
  | report h accepted hnoted hlatest o ih =>
    refine slotsHave_report ih accepted ⟨_, hnoted, hlatest, ?_⟩ o
    rw [(h.alike { contents := .memory .empty }).slotSize]
    rfl
  | flush _ clock ih => exact slotsHave_flushPids64 ih clock
  | flushAll _ ih => exact slotsHave_flushAllPids ih

/-- The sums of all slots fit that are held up to the latest reading. -/
def SumsFitUpTo (settings : CollectorSettings) (latest : Int64) : Prop :=
  ∀ c, Within settings latest c → c.buffer.SumsFit

/-- No flush runs into a trap, at any readings. -/
def NeverTraps (settings : CollectorSettings) (latest : Int64) : Prop :=
  ∀ c, Within settings latest c → ∀ clock t, (flushPids64 clock c).1 ≠ .error (.trapped t)

theorem put_memory (m : Memory) (column : Column) (row qualifier value : Bytes) :
    ∃ storage, StoreM.put column row qualifier value { contents := .memory m } = (.ok (), storage) :=
  ⟨_, rfl⟩

/-- A report at the latest reading makes an empty buffer hold its slot. -/
theorem exists_within_slot (settings : CollectorSettings) (hlatest : 0 ≤ latest) :
    ∃ c, Within settings latest c ∧
      c.buffer.slots.keys.head? = some (slotOf latest settings.pidSlot) := by
  refine ⟨_, (Within.start { contents := .memory .empty }).report latest hlatest (Int64.le_refl _)
    (Sample.sighting 1), ?_⟩
  rw [report_run, insertObservation_eq_put]
  obtain ⟨storage, hput⟩ := put_memory .empty _ _ _ _
  rw [Collector.start, hput]
  change (PidBuffer.increment _ latest "A" 1).slots.keys.head? = _
  rw [PidBuffer.increment_eq_add]
  exact PidBuffer.head?_keys_add_of_no_slots rfl _ _ _

theorem max_one_toInt {slot : Int64} (h : 0 < slot) : max 1 slot.toInt = slot.toInt :=
  Int.max_eq_right (Int64.lt_iff_toInt_lt.mp h)

/-- The slot of a clock reading is computed without a number that does not fit. -/
theorem slotOf_exact {now slot : Int64} (hnow : 0 ≤ now) (hslot : 0 < slot) :
    Fits64 (now.toInt / slot.toInt) ∧ Fits64 (slotStart now.toInt slot.toInt) ∧
      (slotOf now slot).toInt = slotStart now.toInt slot.toInt := by
  have hpos : 0 < slot.toInt := Int64.lt_iff_toInt_lt.mp hslot
  have hnonneg : 0 ≤ now.toInt := Int64.le_iff_toInt_le.mp hnow
  refine ⟨fits64_div (fits64_toInt now) hnonneg hpos, fits64_slotStart (fits64_toInt now) hnonneg hpos, ?_⟩
  rw [toInt_slotOf hnow, max_one_toInt hslot]

/-- The sums for the slot of a reading. -/
theorem Within.sums (h : Within settings latest c) (hslot : 0 < settings.pidSlot) {now : Int64}
    (hnow : 0 ≤ now) :
    (slotOf now settings.pidSlot).toInt + max 1 c.buffer.slotSize.toInt =
        slotStart now.toInt settings.pidSlot.toInt + settings.pidSlot.toInt ∧
      c.buffer.readyAfter (slotOf now settings.pidSlot) =
        slotStart now.toInt settings.pidSlot.toInt + settings.pidSlot.toInt +
          settings.pidFlushDelay.toInt := by
  have halike := h.alike { contents := .memory .empty }
  have hsize : c.buffer.slotSize = settings.pidSlot := halike.slotSize
  have hdelay : c.buffer.delay = settings.pidFlushDelay := halike.delay
  rw [PidBuffer.readyAfter, hsize, hdelay, (slotOf_exact hnow hslot).2.2, max_one_toInt hslot]
  exact ⟨rfl, rfl⟩

theorem sumsFitUpTo_of_fits (hslot : 0 < settings.pidSlot) (hdelay : 0 ≤ settings.pidFlushDelay)
    (h : Fits64 (slotStart latest.toInt settings.pidSlot.toInt + settings.pidSlot.toInt +
      settings.pidFlushDelay.toInt)) : SumsFitUpTo settings latest := by
  intro c hc slot hmem
  obtain ⟨now, hnow, hle, rfl⟩ := hc.slotsHave slot hmem
  have hpos : 0 < settings.pidSlot.toInt := Int64.lt_iff_toInt_lt.mp hslot
  have hnonneg : 0 ≤ settings.pidFlushDelay.toInt := Int64.le_iff_toInt_le.mp hdelay
  have hstart := slotStart_nonneg hpos (Int64.le_iff_toInt_le.mp hnow)
  have hmono := slotStart_mono hpos (Int64.le_iff_toInt_le.mp hle)
  rw [PidBuffer.SumFits, (hc.sums hslot hnow).1, (hc.sums hslot hnow).2]
  have hzero : Fits64 0 := by decide
  exact ⟨fits64_of_between (by omega) (by omega) hzero h,
    fits64_of_between (by omega) (by omega) hzero h⟩

/-- A flush of the slot of the latest reading would run into the trap. -/
theorem NeverTraps.fits (h : NeverTraps settings latest) (hslot : 0 < settings.pidSlot)
    (hlatest : 0 ≤ latest) :
    Fits64 (slotStart latest.toInt settings.pidSlot.toInt + settings.pidSlot.toInt +
      settings.pidFlushDelay.toInt) := by
  obtain ⟨c, hc, holdest⟩ := exists_within_slot settings hlatest
  rw [← (hc.sums hslot hlatest).2]
  by_contra hready
  have htraps := flushPids64_traps holdest (fun hfits => hready hfits.2) (.still latest)
  exact h c hc (.still latest) .overflow (congrArg Prod.fst htraps)

/-- The sums of a collector fit up to a clock reading exactly if those of the reading's slot do, no flush
runs into a trap exactly then, and the slots are always computed exactly. A drain that comes through takes
out a slot only if the exact sums say that it is ready, so none before its end and the grace delay; and
where the sums fit, a flush is the exact one. -/
theorem grace_delay_holds_iff {s : Settings} (hvalid : s.Valid) (hlatest : 0 ≤ latest) :
    (SumsFitUpTo s.collector latest ↔
      slotStart latest.toInt s.collector.pidSlot.toInt + s.collector.pidSlot.toInt +
        s.collector.pidFlushDelay.toInt ≤ Int64.maxValue.toInt) ∧
    (NeverTraps s.collector latest ↔
      slotStart latest.toInt s.collector.pidSlot.toInt + s.collector.pidSlot.toInt +
        s.collector.pidFlushDelay.toInt ≤ Int64.maxValue.toInt) ∧
    (∀ now : Int64, 0 ≤ now → Fits64 (now.toInt / s.collector.pidSlot.toInt) ∧
      Fits64 (slotStart now.toInt s.collector.pidSlot.toInt) ∧
      (slotOf now s.collector.pidSlot).toInt = slotStart now.toInt s.collector.pidSlot.toInt) ∧
    ∀ c, Within s.collector latest c → ∀ now,
      (∀ sets buffer, c.buffer.drainReady64 now = .ok (sets, buffer) →
        c.buffer.drainReady now = (sets, buffer) ∧
        ∀ set ∈ sets, set.time.toInt + s.collector.pidSlot.toInt + s.collector.pidFlushDelay.toInt <
          now.toInt) ∧
      (c.buffer.SumsFit →
        flushPids64 (.still now) c = ((flushPids now c).1.mapError .failed, (flushPids now c).2)) := by
  have hpos : 0 < s.collector.pidSlot.toInt := Int64.lt_iff_toInt_lt.mp hvalid.pidSlot_pos
  have hnonneg : 0 ≤ s.collector.pidFlushDelay.toInt :=
    Int64.le_iff_toInt_le.mp hvalid.pidFlushDelay_nonneg
  have hstart := slotStart_nonneg hpos (Int64.le_iff_toInt_le.mp hlatest)
  have hbound : ∀ n : Int, 0 ≤ n → (Fits64 n ↔ n ≤ Int64.maxValue.toInt) := fun n hn =>
    and_iff_right (by omega)
  rw [← hbound _ (by omega)]
  have hsums : Fits64 _ → SumsFitUpTo s.collector latest :=
    sumsFitUpTo_of_fits hvalid.pidSlot_pos hvalid.pidFlushDelay_nonneg
  have hnever : SumsFitUpTo s.collector latest → NeverTraps s.collector latest :=
    fun h c hc clock t => flushPids64_not_trapped (h c hc) clock t
  have hfits : NeverTraps s.collector latest → Fits64 _ := fun h => h.fits hvalid.pidSlot_pos hlatest
  refine ⟨⟨fun h => hfits (hnever h), hsums⟩, ⟨hfits, fun h => hnever (hsums h)⟩,
    fun now hnow => slotOf_exact hnow hvalid.pidSlot_pos, fun c hc now => ⟨?_, ?_⟩⟩
  · intro sets buffer hdrained
    have hdrain := PidBuffer.drainReady_of_drainReady64 hdrained
    refine ⟨hdrain, fun set hset => ?_⟩
    have halike := hc.alike { contents := .memory .empty }
    have hsize : c.buffer.slotSize = s.collector.pidSlot := halike.slotSize
    have hdelay : c.buffer.delay = s.collector.pidFlushDelay := halike.delay
    have hready := (c.buffer.drainReady_drains now).2 set (by rw [hdrain]; exact hset)
    rw [PidBuffer.readyAfter, hsize, hdelay, max_one_toInt hvalid.pidSlot_pos] at hready
    exact hready
  · exact fun hfit => flushPids64_eq hfit now

/-- With the settings that are given by default the sums fit for ages. -/
theorem grace_delay_holds_by_default :
    ({} : Settings).Valid ∧ (0 : Int64) ≤ 9000000000000000000 ∧
      SumsFitUpTo ({} : Settings).collector 9000000000000000000 ∧
      NeverTraps ({} : Settings).collector 9000000000000000000 := by
  have hvalid : ({} : Settings).Valid := (Settings.validate_eq_ok_iff _).mp (by decide)
  have hlatest : (0 : Int64) ≤ 9000000000000000000 := by decide
  obtain ⟨hsums, hnever, _⟩ := grace_delay_holds_iff hvalid hlatest
  exact ⟨hvalid, hlatest, hsums.mpr (by decide), hnever.mpr (by decide)⟩

end Within

def longestDelay : Settings := { collector := { pidFlushDelay := Int64.maxValue } }

/-- A collector that has just seen a pid and is to hold it as long as can be. -/
def waiting : Collector :=
  (report 60000 60000 (Sample.sighting 1)
    (start longestDelay.collector { contents := .memory .empty })).2

/-- The longest delay is accepted, and with it a flush runs into a trap at the first slot. The exact sums
would have it wait. -/
theorem longest_delay_traps_flush :
    longestDelay.validate = .ok () ∧ Within longestDelay.collector 60000 waiting ∧
      60000 ∈ waiting.buffer.slots ∧ ¬ Fits64 (waiting.buffer.readyAfter 60000) ∧
      (flushPids 60000 waiting).1 = .ok 0 ∧
      flushPids64 (.still 60000) waiting = (.error (.trapped .overflow), waiting) := by
  have hfits : ¬ Fits64 (waiting.buffer.readyAfter 60000) := by decide +kernel
  exact ⟨by decide, (Within.start _).report 60000 (by decide) (by decide) _, by decide +kernel, hfits,
    by decide +kernel, flushPids64_traps (by decide +kernel) (fun h => hfits h.2) _⟩

end Collector

end NetAtlas

import NetAtlas.Proofs.Collector.GraceDelay
import NetAtlas.Proofs.Collector.Interleavings

set_option autoImplicit false

/-!
# Ripe slots

A flush looks at the oldest slot only, and ends at the first one that is not ready or gives no sets. Older
slots are ready earlier, and no slot is held without agents. So a flush writes the slots that are ready,
all of them and no others, from the oldest one on.
-/
namespace NetAtlas

open Std

/-- Without its first key a map lists the rest of its entries. -/
theorem toList_erase_of_toList {α β : Type} {cmp : α → α → Ordering} [TransCmp cmp] [LawfulEqCmp cmp]
    {m : ExtTreeMap α β cmp} {k : α} {v : β} {rest : List (α × β)} (h : m.toList = (k, v) :: rest) :
    (m.erase k).toList = rest := by
  have herase : m.erase k = m.filter fun other _ => cmp k other != .eq := by
    apply ExtTreeMap.ext_getElem?
    intro other
    rw [ExtTreeMap.getElem?_erase, ExtTreeMap.getElem?_filter']
    by_cases hk : cmp k other = .eq <;> cases m[other]? <;> simp [hk, Option.filter]
  have hafter := h ▸ m.ordered_keys_toList
  rw [herase, ExtTreeMap.toList_filter, h, List.filter_cons_of_neg (by simp), List.filter_eq_self]
  intro x hx
  rw [(List.pairwise_cons.mp hafter).1 x hx]
  rfl

namespace PidBuffer

/-- The sets of the slots that are ready at a clock reading, the oldest slot first. -/
def ripe (b : PidBuffer) (now : Int64) : List PidSet :=
  (b.slots.toList.filter fun x => b.readyAfter x.1 < now.toInt).flatMap fun x => setsOf x.1 x.2

/-- The buffer without the slots that are ready. -/
def unripe (b : PidBuffer) (now : Int64) : PidBuffer :=
  { b with slots := b.slots.filter fun slot _ => ¬ b.readyAfter slot < now.toInt }

variable {b : PidBuffer} {now slot : Int64} {agents : AgentPids} {rest : List (Int64 × AgentPids)}

theorem getElem?_unripe (b : PidBuffer) (now slot : Int64) :
    (b.unripe now).slots[slot]? = if b.readyAfter slot < now.toInt then none else b.slots[slot]? := by
  rw [unripe, ExtTreeMap.getElem?_filter']
  by_cases h : b.readyAfter slot < now.toInt
  · rw [if_pos h]
    cases b.slots[slot]? <;> simp [h]
  · rw [if_neg h]
    cases b.slots[slot]? <;> simp [h]

theorem mem_ripe {set : PidSet} : set ∈ b.ripe now ↔
    b.held set.time set.agent = some set.pids ∧ b.readyAfter set.time < now.toInt := by
  rw [ripe, List.mem_flatMap, held]
  constructor
  · rintro ⟨⟨slot, agents⟩, hmem, hset⟩
    obtain ⟨hslot, hready⟩ := List.mem_filter.mp hmem
    obtain ⟨ht, hget⟩ := mem_setsOf.mp hset
    rw [ht, ExtTreeMap.mem_toList_iff_getElem?_eq_some.mp hslot]
    exact ⟨hget, of_decide_eq_true hready⟩
  · rintro ⟨hheld, hready⟩
    obtain ⟨agents, hslot, hget⟩ := Option.bind_eq_some_iff.mp hheld
    exact ⟨(set.time, agents), List.mem_filter.mpr
      ⟨ExtTreeMap.mem_toList_iff_getElem?_eq_some.mpr hslot, decide_eq_true hready⟩,
      mem_setsOf.mpr ⟨rfl, hget⟩⟩

/-- A set of an earlier slot, or of the same slot and an agent that comes first. -/
def Before (s t : PidSet) : Prop := s.time < t.time ∨ s.time = t.time ∧ s.agent < t.agent

theorem pairwise_before_setsOf (slot : Int64) (agents : AgentPids) :
    (setsOf slot agents).Pairwise Before := by
  rw [setsOf, List.pairwise_map]
  exact agents.ordered_keys_toList.imp fun h => Or.inr ⟨rfl, compareOfLessAndEq_eq_lt.mp h⟩

theorem pairwise_before_ripe (b : PidBuffer) (now : Int64) : (b.ripe now).Pairwise Before := by
  rw [ripe, List.pairwise_flatMap]
  refine ⟨fun x _ => pairwise_before_setsOf x.1 x.2, ?_⟩
  apply (b.slots.ordered_keys_toList.filter _).imp
  intro x y hlt s hs t ht
  left
  rw [(mem_setsOf.mp hs).1, (mem_setsOf.mp ht).1]
  exact compare_eq_lt.mp hlt

theorem readyAfter_lt {other : Int64} (h : slot < other) : b.readyAfter slot < b.readyAfter other := by
  have := Int64.lt_iff_toInt_lt.mp h
  unfold readyAfter
  omega

/-! ### The oldest slot -/

theorem drainReady_of_toList (h : b.slots.toList = (slot, agents) :: rest) (now : Int64) :
    b.drainReady now =
      if b.readyAfter slot < now.toInt then
        (setsOf slot agents, { b with slots := b.slots.erase slot })
      else ([], b) := by
  have hkeys : b.slots.keys.head? = some slot := by
    rw [← ExtTreeMap.map_fst_toList_eq_keys, h]
    rfl
  have hget : b.slots[slot]? = some agents :=
    ExtTreeMap.mem_toList_iff_getElem?_eq_some.mp (h ▸ List.mem_cons_self)
  rw [drainReady, drainOldest, hkeys]
  change ite (decide (b.readyAfter slot < now.toInt) = true)
    (setsOf slot (b.slots.getD slot ∅), _) _ = _
  simp only [decide_eq_true_eq]
  rw [ExtTreeMap.getD_eq_getD_getElem?, hget, Option.getD_some]

/-- If the oldest slot is not ready, none is. -/
theorem none_ready_or_oldest (b : PidBuffer) (now : Int64) :
    (∀ x ∈ b.slots.toList, ¬ b.readyAfter x.1 < now.toInt) ∨
      ∃ slot agents rest, b.slots.toList = (slot, agents) :: rest ∧ b.readyAfter slot < now.toInt := by
  rcases h : b.slots.toList with _ | ⟨⟨slot, agents⟩, rest⟩
  · exact Or.inl fun x hx => absurd hx List.not_mem_nil
  · by_cases hready : b.readyAfter slot < now.toInt
    · exact Or.inr ⟨slot, agents, rest, rfl, hready⟩
    · left
      intro x hx
      have hafter := h ▸ b.slots.ordered_keys_toList
      rcases List.mem_cons.mp hx with rfl | hx
      · exact hready
      · have hlater : b.readyAfter slot < b.readyAfter x.1 :=
          readyAfter_lt (compare_eq_lt.mp ((List.pairwise_cons.mp hafter).1 x hx))
        omega

theorem drainReady_of_not_ready (h : ∀ x ∈ b.slots.toList, ¬ b.readyAfter x.1 < now.toInt) :
    b.drainReady now = ([], b) := by
  rcases hlist : b.slots.toList with _ | ⟨⟨slot, agents⟩, rest⟩
  · rw [drainReady, drainOldest, ← ExtTreeMap.map_fst_toList_eq_keys, hlist]
    rfl
  · rw [drainReady_of_toList hlist, if_neg (h (slot, agents) (hlist ▸ List.mem_cons_self))]

theorem ripe_of_not_ready (h : ∀ x ∈ b.slots.toList, ¬ b.readyAfter x.1 < now.toInt) :
    b.ripe now = [] ∧ b.unripe now = b := by
  constructor
  · rw [ripe, List.filter_eq_nil_iff.mpr fun x hx => by simpa using h x hx]
    rfl
  · have hslots : (b.unripe now).slots = b.slots := by
      apply ExtTreeMap.ext_getElem?
      intro slot
      rw [getElem?_unripe]
      split
      · next hready =>
        cases hget : b.slots[slot]? with
        | none => rfl
        | some agents =>
          exact absurd hready (h (slot, agents) (ExtTreeMap.mem_toList_iff_getElem?_eq_some.mpr hget))
      · rfl
    change ({ b with slots := _ } : PidBuffer) = { b with slots := _ }
    congr 1

theorem ripe_of_ready (h : b.slots.toList = (slot, agents) :: rest)
    (hready : b.readyAfter slot < now.toInt) :
    b.ripe now = setsOf slot agents ++ ({ b with slots := b.slots.erase slot } : PidBuffer).ripe now := by
  rw [ripe, ripe, toList_erase_of_toList h, h, List.filter_cons_of_pos (by simpa using hready)]
  rfl

theorem unripe_of_ready (hready : b.readyAfter slot < now.toInt) :
    ({ b with slots := b.slots.erase slot } : PidBuffer).unripe now = b.unripe now := by
  have hslots : (({ b with slots := b.slots.erase slot } : PidBuffer).unripe now).slots =
      (b.unripe now).slots := by
    apply ExtTreeMap.ext_getElem?
    intro other
    rw [getElem?_unripe, getElem?_unripe, ExtTreeMap.getElem?_erase]
    change ite (b.readyAfter other < now.toInt) _ _ = _
    by_cases hsame : compare slot other = .eq
    · rw [← LawfulEqCmp.eq_of_compare hsame, if_pos hready, if_pos hready]
    · rw [if_neg hsame]
  change ({ b with slots := _ } : PidBuffer) = { b with slots := _ }
  congr 1

theorem setsOf_ne_nil (h : agents ≠ ∅) : setsOf slot agents ≠ [] := by
  rw [setsOf, Ne, List.map_eq_nil_iff, ExtTreeMap.toList_eq_nil_iff]
  exact h

/-- What a drain does that finds its slot ready. -/
structure DrainsOldest (b : PidBuffer) (now : Int64) : Prop where
  sets_ne_nil : (b.drainReady now).1 ≠ []
  ripe : b.ripe now = (b.drainReady now).1 ++ (b.drainReady now).2.ripe now
  unripe : (b.drainReady now).2.unripe now = b.unripe now
  size_lt : (b.drainReady now).2.size < b.size

theorem none_ready_or_drainsOldest (h : b.NoSlotEmpty) (now : Int64) :
    (∀ x ∈ b.slots.toList, ¬ b.readyAfter x.1 < now.toInt) ∨ b.DrainsOldest now := by
  rcases b.none_ready_or_oldest now with hnone | ⟨slot, agents, rest, hlist, hready⟩
  · exact Or.inl hnone
  · right
    have hdrain := drainReady_of_toList hlist now
    rw [if_pos hready] at hdrain
    have hget : b.slots[slot]? = some agents :=
      ExtTreeMap.mem_toList_iff_getElem?_eq_some.mp (hlist ▸ List.mem_cons_self)
    constructor
    · rw [hdrain]
      exact setsOf_ne_nil (h slot agents hget)
    · rw [hdrain]
      exact ripe_of_ready hlist hready
    · rw [hdrain]
      exact unripe_of_ready hready
    · rw [hdrain, size, size, ← ExtTreeMap.length_toList, ← ExtTreeMap.length_toList, hlist,
        toList_erase_of_toList hlist]
      exact Nat.lt_succ_self _

/-! ### Reachable buffers -/

/-- The buffers there can be: from an empty one pids are noted, slots are drained at any readings and by
any sums, and sets come back, in any order. -/
inductive Reachable : PidBuffer → Prop
  | empty (slotSize delay : Int64) : Reachable (.empty slotSize delay)
  | note {b : PidBuffer} (h : Reachable b) (slot : Int64) (agent : String) (pid : Int32) :
      Reachable (b.add slot agent {pid})
  | drainOldest {b : PidBuffer} (h : Reachable b) (ready : Int64 → Bool) :
      Reachable (b.drainOldest ready).2
  | drainAll {b : PidBuffer} (h : Reachable b) : Reachable b.drainAll.2
  | restore {b : PidBuffer} (h : Reachable b) (sets : List PidSet) : Reachable (b.restore sets)

theorem Reachable.noSlotEmpty (h : b.Reachable) : b.NoSlotEmpty := by
  induction h with
  | empty slotSize delay => exact noSlotEmpty_of_no_slots rfl
  | note _ slot agent pid ih => exact noSlotEmpty_add ih slot agent {pid}
  | drainOldest _ ready ih => exact noSlotEmpty_drainOldest ih ready
  | drainAll _ _ => exact noSlotEmpty_of_no_slots rfl
  | restore _ sets ih => exact noSlotEmpty_restore ih sets

end PidBuffer

/-- Threads that share a buffer reach no others. -/
theorem SharedBuffer.Run.reachable {Thread : Type} [DecidableEq Thread] {slotSize delay : Int64}
    {es : List Event} {s : SharedBuffer Thread} (h : Run (start slotSize delay) es s) :
    s.buffer.Reachable := by
  induction h with
  | refl => exact .empty slotSize delay
  | step _ hstep ih =>
    cases hstep with
    | find _ _ hheld => exact PidBuffer.add_of_addIfHeld hheld ▸ ih.note _ _ _
    | miss _ _ _ => exact ih
    | enter _ => exact ih.note _ _ _
    | drainOldest _ ready => exact ih.drainOldest ready
    | drainAll _ => exact ih.drainAll
    | restore _ sets => exact ih.restore sets

namespace Collector

variable {c : Collector} {now : Int64}

theorem reachable_writeSets (h : c.buffer.Reachable) (sets : List PidSet) :
    (writeSets sets c).2.buffer.Reachable := by
  obtain ⟨storage, back, _, hrun⟩ := exists_restored sets c
  rw [hrun]
  exact h.restore back

theorem reachable_afterReady (h : c.buffer.Reachable) (now : Int64) :
    (c.afterReady now).buffer.Reachable :=
  reachable_writeSets (c := c.withoutReady now) (h.drainOldest _) _

theorem reachable_flushReady (h : c.buffer.Reachable) (now : Int64) (fuel : Nat) :
    (flushReady now fuel c).2.buffer.Reachable :=
  flushReady_keeps (P := fun c => c.buffer.Reachable) (fun _ hc => reachable_afterReady hc now) fuel h

theorem reachable_flushPids64 (h : c.buffer.Reachable) (clock : Clock) :
    (flushPids64 clock c).2.buffer.Reachable :=
  flushPids64_keeps (P := fun c => c.buffer.Reachable) (fun now _ hc => reachable_afterReady hc now) clock h

theorem reachable_flushAllPids (h : c.buffer.Reachable) : (flushAllPids c).2.buffer.Reachable := by
  rw [flushAllPids_run]
  exact reachable_writeSets (c := c.withoutAll) h.drainAll _

theorem reachable_report (h : c.buffer.Reachable) (accepted noted : Int64) (o : Observation) :
    (report accepted noted o c).2.buffer.Reachable := by
  rw [report_run]
  split
  · by_cases hpid : 0 ≤ o.pid
    · rw [if_pos hpid, PidBuffer.increment_eq_add]
      exact h.note _ _ _
    · rw [if_neg hpid]
      exact h
  · exact h

theorem reachable_after (h : c.buffer.Reachable) (t : Turn) : (t.after c).buffer.Reachable := by
  cases t with
  | report accepted noted o => exact reachable_report h accepted noted o
  | flush now =>
    rw [Turn.after, Turn.act, discard_run]
    exact reachable_flushReady h now _
  | flushAll now =>
    rw [Turn.after, Turn.act, discard_run]
    exact reachable_flushAllPids h
  | restart now settings =>
    have hflush := reachable_flushAllPids h
    rw [Turn.after, Turn.act, exceptT_bind_run, discard_run]
    rcases hrun : flushAllPids c with ⟨e | n, c'⟩
    · rw [hrun] at hflush
      exact hflush
    · exact .empty settings.pidSlot settings.pidFlushDelay

theorem reachable_run (h : c.buffer.Reachable) (ts : List Turn) : (run ts c).buffer.Reachable := by
  induction ts generalizing c with
  | nil => exact h
  | cons t ts ih => exact ih (reachable_after h t)

/-! ### The loop of a flush -/

/-- The loop, however long it takes: the sets it wrote slot by slot, and how it ended. -/
inductive Flushes (now : Int64) : Collector → List PidSet → Except Error Nat × Collector → Prop
  | ended {c : Collector} (h : c.readySets now = []) : Flushes now c [] (.ok 0, c.withoutReady now)
  | failed {c c' : Collector} {e : Error} (h : c.readySets now ≠ [])
      (write : writeSets (c.readySets now) (c.withoutReady now) = (.error e, c')) :
      Flushes now c [] (.error e, c')
  | again {c c' : Collector} {written : List PidSet} {outcome : Except Error Nat × Collector}
      (h : c.readySets now ≠ [])
      (write : writeSets (c.readySets now) (c.withoutReady now) = (.ok (), c'))
      (rest : Flushes now c' written outcome) :
      Flushes now c (c.readySets now ++ written)
        (outcome.1.map (· + (c.readySets now).length), outcome.2)

theorem flushReady_of_nothing (h : c.readySets now = []) (fuel : Nat) :
    flushReady now (fuel + 1) c = (.ok 0, c.withoutReady now) := by
  rw [flushReady_run, h]
  rfl

theorem flushReady_of_written {c' : Collector} (h : c.readySets now ≠ [])
    (write : writeSets (c.readySets now) (c.withoutReady now) = (.ok (), c')) (fuel : Nat) :
    flushReady now (fuel + 1) c =
      ((flushReady now fuel c').1.map (· + (c.readySets now).length), (flushReady now fuel c').2) := by
  rw [flushReady_run, if_neg (by simpa using h), write]

theorem writeSets_of_forM {sets : List PidSet} {storage : Storage}
    (h : sets.forM PidRegistry.insert c.storage = (.ok (), storage)) :
    writeSets sets c = (.ok (), { c with storage }) := by
  induction sets generalizing c with
  | nil =>
    cases h
    rfl
  | cons set sets ih =>
    rw [List.forM_eq_forM, List.forM_cons, exceptT_bind_run] at h
    rw [writeSets_cons]
    rcases hput : PidRegistry.insert set c.storage with ⟨e | u, s⟩
    · rw [hput] at h
      cases h
    · rw [hput] at h
      exact ih (c := { c with storage := s }) h

/-- Puts in a row come through if those of the first part do and then those of the second one. -/
theorem forM_append_eq_ok {sets more : List PidSet} {s s' : Storage}
    (h : (sets ++ more).forM PidRegistry.insert s = (.ok (), s')) :
    ∃ s'', sets.forM PidRegistry.insert s = (.ok (), s'') ∧
      more.forM PidRegistry.insert s'' = (.ok (), s') := by
  rw [List.forM_eq_forM] at *
  rw [List.forM_append, exceptT_bind_run] at h
  rcases hfirst : forM sets PidRegistry.insert s with ⟨e | u, s''⟩
  · rw [hfirst] at h
    cases h
  · rw [hfirst] at h
    exact ⟨s'', rfl, h⟩

/-- How a flush ends if its loop comes to its end: the ready slots are written and gone. -/
structure Finishes (now : Int64) (fuel : Nat) (c : Collector) (storage : Storage) : Prop where
  run : flushReady now fuel c =
    (.ok (c.buffer.ripe now).length, { c with buffer := c.buffer.unripe now, storage })
  loop : Flushes now c (c.buffer.ripe now)
    (.ok (c.buffer.ripe now).length, { c with buffer := c.buffer.unripe now, storage })

theorem finishes_of_none_ready
    (h : ∀ x ∈ c.buffer.slots.toList, ¬ c.buffer.readyAfter x.1 < now.toInt) (fuel : Nat) :
    Finishes now fuel c c.storage := by
  have hdrain := PidBuffer.drainReady_of_not_ready h
  have hsets : c.readySets now = [] := congrArg Prod.fst hdrain
  have hwithout : c.withoutReady now = c := by rw [withoutReady, hdrain]
  obtain ⟨hripe, hunripe⟩ := PidBuffer.ripe_of_not_ready h
  have hended := Flushes.ended hsets
  rw [hwithout] at hended
  constructor
  · rw [hripe, hunripe]
    cases fuel with
    | zero => rfl
    | succ fuel =>
      rw [flushReady_of_nothing hsets, hwithout]
      rfl
  · rw [hripe, hunripe]
    exact hended

theorem finishes_of_drainsOldest {fuel : Nat} {s storage : Storage} (h : c.buffer.DrainsOldest now)
    (hwrite : (c.readySets now).forM PidRegistry.insert c.storage = (.ok (), s))
    (hrest : Finishes now fuel { c.withoutReady now with storage := s } storage) :
    Finishes now (fuel + 1) c storage := by
  have hwritten := writeSets_of_forM (c := c.withoutReady now) hwrite
  have hlength : (c.buffer.ripe now).length =
      ((c.withoutReady now).buffer.ripe now).length + (c.readySets now).length := by
    rw [h.ripe, List.length_append, Nat.add_comm]
    rfl
  have hloop := Flushes.again h.sets_ne_nil hwritten hrest.loop
  constructor
  · rw [flushReady_of_written h.sets_ne_nil hwritten, hrest.run, hlength, ← h.unripe]
    rfl
  · rw [hlength, ← h.unripe, h.ripe]
    exact hloop

/-- With a drain for each slot that is held, a flush comes to the end of its loop. -/
theorem finishes_of_size_le {fuel : Nat} {storage : Storage} (hslots : c.buffer.NoSlotEmpty)
    (hfuel : c.buffer.size ≤ fuel)
    (hputs : (c.buffer.ripe now).forM PidRegistry.insert c.storage = (.ok (), storage)) :
    Finishes now fuel c storage := by
  induction fuel generalizing c with
  | zero =>
    rcases PidBuffer.none_ready_or_drainsOldest hslots now with hnone | holdest
    · rw [(PidBuffer.ripe_of_not_ready hnone).1] at hputs
      cases hputs
      exact finishes_of_none_ready hnone 0
    · exact absurd holdest.size_lt (by omega)
  | succ fuel ih =>
    rcases PidBuffer.none_ready_or_drainsOldest hslots now with hnone | holdest
    · rw [(PidBuffer.ripe_of_not_ready hnone).1] at hputs
      cases hputs
      exact finishes_of_none_ready hnone (fuel + 1)
    -- the oldest slot is written and gone, so one drain less is enough for the rest
    · rw [holdest.ripe] at hputs
      obtain ⟨s, hwrite, hrest⟩ := forM_append_eq_ok hputs
      apply finishes_of_drainsOldest holdest hwrite
      apply ih (c := { c.withoutReady now with storage := s })
      · exact PidBuffer.noSlotEmpty_drainReady hslots now
      · exact Nat.le_of_lt_succ (Nat.lt_of_lt_of_le holdest.size_lt hfuel)
      · exact hrest

theorem differ_of_before {s t : PidSet} (h : PidBuffer.Before s t) : PidBuffer.Differ s t := by
  rintro ⟨htime, hagent⟩
  rcases h with hearlier | ⟨_, hbefore⟩
  · exact Int64.lt_irrefl (htime ▸ hearlier)
  · exact String.lt_irrefl _ (hagent ▸ hbefore)

/-- A flush whose puts do not fail comes to its end. It writes the sets of the slots whose end and grace
delay the clock reading has passed, and no others, each once, by slot and then by agent. It answers their
number and leaves the other slots as they were. With sums of 64 bits it does the same if these fit. What
was written is in the registry, and the sets of other agents and slots still are; nothing else is, in a
table that only the registry has written. -/
theorem flushPids_writes_ripe (h : c.buffer.Reachable) (now : Int64) {storage : Storage}
    (hputs : (c.buffer.ripe now).forM PidRegistry.insert c.storage = (.ok (), storage)) :
    ∃ c' : Collector,
      Flushes now c (c.buffer.ripe now) (.ok (c.buffer.ripe now).length, c') ∧
      flushPids now c = (.ok (c.buffer.ripe now).length, c') ∧
      (c.buffer.SumsFit → flushPids64 (.still now) c = (.ok (c.buffer.ripe now).length, c')) ∧
      c'.storage = storage ∧ c.Alike c' ∧
      (∀ set, set ∈ c.buffer.ripe now ↔ c.buffer.held set.time set.agent = some set.pids ∧
        set.time.toInt + max 1 c.buffer.slotSize.toInt + c.buffer.delay.toInt < now.toInt) ∧
      (c.buffer.ripe now).Pairwise PidBuffer.Before ∧
      (∀ slot : Int64, c'.buffer.slots[slot]? =
        if slot.toInt + max 1 c.buffer.slotSize.toInt + c.buffer.delay.toInt < now.toInt then none
        else c.buffer.slots[slot]?) ∧
      (∀ other ∈ c.storage.contents.pidSets,
        (∀ set ∈ c.buffer.ripe now, PidBuffer.Differ set other) → other ∈ c'.storage.contents.pidSets) ∧
      ((∀ set ∈ c.buffer.ripe now, c.storage.contents.fits (PidSet.encode set.pids)) →
        (∀ set ∈ c.buffer.ripe now, set ∈ c'.storage.contents.pidSets) ∧
        (c.storage.contents.PlainPids → ∀ set, set ∈ c'.storage.contents.pidSets ↔
          set ∈ c.buffer.ripe now ∨ set ∈ c.storage.contents.pidSets ∧
            ∀ written ∈ c.buffer.ripe now, PidBuffer.Differ written set)) := by
  obtain ⟨hrun, hloop⟩ := finishes_of_size_le h.noSlotEmpty (Nat.le_refl _) hputs
  have hapart : (c.buffer.ripe now).Pairwise PidBuffer.Differ :=
    (c.buffer.pairwise_before_ripe now).imp differ_of_before
  have hwrites : (c.buffer.ripe now).foldlM Contents.writePids c.storage.contents = .ok storage.contents :=
    writeSets_eq_ok (writeSets_of_forM hputs)
  obtain ⟨hstored, hkept⟩ := Contents.mem_pidSets_of_writes hwrites hapart
  refine ⟨_, hloop, hrun, fun hfits => ?_, rfl, ⟨rfl, rfl, rfl⟩, fun _ => PidBuffer.mem_ripe,
    c.buffer.pairwise_before_ripe now, c.buffer.getElem?_unripe now, hkept, fun hfits =>
    ⟨hstored hfits, fun hplain => Contents.mem_pidSets_iff_of_writes hwrites hapart hplain hfits⟩⟩
  have hexact : flushPids now c = _ := hrun
  rw [flushPids64_eq hfits, hexact]
  rfl

/-- Three pids in three slots. A first flush finds one slot ready, and its put fails. -/
def heldBack : List Turn :=
  [.report 60000 60000 (Sample.sighting 1), .report 119999 120000 (Sample.sighting 2),
    .report 500000 500000 (Sample.sighting 3), .flush 300001]

theorem flushPids_writes_ripe_heldBack :
    let c := run heldBack firstPutFails
    let written : List PidSet := [⟨"A", 60000, {1}⟩, ⟨"A", 120000, {2}⟩]
    c.buffer.Reachable ∧ (written.forM PidRegistry.insert c.storage).1.isOk ∧
      c.storage.contents.pidSets = [] ∧
      ∃ c', Flushes 400000 c written (.ok 2, c') ∧ flushPids 400000 c = (.ok 2, c') ∧
        c'.buffer.slots[(480000 : Int64)]? = c.buffer.slots[(480000 : Int64)]? ∧
        ∀ set, set ∈ c'.storage.contents.pidSets ↔ set ∈ written := by
  intro c written
  have hreachable : c.buffer.Reachable := reachable_run (.empty _ _) heldBack
  have hripe : c.buffer.ripe 400000 = written := by decide +kernel
  have hnone : c.storage.contents.pidSets = [] := by decide +kernel
  have hok : (written.forM PidRegistry.insert c.storage).1.isOk := by decide +kernel
  have hputs : (c.buffer.ripe 400000).forM PidRegistry.insert c.storage =
      (.ok (), (written.forM PidRegistry.insert c.storage).2) := by
    rw [hripe]
    rcases hput : written.forM PidRegistry.insert c.storage with ⟨e | u, storage⟩
    · rw [hput] at hok
      cases hok
    · rfl
  obtain ⟨c', hloop, hrun, _, _, _, _, _, hslots, _, hstored⟩ := flushPids_writes_ripe hreachable 400000 hputs
  obtain ⟨_, hexactly⟩ := hstored fun _ _ => trivial
  rw [hripe] at hloop hrun hexactly
  refine ⟨hreachable, hok, hnone, c', hloop, hrun, ?_, fun set => ?_⟩
  · rw [hslots, if_neg (by decide +kernel)]
  · rw [hexactly trivial, hnone]
    exact or_iff_left fun hold => List.not_mem_nil hold.1

end Collector

end NetAtlas

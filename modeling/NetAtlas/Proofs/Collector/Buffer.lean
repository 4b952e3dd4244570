import Mathlib.Data.List.Basic
import NetAtlas.Collector.PidBuffer
import NetAtlas.Proofs.Bags
import NetAtlas.Proofs.Time.Fits

set_option autoImplicit false

/-!
# What the pid buffer holds

The buffer holds at most one set for each slot and agent. Noting a pid adds to one of these sets, a drain
takes some of them out whole, and sets that come back are held again as they were.
-/
namespace NetAtlas

open Std

namespace PidBuffer

/-- The set held for a slot and an agent, if there is one. -/
def held (b : PidBuffer) (slot : Int64) (agent : String) : Option PidGroup :=
  b.slots[slot]?.bind (·[agent]?)

theorem held_of_no_slots {b : PidBuffer} (h : b.slots = ∅) (slot : Int64) (agent : String) :
    b.held slot agent = none := by
  rw [held, h, ExtTreeMap.getElem?_empty, Option.bind_none]

theorem held_eq_getD (b : PidBuffer) (slot : Int64) (agent : String) :
    b.held slot agent = (b.slots.getD slot ∅)[agent]? := by
  rw [held, ExtTreeMap.getD_eq_getD_getElem?]
  cases b.slots[slot]? with
  | none => rw [Option.getD_none, ExtTreeMap.getElem?_empty, Option.bind_none]
  | some agents => rfl

theorem pids_eq_held (b : PidBuffer) (slot : Int64) (agent : String) :
    b.pids slot agent = (b.held slot agent).getD ∅ := by
  rw [pids, held_eq_getD, ExtTreeMap.getD_eq_getD_getElem?]

theorem getElem?_addPids (agents : AgentPids) (agent other : String) (pids : PidGroup) :
    (addPids agents agent pids)[other]? =
      if agent = other then some (agents[other]?.getD ∅ ∪ pids) else agents[other]? := by
  rw [addPids, ExtTreeMap.getElem?_alter]
  by_cases h : agent = other
  · subst h
    rw [if_pos ReflCmp.compare_self, if_pos rfl]
  · rw [if_neg fun hc => h (LawfulEqCmp.eq_of_compare hc), if_neg h]

theorem held_add (b : PidBuffer) (slot other : Int64) (agent name : String) (pids : PidGroup) :
    (b.add slot agent pids).held other name =
      if slot = other ∧ agent = name then some ((b.held other name).getD ∅ ∪ pids)
      else b.held other name := by
  by_cases hs : slot = other
  · subst hs
    rw [held_eq_getD b, ExtTreeMap.getD_eq_getD_getElem?, held, add, ExtTreeMap.getElem?_alter,
      if_pos ReflCmp.compare_self, Option.bind_some, getElem?_addPids]
    exact if_congr (and_iff_right rfl).symm rfl rfl
  · rw [held, held, add, ExtTreeMap.getElem?_alter,
      if_neg fun hc => hs (LawfulEqCmp.eq_of_compare hc), if_neg fun hc => hs hc.1]

theorem mem_pids_add {b : PidBuffer} {slot other : Int64} {agent name : String} {pids : PidGroup}
    {pid : Int32} : pid ∈ (b.add slot agent pids).pids other name ↔
      pid ∈ b.pids other name ∨ slot = other ∧ agent = name ∧ pid ∈ pids := by
  rw [pids_eq_held, pids_eq_held, held_add]
  by_cases h : slot = other ∧ agent = name
  · rw [if_pos h, Option.getD_some, ExtTreeSet.mem_union_iff]
    simp only [h, true_and]
  · rw [if_neg h]
    constructor
    · exact Or.inl
    · rintro (hpid | ⟨hslot, hagent, _⟩)
      · exact hpid
      · exact absurd ⟨hslot, hagent⟩ h

/-- A pid is added to a slot that is held as to any other. -/
theorem add_of_addIfHeld {b b' : PidBuffer} {slot : Int64} {agent : String} {pid : Int32}
    (h : b.addIfHeld slot agent pid = some b') : b' = b.add slot agent {pid} := by
  obtain ⟨agents, hslot, rfl⟩ := Option.map_eq_some_iff.mp h
  change ({ b with slots := _ } : PidBuffer) = { b with slots := _ }
  congr 1
  apply ExtTreeMap.ext_getElem?
  intro other
  rw [ExtTreeMap.getElem?_insert, ExtTreeMap.getElem?_alter, hslot]
  rfl

/-- Noting a pid is the same whether its slot is held or not. -/
theorem increment_eq_add (b : PidBuffer) (now : Int64) (agent : String) (pid : Int32) :
    b.increment now agent pid = b.add (slotOf now b.slotSize) agent {pid} := by
  rw [increment]
  cases h : b.addIfHeld (slotOf now b.slotSize) agent pid with
  | none => rfl
  | some b' => exact add_of_addIfHeld h

/-- Two sets of different slots or agents. -/
def Differ (s t : PidSet) : Prop := ¬ (s.time = t.time ∧ s.agent = t.agent)

/-- Sets that were taken out: one for each slot and agent, none of which is held. -/
structure InHand (b : PidBuffer) (sets : List PidSet) : Prop where
  apart : sets.Pairwise Differ
  free : ∀ set ∈ sets, b.held set.time set.agent = none

theorem InHand.tail {b : PidBuffer} {set : PidSet} {sets : List PidSet} (h : b.InHand (set :: sets)) :
    b.InHand sets :=
  ⟨(List.pairwise_cons.mp h.apart).2, fun s hs => h.free s (List.mem_cons_of_mem _ hs)⟩

theorem InHand.add {b : PidBuffer} {set : PidSet} {sets : List PidSet} (h : b.InHand (set :: sets)) :
    (b.add set.time set.agent set.pids).InHand sets := by
  obtain ⟨hhead, htail⟩ := List.pairwise_cons.mp h.apart
  refine ⟨htail, fun s hs => ?_⟩
  rw [held_add, if_neg (hhead s hs)]
  exact h.free s (List.mem_cons_of_mem _ hs)

theorem empty_union_pids (pids : PidGroup) : ∅ ∪ pids = pids := by
  apply ExtTreeSet.ext_mem
  intro pid
  rw [ExtTreeSet.mem_union_iff]
  exact or_iff_right ExtTreeSet.not_mem_empty

theorem InHand.find?_tail {b : PidBuffer} {set : PidSet} {sets : List PidSet} {slot : Int64}
    {agent : String} (h : b.InHand (set :: sets)) (hset : set.time = slot ∧ set.agent = agent) :
    (sets.find? fun other => other.time = slot ∧ other.agent = agent) = none := by
  apply List.find?_eq_none.mpr
  intro other hother ho
  obtain ⟨ht, ha⟩ := of_decide_eq_true ho
  exact (List.pairwise_cons.mp h.apart).1 other hother ⟨hset.1.trans ht.symm, hset.2.trans ha.symm⟩

/-- Sets that come back are held again, beside what was held meanwhile. -/
theorem InHand.held_restore {b : PidBuffer} {sets : List PidSet} (h : b.InHand sets) (slot : Int64)
    (agent : String) :
    (b.restore sets).held slot agent =
      match sets.find? fun set => set.time = slot ∧ set.agent = agent with
      | some set => some set.pids
      | none => b.held slot agent := by
  induction sets generalizing b with
  | nil => rfl
  | cons set sets ih =>
    change ((b.add set.time set.agent set.pids).restore sets).held slot agent = _
    rw [ih h.add, List.find?_cons]
    by_cases hset : set.time = slot ∧ set.agent = agent
    · have hnone := h.find?_tail hset
      obtain ⟨rfl, rfl⟩ := hset
      rw [hnone, held_add, if_pos ⟨rfl, rfl⟩, h.free set List.mem_cons_self, Option.getD_none,
        empty_union_pids, decide_eq_true ⟨rfl, rfl⟩]
    · rw [held_add, if_neg hset, decide_eq_false hset]

theorem InHand.held_restore_head {b : PidBuffer} {set : PidSet} {sets : List PidSet}
    (h : b.InHand (set :: sets)) : (b.restore (set :: sets)).held set.time set.agent = some set.pids := by
  rw [h.held_restore, List.find?_cons, decide_eq_true ⟨rfl, rfl⟩]

theorem InHand.held_restore_cons {b : PidBuffer} {set : PidSet} {sets : List PidSet}
    (h : b.InHand (set :: sets)) (slot : Int64) (agent : String) :
    (b.restore sets).held slot agent =
      if set.time = slot ∧ set.agent = agent then none
      else (b.restore (set :: sets)).held slot agent := by
  rw [h.tail.held_restore, h.held_restore, List.find?_cons]
  by_cases hset : set.time = slot ∧ set.agent = agent
  · rw [if_pos hset, h.find?_tail hset, ← hset.1, ← hset.2]
    exact h.free set List.mem_cons_self
  · rw [if_neg hset, decide_eq_false hset]

/-- What a drain does: the sets it gives are no longer held, the others still are. -/
structure Drains (b : PidBuffer) (sets : List PidSet) (b' : PidBuffer) : Prop where
  inHand : b'.InHand sets
  held : ∀ slot agent, (b'.restore sets).held slot agent = b.held slot agent
  slotSize : b'.slotSize = b.slotSize
  delay : b'.delay = b.delay

theorem mem_setsOf {slot : Int64} {agents : AgentPids} {set : PidSet} :
    set ∈ setsOf slot agents ↔ set.time = slot ∧ agents[set.agent]? = some set.pids := by
  rw [setsOf, List.mem_map]
  constructor
  · rintro ⟨⟨agent, pids⟩, hmem, rfl⟩
    exact ⟨rfl, ExtTreeMap.mem_toList_iff_getElem?_eq_some.mp hmem⟩
  · rintro ⟨rfl, hget⟩
    exact ⟨(set.agent, set.pids), ExtTreeMap.mem_toList_iff_getElem?_eq_some.mpr hget, rfl⟩

theorem pairwise_setsOf (slot : Int64) (agents : AgentPids) : (setsOf slot agents).Pairwise Differ := by
  rw [setsOf, List.pairwise_map]
  apply ExtTreeMap.distinct_keys_toList.imp
  rintro ⟨agent, _⟩ ⟨other, _⟩ hne ⟨_, rfl⟩
  exact hne ReflCmp.compare_self

/-- To drain is to take out sets that are held and nothing else. -/
theorem drains_of_held {b b' : PidBuffer} {sets : List PidSet} (hapart : sets.Pairwise Differ)
    (htaken : ∀ set ∈ sets, b.held set.time set.agent = some set.pids ∧
      b'.held set.time set.agent = none)
    (hleft : ∀ slot agent, (∀ set ∈ sets, ¬ (set.time = slot ∧ set.agent = agent)) →
      b'.held slot agent = b.held slot agent)
    (hsize : b'.slotSize = b.slotSize) (hdelay : b'.delay = b.delay) : b.Drains sets b' := by
  have hhand : b'.InHand sets := ⟨hapart, fun set hset => (htaken set hset).2⟩
  refine ⟨hhand, fun slot agent => ?_, hsize, hdelay⟩
  rw [hhand.held_restore]
  cases hfind : sets.find? fun set => set.time = slot ∧ set.agent = agent with
  | none =>
    apply hleft
    intro set hset hsame
    exact List.find?_eq_none.mp hfind set hset (decide_eq_true hsame)
  | some set =>
    have hsame := List.find?_some hfind
    obtain ⟨rfl, rfl⟩ := of_decide_eq_true hsame
    exact (htaken set (List.mem_of_find?_eq_some hfind)).1.symm

theorem drainOldest_drains (b : PidBuffer) (ready : Int64 → Bool) :
    b.Drains (b.drainOldest ready).1 (b.drainOldest ready).2 ∧
      ∀ set ∈ (b.drainOldest ready).1, ready set.time := by
  have hnone : b.Drains [] b :=
    ⟨⟨List.Pairwise.nil, fun _ h => absurd h List.not_mem_nil⟩, fun _ _ => rfl, rfl, rfl⟩
  rw [drainOldest]
  split
  · next slot _ =>
    split
    · next hready =>
      refine ⟨drains_of_held (pairwise_setsOf slot _) (fun set hset => ?_) ?_ rfl rfl, ?_⟩
      · obtain ⟨ht, hget⟩ := mem_setsOf.mp hset
        rw [held_eq_getD, held, ExtTreeMap.getElem?_erase, ht, if_pos ReflCmp.compare_self,
          Option.bind_none]
        exact ⟨hget, rfl⟩
      · intro other agent hother
        rw [held, ExtTreeMap.getElem?_erase]
        by_cases hs : slot = other
        · subst hs
          rw [if_pos ReflCmp.compare_self, Option.bind_none, held_eq_getD]
          cases hget : (b.slots.getD slot ∅)[agent]? with
          | none => rfl
          | some pids =>
            exact absurd ⟨rfl, rfl⟩ (hother ⟨agent, slot, pids⟩ (mem_setsOf.mpr ⟨rfl, hget⟩))
        · rw [if_neg fun hc => hs (LawfulEqCmp.eq_of_compare hc), held]
      · intro set hset
        rw [(mem_setsOf.mp hset).1]
        exact hready
    · exact ⟨hnone, fun _ h => absurd h List.not_mem_nil⟩
  · exact ⟨hnone, fun _ h => absurd h List.not_mem_nil⟩

theorem drainReady_drains (b : PidBuffer) (now : Int64) :
    b.Drains (b.drainReady now).1 (b.drainReady now).2 ∧
      ∀ set ∈ (b.drainReady now).1, b.readyAfter set.time < now.toInt := by
  obtain ⟨hdrains, hready⟩ := b.drainOldest_drains fun slot => b.readyAfter slot < now.toInt
  exact ⟨hdrains, fun set hset => of_decide_eq_true (hready set hset)⟩

/-- Both sums that tell whether a slot is ready fit. -/
def SumFits (b : PidBuffer) (slot : Int64) : Prop :=
  Fits64 (slot.toInt + max 1 b.slotSize.toInt) ∧ Fits64 (b.readyAfter slot)

instance (b : PidBuffer) (slot : Int64) : Decidable (b.SumFits slot) :=
  inferInstanceAs (Decidable (_ ∧ _))

theorem readyAfter64_of_fits {b : PidBuffer} {slot : Int64} (h : b.SumFits slot) :
    ∃ after, b.readyAfter64 slot = .ok after ∧ after.toInt = b.readyAfter slot := by
  obtain ⟨hend, hready⟩ := h
  have hmax : (max 1 b.slotSize).toInt = max 1 b.slotSize.toInt := toInt_max 1 b.slotSize
  rw [← hmax] at hend
  have hsum : (slot + max 1 b.slotSize).toInt = slot.toInt + (max 1 b.slotSize).toInt :=
    toInt_add_of_fits hend
  rw [readyAfter, ← hmax, ← hsum] at hready
  refine ⟨slot + max 1 b.slotSize + b.delay, ?_, ?_⟩
  · rw [readyAfter64, addTrapping_eq_ok.mpr hsum]
    exact addTrapping_eq_ok.mpr (toInt_add_of_fits hready)
  · rw [toInt_add_of_fits hready, hsum, hmax, readyAfter]

theorem readyAfter64_of_not_fits {b : PidBuffer} {slot : Int64} (h : ¬ b.SumFits slot) :
    b.readyAfter64 slot = .error .overflow := by
  have hmax : (max 1 b.slotSize).toInt = max 1 b.slotSize.toInt := toInt_max 1 b.slotSize
  rw [SumFits, readyAfter, ← hmax] at h
  rw [readyAfter64]
  by_cases hend : Fits64 (slot.toInt + (max 1 b.slotSize).toInt)
  · have hsum : (slot + max 1 b.slotSize).toInt = slot.toInt + (max 1 b.slotSize).toInt :=
      toInt_add_of_fits hend
    rw [addTrapping_eq_ok.mpr hsum]
    exact addTrapping_of_not_fits fun hready => h ⟨hend, hsum ▸ hready⟩
  · rw [addTrapping_of_not_fits hend]
    rfl

/-- Where the sums of the oldest slot fit, a drain in 64 bits is the exact one. -/
theorem drainReady64_of_fits {b : PidBuffer} (h : ∀ slot, b.slots.keys.head? = some slot → b.SumFits slot)
    (now : Int64) : b.drainReady64 now = .ok (b.drainReady now) := by
  rw [drainReady64, drainReady, drainOldest]
  cases hhead : b.slots.keys.head? with
  | none => rfl
  | some slot =>
    obtain ⟨after, hafter, hexact⟩ := readyAfter64_of_fits (h slot hhead)
    change (b.readyAfter64 slot >>= fun after => pure (b.drainOldest fun _ => after < now)) = _
    rw [hafter]
    change Except.ok (b.drainOldest fun _ => after < now) = _
    simp only [drainOldest, hhead, Int64.lt_iff_toInt_lt, hexact]

/-- Where they do not, it runs into a trap. -/
theorem drainReady64_of_not_fits {b : PidBuffer} {slot : Int64} (hhead : b.slots.keys.head? = some slot)
    (h : ¬ b.SumFits slot) (now : Int64) : b.drainReady64 now = .error .overflow := by
  rw [drainReady64, hhead]
  change (b.readyAfter64 slot >>= fun after => pure (b.drainOldest fun _ => after < now)) = _
  rw [readyAfter64_of_not_fits h]
  rfl

theorem drainReady_of_drainReady64 {b : PidBuffer} {now : Int64} {drained : List PidSet × PidBuffer}
    (h : b.drainReady64 now = .ok drained) : b.drainReady now = drained := by
  by_cases hfits : ∀ slot, b.slots.keys.head? = some slot → b.SumFits slot
  · rw [drainReady64_of_fits hfits] at h
    exact Except.ok.inj h
  · simp only [not_forall] at hfits
    obtain ⟨slot, hhead, hslot⟩ := hfits
    rw [drainReady64_of_not_fits hhead hslot] at h
    cases h

theorem mem_drainAll {b : PidBuffer} {set : PidSet} :
    set ∈ b.drainAll.1 ↔ b.held set.time set.agent = some set.pids := by
  rw [drainAll, List.mem_flatMap, held]
  constructor
  · rintro ⟨⟨slot, agents⟩, hmem, hset⟩
    obtain ⟨ht, hget⟩ := mem_setsOf.mp hset
    rw [ht, ExtTreeMap.mem_toList_iff_getElem?_eq_some.mp hmem]
    exact hget
  · intro h
    obtain ⟨agents, hslot, hget⟩ := Option.bind_eq_some_iff.mp h
    exact ⟨(set.time, agents), ExtTreeMap.mem_toList_iff_getElem?_eq_some.mpr hslot,
      mem_setsOf.mpr ⟨rfl, hget⟩⟩

theorem drainAll_drains (b : PidBuffer) : b.Drains b.drainAll.1 b.drainAll.2 := by
  have hempty : ∀ slot agent, b.drainAll.2.held slot agent = none := held_of_no_slots rfl
  refine drains_of_held ?_ (fun set hset => ⟨mem_drainAll.mp hset, hempty _ _⟩) ?_ rfl rfl
  · rw [drainAll, List.pairwise_flatMap]
    refine ⟨fun x _ => pairwise_setsOf x.1 x.2, ?_⟩
    apply ExtTreeMap.distinct_keys_toList.imp
    intro x y hne s hs t ht hsame
    rw [(mem_setsOf.mp hs).1, (mem_setsOf.mp ht).1] at hsame
    exact hne (by rw [hsame.1]; exact ReflCmp.compare_self)
  · intro slot agent hother
    rw [hempty]
    cases hheld : b.held slot agent with
    | none => rfl
    | some pids => exact absurd ⟨rfl, rfl⟩ (hother ⟨agent, slot, pids⟩ (mem_drainAll.mpr hheld))

end PidBuffer

end NetAtlas

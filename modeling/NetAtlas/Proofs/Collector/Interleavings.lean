import Mathlib.Data.List.Induction
import Mathlib.Logic.Function.Basic
import Mathlib.Tactic.Tauto
import NetAtlas.Proofs.Collector.Buffer

set_option autoImplicit false

/-!
# Threads at one pid buffer

Threads share a pid buffer. Noting a pid is one step if its slot is held. Otherwise it is two, and other
threads may make, fill, drain and restore the slot between them. However their steps interleave, the
buffer and the drained sets that did not come back have exactly the pids that were noted or brought back,
and no slot is held without agents.
-/
namespace NetAtlas

open Std

/-- A pid of an agent in a slot. -/
structure Sighting where
  slot : Int64
  agent : String
  pid : Int32
  deriving DecidableEq

def Sighting.among (x : Sighting) (sets : List PidSet) : Prop :=
  ∃ set ∈ sets, set.time = x.slot ∧ set.agent = x.agent ∧ x.pid ∈ set.pids

namespace PidBuffer

variable {b b' : PidBuffer} {x : Sighting}

def Holds (b : PidBuffer) (x : Sighting) : Prop := x.pid ∈ b.pids x.slot x.agent

/-- No slot is held without agents. -/
def NoSlotEmpty (b : PidBuffer) : Prop :=
  ∀ (slot : Int64) (agents : AgentPids), b.slots[slot]? = some agents → agents ≠ ∅

theorem holds_add {slot : Int64} {agent : String} {pids : PidGroup} :
    (b.add slot agent pids).Holds x ↔
      b.Holds x ∨ slot = x.slot ∧ agent = x.agent ∧ x.pid ∈ pids := mem_pids_add

theorem holds_note (b : PidBuffer) (x y : Sighting) :
    (b.add y.slot y.agent {y.pid}).Holds x ↔ b.Holds x ∨ y = x := by
  have hpid : x.pid ∈ ({y.pid} : PidGroup) ↔ y.pid = x.pid :=
    (ExtTreeSet.mem_insert.trans (or_iff_left ExtTreeSet.not_mem_empty)).trans
      LawfulEqCmp.compare_eq_iff_eq
  rw [holds_add, hpid]
  apply or_congr_right
  cases x
  cases y
  simp

theorem holds_restore (sets : List PidSet) : (b.restore sets).Holds x ↔ b.Holds x ∨ x.among sets := by
  induction sets generalizing b with
  | nil => simp [restore, Sighting.among]
  | cons set sets ih =>
    change ((b.add set.time set.agent set.pids).restore sets).Holds x ↔ _
    rw [ih, holds_add, or_assoc]
    apply or_congr_right
    simp [Sighting.among]

theorem Drains.holds_iff {sets : List PidSet} (h : b.Drains sets b') :
    (b'.Holds x ↔ b.Holds x ∧ ¬ x.among sets) ∧ (x.among sets → b.Holds x) := by
  -- bringing the drained sets back gives the buffer from before
  have hback : b.Holds x ↔ b'.Holds x ∨ x.among sets := by
    rw [← holds_restore, Holds, Holds, pids_eq_held, pids_eq_held, h.held]
  have hfree : x.among sets → ¬ b'.Holds x := by
    rintro ⟨set, hset, hslot, hagent, _⟩
    rw [Holds, pids_eq_held, ← hslot, ← hagent, h.inHand.free set hset]
    exact ExtTreeSet.not_mem_empty
  rw [hback]
  tauto

theorem noSlotEmpty_add (h : b.NoSlotEmpty) (slot : Int64) (agent : String) (pids : PidGroup) :
    (b.add slot agent pids).NoSlotEmpty := by
  intro other agents hagents
  rw [add, ExtTreeMap.getElem?_alter] at hagents
  split at hagents
  · cases hagents
    intro hempty
    have hnone := getElem?_addPids (b.slots[slot]?.getD ∅) agent agent pids
    rw [hempty, if_pos rfl, ExtTreeMap.getElem?_empty] at hnone
    cases hnone
  · exact h other agents hagents

theorem noSlotEmpty_restore (h : b.NoSlotEmpty) (sets : List PidSet) : (b.restore sets).NoSlotEmpty := by
  induction sets generalizing b with
  | nil => exact h
  | cons set sets ih => exact ih (noSlotEmpty_add h set.time set.agent set.pids)

theorem noSlotEmpty_drainOldest (h : b.NoSlotEmpty) (ready : Int64 → Bool) :
    (b.drainOldest ready).2.NoSlotEmpty := by
  rw [drainOldest]
  split
  · split
    · intro slot agents hagents
      rw [ExtTreeMap.getElem?_erase] at hagents
      split at hagents
      · cases hagents
      · exact h slot agents hagents
    · exact h
  · exact h

theorem noSlotEmpty_drainReady (h : b.NoSlotEmpty) (now : Int64) : (b.drainReady now).2.NoSlotEmpty :=
  noSlotEmpty_drainOldest h _

theorem noSlotEmpty_of_no_slots (h : b.slots = ∅) : b.NoSlotEmpty := by
  intro slot agents hagents
  rw [h, ExtTreeMap.getElem?_empty] at hagents
  cases hagents

end PidBuffer

/-- A buffer and, for each thread, the pid it could not note yet because its slot was not held. -/
structure SharedBuffer (Thread : Type) where
  buffer : PidBuffer
  waiting : Thread → Option Sighting

namespace SharedBuffer

/-- What a step of a thread does: a pid is noted, or is not because its slot is not held; sets are taken
out, or brought back. -/
inductive Event
  | noted (x : Sighting)
  | missed (x : Sighting)
  | drained (sets : List PidSet)
  | restored (sets : List PidSet)

namespace Event

variable (x : Sighting)

def Puts : Event → Prop
  | noted y => y = x
  | missed _ => False
  | drained _ => False
  | restored sets => x.among sets

def Takes : Event → Prop
  | drained sets => x.among sets
  | _ => False

def Restores : Event → Prop
  | restored sets => x.among sets
  | _ => False

end Event

variable {Thread : Type} [DecidableEq Thread]

def start (slotSize delay : Int64) : SharedBuffer Thread := ⟨.empty slotSize delay, fun _ => none⟩

/-- The steps threads take, with any clock readings. A thread that waits to note a pid does that next. A
drain may test its slot in any way; one that runs into a trap takes nothing out and is no step. -/
inductive Step (s : SharedBuffer Thread) (t : Thread) : Event → SharedBuffer Thread → Prop
  | find {now : Int64} {x : Sighting} {b : PidBuffer} (hidle : s.waiting t = none)
      (hslot : x.slot = slotOf now s.buffer.slotSize)
      (hheld : s.buffer.addIfHeld x.slot x.agent x.pid = some b) :
      Step s t (.noted x) { s with buffer := b }
  | miss {now : Int64} {x : Sighting} (hidle : s.waiting t = none)
      (hslot : x.slot = slotOf now s.buffer.slotSize)
      (hnone : s.buffer.addIfHeld x.slot x.agent x.pid = none) :
      Step s t (.missed x) { s with waiting := Function.update s.waiting t (some x) }
  | enter {x : Sighting} (hwaits : s.waiting t = some x) :
      Step s t (.noted x) ⟨s.buffer.add x.slot x.agent {x.pid}, Function.update s.waiting t none⟩
  | drainOldest (hidle : s.waiting t = none) (ready : Int64 → Bool) :
      Step s t (.drained (s.buffer.drainOldest ready).1)
        { s with buffer := (s.buffer.drainOldest ready).2 }
  | drainAll (hidle : s.waiting t = none) :
      Step s t (.drained s.buffer.drainAll.1) { s with buffer := s.buffer.drainAll.2 }
  | restore (hidle : s.waiting t = none) (sets : List PidSet) :
      Step s t (.restored sets) { s with buffer := s.buffer.restore sets }

/-- The steps of any threads one after another, and what they did. -/
inductive Run (first : SharedBuffer Thread) : List Event → SharedBuffer Thread → Prop
  | refl : Run first [] first
  | step {es : List Event} {e : Event} {s s' : SharedBuffer Thread} {t : Thread} (h : Run first es s)
      (hstep : Step s t e s') : Run first (es ++ [e]) s'

/-- Something happened and another thing did not since. -/
def Since (happened undone : Event → Prop) (es : List Event) : Prop :=
  ∃ before e after, es = before ++ e :: after ∧ happened e ∧ ∀ f ∈ after, ¬ undone f

theorem since_concat {happened undone : Event → Prop} {es : List Event} {e : Event} :
    Since happened undone (es ++ [e]) ↔ happened e ∨ Since happened undone es ∧ ¬ undone e := by
  constructor
  · rintro ⟨before, f, after, hes, hf, hafter⟩
    induction after using List.reverseRecOn with
    | nil =>
      obtain ⟨_, hlast⟩ := List.append_inj' hes rfl
      cases hlast
      exact Or.inl hf
    | append_singleton after last _ =>
      rw [← List.cons_append, ← List.append_assoc] at hes
      obtain ⟨rfl, hlast⟩ := List.append_inj' hes rfl
      cases hlast
      exact Or.inr ⟨⟨before, f, after, rfl, hf, fun g hg => hafter g (List.mem_append_left _ hg)⟩,
        hafter e List.mem_concat_self⟩
  · rintro (he | ⟨⟨before, f, after, rfl, hf, hafter⟩, he⟩)
    · exact ⟨es, e, [], rfl, he, fun _ h => absurd h List.not_mem_nil⟩
    · refine ⟨before, f, after ++ [e], by simp, hf, fun g hg => ?_⟩
      rcases List.mem_append.mp hg with hg | hg
      · exact hafter g hg
      · rw [List.mem_singleton.mp hg]
        exact he

theorem not_since_nil {happened undone : Event → Prop} : ¬ Since happened undone [] := by
  rintro ⟨before, e, after, hes, _⟩
  exact List.append_ne_nil_of_right_ne_nil before (List.cons_ne_nil e after) hes.symm

/-- A thread that nothing comes between notes a pid as the buffer does on its own. -/
theorem exists_run_increment {s : SharedBuffer Thread} {t : Thread} (hidle : s.waiting t = none)
    (now : Int64) (agent : String) (pid : Int32) :
    ∃ es, Run s es { s with buffer := s.buffer.increment now agent pid } := by
  have hslot : (⟨slotOf now s.buffer.slotSize, agent, pid⟩ : Sighting).slot =
      slotOf now s.buffer.slotSize := rfl
  rw [PidBuffer.increment]
  cases hheld : s.buffer.addIfHeld (slotOf now s.buffer.slotSize) agent pid with
  | some b => exact ⟨_, Run.refl.step (Step.find hidle hslot hheld)⟩
  | none =>
    have hmissed := Run.refl.step (Step.miss hidle hslot hheld)
    have hentered := hmissed.step (Step.enter (Function.update_self t _ _))
    rw [Function.update_idem, ← hidle, Function.update_eq_self] at hentered
    exact ⟨_, hentered⟩

section Steps

variable {s s' : SharedBuffer Thread} {t : Thread} {e : Event} {es : List Event} {x : Sighting}

theorem Step.holds_iff (h : Step s t e s') :
    (s'.buffer.Holds x ↔ e.Puts x ∨ s.buffer.Holds x ∧ ¬ e.Takes x) ∧
      (e.Takes x → s.buffer.Holds x) := by
  cases h with
  | find _ _ hheld =>
    simp only [PidBuffer.add_of_addIfHeld hheld, PidBuffer.holds_note, Event.Puts, Event.Takes]
    tauto
  | miss _ _ _ =>
    simp only [Event.Puts, Event.Takes]
    tauto
  | enter _ =>
    simp only [PidBuffer.holds_note, Event.Puts, Event.Takes]
    tauto
  | drainOldest _ ready =>
    have hdrains := (s.buffer.drainOldest_drains ready).1.holds_iff (x := x)
    simp only [Event.Puts, Event.Takes]
    tauto
  | drainAll _ =>
    have hdrains := s.buffer.drainAll_drains.holds_iff (x := x)
    simp only [Event.Puts, Event.Takes]
    tauto
  | restore _ sets =>
    simp only [PidBuffer.holds_restore, Event.Puts, Event.Takes]
    tauto

theorem Step.noSlotEmpty (h : Step s t e s') (hs : s.buffer.NoSlotEmpty) : s'.buffer.NoSlotEmpty := by
  cases h with
  | find _ _ hheld =>
    rw [PidBuffer.add_of_addIfHeld hheld]
    exact PidBuffer.noSlotEmpty_add hs _ _ _
  | miss _ _ _ => exact hs
  | enter _ => exact PidBuffer.noSlotEmpty_add hs _ _ _
  | drainOldest _ ready => exact PidBuffer.noSlotEmpty_drainOldest hs ready
  | drainAll _ => exact PidBuffer.noSlotEmpty_of_no_slots rfl
  | restore _ sets => exact PidBuffer.noSlotEmpty_restore hs sets

theorem Event.puts_of_restores (h : e.Restores x) : e.Puts x := by
  cases e with
  | restored sets => exact h
  | _ => cases h

variable {slotSize delay : Int64}

theorem Run.noSlotEmpty (h : Run (start slotSize delay) es s) : s.buffer.NoSlotEmpty := by
  induction h with
  | refl => exact PidBuffer.noSlotEmpty_of_no_slots rfl
  | step _ hstep ih => exact hstep.noSlotEmpty ih

theorem Run.holds_iff (h : Run (start slotSize delay) es s) :
    s.buffer.Holds x ↔ Since (·.Puts x) (·.Takes x) es := by
  induction h with
  | refl =>
    refine iff_of_false ?_ not_since_nil
    rw [PidBuffer.Holds, PidBuffer.pids_eq_held, PidBuffer.held_of_no_slots rfl]
    exact ExtTreeSet.not_mem_empty
  | step _ hstep ih => rw [since_concat, hstep.holds_iff.1, ih]

/-- However the steps of any threads interleave: what the buffer has, with what was drained and did not
come back since, is what was noted or brought back. It is in the buffer from the step that put it there
until a drain takes it out, and no slot is held without agents. -/
theorem run_keeps_account (h : Run (start slotSize delay) es s) :
    (∀ x, s.buffer.Holds x ∨ Since (·.Takes x) (·.Restores x) es ↔ ∃ e ∈ es, e.Puts x) ∧
      (∀ x, s.buffer.Holds x ↔ Since (·.Puts x) (·.Takes x) es) ∧ s.buffer.NoSlotEmpty := by
  refine ⟨fun x => ?_, fun x => h.holds_iff, h.noSlotEmpty⟩
  induction h with
  | refl =>
    refine iff_of_false ?_ fun ⟨_, he, _⟩ => absurd he List.not_mem_nil
    rintro (hholds | hsince)
    · exact not_since_nil (Run.refl.holds_iff.mp hholds)
    · exact not_since_nil hsince
  | @step es e s s' t _ hstep ih =>
    obtain ⟨hholds, htaken⟩ := hstep.holds_iff (x := x)
    have hrecorded : (∃ f ∈ es ++ [e], f.Puts x) ↔ (∃ f ∈ es, f.Puts x) ∨ e.Puts x := by
      simp only [List.mem_append, List.mem_singleton, or_and_right, exists_or, exists_eq_left]
    rw [hrecorded, ← ih, since_concat, hholds]
    constructor
    · rintro ((hput | ⟨hheld, _⟩) | (htake | ⟨hout, _⟩))
      · exact Or.inr hput
      · exact Or.inl (Or.inl hheld)
      · exact Or.inl (Or.inl (htaken htake))
      · exact Or.inl (Or.inr hout)
    · -- what is taken is out from then on, what comes back is held
      rintro ((hheld | hout) | hput)
      · by_cases htake : e.Takes x
        · exact Or.inr (Or.inl htake)
        · exact Or.inl (Or.inr ⟨hheld, htake⟩)
      · by_cases hback : e.Restores x
        · exact Or.inl (Or.inl (Event.puts_of_restores hback))
        · exact Or.inr (Or.inr ⟨hout, hback⟩)
      · exact Or.inl (Or.inl hput)

end Steps

def first : Sighting := ⟨0, "a", 1⟩

def second : Sighting := ⟨0, "a", 2⟩

def taken : List PidSet := ((PidBuffer.empty 60000 0).add 0 "a" {2}).drainAll.1

/-- Two threads miss a slot. One makes it and drains it before the other one notes its pid. -/
def race : List Event :=
  [.missed first, .missed second, .noted second, .drained taken, .noted first, .restored taken]

theorem exists_race : ∃ s : SharedBuffer Bool, Run (start 60000 0) race s := by
  have hfirst : first.slot = slotOf 5 60000 := by decide
  have hsecond : second.slot = slotOf 5 60000 := by decide
  have h₁ : Run (start 60000 0) _ _ := Run.refl.step (.miss (t := true) rfl hfirst rfl)
  have h₂ := h₁.step (.miss (t := false) rfl hsecond rfl)
  have h₃ := h₂.step (.enter (t := false) rfl)
  have h₄ := h₃.step (.drainAll (t := false) rfl)
  have h₅ := h₄.step (.enter (t := true) rfl)
  exact ⟨_, h₅.step (.restore (t := false) rfl taken)⟩

theorem run_keeps_account_race :
    ∃ s : SharedBuffer Bool, Run (start 60000 0) race s ∧ s.buffer.Holds first ∧
      (s.buffer.Holds second ∨ Since (·.Takes second) (·.Restores second) race) ∧
      s.buffer.NoSlotEmpty := by
  obtain ⟨s, hrun⟩ := exists_race
  obtain ⟨haccount, hheld, hslots⟩ := run_keeps_account hrun
  have hfirst : Since (·.Puts first) (·.Takes first) race := by
    refine ⟨[.missed first, .missed second, .noted second, .drained taken], .noted first,
      [.restored taken], rfl, rfl, fun f hf => ?_⟩
    rw [List.mem_singleton.mp hf]
    exact id
  exact ⟨s, hrun, (hheld first).mpr hfirst,
    (haccount second).mpr ⟨.noted second, by simp [race], rfl⟩, hslots⟩

end SharedBuffer

end NetAtlas

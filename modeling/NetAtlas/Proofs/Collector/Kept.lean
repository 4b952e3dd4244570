import NetAtlas.Proofs.Collector.Runs

set_option autoImplicit false

/-!
# No accepted pid is lost

An accepted pid is in the buffer until its slot is written, and then in the set that the registry has for
its agent and slot. It stays there unless the slot is written a second time: such a set holds what came
after the first one only, and replaces it. So nothing is lost in a run exactly if every set that replaces
another one has all its pids.
-/
namespace NetAtlas

open Std PidEvent History

namespace Collector

/-- A pid is in the buffer or in the stored set of its agent and slot. -/
def AtHand (c : Collector) (slot : Int64) (agent : String) (pid : Int32) : Prop :=
  pid ∈ c.buffer.pids slot agent ∨
    ∃ set ∈ c.storage.contents.pidSets, set.agent = agent ∧ set.time = slot ∧ pid ∈ set.pids

instance (c : Collector) (slot : Int64) (agent : String) (pid : Int32) :
    Decidable (c.AtHand slot agent pid) :=
  inferInstanceAs (Decidable (_ ∨ ∃ set ∈ c.storage.contents.pidSets, _))

/-- The stored sets are those that a query of the agent finds. -/
theorem atHand_iff_answer {c : Collector} {slot : Int64} {agent : String} {pid : Int32}
    (hsize : agent.utf8ByteSize < 65536) {range : TimeRange} (hrange : range.covers slot) :
    c.AtHand slot agent pid ↔ pid ∈ c.buffer.pids slot agent ∨
      ∃ sets, (PidRegistry.query agent range).answer c.storage.contents = .ok sets ∧
        ∃ set ∈ sets, set.time = slot ∧ pid ∈ set.pids := by
  rw [AtHand, PidRegistry.answer_query hsize]
  apply or_congr_right
  constructor
  · rintro ⟨set, hset, hagent, rfl, hpid⟩
    refine ⟨_, rfl, set, List.mem_filter.mpr ⟨hset, ?_⟩, rfl, hpid⟩
    exact decide_eq_true ⟨hagent, hrange⟩
  · rintro ⟨sets, hsets, set, hset, htime, hpid⟩
    cases hsets
    obtain ⟨hstored, hfound⟩ := List.mem_filter.mp hset
    exact ⟨set, hstored, (of_decide_eq_true hfound).1, htime, hpid⟩

/-- Of every report that was accepted the pid is at hand after each turn from then on. -/
def LosesNone (ts : List Turn) (c : Collector) : Prop :=
  ∀ us accepted noted o vs ws, ts = us ++ .report accepted noted o :: vs ++ ws →
    (report accepted noted o (run us c)).1.isOk → 0 ≤ o.pid →
    (run (us ++ .report accepted noted o :: vs) c).AtHand (slotOf noted (run us c).settings.pidSlot)
      o.agent o.pid

theorem Told.atHand_iff {initial : Contents} {es : List PidEvent} {c : Collector} {slot : Int64}
    {agent : String} {pid : Int32} (h : Told initial es c) (hfits : Fits initial es)
    (hpid : pid ∈ accepted es slot agent) : c.AtHand slot agent pid ↔ Kept es slot agent pid := by
  have hsets := (h.stored hfits).2
  rw [AtHand, Kept, h.pids_eq]
  constructor
  · rintro (hheld | ⟨set, hset, rfl, rfl, hmem⟩)
    · exact Or.inl hheld
    · rcases (hsets set).mp hset with hlatest | ⟨hnone, _⟩
      · exact Or.inr ⟨set.pids, hlatest, hmem⟩
      · rw [unstored_getD (not_stores_of_latest hnone)]
        exact Or.inl hpid
  · rintro (hheld | ⟨pids, hlatest, hmem⟩)
    · exact Or.inl hheld
    · exact Or.inr ⟨⟨agent, slot, pids⟩, (hsets _).mpr (Or.inl hlatest), rfl, rfl, hmem⟩

theorem LosesNone.of_append {ts us : List Turn} {c : Collector} (h : LosesNone (ts ++ us) c) :
    LosesNone ts c := by
  intro pre accepted noted o vs ws hts
  apply h pre accepted noted o vs (ws ++ us)
  rw [hts, List.append_assoc]

section

variable {settings : CollectorSettings} {storage : Storage} {ts : List Turn}

theorem LosesNone.kept (h : LosesNone ts (start settings storage)) (hplain : storage.contents.PlainPids)
    (hfits : Fits storage.contents (trace ts (start settings storage))) (slot : Int64) (agent : String) :
    ∀ pid ∈ accepted (trace ts (start settings storage)) slot agent,
      Kept (trace ts (start settings storage)) slot agent pid := by
  intro pid hpid
  rw [← (told_run settings hplain ts).atHand_iff hfits hpid]
  obtain ⟨us, accepted, noted, o, vs, rfl, hok, hnonneg, rfl, rfl, rfl⟩ := mem_accepted_trace.mp hpid
  exact h us accepted noted o vs [] (List.append_nil _).symm hok hnonneg

theorem LosesNone.grows (h : LosesNone ts (start settings storage))
    (hplain : storage.contents.PlainPids)
    (hfits : Fits storage.contents (trace ts (start settings storage))) :
    (trace ts (start settings storage)).Pairwise Grows := by
  induction ts using List.reverseRecOn with
  | nil => exact List.Pairwise.nil
  | append_singleton ts t ih =>
    have hkept := h.kept hplain hfits
    have hfaithful := (told_run settings hplain (ts ++ [t])).faithful
    have hlast : trace [t] (run ts (start settings storage)) =
        t.events (run ts (start settings storage)) := List.append_nil _
    rw [trace_append, hlast] at hkept hfaithful hfits ⊢
    have hbefore := ih h.of_append hfits.append_left
    by_cases ht : ∃ accepted noted o, t = .report accepted noted o
    · obtain ⟨accepted, noted, o, rfl⟩ := ht
      change (_ ++ reporting accepted noted o _).Pairwise Grows
      rw [reporting]
      split
      · refine List.pairwise_append.mpr ⟨hbefore, List.pairwise_singleton _ _, fun e _ f hf => ?_⟩
        apply grows_of_stored
        rintro _ _ _ _ _ _ _ rfl
        cases List.mem_singleton.mp hf
      · rw [List.append_nil]
        exact hbefore
    · have hputs := not_sees_of_not_report (c := run ts (start settings storage))
        fun accepted noted o hsame => ht ⟨accepted, noted, o, hsame⟩
      rw [← List.append_nil (_ ++ _)] at hfaithful hkept
      exact hfaithful.grows_of_kept hbefore (by rw [List.append_nil]; exact hputs) hkept

/-- In a run with any reports, flushes and restarts no accepted pid is lost exactly if every set that
replaces a stored one has all its pids. -/
theorem losesNone_iff_grows (hplain : storage.contents.PlainPids) (ts : List Turn)
    (hfits : Fits storage.contents (trace ts (start settings storage))) :
    LosesNone ts (start settings storage) ↔
      (trace ts (start settings storage)).Pairwise Grows := by
  refine ⟨fun h => h.grows hplain hfits, fun hgrows us accepted noted o vs ws hts hok hpid => ?_⟩
  subst hts
  rw [trace_append] at hgrows hfits
  have htold := told_run settings hplain (us ++ .report accepted noted o :: vs)
  have hseen : o.pid ∈ History.accepted
      (trace (us ++ .report accepted noted o :: vs) (start settings storage))
      (slotOf noted (run us (start settings storage)).settings.pidSlot) o.agent :=
    mem_accepted_trace.mpr ⟨us, accepted, noted, o, vs, rfl, hok, hpid, rfl, rfl, rfl⟩
  rw [htold.atHand_iff hfits.append_left hseen]
  exact htold.faithful.kept (List.pairwise_append.mp hgrows).1 hseen

end

/-- A slot is written before a restart and again afterwards, with the same pid and another one. -/
def grown : List Turn :=
  [.report 600000 600000 (Sample.sighting 1), .restart 610000 {},
    .report 620000 620001 (Sample.sighting 1), .report 630000 630000 (Sample.sighting 2),
    .flush 630000, .flushAll 640000]

theorem losesNone_iff_grows_grown :
    (Sample.collector .none).storage.contents.PlainPids ∧
    Fits (Sample.collector .none).storage.contents (trace grown (Sample.collector .none)) ∧
    (trace grown (Sample.collector .none)).countP (stores 600000 "A") = 2 ∧
    LosesNone grown (Sample.collector .none) := by
  have hplain : (Sample.collector .none).storage.contents.PlainPids := trivial
  have hfits : Fits (Sample.collector .none).storage.contents (trace grown (Sample.collector .none)) :=
    fun _ _ _ _ => trivial
  have hgrows : (trace grown (Sample.collector .none)).Pairwise Grows := by decide +kernel
  exact ⟨hplain, hfits, by decide +kernel, (losesNone_iff_grows hplain grown hfits).mpr hgrows⟩

/-- A slot is written, and again after a late report of another pid. -/
def late : List Turn :=
  [.report 600000 600000 (Sample.sighting 1), .flushAll 600000,
    .report 600000 600000 (Sample.sighting 2), .flushAll 600000]

/-- The second set has replaced the first one. -/
theorem late_report_loses_pid : ¬ LosesNone late (Sample.collector .none) := by
  intro h
  have hhand := h [] 600000 600000 (Sample.sighting 1)
    [.flushAll 600000, .report 600000 600000 (Sample.sighting 2), .flushAll 600000] [] rfl
    (by decide +kernel) (by decide)
  exact absurd hhand (by decide +kernel)

end Collector

end NetAtlas

import NetAtlas.Proofs.Collector.Flushes
import NetAtlas.Proofs.Storage.Stored

set_option autoImplicit false

/-!
# What a flush leaves

However a flush ends, the sets it took out are of two kinds: some were written one after another, which
is all that changed in the store, and the others are held again as before. Nothing that was buffered is in
neither place.
-/
namespace NetAtlas

namespace Contents

variable {c c' : Contents}

/-- The contents after a set of pids was put into its row. -/
def writePids (c : Contents) (set : PidSet) : Except Error Contents := do
  let row ← (Key.agentRow set.agent set.time).mapError .rejected
  c.put PidRegistry.column row PidRegistry.qualifier (PidSet.encode set.pids)

theorem writePids_eq_ok {set : PidSet} : c.writePids set = .ok c' ↔
    ∃ row, Key.agentRow set.agent set.time = .ok row ∧
      c.put PidRegistry.column row PidRegistry.qualifier (PidSet.encode set.pids) = .ok c' := by
  rw [writePids]
  cases Key.agentRow set.agent set.time with
  | error e => exact ⟨fun h => (by cases h), fun ⟨_, h, _⟩ => (by cases h)⟩
  | ok row => exact ⟨fun h => ⟨row, rfl, h⟩, fun ⟨_, hrow, h⟩ => by cases hrow; exact h⟩

/-- A written set can be read, and whatever could be read of other agents and slots still can. -/
theorem mem_pidSets_of_write {set : PidSet} (h : c.writePids set = .ok c') :
    (c.fits (PidSet.encode set.pids) → set ∈ c'.pidSets) ∧
      ∀ other ∈ c.pidSets, PidBuffer.Differ set other → other ∈ c'.pidSets := by
  obtain ⟨row, hrow, hput⟩ := writePids_eq_ok.mp h
  constructor
  · intro hfits
    exact mem_pidSets.mpr ⟨row, _, hrow, hasCell_of_put hput (by decide) hfits, PidSet.read_encode _⟩
  · intro other hother hdiffer
    obtain ⟨key, value, hkey, hcell, hread⟩ := mem_pidSets.mp hother
    refine mem_pidSets.mpr ⟨key, value, hkey, hcell.put_of_row_ne hput ?_, hread⟩
    rintro rfl
    have hboth := (Key.readAgentRow_agentRow hrow).symm.trans (Key.readAgentRow_agentRow hkey)
    obtain ⟨hagent, htime⟩ := Prod.mk.inj (Except.ok.inj hboth)
    exact hdiffer ⟨htime, hagent⟩

theorem fits_of_write {set : PidSet} (h : c.writePids set = .ok c') (bytes : Bytes) :
    c'.fits bytes ↔ c.fits bytes := by
  obtain ⟨row, _, hput⟩ := writePids_eq_ok.mp h
  exact fits_put hput bytes

/-- Writes leave the sets of the agents and slots they do not write. -/
theorem mem_pidSets_of_kept {sets : List PidSet} {other : PidSet}
    (h : sets.foldlM writePids c = .ok c') (hother : other ∈ c.pidSets)
    (hdiffer : ∀ set ∈ sets, PidBuffer.Differ set other) : other ∈ c'.pidSets := by
  induction sets generalizing c with
  | nil =>
    cases h
    exact hother
  | cons set sets ih =>
    rw [List.foldlM_cons] at h
    obtain ⟨c₁, hwrite, h⟩ := except_bind_eq_ok h
    obtain ⟨hhead, htail⟩ := List.forall_mem_cons.mp hdiffer
    exact ih h ((mem_pidSets_of_write hwrite).2 other hother hhead) htail

/-- Of sets for different agents or slots, no write takes an earlier one away. -/
theorem mem_pidSets_of_mem_writes {sets : List PidSet} {set : PidSet}
    (h : sets.foldlM writePids c = .ok c') (hapart : sets.Pairwise PidBuffer.Differ)
    (hset : set ∈ sets) (hfits : c.fits (PidSet.encode set.pids)) : set ∈ c'.pidSets := by
  induction sets generalizing c with
  | nil => exact absurd hset List.not_mem_nil
  | cons first sets ih =>
    rw [List.foldlM_cons] at h
    obtain ⟨c₁, hwrite, hwrites⟩ := except_bind_eq_ok h
    obtain ⟨hhead, htail⟩ := List.pairwise_cons.mp hapart
    rcases List.mem_cons.mp hset with rfl | hset
    · exact mem_pidSets_of_kept hwrites ((mem_pidSets_of_write hwrite).1 hfits) fun later hlater hsame =>
        hhead later hlater ⟨hsame.1.symm, hsame.2.symm⟩
    · exact ih hwrites htail hset ((fits_of_write hwrite _).mpr hfits)

theorem mem_pidSets_of_writes {sets : List PidSet} (h : sets.foldlM writePids c = .ok c')
    (hapart : sets.Pairwise PidBuffer.Differ) :
    ((∀ set ∈ sets, c.fits (PidSet.encode set.pids)) → ∀ set ∈ sets, set ∈ c'.pidSets) ∧
      ∀ other ∈ c.pidSets, (∀ set ∈ sets, PidBuffer.Differ set other) → other ∈ c'.pidSets :=
  ⟨fun hfits set hset => mem_pidSets_of_mem_writes h hapart hset (hfits set hset),
    fun _ hother => mem_pidSets_of_kept h hother⟩

/-- In a table that only the registry has written, writes change no other sets. -/
theorem mem_pidSets_iff_of_writes {sets : List PidSet} (h : sets.foldlM writePids c = .ok c')
    (hapart : sets.Pairwise PidBuffer.Differ) (hplain : c.PlainPids)
    (hfits : ∀ set ∈ sets, c.fits (PidSet.encode set.pids)) (other : PidSet) :
    other ∈ c'.pidSets ↔
      other ∈ sets ∨ other ∈ c.pidSets ∧ ∀ set ∈ sets, PidBuffer.Differ set other := by
  induction sets generalizing c with
  | nil =>
    cases h
    simp
  | cons first sets ih =>
    rw [List.foldlM_cons] at h
    obtain ⟨c₁, hwrite, hwrites⟩ := except_bind_eq_ok h
    obtain ⟨hhead, htail⟩ := List.pairwise_cons.mp hapart
    obtain ⟨hfit, hfits⟩ := List.forall_mem_cons.mp hfits
    obtain ⟨row, hrow, hput⟩ := writePids_eq_ok.mp hwrite
    obtain ⟨hplain₁, hfirst⟩ := mem_pidSets_put hrow hput hplain hfit
    rw [ih hwrites htail hplain₁ fun set hset => (fits_of_write hwrite _).mpr (hfits set hset), hfirst,
      List.mem_cons, List.forall_mem_cons, or_assoc]
    by_cases hsame : other.agent = first.agent ∧ other.time = first.time
    · have hnot : ¬ PidBuffer.Differ first other := fun hne => hne ⟨hsame.2.symm, hsame.1.symm⟩
      rw [if_pos hsame]
      constructor
      · rintro (hlater | ⟨hpids, _⟩)
        · exact Or.inr (Or.inl hlater)
        · left
          calc other = ⟨other.agent, other.time, other.pids⟩ := rfl
            _ = first := by rw [hsame.1, hsame.2, hpids]
      · rintro (rfl | hlater | ⟨_, hne, _⟩)
        · exact Or.inr ⟨rfl, fun set hset hkey => hhead set hset ⟨hkey.1.symm, hkey.2.symm⟩⟩
        · exact Or.inl hlater
        · exact absurd hne hnot
    · have hne : PidBuffer.Differ first other := fun hkey => hsame ⟨hkey.2.symm, hkey.1.symm⟩
      have hother : other ≠ first := fun h => hsame (h ▸ ⟨rfl, rfl⟩)
      rw [if_neg hsame, or_iff_right hother, and_iff_right hne]

end Contents

namespace PidBuffer

theorem InHand.held_restore_of_mem {b : PidBuffer} {sets : List PidSet} (h : b.InHand sets)
    {set : PidSet} (hset : set ∈ sets) : (b.restore sets).held set.time set.agent = some set.pids := by
  induction sets with
  | nil => exact absurd hset List.not_mem_nil
  | cons first sets ih =>
    rcases List.mem_cons.mp hset with rfl | hset
    · exact h.held_restore_head
    · have hrest := ih h.tail hset
      rw [h.held_restore_cons, if_neg ((List.pairwise_cons.mp h.apart).1 set hset)] at hrest
      exact hrest

/-- What comes back after some sets were written is what was held, but for these. -/
theorem InHand.held_restore_append {b : PidBuffer} {written back : List PidSet}
    (h : b.InHand (written ++ back)) (slot : Int64) (agent : String) :
    (b.restore back).held slot agent =
      if ∃ set ∈ written, set.time = slot ∧ set.agent = agent then none
      else (b.restore (written ++ back)).held slot agent := by
  induction written with
  | nil => exact (if_neg fun ⟨_, hset, _⟩ => List.not_mem_nil hset).symm
  | cons set written ih =>
    rw [List.cons_append] at h ⊢
    rw [ih h.tail, h.held_restore_cons]
    simp only [List.mem_cons, or_and_right, exists_or, exists_eq_left]
    by_cases hset : set.time = slot ∧ set.agent = agent
    · rw [if_pos hset, ite_self, if_pos (Or.inl hset)]
    · rw [if_neg hset]
      exact if_congr (or_iff_right hset).symm rfl rfl

end PidBuffer

namespace Collector

/-- What was written of the sets that were held: it is what changed in the store, and no longer held. -/
structure Wrote (written : List PidSet) (c c' : Collector) : Prop where
  apart : written.Pairwise PidBuffer.Differ
  held : ∀ set ∈ written, c.buffer.held set.time set.agent = some set.pids
  contents : written.foldlM Contents.writePids c.storage.contents = .ok c'.storage.contents
  buffer : ∀ slot agent, c'.buffer.held slot agent =
    if ∃ set ∈ written, set.time = slot ∧ set.agent = agent then none else c.buffer.held slot agent

variable {c c' c'' : Collector}

theorem wrote_nil (hcontents : c'.storage.contents = c.storage.contents)
    (hbuffer : ∀ slot agent, c'.buffer.held slot agent = c.buffer.held slot agent) :
    Wrote [] c c' where
  apart := List.Pairwise.nil
  held _ h := absurd h List.not_mem_nil
  contents := congrArg Except.ok hcontents.symm
  buffer slot agent := by
    rw [if_neg fun ⟨_, hset, _⟩ => List.not_mem_nil hset]
    exact hbuffer slot agent

theorem Wrote.append {written later : List PidSet} (h : Wrote written c c')
    (h' : Wrote later c' c'') : Wrote (written ++ later) c c'' := by
  have hfresh : ∀ set ∈ later, (¬ ∃ old ∈ written, old.time = set.time ∧ old.agent = set.agent) ∧
      c.buffer.held set.time set.agent = some set.pids := by
    intro set hset
    have hheld := h'.held set hset
    rw [h.buffer] at hheld
    split at hheld
    · cases hheld
    · next hnone => exact ⟨hnone, hheld⟩
  constructor
  · refine List.pairwise_append.mpr ⟨h.apart, h'.apart, fun old hold set hset hsame => ?_⟩
    exact (hfresh set hset).1 ⟨old, hold, hsame⟩
  · intro set hset
    rcases List.mem_append.mp hset with hset | hset
    · exact h.held set hset
    · exact (hfresh set hset).2
  · rw [List.foldlM_append, h.contents]
    exact h'.contents
  · intro slot agent
    rw [h'.buffer, h.buffer]
    by_cases hold : ∃ set ∈ written, set.time = slot ∧ set.agent = agent
    · rw [if_pos hold, ite_self]
      obtain ⟨set, hset, hsame⟩ := hold
      rw [if_pos ⟨set, List.mem_append_left later hset, hsame⟩]
    · rw [if_neg hold]
      refine if_congr ?_ rfl rfl
      simp only [List.mem_append, or_and_right, exists_or, or_iff_right hold]

/-- Of sets that are to be written, some first ones are, and the rest comes back. -/
theorem exists_written (sets : List PidSet) (c : Collector) :
    ∃ written back, sets = written ++ back ∧
      written.foldlM Contents.writePids c.storage.contents =
        .ok (writeSets sets c).2.storage.contents ∧
      (writeSets sets c).2.buffer = c.buffer.restore back := by
  induction sets generalizing c with
  | nil => exact ⟨[], [], rfl, rfl, rfl⟩
  | cons set sets ih =>
    by_cases hw : c.writes set
    · obtain ⟨written, back, rfl, hcontents, hbuffer⟩ := ih (c.afterPut set)
      rw [writeSets_of_writes hw]
      refine ⟨set :: written, back, rfl, ?_, hbuffer⟩
      have hput := Contents.writePids_eq_ok.mpr (PidRegistry.insert_eq_ok (insert_of_writes hw))
      rw [List.foldlM_cons, hput]
      exact hcontents
    · obtain ⟨e, hrun⟩ := writeSets_of_not_writes hw sets
      obtain ⟨_, hinsert⟩ := insert_of_not_writes hw
      rw [hrun]
      exact ⟨[], set :: sets, rfl, congrArg Except.ok (PidRegistry.insert_eq_error hinsert).symm, rfl⟩

/-- Of the sets that a drain takes out some are written, and the others are held again. -/
theorem wrote_writeSets {sets : List PidSet} {b : PidBuffer} (h : c.buffer.Drains sets b) :
    ∃ written, Wrote written c (writeSets sets { c with buffer := b }).2 := by
  obtain ⟨written, back, hsets, hcontents, hbuffer⟩ := exists_written sets { c with buffer := b }
  have hhand : b.InHand (written ++ back) := hsets ▸ h.inHand
  have hheld : ∀ slot agent, (b.restore (written ++ back)).held slot agent =
      c.buffer.held slot agent := by
    rw [← hsets]
    exact h.held
  refine ⟨written, (List.pairwise_append.mp hhand.apart).1, fun set hset => ?_, hcontents,
    fun slot agent => ?_⟩
  · rw [← hheld]
    exact hhand.held_restore_of_mem (List.mem_append_left back hset)
  · rw [hbuffer, hhand.held_restore_append, hheld]

/-- A flush writes some of the sets that were held, whether it comes through, fails or runs into a trap. -/
theorem wrote_flushPids64 (clock : Clock) (c : Collector) :
    ∃ written, Wrote written c (flushPids64 clock c).2 := by
  refine flushPids64_keeps (P := fun c' => ∃ written, Wrote written c c') ?_ clock
    ⟨[], wrote_nil rfl fun _ _ => rfl⟩
  rintro now c' ⟨written, hwrote⟩
  obtain ⟨later, hlater⟩ := wrote_writeSets (c'.buffer.drainReady_drains now).1
  exact ⟨written ++ later, hwrote.append hlater⟩

/-- If all sets are written, their writes are what changed in the store. -/
theorem writeSets_eq_ok {sets : List PidSet} (h : writeSets sets c = (.ok (), c')) :
    sets.foldlM Contents.writePids c.storage.contents = .ok c'.storage.contents := by
  induction sets generalizing c with
  | nil =>
    cases h
    rfl
  | cons set sets ih =>
    by_cases hw : c.writes set
    · rw [writeSets_of_writes hw] at h
      have hput := Contents.writePids_eq_ok.mpr (PidRegistry.insert_eq_ok (insert_of_writes hw))
      rw [List.foldlM_cons, hput]
      exact ih h
    · obtain ⟨e, he⟩ := writeSets_of_not_writes hw sets
      rw [he] at h
      cases h

/-- Every buffered pid is written under its agent and slot or still buffered there. -/
theorem Wrote.accounts {written : List PidSet} (h : Wrote written c c') {slot : Int64} {agent : String}
    {pid : Int32} (hpid : pid ∈ c.buffer.pids slot agent) :
    pid ∈ c'.buffer.pids slot agent ∨
      ∃ set ∈ written, set.time = slot ∧ set.agent = agent ∧ pid ∈ set.pids := by
  rw [PidBuffer.pids_eq_held] at hpid ⊢
  rw [h.buffer]
  by_cases hset : ∃ set ∈ written, set.time = slot ∧ set.agent = agent
  · obtain ⟨set, hmem, rfl, rfl⟩ := hset
    rw [h.held set hmem] at hpid
    exact Or.inr ⟨set, hmem, rfl, rfl, hpid⟩
  · rw [if_neg hset]
    exact Or.inl hpid

end Collector

end NetAtlas

import Mathlib.Data.List.Induction
import NetAtlas.Proofs.Collector.Buffer

set_option autoImplicit false

/-!
# The history of pids

A run of a collector is a history of pids that were seen and of sets that were put to the registry. Such a
history tells what is seen of an agent in a slot but not stored yet, and what was stored last. A faithful
one puts the former. Then the pids are kept as long as no set replaces one that has more; and if nothing
is seen any more once a set was put, every set is put whole and stored at most once.
-/
namespace NetAtlas

open Std

/-- A pid was seen in a report, or a set was put, by a timed flush or by a flush of everything, and stored
or not. -/
inductive PidEvent
  | seen (now : Int64) (agent : String) (slot : Int64) (pid : Int32)
  | put (now : Int64) (timed : Bool) (set : PidSet) (stored : Bool)
  deriving DecidableEq

namespace PidEvent

variable (slot : Int64) (agent : String)

def now : PidEvent → Int64
  | seen now _ _ _ => now
  | put now _ _ _ => now

/-- The pid an event sees of an agent in a slot. -/
def pid? : PidEvent → Option Int32
  | seen _ a s pid => if s = slot ∧ a = agent then some pid else none
  | put .. => none

def sees (e : PidEvent) : Bool := (e.pid? slot agent).isSome

def puts : PidEvent → Bool
  | seen .. => false
  | put _ _ set _ => set.time = slot ∧ set.agent = agent

def isStored : PidEvent → Bool
  | seen .. => false
  | put _ _ _ stored => stored

def stores : PidEvent → Bool
  | seen .. => false
  | put _ _ set stored => stored ∧ set.time = slot ∧ set.agent = agent

/-- What is seen of an agent in a slot and not stored, after an event. -/
def unstoredAfter (old : Option PidGroup) : PidEvent → Option PidGroup
  | seen _ a s pid => if s = slot ∧ a = agent then some (old.getD ∅ ∪ {pid}) else old
  | put _ _ set stored => if stored ∧ set.time = slot ∧ set.agent = agent then none else old

/-- What was stored last of an agent and a slot, after an event. -/
def latestAfter (old : Option PidGroup) : PidEvent → Option PidGroup
  | seen .. => old
  | put _ _ set stored => if stored ∧ set.time = slot ∧ set.agent = agent then some set.pids else old

/-- A set that is stored in the place of another one has all its pids. -/
def Grows : PidEvent → PidEvent → Prop
  | put _ _ set true, put _ _ set' true =>
    set.time = set'.time ∧ set.agent = set'.agent → ∀ pid ∈ set.pids, pid ∈ set'.pids
  | _, _ => True

theorem grows_of_stored {e f : PidEvent}
    (h : ∀ now timed set now' timed' set', e = .put now timed set true → f = .put now' timed' set' true →
      set.time = set'.time → set.agent = set'.agent → ∀ pid ∈ set.pids, pid ∈ set'.pids) : e.Grows f := by
  cases e with
  | seen => trivial
  | put now timed set stored =>
    cases stored with
    | false => trivial
    | true =>
      cases f with
      | seen => trivial
      | put now' timed' set' stored' =>
        cases stored' with
        | false => trivial
        | true => exact fun hkey => h now timed set now' timed' set' rfl rfl hkey.1 hkey.2

instance (e f : PidEvent) : Decidable (e.Grows f) :=
  match e, f with
  | put _ _ set true, put _ _ set' true =>
    decidable_of_iff (set.time = set'.time ∧ set.agent = set'.agent →
      set.pids.toList.all (· ∈ set'.pids) = true) <| by
        simp only [List.all_eq_true, ExtTreeSet.mem_toList, decide_eq_true_eq, Grows]
  | seen .., _ => .isTrue trivial
  | put _ _ _ false, _ => .isTrue trivial
  | put _ _ _ true, seen .. => .isTrue trivial
  | put _ _ _ true, put _ _ _ false => .isTrue trivial

/-- A slot of an agent of which a set was put is not seen any more. -/
def Closes (e f : PidEvent) : Prop := ∀ slot agent, e.puts slot agent → ¬ f.sees slot agent

variable {slot agent}

theorem stores_iff {e : PidEvent} : e.stores slot agent ↔
    ∃ now timed pids, e = .put now timed ⟨agent, slot, pids⟩ true := by
  cases e with
  | seen => exact ⟨fun h => (nomatch h), fun ⟨_, _, _, h⟩ => (nomatch h)⟩
  | put now timed set stored =>
    constructor
    · intro h
      obtain ⟨rfl, rfl, rfl⟩ := of_decide_eq_true h
      exact ⟨now, timed, set.pids, rfl⟩
    · rintro ⟨_, _, pids, h⟩
      cases h
      exact decide_eq_true ⟨rfl, rfl, rfl⟩

theorem puts_of_stores {e : PidEvent} (h : e.stores slot agent) : e.puts slot agent := by
  obtain ⟨now, timed, pids, rfl⟩ := stores_iff.mp h
  exact decide_eq_true ⟨rfl, rfl⟩

theorem mem_unstoredAfter {e : PidEvent} {old : Option PidGroup} {pid : Int32} :
    pid ∈ (e.unstoredAfter slot agent old).getD ∅ ↔
      pid ∈ old.getD ∅ ∧ ¬ e.stores slot agent ∨ e.pid? slot agent = some pid := by
  cases e with
  | seen now a s p =>
    by_cases hkey : s = slot ∧ a = agent
    · simp only [unstoredAfter, pid?, stores, if_pos hkey, Option.getD_some, Option.some_inj,
        ExtTreeSet.mem_union_iff, Bool.false_eq_true, not_false_eq_true, and_true]
      apply or_congr_right
      have hsame : compare p pid = .eq ↔ p = pid := LawfulEqCmp.compare_eq_iff_eq
      rw [← hsame]
      exact ExtTreeSet.mem_insert.trans (or_iff_left ExtTreeSet.not_mem_empty)
    · simp only [unstoredAfter, pid?, stores, if_neg hkey, reduceCtorEq, or_false,
        Bool.false_eq_true, not_false_eq_true, and_true]
  | put now timed set stored =>
    by_cases hkey : stored = true ∧ set.time = slot ∧ set.agent = agent
    · simp only [unstoredAfter, pid?, stores, hkey, decide_true, and_self, if_true, not_true_eq_false,
        and_false, reduceCtorEq, or_false, Option.getD_none, iff_false]
      exact ExtTreeSet.not_mem_empty
    · simp only [unstoredAfter, pid?, stores, if_neg hkey, decide_eq_true_eq, reduceCtorEq, or_false]
      exact (and_iff_left hkey).symm

theorem unstoredAfter_of_stores {e : PidEvent} (h : e.stores slot agent) (old : Option PidGroup) :
    e.unstoredAfter slot agent old = none := by
  obtain ⟨now, timed, pids, rfl⟩ := stores_iff.mp h
  exact if_pos ⟨rfl, rfl, rfl⟩

theorem unstoredAfter_of_not_sees {e : PidEvent} (h : ¬ e.sees slot agent) (old : Option PidGroup) :
    e.unstoredAfter slot agent old = if e.stores slot agent then none else old := by
  cases e with
  | seen now a s p =>
    have hkey : ¬ (s = slot ∧ a = agent) := fun hkey => h (by rw [sees, pid?, if_pos hkey]; rfl)
    exact if_neg hkey
  | put => exact if_congr (decide_eq_true_iff).symm rfl rfl

theorem latestAfter_of_not_stores {e : PidEvent} (h : ¬ e.stores slot agent) (old : Option PidGroup) :
    e.latestAfter slot agent old = old := by
  cases e with
  | seen => rfl
  | put => exact if_neg fun hkey => h (decide_eq_true hkey)

end PidEvent

namespace History

open PidEvent

variable (es : List PidEvent) (slot : Int64) (agent : String)

def accepted : PidGroup := ExtTreeSet.ofList (es.filterMap (pid? slot agent))

def unstored : Option PidGroup := es.foldl (unstoredAfter slot agent) none

def latest : Option PidGroup := es.foldl (latestAfter slot agent) none

/-- Every set that is put is what was seen and not stored before. -/
def Faithful : Prop :=
  ∀ pre now timed set stored, pre ++ [.put now timed set stored] <+: es →
    unstored pre set.time set.agent = some set.pids

/-- A pid is not stored yet, or it is in the set that was stored last. -/
def Kept (pid : Int32) : Prop :=
  pid ∈ (unstored es slot agent).getD ∅ ∨ ∃ pids, latest es slot agent = some pids ∧ pid ∈ pids

variable {es slot agent}

theorem unstored_concat (e : PidEvent) :
    unstored (es ++ [e]) slot agent = e.unstoredAfter slot agent (unstored es slot agent) := by
  rw [unstored, List.foldl_append]
  rfl

theorem latest_concat (e : PidEvent) :
    latest (es ++ [e]) slot agent = e.latestAfter slot agent (latest es slot agent) := by
  rw [latest, List.foldl_append]
  rfl

theorem mem_accepted {pid : Int32} :
    pid ∈ accepted es slot agent ↔ ∃ e ∈ es, e.pid? slot agent = some pid := by
  rw [accepted, ExtTreeSet.mem_ofList, List.contains_iff_mem, List.mem_filterMap]

theorem mem_accepted_concat {e : PidEvent} {pid : Int32} :
    pid ∈ accepted (es ++ [e]) slot agent ↔
      pid ∈ accepted es slot agent ∨ e.pid? slot agent = some pid := by
  simp only [mem_accepted, List.mem_append, List.mem_singleton, or_and_right, exists_or,
    exists_eq_left]

theorem accepted_append {fs : List PidEvent} (h : ∀ f ∈ fs, ¬ f.sees slot agent) :
    accepted (es ++ fs) slot agent = accepted es slot agent := by
  have hnone : fs.filterMap (pid? slot agent) = [] := by
    apply List.filterMap_eq_nil_iff.mpr
    intro f hf
    exact Option.not_isSome_iff_eq_none.mp (h f hf)
  rw [accepted, List.filterMap_append, hnone, List.append_nil, accepted]

/-- What was stored stays stored whole until its agent is seen in its slot again. -/
theorem unstored_append {fs : List PidEvent} (h : unstored es slot agent = none)
    (hfs : ∀ f ∈ fs, ¬ f.sees slot agent) : unstored (es ++ fs) slot agent = none := by
  induction fs using List.reverseRecOn with
  | nil => rw [List.append_nil, h]
  | append_singleton fs f ih =>
    rw [← List.append_assoc, unstored_concat, ih fun g hg => hfs g (List.mem_append_left _ hg)]
    rw [unstoredAfter_of_not_sees (hfs f List.mem_concat_self), ite_self]

theorem latest_append {fs : List PidEvent} (h : ∀ f ∈ fs, ¬ f.stores slot agent) :
    latest (es ++ fs) slot agent = latest es slot agent := by
  induction fs using List.reverseRecOn with
  | nil => rw [List.append_nil]
  | append_singleton fs f ih =>
    rw [← List.append_assoc, latest_concat, latestAfter_of_not_stores (h f List.mem_concat_self)]
    exact ih fun g hg => h g (List.mem_append_left _ hg)

theorem mem_of_latest {pids : PidGroup} (h : latest es slot agent = some pids) :
    ∃ now timed, .put now timed ⟨agent, slot, pids⟩ true ∈ es := by
  induction es using List.reverseRecOn with
  | nil => cases h
  | append_singleton es e ih =>
    rw [latest_concat] at h
    by_cases hs : e.stores slot agent
    · obtain ⟨now, timed, pids', rfl⟩ := stores_iff.mp hs
      rw [latestAfter, if_pos ⟨rfl, rfl, rfl⟩] at h
      cases h
      exact ⟨now, timed, List.mem_concat_self⟩
    · rw [latestAfter_of_not_stores hs] at h
      obtain ⟨now, timed, hmem⟩ := ih h
      exact ⟨now, timed, List.mem_append_left _ hmem⟩

theorem not_stores_of_latest (h : latest es slot agent = none) : ∀ e ∈ es, ¬ e.stores slot agent := by
  induction es using List.reverseRecOn with
  | nil => exact fun _ he => absurd he List.not_mem_nil
  | append_singleton es e ih =>
    rw [latest_concat] at h
    have hlast : ¬ e.stores slot agent := by
      intro hs
      obtain ⟨now, timed, pids, rfl⟩ := stores_iff.mp hs
      rw [latestAfter, if_pos ⟨rfl, rfl, rfl⟩] at h
      cases h
    rw [latestAfter_of_not_stores hlast] at h
    intro f hf
    rcases List.mem_append.mp hf with hf | hf
    · exact ih h f hf
    · rw [List.mem_singleton.mp hf]
      exact hlast

theorem mem_accepted_of_unstored {pid : Int32} (h : pid ∈ (unstored es slot agent).getD ∅) :
    pid ∈ accepted es slot agent := by
  induction es using List.reverseRecOn with
  | nil => exact absurd h ExtTreeSet.not_mem_empty
  | append_singleton es e ih =>
    rw [unstored_concat, mem_unstoredAfter] at h
    rw [mem_accepted_concat]
    exact h.imp_left fun hold => ih hold.1

/-- Until a set is stored, all that was seen is not stored. -/
theorem unstored_getD (h : ∀ e ∈ es, ¬ e.stores slot agent) :
    (unstored es slot agent).getD ∅ = accepted es slot agent := by
  apply ExtTreeSet.ext_mem
  intro pid
  induction es using List.reverseRecOn with
  | nil => rfl
  | append_singleton es e ih =>
    have ih := ih fun f hf => h f (List.mem_append_left _ hf)
    rw [unstored_concat, mem_unstoredAfter, mem_accepted_concat, ih]
    exact or_congr_left (and_iff_left (h e List.mem_concat_self))

theorem exists_mem_of_unstored {pids : PidGroup} (h : unstored es slot agent = some pids) :
    ∃ pid, pid ∈ pids := by
  induction es using List.reverseRecOn with
  | nil => cases h
  | append_singleton es e ih =>
    by_cases hs : e.sees slot agent
    · obtain ⟨pid, hpid⟩ := Option.isSome_iff_exists.mp hs
      have hmem : pid ∈ (unstored (es ++ [e]) slot agent).getD ∅ := by
        rw [unstored_concat, mem_unstoredAfter]
        exact Or.inr hpid
      rw [h] at hmem
      exact ⟨pid, hmem⟩
    · rw [unstored_concat, unstoredAfter_of_not_sees hs] at h
      split at h
      · cases h
      · exact ih h

theorem Faithful.before {fs : List PidEvent} (h : Faithful (es ++ fs)) : Faithful es :=
  fun pre now timed set stored hpre =>
    h pre now timed set stored (hpre.trans (List.prefix_append es fs))

theorem faithful_nil : Faithful [] :=
  fun _ _ _ _ _ h => absurd (List.prefix_nil.mp h) (List.concat_ne_nil _ _)

theorem Faithful.concat {e : PidEvent} (h : Faithful es)
    (he : ∀ now timed set stored, e = .put now timed set stored →
      unstored es set.time set.agent = some set.pids) : Faithful (es ++ [e]) := by
  intro pre now timed set stored hpre
  rcases List.prefix_concat_iff.mp hpre with hsame | hpre
  · obtain ⟨rfl, hlast⟩ := List.append_inj' hsame rfl
    exact he now timed set stored (List.singleton_inj.mp hlast.symm)
  · exact h pre now timed set stored hpre

theorem Faithful.unstored_of_split {pre post : List PidEvent} {now : Int64} {timed : Bool}
    {set : PidSet} {stored : Bool} (h : Faithful (pre ++ .put now timed set stored :: post)) :
    unstored pre set.time set.agent = some set.pids :=
  h pre now timed set stored ⟨post, by rw [List.append_assoc, List.singleton_append]⟩

theorem Faithful.mem_accepted_of_put {now : Int64} {timed : Bool} {set : PidSet} {stored : Bool}
    {pid : Int32} (h : Faithful es) (hput : .put now timed set stored ∈ es) (hpid : pid ∈ set.pids) :
    pid ∈ accepted es set.time set.agent := by
  obtain ⟨pre, post, rfl⟩ := List.mem_iff_append.mp hput
  have hmem : pid ∈ accepted pre set.time set.agent := by
    apply mem_accepted_of_unstored
    rw [h.unstored_of_split]
    exact hpid
  obtain ⟨e, he, hsees⟩ := mem_accepted.mp hmem
  exact mem_accepted.mpr ⟨e, List.mem_append_left _ he, hsees⟩

/-! ### No set replaces one that has more -/

/-- If no set replaces one that has more, every pid that was seen is kept. -/
theorem Faithful.kept {pid : Int32} (h : Faithful es) (hgrows : es.Pairwise Grows)
    (hpid : pid ∈ accepted es slot agent) : Kept es slot agent pid := by
  induction es using List.reverseRecOn with
  | nil => exact absurd hpid ExtTreeSet.not_mem_empty
  | append_singleton es e ih =>
    obtain ⟨hbefore, -, hlast⟩ := List.pairwise_append.mp hgrows
    rw [Kept, unstored_concat, mem_unstoredAfter, latest_concat]
    rcases mem_accepted_concat.mp hpid with hold | hnew
    · have hkept := ih h.before hbefore hold
      by_cases hs : e.stores slot agent
      · obtain ⟨now, timed, pids, rfl⟩ := stores_iff.mp hs
        have hput : unstored es slot agent = some pids := h.unstored_of_split
        refine Or.inr ⟨pids, if_pos ⟨rfl, rfl, rfl⟩, ?_⟩
        rcases hkept with hheld | ⟨old, hlatest, hpid⟩
        · rw [hput] at hheld
          exact hheld
        · obtain ⟨now', timed', hmem⟩ := mem_of_latest hlatest
          exact hlast _ hmem _ (List.mem_singleton.mpr rfl) ⟨rfl, rfl⟩ pid hpid
      · rw [latestAfter_of_not_stores hs]
        exact hkept.imp_left fun hheld => Or.inl ⟨hheld, hs⟩
    · exact Or.inl (Or.inr hnew)

/-- A set that was stored, of a slot and an agent that are not seen afterwards, is the latest. -/
theorem Faithful.latest_of_split {pre post : List PidEvent} {now : Int64} {timed : Bool} {set : PidSet}
    (h : Faithful (pre ++ .put now timed set true :: post))
    (hpost : ∀ e ∈ post, ¬ e.sees set.time set.agent) :
    unstored (pre ++ .put now timed set true :: post) set.time set.agent = none ∧
      latest (pre ++ .put now timed set true :: post) set.time set.agent = some set.pids := by
  have hsplit : pre ++ .put now timed set true :: post = pre ++ [.put now timed set true] ++ post := by
    rw [List.append_assoc, List.singleton_append]
  have hnone : unstored (pre ++ [.put now timed set true]) set.time set.agent = none := by
    rw [unstored_concat]
    exact if_pos ⟨rfl, rfl, rfl⟩
  -- another put would need something that is not stored
  have hstores : ∀ e ∈ post, ¬ e.stores set.time set.agent := by
    intro e he hs
    obtain ⟨now', timed', pids, rfl⟩ := stores_iff.mp hs
    obtain ⟨between, rest, rfl⟩ := List.mem_iff_append.mp he
    rw [hsplit, ← List.append_assoc] at h
    have hput := h.unstored_of_split
    rw [unstored_append hnone fun f hf => hpost f (List.mem_append_left _ hf)] at hput
    cases hput
  rw [hsplit, unstored_append hnone hpost, latest_append hstores, latest_concat]
  exact ⟨rfl, if_pos ⟨rfl, rfl, rfl⟩⟩

/-- If every pid that was seen is kept, the sets stored last replaced none that had more. -/
theorem Faithful.grows_of_kept {pre fs post : List PidEvent} (h : Faithful (pre ++ fs ++ post))
    (hgrows : pre.Pairwise Grows) (hfs : ∀ f ∈ fs ++ post, ∀ slot agent, ¬ f.sees slot agent)
    (hkept : ∀ slot agent, ∀ pid ∈ accepted (pre ++ fs ++ post) slot agent,
      Kept (pre ++ fs ++ post) slot agent pid) : (pre ++ fs).Pairwise Grows := by
  -- an event moved from `fs` to `post` is followed by nothing that sees a pid, so its set is the latest
  induction fs using List.reverseRecOn generalizing post with
  | nil =>
    rw [List.append_nil]
    exact hgrows
  | append_singleton fs f ih =>
    have hassoc : pre ++ (fs ++ [f]) ++ post = pre ++ fs ++ f :: post := by
      simp only [List.append_assoc, List.singleton_append]
    rw [List.append_assoc, List.singleton_append] at hfs
    rw [hassoc] at h hkept
    rw [← List.append_assoc, List.pairwise_append]
    refine ⟨ih h hfs hkept, List.pairwise_singleton _ _, fun e he g hg => ?_⟩
    apply grows_of_stored
    rintro now timed set now' timed' set' rfl rfl ht ha pid hpid
    obtain rfl := List.mem_singleton.mp hg
    have hput := h.mem_accepted_of_put (List.mem_append_left _ he) hpid
    rw [ht, ha] at hput
    have hlatest := h.latest_of_split fun g hg =>
      hfs g (List.mem_append_right _ (List.mem_cons_of_mem _ hg)) _ _
    rcases hkept _ _ pid hput with hheld | ⟨pids, hpids, hmem⟩
    · rw [hlatest.1] at hheld
      exact absurd hheld ExtTreeSet.not_mem_empty
    · cases hpids.symm.trans hlatest.2
      exact hmem

/-! ### No slot is seen once a set of it was put -/

section Closed

variable (h : Faithful es) (hcloses : es.Pairwise Closes)

include hcloses in
theorem not_sees_after_put {pre post : List PidEvent} {e : PidEvent} (hes : es = pre ++ e :: post)
    (hputs : e.puts slot agent) : ∀ f ∈ post, ¬ f.sees slot agent := by
  subst hes
  intro f hf
  have htail := (List.pairwise_append.mp hcloses).2.1
  exact List.rel_of_pairwise_cons htail hf slot agent hputs

include hcloses in
theorem unstored_of_stores {e : PidEvent} (he : e ∈ es) (hs : e.stores slot agent) :
    unstored es slot agent = none := by
  obtain ⟨pre, post, rfl⟩ := List.mem_iff_append.mp he
  have hpost := not_sees_after_put hcloses rfl (puts_of_stores hs)
  rw [← List.singleton_append, ← List.append_assoc]
  apply unstored_append _ hpost
  rw [unstored_concat, unstoredAfter_of_stores hs]

include h hcloses in
theorem countP_stores_le_one : es.countP (stores slot agent) ≤ 1 := by
  induction es using List.reverseRecOn with
  | nil => exact Nat.zero_le _
  | append_singleton es e ih =>
    have hbefore := (List.pairwise_append.mp hcloses).1
    rw [List.countP_append, List.countP_singleton]
    split
    · next hs =>
      obtain ⟨now, timed, pids, rfl⟩ := stores_iff.mp hs
      have hput : unstored es slot agent = some pids := h.unstored_of_split
      have hnone : es.countP (stores slot agent) = 0 := by
        apply List.countP_eq_zero.mpr
        intro e he hs
        rw [unstored_of_stores hbefore he hs] at hput
        cases hput
      omega
    · exact ih h.before hbefore

include h hcloses in
/-- Every set that is put has all pids that are ever seen of its agent in its slot. -/
theorem pids_of_put {now : Int64} {timed : Bool} {set : PidSet} {stored : Bool}
    (hput : .put now timed set stored ∈ es) : set.pids = accepted es set.time set.agent := by
  obtain ⟨pre, post, rfl⟩ := List.mem_iff_append.mp hput
  have hheld := h.unstored_of_split
  have hbefore := (List.pairwise_append.mp hcloses).1
  have hfirst : ∀ e ∈ pre, ¬ e.stores set.time set.agent := by
    intro e he hs
    rw [unstored_of_stores hbefore he hs] at hheld
    cases hheld
  have hpids := unstored_getD hfirst
  rw [hheld, Option.getD_some] at hpids
  have hsees : ∀ f ∈ .put now timed set stored :: post, ¬ f.sees set.time set.agent := by
    intro f hf
    cases hf with
    | head => exact fun hs => nomatch hs
    | tail _ hf =>
      have hputs : puts set.time set.agent (.put now timed set stored) := decide_eq_true ⟨rfl, rfl⟩
      exact not_sees_after_put hcloses rfl hputs f hf
  rw [accepted_append hsees]
  exact hpids

include h hcloses in
/-- When nothing is left to be stored, what was stored last is what was seen, if anything was. -/
theorem latest_of_closed {pids : PidGroup} (hnone : unstored es slot agent = none) :
    latest es slot agent = some pids ↔ pids ≠ ∅ ∧ pids = accepted es slot agent := by
  constructor
  · intro hlatest
    obtain ⟨now, timed, hput⟩ := mem_of_latest hlatest
    refine ⟨?_, pids_of_put h hcloses hput⟩
    obtain ⟨pre, post, rfl⟩ := List.mem_iff_append.mp hput
    obtain ⟨pid, hpid⟩ := exists_mem_of_unstored h.unstored_of_split
    rintro rfl
    exact ExtTreeSet.not_mem_empty hpid
  · rintro ⟨hne, rfl⟩
    cases hlatest : latest es slot agent with
    | some pids =>
      obtain ⟨now, timed, hput⟩ := mem_of_latest hlatest
      rw [← show pids = accepted es slot agent from pids_of_put h hcloses hput]
    | none =>
      have hfirst := unstored_getD (not_stores_of_latest hlatest)
      rw [hnone, Option.getD_none] at hfirst
      exact absurd hfirst.symm hne

end Closed

end History

end NetAtlas

import Mathlib.Algebra.Ring.Int.Defs
import NetAtlas.Proofs.Link.Buckets

set_option autoImplicit false

/-!
# Tallies

Traffic is added to values and values are merged in whatever order and nesting the links of a map are
found. What comes out depends on the observations alone: each slot, and all slots together, have their
exact sums, cut off at the largest 64-bit number, and their largest totals.
-/
namespace NetAtlas

open Std

namespace Stat

/-- The sums of some observations, as far as 64 bits go, and the largest of their totals. -/
structure Summarizes (s : Stat) (os : List Observation) : Prop where
  sent : s.sent = min 0x7FFFFFFFFFFFFFFF (os.map fun o => o.counters.sent.toInt).sum
  recv : s.recv = min 0x7FFFFFFFFFFFFFFF (os.map fun o => o.counters.recv.toInt).sum
  retransmits : s.retransmits = min 0x7FFFFFFFFFFFFFFF (os.map fun o => o.counters.retransmits.toInt).sum
  maxSent : s.maxSent = (os.map fun o => o.counters.monotonicSent.toInt).foldr max 0
  maxRecv : s.maxRecv = (os.map fun o => o.counters.monotonicRecv.toInt).foldr max 0
  maxRetransmits : s.maxRetransmits = (os.map fun o => o.counters.monotonicRetransmits.toInt).foldr max 0

/-- A number of a statistic that is combined by an operation is combined so over all observations. -/
theorem part_exact (part : Stat → Int) (combine : Int → Int → Int) (hzero : part zero = 0)
    (hplus : ∀ s t, part (s.plus t) = combine (part s) (part t)) (os : List Observation) :
    part (exact os) = (os.map fun o => part (ofCounters o.counters)).foldr combine 0 := by
  induction os with
  | nil => exact hzero
  | cons o os ih =>
    change part ((ofCounters o.counters).plus (exact os)) = combine _ _
    rw [hplus, ih]

theorem clamp_of_nonneg {n : Int} (h : 0 ≤ n) : clamp n = min 0x7FFFFFFFFFFFFFFF n := by
  unfold clamp
  omega

theorem summarizes_exact (os : List Observation) : (exact os).clamped.Summarizes os where
  sent := (clamp_of_nonneg (nonneg_exact os).sent).trans
    (congrArg _ (part_exact sent (· + ·) rfl (fun _ _ => rfl) os))
  recv := (clamp_of_nonneg (nonneg_exact os).recv).trans
    (congrArg _ (part_exact recv (· + ·) rfl (fun _ _ => rfl) os))
  retransmits := (clamp_of_nonneg (nonneg_exact os).retransmits).trans
    (congrArg _ (part_exact retransmits (· + ·) rfl (fun _ _ => rfl) os))
  maxSent := part_exact maxSent max rfl (fun _ _ => rfl) os
  maxRecv := part_exact maxRecv max rfl (fun _ _ => rfl) os
  maxRetransmits := part_exact maxRetransmits max rfl (fun _ _ => rfl) os

theorem clamp_clamp_add_clamp {a b : Int} (ha : 0 ≤ a) (hb : 0 ≤ b) :
    clamp (clamp a + clamp b) = clamp (a + b) := by
  unfold clamp
  omega

theorem clamped_merge_clamped {s t : Stat} (hs : s.Nonneg) (ht : t.Nonneg) :
    s.clamped.merge t.clamped = (s.plus t).clamped := by
  simp only [merge, clamped, plus, clamp_clamp_add_clamp hs.sent ht.sent,
    clamp_clamp_add_clamp hs.recv ht.recv, clamp_clamp_add_clamp hs.retransmits ht.retransmits]

/-- Sums that are cut off at each step come to the exact sum, cut off once. -/
theorem foldl_merge_clamped {s : Stat} (hs : s.Nonneg) {stats : List Stat}
    (h : ∀ t ∈ stats, t.Nonneg) :
    (stats.map clamped).foldl merge s.clamped = (s.plus (sum stats)).clamped := by
  induction stats generalizing s with
  | nil => exact congrArg clamped ((plus_comm s zero).trans (zero_plus hs)).symm
  | cons t stats ih =>
    have ht := h t List.mem_cons_self
    rw [List.map_cons, List.foldl_cons, clamped_merge_clamped hs ht,
      ih (nonneg_plus hs ht) fun u hu => h u (List.mem_cons_of_mem _ hu), plus_assoc]
    rfl

end Stat

namespace LinkValue

variable (w : Window)

/-- A slot has a bucket if any of some observations is in it, and the bucket sums those up. -/
structure Summarizes (value : LinkValue) (os : List Observation) : Prop where
  slots : ∀ slot : Int, slot ∈ value ↔ ∃ o ∈ os, w.refine o.time.toInt = slot
  buckets : ∀ (slot : Int) (stat : Stat), value[slot]? = some stat → stat.Summarizes (inSlot w slot os)

theorem summarizes_ofObservations (os : List Observation) : (ofObservations w os).Summarizes w os where
  slots _ := mem_ofObservations w
  buckets slot stat hstat := by
    rw [getElem?_ofObservations] at hstat
    split at hstat
    · cases hstat
    · cases hstat
      exact Stat.summarizes_exact _

/-- Every observation is in one of the slots of the value. -/
theorem flatMap_inSlot_perm (os : List Observation) :
    ((ofObservations w os).keys.flatMap fun slot => inSlot w slot os).Perm os := by
  have hpicked := flatMap_filter_perm (fun slot (o : Observation) => decide (w.refine o.time.toInt = slot))
    (ofObservations w os).keys os (ExtTreeMap.nodup_keys.imp fun hne o _ ⟨ha, hb⟩ =>
      hne ((of_decide_eq_true ha).symm.trans (of_decide_eq_true hb)))
  refine hpicked.trans (List.Perm.of_eq ?_)
  apply List.filter_eq_self.mpr
  intro o ho
  exact List.any_eq_true.mpr ⟨_, ExtTreeMap.mem_keys.mpr ((mem_ofObservations w).mpr ⟨o, ho, rfl⟩),
    decide_eq_true rfl⟩

theorem buckets_ofObservations (os : List Observation) :
    (ofObservations w os).toList.map Prod.snd =
      ((ofObservations w os).keys.map fun slot => Stat.exact (inSlot w slot os)).map Stat.clamped := by
  rw [← ExtTreeMap.map_fst_toList_eq_keys, List.map_map, List.map_map]
  apply List.map_congr_left
  rintro ⟨slot, stat⟩ hmem
  have hstat := ExtTreeMap.mem_toList_iff_getElem?_eq_some.mp hmem
  rw [getElem?_ofObservations] at hstat
  split at hstat
  · cases hstat
  · cases hstat
    rfl

theorem total_ofObservations (os : List Observation) :
    (ofObservations w os).total = (Stat.exact os).clamped := by
  have hnonneg : ∀ stat ∈ (ofObservations w os).keys.map fun slot => Stat.exact (inSlot w slot os),
      stat.Nonneg := by
    intro stat hstat
    obtain ⟨slot, _, rfl⟩ := List.mem_map.mp hstat
    exact Stat.nonneg_exact _
  calc
    (ofObservations w os).total =
        ((ofObservations w os).toList.map Prod.snd).foldl Stat.merge Stat.zero.clamped := by
      rw [total, ExtTreeMap.foldl_eq_foldl_toList, List.foldl_map]
      rfl
    _ = (Stat.zero.plus (Stat.sum ((ofObservations w os).keys.map fun slot =>
          Stat.exact (inSlot w slot os)))).clamped := by
      rw [buckets_ofObservations, Stat.foldl_merge_clamped Stat.nonneg_zero hnonneg]
    _ = (Stat.exact ((ofObservations w os).keys.flatMap fun slot => inSlot w slot os)).clamped := by
      rw [Stat.zero_plus (Stat.nonneg_sum hnonneg), Stat.exact_flatMap]
    _ = (Stat.exact os).clamped := by
      rw [Stat.exact_perm (flatMap_inSlot_perm w os)]

end LinkValue

/-- How a value comes about: observations are added to values and values are merged. -/
inductive Tally
  | empty
  | add (t : Tally) (o : Observation)
  | merge (t u : Tally)

namespace Tally

variable (w : Window)

def value : Tally → LinkValue
  | empty => ∅
  | add t o => t.value.add w o
  | merge t u => t.value.merge u.value

def observations : Tally → List Observation
  | empty => []
  | add t o => t.observations ++ [o]
  | merge t u => t.observations ++ u.observations

theorem value_eq (t : Tally) : t.value w = LinkValue.ofObservations w t.observations := by
  induction t with
  | empty => rfl
  | add t o ih => rw [value, ih, observations, LinkValue.ofObservations_concat]
  | merge t u iht ihu => rw [value, iht, ihu, observations, LinkValue.ofObservations_append]

/-- The observations added one after another. -/
def ofList (os : List Observation) : Tally := os.foldl add empty

theorem observations_foldl_add (os : List Observation) (t : Tally) :
    (os.foldl add t).observations = t.observations ++ os := by
  induction os generalizing t with
  | nil => exact (List.append_nil _).symm
  | cons o os ih =>
    rw [List.foldl_cons, ih, observations, List.append_assoc, List.singleton_append]

theorem observations_ofList (os : List Observation) : (ofList os).observations = os :=
  observations_foldl_add os empty

theorem value_ofList (os : List Observation) : (ofList os).value w = LinkValue.ofObservations w os := by
  rw [value_eq, observations_ofList]

theorem bounded_value (t : Tally) : (t.value w).Bounded := by
  rw [value_eq]
  exact LinkValue.ofObservations_bounded w _

theorem total_value (t : Tally) : (t.value w).total = (Stat.exact t.observations).clamped := by
  rw [value_eq, LinkValue.total_ofObservations]

/-- However observations are added and merged, a slot has a bucket if any of them is in it, the bucket
summarizes those, and the total summarizes all. So merging does not depend on order or grouping, the empty
value adds nothing, and the total of merged values is that of their totals. -/
theorem value_summarizes (t : Tally) (os : List Observation) (h : t.observations.Perm os) :
    (∀ slot : Int, slot ∈ t.value w ↔ ∃ o ∈ os, w.refine o.time.toInt = slot) ∧
    (∀ (slot : Int) (stat : Stat), (t.value w)[slot]? = some stat →
      stat.Summarizes (LinkValue.inSlot w slot os)) ∧
    (t.value w).total.Summarizes os ∧
    (t.value w).merge ∅ = t.value w ∧
    LinkValue.merge ∅ (t.value w) = t.value w ∧
    ∀ u : Tally,
      (t.value w).merge (u.value w) = (u.value w).merge (t.value w) ∧
      (∀ x : Tally, ((t.value w).merge (u.value w)).merge (x.value w) =
        (t.value w).merge ((u.value w).merge (x.value w))) ∧
      ((t.value w).merge (u.value w)).total = (t.value w).total.merge (u.value w).total := by
  have hvalue : t.value w = LinkValue.ofObservations w os := by
    rw [value_eq, LinkValue.ofObservations_perm w h]
  have hbounded := t.bounded_value w
  have hsummarizes : (t.value w).Summarizes w os := by
    rw [hvalue]
    exact LinkValue.summarizes_ofObservations w os
  refine ⟨hsummarizes.slots, hsummarizes.buckets, ?_, LinkValue.merge_empty _,
    LinkValue.empty_merge hbounded, fun u => ⟨LinkValue.merge_comm hbounded (u.bounded_value w), fun x =>
      LinkValue.merge_assoc hbounded (u.bounded_value w) (x.bounded_value w), ?_⟩⟩
  · rw [hvalue, LinkValue.total_ofObservations]
    exact Stat.summarizes_exact os
  · change ((merge t u).value w).total = _
    rw [total_value, total_value, total_value, observations, Stat.exact_append,
      Stat.clamped_merge_clamped (Stat.nonneg_exact _) (Stat.nonneg_exact _)]

def client : Endpoint := ⟨⟨.v4, [10, 0, 4, 1], rfl⟩, 40100, by decide⟩

def server : Endpoint := ⟨⟨.v4, [10, 0, 4, 2], rfl⟩, 8020, by decide⟩

/-- One process sees one socket, at different times. -/
def seen (time sent monotonicSent : Int64) (h : Counters.Nonneg { monotonicSent, sent }) : Observation where
  agent := "edge"
  pid := 1
  transport := .tcp
  direction := .outgoing
  src := client
  dst := server
  netNs := 0
  counters := { monotonicSent, sent }
  time
  agent_pos := by decide
  agent_le := by decide
  same_family := rfl
  counters_nonneg := h

def sampleWindow : Window := ⟨⟨700, 1400, by decide, by decide⟩, 250, by decide⟩

/-- Two observations of one slot are more than 64 bits hold, and come from different values. -/
def saturated : Tally :=
  .merge (.add (.add .empty (seen 1300 7 9000 (by decide))) (seen 1000 9223372036854775807 5000 (by decide)))
    (.add .empty (seen 1100 2 4000 (by decide)))

def saturatedList : List Observation :=
  [seen 1000 9223372036854775807 5000 (by decide), seen 1100 2 4000 (by decide),
    seen 1300 7 9000 (by decide)]

theorem value_summarizes_saturated :
    saturated.observations.Perm saturatedList ∧
    ((saturated.value sampleWindow).keys = [1000, 1250]) ∧
    (saturated.value sampleWindow).total.Summarizes saturatedList ∧
    (saturated.value sampleWindow).total.sent = 9223372036854775807 ∧
    (saturated.value sampleWindow).total.maxSent = 9000 := by
  have hperm : saturated.observations.Perm saturatedList := by decide
  obtain ⟨_, _, htotal, _⟩ := value_summarizes sampleWindow saturated saturatedList hperm
  exact ⟨hperm, by decide +kernel, htotal, htotal.sent.trans (by decide), htotal.maxSent.trans (by decide)⟩

end Tally

end NetAtlas

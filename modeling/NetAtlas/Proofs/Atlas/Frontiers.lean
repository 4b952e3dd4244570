import Mathlib.Data.List.Dedup
import Mathlib.Data.List.Perm.Subperm
import NetAtlas.Proofs.Atlas.Runs

set_option autoImplicit false

/-!
# Frontiers that run dry

What waits in a frontier was never expanded, so every round that has something to expand claims a node
that no round before it did. A frontier that is empty, or lies beyond the depth, stays empty: what a
side expands is settled one round after its depth and does not depend on how deep it might still go.
-/
namespace NetAtlas

open Binding

namespace Side

variable (c : Contents) (w : Window)

theorem claims_of_empty {s : Side} (h : s.frontier = []) : s.claims = [] := by
  rw [claims, h]
  rfl

theorem frontier_expandIn_of_empty {s : Side} (h : s.frontier = []) :
    (s.expandIn c w).frontier = [] := by
  have hledger : s.ledger c w = [] := by
    rw [ledger, claims_of_empty h]
    rfl
  rw [expandIn, hledger]
  rfl

theorem frontier_succ_of_empty {s : Side} {r : Nat} (h : (s.after c w r).frontier = []) :
    (s.after c w (r + 1)).frontier = [] := by
  by_cases hr : r ≤ s.depth
  · rw [after_succ c w hr]
    exact frontier_expandIn_of_empty c w h
  · rw [after_succ_of_lt c w (Nat.lt_of_not_le hr)]

theorem frontier_succ_of_lt {s : Side} {r : Nat} (h : s.depth < r) :
    (s.after c w (r + 1)).frontier = [] := by
  rw [after_succ_of_lt c w h]

theorem expansions_succ_of_empty {s : Side} {r : Nat} (h : (s.after c w r).frontier = []) :
    s.expansions c w (r + 1) = s.expansions c w r := by
  rw [expansions, claims_of_empty h, ite_self, List.append_nil]

/-- Once nothing waits, nothing is expanded any more. -/
theorem expansions_of_empty {s : Side} {r r' : Nat} (h : (s.after c w r).frontier = [])
    (hle : r ≤ r') :
    s.expansions c w r' = s.expansions c w r ∧ (s.after c w r').frontier = [] := by
  induction hle with
  | refl => exact ⟨rfl, h⟩
  | step _ ih =>
    obtain ⟨hsame, hempty⟩ := ih
    exact ⟨(expansions_succ_of_empty c w hempty).trans hsame, frontier_succ_of_empty c w hempty⟩

theorem expansions_of_depth_lt {s : Side} {r : Nat} (h : s.depth < r) :
    s.expansions c w r = s.expansions c w (s.depth + 1) := by
  induction h with
  | refl => rfl
  | step hlt ih => exact (expansions_succ_of_lt c w hlt).trans ih

/-- The expansions of more rounds begin with those of fewer. -/
theorem expansions_prefix (s : Side) {r r' : Nat} (hle : r ≤ r') :
    s.expansions c w r <+: s.expansions c w r' := by
  induction hle with
  | refl => exact List.prefix_rfl
  | step _ ih => exact ih.trans (List.prefix_append _ _)

variable {v : View} {depth : Nat} {agent : String}

/-- Up to its own depth a side goes as a deeper one does. -/
theorem after_of_depth_le {depth' : Nat} (hdepth : depth ≤ depth') {r : Nat} (hr : r ≤ depth + 1) :
    (ofSeed v depth agent).after c w r =
      { (ofSeed v depth' agent).after c w r with depth := depth } := by
  induction r with
  | zero => rfl
  | succ r ih =>
    have hle : r ≤ depth := Nat.le_of_succ_le_succ hr
    rw [after_succ c w (s := ofSeed v depth agent) hle,
      after_succ c w (s := ofSeed v depth' agent) (Nat.le_trans hle hdepth), ih (by omega)]
    rfl

theorem expansions_of_depth_le {depth' : Nat} (hdepth : depth ≤ depth') {r : Nat} (hr : r ≤ depth + 1) :
    (ofSeed v depth agent).expansions c w r = (ofSeed v depth' agent).expansions c w r := by
  induction r with
  | zero => rfl
  | succ r ih =>
    have hle : r ≤ depth := Nat.le_of_succ_le_succ hr
    rw [expansions_succ c w (s := ofSeed v depth agent) hle,
      expansions_succ c w (s := ofSeed v depth' agent) (Nat.le_trans hle hdepth), ih (by omega),
      after_of_depth_le c w hdepth (by omega)]
    rfl

theorem not_isVisited_of_mem_frontier {r : Nat} {m : Node}
    (h : m ∈ ((ofSeed v depth agent).after c w r).frontier) :
    ¬ ((ofSeed v depth agent).after c w r).visits.isVisited m := by
  cases r with
  | zero =>
    intro hvisited
    obtain ⟨_, hmem⟩ := (Visits.isVisited_pids (Visits.coverage_empty m.agent)).mp hvisited
    exact absurd hmem Std.ExtTreeSet.not_mem_empty
  | succ r =>
    by_cases hr : r ≤ depth
    · rw [after_succ c w hr] at h ⊢
      exact (mem_nextFrontier.mp h).2
    · rw [after_succ_of_lt c w (Nat.lt_of_not_le hr)] at h
      exact absurd h List.not_mem_nil

/-- A side with something waiting claims something. -/
theorem claims_ne_nil {r : Nat} (h : ((ofSeed v depth agent).after c w r).frontier ≠ []) :
    ((ofSeed v depth agent).after c w r).claims ≠ [] := by
  obtain ⟨m, hm⟩ := List.exists_mem_of_ne_nil _ h
  exact Visits.claim_ne_nil hm (not_isVisited_of_mem_frontier c w hm)

/-- Every round before one with something waiting claimed a node of its own. -/
theorem le_length_expansions {r : Nat} (h : ((ofSeed v depth agent).after c w r).frontier ≠ []) :
    r ≤ depth + 1 ∧ r ≤ ((ofSeed v depth agent).expansions c w r).length := by
  induction r with
  | zero => exact ⟨Nat.zero_le _, Nat.zero_le _⟩
  | succ r ih =>
    have hr : r ≤ depth := by
      by_contra hlt
      exact h (frontier_succ_of_lt c w (Nat.lt_of_not_le hlt))
    have hwaiting : ((ofSeed v depth agent).after c w r).frontier ≠ [] :=
      fun hempty => h (frontier_succ_of_empty c w hempty)
    obtain ⟨_, hlength⟩ := ih hwaiting
    have hclaims := List.length_pos_of_ne_nil (claims_ne_nil c w hwaiting)
    rw [expansions_succ c w (s := ofSeed v depth agent) hr, List.length_append]
    exact ⟨Nat.succ_le_succ hr, by omega⟩

theorem expansions_nodup (r : Nat) :
    (((ofSeed v depth agent).expansions c w r).map Prod.fst).Nodup := by
  induction r with
  | zero => exact List.nodup_nil
  | succ r ih =>
    by_cases hr : r ≤ depth
    · rw [expansions_succ c w hr, List.map_append, List.nodup_append]
      refine ⟨ih, Visits.claim_nodup _ _, ?_⟩
      -- what was expanded before is visited, what is claimed is not
      intro m hm n hn heq
      obtain ⟨e, he, rfl⟩ := List.mem_map.mp hm
      obtain ⟨f, hf, rfl⟩ := List.mem_map.mp hn
      apply Visits.not_isVisited_of_mem_claim hf
      rw [← heq]
      exact (splits_after c w rfl r).visited e he
    · rw [expansions_succ_of_lt c w (Nat.lt_of_not_le hr)]
      exact ih

theorem expanded_after (r : Nat) :
    ((ofSeed v depth agent).after c w r).visits.expanded =
      ((ofSeed v depth agent).expansions c w r).length := by
  induction r with
  | zero => rfl
  | succ r ih =>
    by_cases hr : r ≤ depth
    · rw [after_succ c w hr, expansions_succ c w hr, List.length_append, ← ih]
      exact Visits.expanded_claim _ _
    · rw [after_succ_of_lt c w (Nat.lt_of_not_le hr), expansions_succ_of_lt c w (Nat.lt_of_not_le hr)]
      exact ih

end Side

/-- The distinct nodes that reported something in a range to a view. -/
def Contents.reportingNodes (c : Contents) (v : View) (range : TimeRange) : List Node :=
  ((c.reports v range).map Observation.node).dedup

namespace Side

variable (c : Contents) (w : Window) {v : View} {depth : Nat} {agent : String}

/-- Whatever is expanded is the seed or has reported the far end of a link. -/
theorem mem_reportingNodes_of_mem_expansions {r : Nat} {e : Expansion}
    (h : e ∈ (ofSeed v depth agent).expansions c w r) :
    e.1 ∈ Node.ofAgent agent :: c.reportingNodes v.opposite w.range := by
  obtain ⟨_, _, path⟩ := reaches_of_mem_expansions c w h
  generalize e.1 = n at path
  cases path with
  | seed => exact List.mem_cons_self
  | step _ link far =>
    obtain ⟨p, _, ⟨q, hq, _, rfl⟩ | ⟨_, rfl⟩⟩ := (c.nodeLink_iff w v).mp link
    · rw [farEnd_linkKey] at far
      cases far
      exact List.mem_cons_of_mem _ (List.mem_dedup.mpr (List.mem_map_of_mem hq))
    · rw [farEnd_linkKey] at far
      cases far

theorem length_expansions_le (r : Nat) :
    ((ofSeed v depth agent).expansions c w r).length ≤
      (c.reportingNodes v.opposite w.range).length + 1 := by
  have hsub : ((ofSeed v depth agent).expansions c w r).map Prod.fst ⊆
      Node.ofAgent agent :: c.reportingNodes v.opposite w.range := by
    intro n hn
    obtain ⟨e, he, rfl⟩ := List.mem_map.mp hn
    exact mem_reportingNodes_of_mem_expansions c w he
  have hlength := (List.Nodup.subperm (expansions_nodup c w r) hsub).length_le
  rw [List.length_map] at hlength
  exact hlength

end Side

end NetAtlas

import NetAtlas.Proofs.Atlas.Coverage
import NetAtlas.Proofs.Atlas.Rounds

set_option autoImplicit false

/-!
# How far a side comes

The expansions of a side split the observations they book. Whatever they find is expanded too or waits
in the frontier, so after round `r` every node that `r` or fewer links lead to is covered, and none
that only more links lead to was expanded.
-/
namespace NetAtlas

open Std Binding

theorem Binding.direction_linkKey (v : View) (p : Observation) (peer : Option Node) :
    (linkKey v p peer).direction = v.direction := by
  cases v with
  | caller => rfl
  | callee => rfl

theorem Binding.farEnd_linkKey (v : View) (p : Observation) (peer : Option Node) :
    (Side.farEnd v (linkKey v p peer)).node = peer := by
  cases v with
  | caller => rfl
  | callee => rfl

/-- The end of a link that a view's reports are about. -/
def Binding.nearEnd (v : View) (k : LinkKey) : LinkEnd := Side.farEnd v.opposite k

theorem Binding.nearEnd_linkKey (v : View) (p : Observation) (peer : Option Node) :
    nearEnd v (linkKey v p peer) = ⟨v.own p, some p.node⟩ := by
  cases v <;> rfl

theorem Binding.nearEnd_of_links {v : View} {answers : List Observation} {p : Observation}
    {k : LinkKey} (h : Links v answers p k) : nearEnd v k = ⟨v.own p, some p.node⟩ := by
  rcases h with ⟨q, _, _, rfl⟩ | ⟨_, rfl⟩
  · exact nearEnd_linkKey v p _
  · exact nearEnd_linkKey v p _

theorem Binding.direction_of_links {v : View} {answers : List Observation} {p : Observation}
    {k : LinkKey} (h : Links v answers p k) : k.direction = v.direction := by
  rcases h with ⟨q, _, _, rfl⟩ | ⟨_, rfl⟩
  · exact direction_linkKey v p _
  · exact direction_linkKey v p _

theorem Binding.agent_le_of_links {v : View} {answers : List Observation} {p : Observation}
    {k : LinkKey} {m : Node} (h : Links v answers p k) (hm : (Side.farEnd v k).node = some m) :
    m.agent.utf8ByteSize ≤ maxAgentSize := by
  rcases h with ⟨q, _, _, rfl⟩ | ⟨_, rfl⟩
  · rw [farEnd_linkKey] at hm
    cases hm
    rw [Observation.node, Node.agent_of]
    exact q.agent_le
  · rw [farEnd_linkKey] at hm
    cases hm

namespace Contents

variable (c : Contents) (w : Window) (v : View)

/-- The links of a node, none of its pids left out: those found at the addresses of its agent. -/
def NodeLink (n : Node) (k : LinkKey) : Prop :=
  ∃ ip ∈ c.addresses n.agent w.range, ∃ m, (Binding.bind w v n ∅ ip).answer c = .ok m ∧ k ∈ m

/-- A path of links away from a seed agent, with the number of its links. -/
inductive Reaches (agent : String) : Nat → Node → Prop
  | seed : Reaches agent 0 (Node.ofAgent agent)
  | step {d : Nat} {n m : Node} {k : LinkKey} (path : Reaches agent d n) (link : c.NodeLink w v n k)
      (far : (Side.farEnd v k).node = some m) : Reaches agent (d + 1) m

theorem mem_bound {e : Expansion} {p : Observation} :
    p ∈ c.bound v w.range e ↔ p ∈ c.reports v w.range ∧ admits e.1 e.2 p ∧
      (v.own p).ip ∈ c.addresses e.1.agent w.range := by
  rw [bound, List.mem_filter, decide_eq_true_iff]

/-- Whatever an expansion leaves out, the rest is bound as without it. -/
theorem mem_bound_of_admits {e f : Expansion} {p : Observation} (hp : p ∈ c.bound v w.range e)
    (hf : admits f.1 f.2 p) : p ∈ c.bound v w.range f := by
  obtain ⟨hmem, he, hip⟩ := (c.mem_bound w v).mp hp
  have hagent : f.1.agent = e.1.agent := (admits_iff.mp hf).1.symm.trans (admits_iff.mp he).1
  rw [← hagent] at hip
  exact (c.mem_bound w v).mpr ⟨hmem, hf, hip⟩

theorem nodeLink_iff {n : Node} {k : LinkKey} :
    c.NodeLink w v n k ↔
      ∃ p ∈ c.bound v w.range (n, ∅), Links v (c.reports v.opposite w.range) p k := by
  rw [← mem_keys_postingsOf, postingsOf, List.map_flatMap, List.mem_flatMap]
  constructor
  · rintro ⟨ip, hip, m, hm, hk⟩
    rw [answer_bind] at hm
    cases hm
    exact ⟨ip, ExtTreeSet.mem_toList.mpr hip, LinkMap.mem_ofPostings.mp hk⟩
  · rintro ⟨ip, hip, hk⟩
    exact ⟨ip, ExtTreeSet.mem_toList.mp hip, _, answer_bind c w v n ∅ ip,
      LinkMap.mem_ofPostings.mpr hk⟩

end Contents

namespace Side

variable (c : Contents) (w : Window)

theorem mem_nextFrontier {v : View} {visits : Visits} {found : LinkMap} {m : Node} :
    m ∈ nextFrontier v visits found ↔
      (∃ k ∈ found, (farEnd v k).node = some m) ∧ ¬ visits.isVisited m := by
  rw [nextFrontier, ExtTreeSet.mem_toList, ExtTreeSet.mem_ofList, List.contains_iff_mem,
    List.mem_filter, List.mem_filterMap, Bool.not_eq_true']
  constructor
  · rintro ⟨⟨k, hk, hm⟩, hv⟩
    exact ⟨⟨k, ExtTreeMap.mem_keys.mp hk, hm⟩, fun h => Bool.false_ne_true (hv.symm.trans h)⟩
  · rintro ⟨⟨k, hk, hm⟩, hv⟩
    exact ⟨⟨k, ExtTreeMap.mem_keys.mpr hk, hm⟩, Bool.eq_false_iff.mpr hv⟩

theorem view_after (s : Side) (r : Nat) : (s.after c w r).view = s.view := by
  induction r with
  | zero => rfl
  | succ r ih =>
    rw [after, stepIn]
    split
    · exact ih
    · exact ih

theorem depth_after (s : Side) (r : Nat) : (s.after c w r).depth = s.depth := by
  induction r with
  | zero => rfl
  | succ r ih =>
    rw [after, stepIn]
    split
    · exact ih
    · exact ih

theorem after_succ {s : Side} {r : Nat} (h : r ≤ s.depth) :
    s.after c w (r + 1) = (s.after c w r).expandIn c w := by
  rw [after, stepIn, depth_after, if_pos h]

theorem after_succ_of_lt {s : Side} {r : Nat} (h : s.depth < r) :
    s.after c w (r + 1) = { s.after c w r with frontier := [] } := by
  have hdepth : ¬ r ≤ (s.after c w r).depth := by
    rw [depth_after]
    omega
  rw [after, stepIn, if_neg hdepth]

theorem expansions_succ {s : Side} {r : Nat} (h : r ≤ s.depth) :
    s.expansions c w (r + 1) = s.expansions c w r ++ (s.after c w r).claims := by
  rw [expansions, if_pos h]

theorem expansions_succ_of_lt {s : Side} {r : Nat} (h : s.depth < r) :
    s.expansions c w (r + 1) = s.expansions c w r := by
  have hdepth : ¬ r ≤ s.depth := by omega
  rw [expansions, if_neg hdepth, List.append_nil]

theorem links_after {s : Side} (hs : s.links = ∅) (r : Nat) :
    (s.after c w r).links =
      LinkMap.ofPostings w ((s.expansions c w r).flatMap (c.postingsOf s.view w.range)) := by
  induction r with
  | zero => exact hs
  | succ r ih =>
    by_cases h : r ≤ s.depth
    · rw [after_succ c w h, expansions_succ c w h, List.flatMap_append, LinkMap.ofPostings_append,
        ← ih, expandIn, ledger, view_after]
    · have hlt : s.depth < r := by omega
      rw [after_succ_of_lt c w hlt, expansions_succ_of_lt c w hlt]
      exact ih

theorem splits_after {s : Side} (hs : s.visits = Visits.empty) (r : Nat) :
    (s.after c w r).visits.Splits (s.expansions c w r) := by
  induction r with
  | zero =>
    rw [after, hs]
    exact Visits.splits_empty
  | succ r ih =>
    by_cases h : r ≤ s.depth
    · rw [after_succ c w h, expansions_succ c w h]
      exact Visits.splits_claim ih _
    · have hlt : s.depth < r := by omega
      rw [after_succ_of_lt c w hlt, expansions_succ_of_lt c w hlt]
      exact ih

theorem isVisited_succ {s : Side} {r : Nat} {m : Node}
    (h : (s.after c w r).visits.isVisited m) : (s.after c w (r + 1)).visits.isVisited m := by
  by_cases hr : r ≤ s.depth
  · rw [after_succ c w hr]
    exact Visits.isVisited_claim (Or.inr h)
  · rw [after_succ_of_lt c w (by omega)]
    exact h

theorem isVisited_of_le {s : Side} {r r' : Nat} {m : Node} (hle : r ≤ r')
    (h : (s.after c w r).visits.isVisited m) : (s.after c w r').visits.isVisited m := by
  induction hle with
  | refl => exact h
  | step _ ih => exact isVisited_succ c w ih

theorem isVisited_of_mem_frontier {s : Side} {r : Nat} {m : Node} (hr : r ≤ s.depth)
    (h : m ∈ (s.after c w r).frontier) : (s.after c w (r + 1)).visits.isVisited m := by
  rw [after_succ c w hr]
  exact Visits.isVisited_claim (Or.inl h)

/-- No process that an expansion found is lost: it is visited or waits in the frontier. -/
theorem visited_or_waiting {s : Side} {r : Nat} (hr : r ≤ s.depth + 1) {e : Expansion}
    (he : e ∈ s.expansions c w r) {k : LinkKey}
    (hk : k ∈ (c.postingsOf s.view w.range e).map Posting.key) {m : Node}
    (hm : (farEnd s.view k).node = some m) :
    (s.after c w r).visits.isVisited m ∨ m ∈ (s.after c w r).frontier := by
  induction r with
  | zero => exact absurd he List.not_mem_nil
  | succ r ih =>
    have hle : r ≤ s.depth := by omega
    rw [expansions_succ c w hle, List.mem_append] at he
    rcases he with he | he
    · rcases ih (by omega) he with h | h
      · exact Or.inl (isVisited_succ c w h)
      · exact Or.inl (isVisited_of_mem_frontier c w hle h)
    · by_cases hvisited : (s.after c w (r + 1)).visits.isVisited m = true
      · exact Or.inl hvisited
      · right
        rw [after_succ c w hle] at hvisited ⊢
        refine mem_nextFrontier.mpr ⟨⟨k, ?_, ?_⟩, hvisited⟩
        · rw [LinkMap.mem_ofPostings, ledger, view_after, List.map_flatMap]
          exact List.mem_flatMap.mpr ⟨e, he, hk⟩
        · rw [view_after]
          exact hm

theorem mem_links_after {s : Side} (hs : s.links = ∅) {r : Nat} {k : LinkKey} :
    k ∈ (s.after c w r).links ↔ ∃ e ∈ s.expansions c w r, ∃ p ∈ c.bound s.view w.range e,
      Links s.view (c.reports s.view.opposite w.range) p k := by
  rw [links_after c w hs, LinkMap.mem_ofPostings, List.map_flatMap, List.mem_flatMap]
  simp only [Contents.mem_keys_postingsOf]

theorem visited_or_waiting_of_nodeLink {s : Side} (hs : s.visits = Visits.empty) {r : Nat}
    (hr : r ≤ s.depth + 1) {n m : Node} (hn : (s.after c w r).visits.isVisited n) {k : LinkKey}
    (link : c.NodeLink w s.view n k) (hm : (farEnd s.view k).node = some m) :
    (s.after c w r).visits.isVisited m ∨ m ∈ (s.after c w r).frontier := by
  obtain ⟨p, hp, hlinks⟩ := (c.nodeLink_iff w s.view).mp link
  obtain ⟨_, hadmits, _⟩ := (c.mem_bound w s.view).mp hp
  obtain ⟨e, he, hep⟩ := ((splits_after c w hs r).covers p).mp (Visits.covers_of_isVisited hn hadmits)
  apply visited_or_waiting c w hr he _ hm
  exact c.mem_keys_postingsOf s.view w.range |>.mpr ⟨p, c.mem_bound_of_admits w s.view hp hep, hlinks⟩

theorem nodeLink_of_mem_keys {v : View} {e : Expansion} {k : LinkKey}
    (h : k ∈ (c.postingsOf v w.range e).map Posting.key) : c.NodeLink w v e.1 k := by
  obtain ⟨p, hp, hlinks⟩ := (c.mem_keys_postingsOf v w.range).mp h
  have hadmits : admits e.1 ∅ p := admits_of_skip ((c.mem_bound w v).mp hp).2.1
  exact (c.nodeLink_iff w v).mpr ⟨p, c.mem_bound_of_admits w v hp hadmits, hlinks⟩

variable {v : View} {depth : Nat} {agent : String}

/-- The frontier of round `r` is reached by `r` links. -/
theorem reaches_of_mem_frontier {r : Nat} {m : Node}
    (h : m ∈ ((ofSeed v depth agent).after c w r).frontier) : c.Reaches w v agent r m := by
  induction r generalizing m with
  | zero =>
    cases List.mem_singleton.mp h
    exact Contents.Reaches.seed
  | succ r ih =>
    by_cases hr : r ≤ depth
    · rw [after_succ c w hr] at h
      obtain ⟨⟨k, hk, hm⟩, _⟩ := mem_nextFrontier.mp h
      rw [LinkMap.mem_ofPostings, ledger, List.map_flatMap, view_after] at hk
      rw [view_after] at hm
      obtain ⟨e, he, hk⟩ := List.mem_flatMap.mp hk
      exact Contents.Reaches.step (ih (Visits.mem_of_mem_claim he)) (nodeLink_of_mem_keys c w hk) hm
    · rw [after_succ_of_lt c w (Nat.lt_of_not_le hr)] at h
      exact absurd h List.not_mem_nil

/-- Nothing beyond the depth is expanded. -/
theorem reaches_of_mem_expansions {r : Nat} {e : Expansion}
    (h : e ∈ (ofSeed v depth agent).expansions c w r) :
    ∃ j, j ≤ depth ∧ c.Reaches w v agent j e.1 := by
  induction r with
  | zero => exact absurd h List.not_mem_nil
  | succ r ih =>
    by_cases hr : r ≤ depth
    · rw [expansions_succ c w hr, List.mem_append] at h
      rcases h with h | h
      · exact ih h
      · exact ⟨r, hr, reaches_of_mem_frontier c w (Visits.mem_of_mem_claim h)⟩
    · rw [expansions_succ_of_lt c w (Nat.lt_of_not_le hr)] at h
      exact ih h

/-- A node that `j` links lead to is covered from the end of round `j` on. -/
theorem isVisited_of_reaches {j r : Nat} {n : Node} (path : c.Reaches w v agent j n) (hj : j < r)
    (hd : j ≤ depth) : ((ofSeed v depth agent).after c w r).visits.isVisited n := by
  induction path generalizing r with
  | seed =>
    apply isVisited_of_le c w hj
    exact isVisited_of_mem_frontier c w hd (List.mem_singleton.mpr rfl)
  | @step i n m k _ link far ih =>
    have hi : i ≤ depth := by omega
    have hn := ih (Nat.lt_succ_self i) hi
    apply isVisited_of_le c w hj
    rcases visited_or_waiting_of_nodeLink c w rfl (Nat.add_le_add_right hi 1) hn link far with h | h
    · exact isVisited_succ c w h
    · exact isVisited_of_mem_frontier c w hd h

/-- If nothing waits any more, everything that can be reached is covered. -/
theorem isVisited_of_frontier_empty {j r : Nat} {n : Node} (path : c.Reaches w v agent j n)
    (hr : r ≤ depth + 1) (hempty : ((ofSeed v depth agent).after c w r).frontier = []) :
    ((ofSeed v depth agent).after c w r).visits.isVisited n := by
  induction path with
  | seed =>
    have hpos : 0 < r := by
      cases r with
      | zero => cases hempty
      | succ r => exact Nat.succ_pos r
    exact isVisited_of_reaches c w Contents.Reaches.seed hpos (Nat.zero_le _)
  | step _ link far ih =>
    rcases visited_or_waiting_of_nodeLink c w rfl hr ih link far with h | h
    · exact h
    · rw [hempty] at h
      exact absurd h List.not_mem_nil

/-- The links of a side that covers all nodes within its depth are the links of these nodes. -/
theorem mem_links_iff {r : Nat} {k : LinkKey}
    (hcover : ∀ j n, j ≤ depth → c.Reaches w v agent j n →
      ((ofSeed v depth agent).after c w r).visits.isVisited n) :
    k ∈ ((ofSeed v depth agent).after c w r).links ↔
      ∃ j n, j ≤ depth ∧ c.Reaches w v agent j n ∧ c.NodeLink w v n k := by
  rw [mem_links_after c w rfl]
  constructor
  · rintro ⟨e, he, hk⟩
    obtain ⟨j, hj, path⟩ := reaches_of_mem_expansions c w he
    exact ⟨j, e.1, hj, path, nodeLink_of_mem_keys c w ((c.mem_keys_postingsOf v w.range).mpr hk)⟩
  · rintro ⟨j, n, hj, path, link⟩
    obtain ⟨p, hp, hlinks⟩ := (c.nodeLink_iff w v).mp link
    have hadmits := ((c.mem_bound w v).mp hp).2.1
    have hcovered := Visits.covers_of_isVisited (hcover j n hj path) hadmits
    obtain ⟨e, he, hep⟩ := ((splits_after c w rfl r).covers p).mp hcovered
    exact ⟨e, he, p, c.mem_bound_of_admits w v hp hep, hlinks⟩

end Side

end NetAtlas

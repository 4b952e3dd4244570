import NetAtlas.Atlas.Binding
import NetAtlas.Atlas.Visits
import NetAtlas.Proofs.Atlas.Ledger
import NetAtlas.Proofs.Socket.Node

set_option autoImplicit false

/-!
# What visits cover

Agent nodes cover all pids of their agent, and pids may come before them. The claims handed out so far
nevertheless split the observations they admit: no observation is admitted by two claims, and those
admitted by one are exactly those of the agents and pids noted as expanded.
-/
namespace NetAtlas

open Std

theorem Binding.admits_iff {n : Node} {skip : PidGroup} {o : Observation} :
    admits n skip o ↔ o.agent = n.agent ∧ (n.hasPid → o.pid = n.pid) ∧ o.pid ∉ skip :=
  decide_eq_true_iff

theorem Binding.admits_empty_iff {n : Node} {o : Observation} :
    admits n ∅ o ↔ o.agent = n.agent ∧ (n.hasPid → o.pid = n.pid) := by
  rw [admits_iff]
  constructor
  · rintro ⟨ha, hp, _⟩
    exact ⟨ha, hp⟩
  · rintro ⟨ha, hp⟩
    exact ⟨ha, hp, ExtTreeSet.not_mem_empty⟩

theorem Binding.admits_of_skip {n : Node} {skip : PidGroup} {o : Observation}
    (h : admits n skip o) : admits n ∅ o := by
  obtain ⟨ha, hp, _⟩ := admits_iff.mp h
  exact admits_empty_iff.mpr ⟨ha, hp⟩

/-- Reports of one process are admitted together, also when it is reported with several negative pids:
what is left out are known pids. -/
theorem Binding.admits_congr {n : Node} {skip : PidGroup} (hskip : ∀ pid ∈ skip, 0 ≤ pid)
    {o p : Observation} (h : o.node = p.node) : admits n skip o ↔ admits n skip p := by
  obtain ⟨ha, hp⟩ := Observation.pid_of_node_eq h
  rw [admits_iff, admits_iff, ha]
  rcases hp with hp | ⟨ho, hp⟩
  · rw [hp]
  · have hunknown : ∀ q : Observation, q.pid < 0 → (n.hasPid → q.pid = n.pid) → ¬ n.hasPid := by
      intro q hq himp hn
      have := Node.pid_nonneg hn
      rw [← himp hn] at this
      exact absurd hq (Int32.not_lt.mpr this)
    have hleft : ∀ q : Observation, q.pid < 0 → q.pid ∉ skip :=
      fun q hq hmem => absurd hq (Int32.not_lt.mpr (hskip _ hmem))
    constructor
    · rintro ⟨hagent, himp, _⟩
      exact ⟨hagent, fun hn => absurd hn (hunknown o ho himp), hleft p hp⟩
    · rintro ⟨hagent, himp, _⟩
      exact ⟨hagent, fun hn => absurd hn (hunknown p hp himp), hleft o ho⟩

namespace Visits

open Binding

/-- Only known pids are noted. -/
def Noted (v : Visits) : Prop :=
  ∀ agent pids, v.coverage agent = .pids pids → ∀ pid ∈ pids, 0 ≤ pid

def Covers (v : Visits) (o : Observation) : Prop :=
  match v.coverage o.agent with
  | .whole => True
  | .pids pids => o.pid ∈ pids

theorem coverage_mark (v : Visits) (agent b : String) (cov : Coverage) :
    (v.mark agent cov).coverage b = if agent = b then cov else v.coverage b := by
  rw [coverage, mark, ExtTreeMap.getD_insert, coverage]
  by_cases h : agent = b
  · subst h
    rw [if_pos ReflCmp.compare_self, if_pos rfl]
  · rw [if_neg fun hc => h (LawfulEqCmp.eq_of_compare hc), if_neg h]

theorem coverage_mark_self (v : Visits) (agent : String) (cov : Coverage) :
    (v.mark agent cov).coverage agent = cov := by
  rw [coverage_mark, if_pos rfl]

theorem coverage_empty (agent : String) : empty.coverage agent = .pids ∅ := by
  rw [coverage, empty, ExtTreeMap.getD_empty]

theorem not_covers_empty (o : Observation) : ¬ empty.Covers o := by
  rw [Covers, coverage_empty]
  exact ExtTreeSet.not_mem_empty

theorem isVisited_whole {v : Visits} {n : Node} (h : v.coverage n.agent = .whole) :
    v.isVisited n = true := by
  rw [isVisited, h]

theorem isVisited_pids {v : Visits} {n : Node} {pids : PidGroup}
    (h : v.coverage n.agent = .pids pids) : v.isVisited n = true ↔ n.hasPid ∧ n.pid ∈ pids := by
  rw [isVisited, h, Bool.and_eq_true, ExtTreeSet.contains_iff_mem]

theorem isVisited_mark_of_ne (v : Visits) {n m : Node} (h : m.agent ≠ n.agent) (cov : Coverage) :
    (v.mark n.agent cov).isVisited m = v.isVisited m := by
  rw [isVisited, isVisited, coverage_mark, if_neg fun he => h he.symm]

theorem isVisited_mark_pid {v : Visits} {n m : Node} {pids : PidGroup}
    (hc : v.coverage n.agent = .pids pids) (hpid : n.hasPid) :
    (v.mark n.agent (.pids (pids.insert n.pid))).isVisited m ↔ v.isVisited m ∨ m = n := by
  by_cases hagent : m.agent = n.agent
  · rw [← hagent] at hc ⊢
    rw [isVisited_pids (coverage_mark_self v m.agent _), isVisited_pids hc, ExtTreeSet.mem_insert]
    constructor
    · rintro ⟨hhas, he | hmem⟩
      · exact Or.inr (Node.eq_of_parts hagent (LawfulEqCmp.eq_of_compare he).symm)
      · exact Or.inl ⟨hhas, hmem⟩
    · rintro (⟨hhas, hmem⟩ | rfl)
      · exact ⟨hhas, Or.inr hmem⟩
      · exact ⟨hpid, Or.inl ReflCmp.compare_self⟩
  · rw [isVisited_mark_of_ne v hagent]
    exact (or_iff_left fun he => hagent (congrArg _ he)).symm

theorem isVisited_mark_agent {v : Visits} {n m : Node} :
    (v.mark n.agent .whole).isVisited m ↔ v.isVisited m ∨ m.agent = n.agent := by
  by_cases hagent : m.agent = n.agent
  · rw [← hagent]
    exact iff_of_true (isVisited_whole (coverage_mark_self v m.agent .whole)) (Or.inr rfl)
  · rw [isVisited_mark_of_ne v hagent]
    exact (or_iff_left hagent).symm

theorem covers_of_isVisited {v : Visits} {n : Node} {o : Observation} (hn : v.isVisited n)
    (ho : admits n ∅ o) : v.Covers o := by
  obtain ⟨ha, hp⟩ := admits_empty_iff.mp ho
  rw [Covers, ha]
  cases hc : v.coverage n.agent with
  | whole => trivial
  | pids pids =>
    obtain ⟨hpid, hmem⟩ := (isVisited_pids hc).mp hn
    exact hp hpid ▸ hmem

theorem covers_mark {v : Visits} {n : Node} {skip : PidGroup} {cov : Coverage} {o : Observation}
    (hother : o.agent ≠ n.agent → ¬ admits n skip o)
    (hown : o.agent = n.agent →
      ((match cov with | .whole => True | .pids pids => o.pid ∈ pids) ↔
        v.Covers o ∨ admits n skip o)) :
    (v.mark n.agent cov).Covers o ↔ v.Covers o ∨ admits n skip o := by
  rw [Covers, coverage_mark]
  by_cases ha : n.agent = o.agent
  · rw [if_pos ha]
    exact hown ha.symm
  · rw [if_neg ha]
    exact (or_iff_left (hother fun h => ha h.symm)).symm

theorem visit_of_isVisited {v : Visits} {n : Node} (h : v.isVisited n) : v.visit n = (none, v) := by
  rw [visit]
  cases hc : v.coverage n.agent with
  | whole => rfl
  | pids pids =>
    obtain ⟨hpid, hmem⟩ := (isVisited_pids hc).mp h
    have hcontains : pids.contains n.pid = true := ExtTreeSet.contains_iff_mem.mpr hmem
    simp only [hpid, hcontains, if_true]

/-- What claiming a node does: it admits nothing that was covered, and what it admits is covered
afterwards. -/
structure Claims (v : Visits) (n : Node) (skip : PidGroup) (v' : Visits) : Prop where
  visited : v'.isVisited n
  keeps : ∀ m, v.isVisited m → v'.isVisited m
  fresh : ∀ o, ¬ (v.Covers o ∧ admits n skip o)
  covers : ∀ o, v'.Covers o ↔ v.Covers o ∨ admits n skip o
  noted : v.Noted → v'.Noted
  skipped : v.Noted → ∀ pid ∈ skip, 0 ≤ pid

/-- A pid of its own: nothing is left out, the pid is noted. -/
theorem claims_pid {v : Visits} {n : Node} {pids : PidGroup} (hc : v.coverage n.agent = .pids pids)
    (hpid : n.hasPid) (hfresh : n.pid ∉ pids) :
    v.Claims n ∅ (v.mark n.agent (.pids (pids.insert n.pid))) := by
  refine ⟨(isVisited_mark_pid hc hpid).mpr (Or.inr rfl),
    fun m hm => (isVisited_mark_pid hc hpid).mpr (Or.inl hm), ?_, ?_, ?_,
    fun _ _ hmem => absurd hmem ExtTreeSet.not_mem_empty⟩
  · rintro o ⟨hcov, hadm⟩
    obtain ⟨ha, hp⟩ := admits_empty_iff.mp hadm
    rw [Covers, ha, hc] at hcov
    exact hfresh (hp hpid ▸ hcov)
  · intro o
    apply covers_mark
    · exact fun hne hadm => hne (admits_empty_iff.mp hadm).1
    · intro ha
      rw [Covers, ha, hc, admits_empty_iff]
      change o.pid ∈ pids.insert n.pid ↔ _
      rw [ExtTreeSet.mem_insert]
      constructor
      · rintro (he | hmem)
        · exact Or.inr ⟨ha, fun _ => (LawfulEqCmp.eq_of_compare he).symm⟩
        · exact Or.inl hmem
      · rintro (hmem | ⟨_, hp⟩)
        · exact Or.inr hmem
        · left
          rw [hp hpid]
          exact ReflCmp.compare_self
  · intro hnoted b group hgroup pid hmem
    rw [coverage_mark] at hgroup
    by_cases hb : n.agent = b
    · rw [if_pos hb] at hgroup
      cases hgroup
      rcases ExtTreeSet.mem_insert.mp hmem with he | hmem
      · exact LawfulEqCmp.eq_of_compare he ▸ Node.pid_nonneg hpid
      · exact hnoted n.agent pids hc pid hmem
    · rw [if_neg hb] at hgroup
      exact hnoted b group hgroup pid hmem

/-- The agent as a whole: the pids noted so far are left out. -/
theorem claims_agent {v : Visits} {n : Node} {pids : PidGroup}
    (hc : v.coverage n.agent = .pids pids) (hpid : ¬ n.hasPid) :
    v.Claims n pids (v.mark n.agent .whole) := by
  refine ⟨isVisited_mark_agent.mpr (Or.inr rfl), fun m hm => isVisited_mark_agent.mpr (Or.inl hm), ?_, ?_,
    ?_, fun hnoted => hnoted n.agent pids hc⟩
  · rintro o ⟨hcov, hadm⟩
    obtain ⟨ha, _, hskip⟩ := admits_iff.mp hadm
    rw [Covers, ha, hc] at hcov
    exact hskip hcov
  · intro o
    apply covers_mark
    · exact fun hne hadm => hne (admits_iff.mp hadm).1
    · intro ha
      rw [Covers, ha, hc, admits_iff]
      refine ⟨fun _ => ?_, fun _ => trivial⟩
      by_cases hmem : o.pid ∈ pids
      · exact Or.inl hmem
      · exact Or.inr ⟨ha, fun hp => absurd hp hpid, hmem⟩
  · intro hnoted b group hgroup
    rw [coverage_mark] at hgroup
    by_cases hb : n.agent = b
    · rw [if_pos hb] at hgroup
      cases hgroup
    · rw [if_neg hb] at hgroup
      exact hnoted b group hgroup

theorem visit_pid {v : Visits} {n : Node} {pids : PidGroup} (hc : v.coverage n.agent = .pids pids)
    (hpid : n.hasPid) (hfresh : n.pid ∉ pids) :
    v.visit n = (some ∅, v.mark n.agent (.pids (pids.insert n.pid))) := by
  have hcontains : pids.contains n.pid = false := by
    rw [Bool.eq_false_iff]
    exact fun hmem => hfresh (ExtTreeSet.contains_iff_mem.mp hmem)
  rw [visit, hc]
  simp only [hpid, hcontains, if_true, Bool.false_eq_true, if_false]

theorem visit_agent {v : Visits} {n : Node} {pids : PidGroup} (hc : v.coverage n.agent = .pids pids)
    (hpid : ¬ n.hasPid) : v.visit n = (some pids, v.mark n.agent .whole) := by
  rw [visit, hc]
  simp only [hpid, Bool.false_eq_true, if_false]

/-- Of a node that is not visited, its agent is not covered as a whole, nor is its pid noted. -/
theorem coverage_of_not_isVisited {v : Visits} {n : Node} (h : ¬ v.isVisited n) :
    ∃ pids, v.coverage n.agent = .pids pids ∧ (n.hasPid → n.pid ∉ pids) := by
  cases hc : v.coverage n.agent with
  | whole => exact absurd (isVisited_whole hc) h
  | pids pids => exact ⟨pids, rfl, fun hpid hmem => h ((isVisited_pids hc).mpr ⟨hpid, hmem⟩)⟩

theorem visit_of_not_isVisited {v : Visits} {n : Node} (h : ¬ v.isVisited n) :
    ∃ skip v', v.visit n = (some skip, v') ∧ v.Claims n skip v' := by
  obtain ⟨pids, hc, hfresh⟩ := coverage_of_not_isVisited h
  by_cases hpid : n.hasPid = true
  · exact ⟨∅, _, visit_pid hc hpid (hfresh hpid), claims_pid hc hpid (hfresh hpid)⟩
  · exact ⟨pids, _, visit_agent hc hpid, claims_agent hc hpid⟩

/-- Claims handed out so far split the observations that are covered. -/
structure Splits (v : Visits) (es : List Expansion) : Prop where
  covers : ∀ o, v.Covers o ↔ ∃ e ∈ es, admits e.1 e.2 o
  apart : es.Pairwise fun e f => ∀ o, ¬ (admits e.1 e.2 o ∧ admits f.1 f.2 o)
  visited : ∀ e ∈ es, v.isVisited e.1
  noted : v.Noted
  skipped : ∀ e ∈ es, ∀ pid ∈ e.2, 0 ≤ pid

theorem splits_empty : empty.Splits [] where
  covers o := ⟨fun h => absurd h (not_covers_empty o), fun ⟨_, he, _⟩ => absurd he List.not_mem_nil⟩
  apart := List.Pairwise.nil
  visited _ he := absurd he List.not_mem_nil
  noted agent pids h := by
    rw [coverage_empty] at h
    cases h
    exact fun pid hmem => absurd hmem ExtTreeSet.not_mem_empty
  skipped _ he := absurd he List.not_mem_nil

theorem splits_concat {v v' : Visits} {es : List Expansion} {n : Node} {skip : PidGroup}
    (h : v.Splits es) (hn : v.Claims n skip v') : v'.Splits (es ++ [(n, skip)]) := by
  refine ⟨?_, ?_, ?_, hn.noted h.noted, ?_⟩
  · intro o
    rw [hn.covers o, h.covers o]
    constructor
    · rintro (⟨e, he, ho⟩ | ho)
      · exact ⟨e, List.mem_append_left _ he, ho⟩
      · exact ⟨(n, skip), List.mem_append_right _ (List.mem_singleton.mpr rfl), ho⟩
    · rintro ⟨e, he, ho⟩
      rcases List.mem_append.mp he with he | he
      · exact Or.inl ⟨e, he, ho⟩
      · cases List.mem_singleton.mp he
        exact Or.inr ho
  · rw [List.pairwise_append]
    refine ⟨h.apart, List.pairwise_singleton _ _, ?_⟩
    intro e he f hf o ho
    cases List.mem_singleton.mp hf
    exact hn.fresh o ⟨(h.covers o).mpr ⟨e, he, ho.1⟩, ho.2⟩
  · intro e he
    rcases List.mem_append.mp he with he | he
    · exact hn.keeps e.1 (h.visited e he)
    · cases List.mem_singleton.mp he
      exact hn.visited
  · intro e he
    rcases List.mem_append.mp he with he | he
    · exact h.skipped e he
    · cases List.mem_singleton.mp he
      exact hn.skipped h.noted

theorem claim_cons_of_isVisited {v : Visits} {n : Node} (h : v.isVisited n) (ns : List Node) :
    v.claim (n :: ns) = v.claim ns := by
  rw [claim, visit_of_isVisited h]

theorem claim_cons_of_visit {v v' : Visits} {n : Node} {skip : PidGroup}
    (h : v.visit n = (some skip, v')) (ns : List Node) :
    v.claim (n :: ns) = ((n, skip) :: (v'.claim ns).1, (v'.claim ns).2) := by
  rw [claim, h]

theorem splits_claim {v : Visits} {es : List Expansion} (h : v.Splits es) (ns : List Node) :
    (v.claim ns).2.Splits (es ++ (v.claim ns).1) := by
  induction ns generalizing v es with
  | nil =>
    rw [claim, List.append_nil]
    exact h
  | cons n ns ih =>
    by_cases hn : v.isVisited n = true
    · rw [claim_cons_of_isVisited hn]
      exact ih h
    · obtain ⟨skip, v', hvisit, hclaim⟩ := visit_of_not_isVisited hn
      have hrest := ih (splits_concat h hclaim)
      rw [List.append_assoc] at hrest
      rw [claim_cons_of_visit hvisit]
      exact hrest

theorem isVisited_claim {v : Visits} {ns : List Node} {m : Node} (h : m ∈ ns ∨ v.isVisited m) :
    (v.claim ns).2.isVisited m := by
  induction ns generalizing v with
  | nil => exact h.resolve_left List.not_mem_nil
  | cons n ns ih =>
    by_cases hn : v.isVisited n = true
    · rw [claim_cons_of_isVisited hn]
      rcases h with h | h
      · rcases List.mem_cons.mp h with rfl | h
        · exact ih (Or.inr hn)
        · exact ih (Or.inl h)
      · exact ih (Or.inr h)
    · obtain ⟨skip, v', hvisit, hclaim⟩ := visit_of_not_isVisited hn
      rw [claim_cons_of_visit hvisit]
      rcases h with h | h
      · rcases List.mem_cons.mp h with rfl | h
        · exact ih (Or.inr hclaim.visited)
        · exact ih (Or.inl h)
      · exact ih (Or.inr (hclaim.keeps m h))

theorem mem_of_mem_claim {v : Visits} {ns : List Node} {e : Expansion} (h : e ∈ (v.claim ns).1) :
    e.1 ∈ ns := by
  induction ns generalizing v with
  | nil => exact absurd h List.not_mem_nil
  | cons n ns ih =>
    by_cases hn : v.isVisited n = true
    · rw [claim_cons_of_isVisited hn] at h
      exact List.mem_cons_of_mem _ (ih h)
    · obtain ⟨skip, v', hvisit, _⟩ := visit_of_not_isVisited hn
      rw [claim_cons_of_visit hvisit] at h
      rcases List.mem_cons.mp h with rfl | h
      · exact List.mem_cons_self
      · exact List.mem_cons_of_mem _ (ih h)

theorem expanded_of_visit {v v' : Visits} {n : Node} {skip : PidGroup}
    (h : v.visit n = (some skip, v')) : v'.expanded = v.expanded + 1 := by
  rw [visit] at h
  split at h
  · cases h
  · split at h
    · split at h
      · cases h
      · cases h
        rfl
    · cases h
      rfl

/-- The count of visits is the count of claims. -/
theorem expanded_claim (v : Visits) (ns : List Node) :
    (v.claim ns).2.expanded = v.expanded + (v.claim ns).1.length := by
  induction ns generalizing v with
  | nil => rfl
  | cons n ns ih =>
    by_cases hn : v.isVisited n = true
    · rw [claim_cons_of_isVisited hn]
      exact ih v
    · obtain ⟨skip, v', hvisit, _⟩ := visit_of_not_isVisited hn
      rw [claim_cons_of_visit hvisit, ih v', expanded_of_visit hvisit, List.length_cons]
      omega

theorem not_isVisited_of_mem_claim {v : Visits} {ns : List Node} {e : Expansion}
    (h : e ∈ (v.claim ns).1) : ¬ v.isVisited e.1 := by
  induction ns generalizing v with
  | nil => exact absurd h List.not_mem_nil
  | cons n ns ih =>
    by_cases hn : v.isVisited n = true
    · rw [claim_cons_of_isVisited hn] at h
      exact ih h
    · obtain ⟨skip, v', hvisit, hclaim⟩ := visit_of_not_isVisited hn
      rw [claim_cons_of_visit hvisit] at h
      rcases List.mem_cons.mp h with rfl | h
      · exact hn
      · exact fun hvisited => ih h (hclaim.keeps _ hvisited)

theorem claim_nodup (v : Visits) (ns : List Node) : ((v.claim ns).1.map Prod.fst).Nodup := by
  induction ns generalizing v with
  | nil => exact List.nodup_nil
  | cons n ns ih =>
    by_cases hn : v.isVisited n = true
    · rw [claim_cons_of_isVisited hn]
      exact ih v
    · obtain ⟨skip, v', hvisit, hclaim⟩ := visit_of_not_isVisited hn
      rw [claim_cons_of_visit hvisit, List.map_cons, List.nodup_cons]
      refine ⟨fun hmem => ?_, ih v'⟩
      obtain ⟨e, he, heq⟩ := List.mem_map.mp hmem
      exact not_isVisited_of_mem_claim he (heq ▸ hclaim.visited)

/-- One node that is not visited is enough for a claim. -/
theorem claim_ne_nil {v : Visits} {ns : List Node} {n : Node} (h : n ∈ ns) (hn : ¬ v.isVisited n) :
    (v.claim ns).1 ≠ [] := by
  induction ns with
  | nil => exact absurd h List.not_mem_nil
  | cons m ns ih =>
    by_cases hm : v.isVisited m = true
    · rw [claim_cons_of_isVisited hm]
      rcases List.mem_cons.mp h with rfl | h
      · exact absurd hm hn
      · exact ih h
    · obtain ⟨skip, v', hvisit, _⟩ := visit_of_not_isVisited hm
      rw [claim_cons_of_visit hvisit]
      exact List.cons_ne_nil _ _

/-- An observation is covered as soon as any expanded node has it, whatever was left out with it. -/
theorem Splits.covers_iff {v : Visits} {es : List Expansion} (h : v.Splits es) (o : Observation) :
    v.Covers o ↔ ∃ e ∈ es, admits e.1 ∅ o := by
  rw [h.covers o]
  constructor
  · rintro ⟨e, he, ho⟩
    exact ⟨e, he, admits_of_skip ho⟩
  · rintro ⟨e, he, ho⟩
    exact (h.covers o).mp (covers_of_isVisited (h.visited e he) ho)

end Visits

end NetAtlas

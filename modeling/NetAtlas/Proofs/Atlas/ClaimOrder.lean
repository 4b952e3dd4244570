import NetAtlas.Proofs.Atlas.Coverage

set_option autoImplicit false

/-!
# Claims in any order

Nodes are claimed one after another. In another order the same is covered in the end, and the claims
are the same but for one thing: an agent that comes after some of its pids leaves these to claims of
their own. So claims in two orders are related by swaps and by splitting a pid off its agent.
-/
namespace NetAtlas

open Std Binding

theorem Node.eq_of_not_hasPid {n m : Node} (ha : n.agent = m.agent) (hn : ¬ n.hasPid)
    (hm : ¬ m.hasPid) : n = m := by
  simp only [hasPid, decide_eq_true_eq, not_not, ne_eq] at hn hm
  exact eq_of_parts ha (hn.trans hm.symm)

namespace Visits

theorem coverage_congr {v v' : Visits} (h : v.agents = v'.agents) (agent : String) :
    v.coverage agent = v'.coverage agent := by
  rw [coverage, coverage, h]

theorem isVisited_congr {v v' : Visits} (h : v.agents = v'.agents) (n : Node) :
    v.isVisited n = v'.isVisited n := by
  rw [isVisited, isVisited, coverage_congr h]

theorem agents_mark_congr {v v' : Visits} (h : v.agents = v'.agents) (agent : String)
    (cov : Coverage) : (v.mark agent cov).agents = (v'.mark agent cov).agents := by
  rw [mark, mark, h]

/-- A claim of a node that is not visited depends on what is covered of its agent only. -/
theorem visit_of_coverage {v : Visits} {n : Node} (h : ¬ v.isVisited n) :
    ∃ skip cov, ∀ u : Visits, u.coverage n.agent = v.coverage n.agent →
      u.visit n = (some skip, u.mark n.agent cov) := by
  obtain ⟨pids, hc, hfresh⟩ := coverage_of_not_isVisited h
  by_cases hpid : n.hasPid = true
  · exact ⟨∅, .pids (pids.insert n.pid), fun u hu => visit_pid (hu.trans hc) hpid (hfresh hpid)⟩
  · exact ⟨pids, .whole, fun u hu => visit_agent (hu.trans hc) hpid⟩

/-- How often nodes were expanded does not matter to a claim. -/
theorem claim_congr {v v' : Visits} (h : v.agents = v'.agents) (ns : List Node) :
    (v.claim ns).1 = (v'.claim ns).1 ∧ (v.claim ns).2.agents = (v'.claim ns).2.agents := by
  induction ns generalizing v v' with
  | nil => exact ⟨rfl, h⟩
  | cons n ns ih =>
    by_cases hn : v.isVisited n = true
    · have hn' : v'.isVisited n = true := (isVisited_congr h n).symm.trans hn
      rw [claim_cons_of_isVisited hn, claim_cons_of_isVisited hn']
      exact ih h
    · obtain ⟨skip, cov, hvisit⟩ := visit_of_coverage hn
      obtain ⟨hclaims, hagents⟩ := ih (agents_mark_congr h n.agent cov)
      rw [claim_cons_of_visit (hvisit v rfl),
        claim_cons_of_visit (hvisit v' (coverage_congr h _).symm)]
      exact ⟨congrArg ((n, skip) :: ·) hclaims, hagents⟩

theorem agents_mark_mark (v : Visits) (agent : String) (c d : Coverage) :
    ((v.mark agent c).mark agent d).agents = (v.mark agent d).agents := by
  apply ExtTreeMap.ext_getElem?
  intro k
  simp only [mark, ExtTreeMap.getElem?_insert]
  split
  · rfl
  · rfl

theorem agents_mark_comm (v : Visits) {a b : String} (h : a ≠ b) (c d : Coverage) :
    ((v.mark a c).mark b d).agents = ((v.mark b d).mark a c).agents := by
  apply ExtTreeMap.ext_getElem?
  intro k
  simp only [mark, ExtTreeMap.getElem?_insert]
  by_cases ha : compare a k = .eq
  · have hb : ¬ compare b k = .eq := fun hb =>
      h ((LawfulEqCmp.eq_of_compare ha).trans (LawfulEqCmp.eq_of_compare hb).symm)
    rw [if_pos ha, if_pos ha, if_neg hb]
  · rw [if_neg ha, if_neg ha]

theorem insert_comm (pids : PidGroup) (a b : Int32) :
    (pids.insert a).insert b = (pids.insert b).insert a := by
  apply ExtTreeSet.ext_mem
  intro k
  simp only [ExtTreeSet.mem_insert]
  exact or_left_comm

/-- An agent as a whole and a pid of it, neither of them covered; `pids` are those noted before. -/
structure Divides (v : Visits) (whole part : Node) (pids : PidGroup) : Prop where
  noted : v.coverage whole.agent = .pids pids
  no_pid : ¬ whole.hasPid
  has_pid : part.hasPid
  same : part.agent = whole.agent
  fresh : part.pid ∉ pids

section Divides

variable {v : Visits} {whole part : Node} {pids : PidGroup}

/-- The agent first: the pid is covered with it. -/
theorem Divides.claim_whole (h : v.Divides whole part pids) (ns : List Node) :
    v.claim (whole :: part :: ns) = ((whole, pids) :: ((v.mark whole.agent .whole).claim ns).1,
      ((v.mark whole.agent .whole).claim ns).2) := by
  have hcovered : (v.mark whole.agent .whole).isVisited part := by
    apply isVisited_whole
    rw [h.same, coverage_mark_self]
  rw [claim_cons_of_visit (visit_agent h.noted h.no_pid), claim_cons_of_isVisited hcovered]

/-- The pid first: the agent leaves it out. -/
theorem Divides.claim_part (h : v.Divides whole part pids) (ns : List Node) :
    (v.claim (part :: whole :: ns)).1 = (part, ∅) :: (whole, pids.insert part.pid) ::
        ((v.mark whole.agent .whole).claim ns).1 ∧
      (v.claim (part :: whole :: ns)).2.agents = ((v.mark whole.agent .whole).claim ns).2.agents := by
  have hpart := visit_pid ((congrArg v.coverage h.same).trans h.noted) h.has_pid h.fresh
  have hnoted : (v.mark part.agent (.pids (pids.insert part.pid))).coverage whole.agent =
      .pids (pids.insert part.pid) := by
    rw [h.same, coverage_mark_self]
  rw [claim_cons_of_visit hpart, claim_cons_of_visit (visit_agent hnoted h.no_pid), h.same]
  obtain ⟨hclaims, hagents⟩ := claim_congr
    (agents_mark_mark v whole.agent (.pids (pids.insert part.pid)) .whole) ns
  exact ⟨congrArg ((part, ∅) :: (whole, pids.insert part.pid) :: ·) hclaims, hagents⟩

end Divides

/-- Two nodes of different agents are claimed independently. -/
theorem claim_swap_of_agent_ne {v : Visits} {m n : Node} (hm : ¬ v.isVisited m)
    (hn : ¬ v.isVisited n) (hne : m.agent ≠ n.agent) (ns : List Node) :
    (v.claim (m :: n :: ns)).1.Perm (v.claim (n :: m :: ns)).1 ∧
      (v.claim (m :: n :: ns)).2.agents = (v.claim (n :: m :: ns)).2.agents := by
  obtain ⟨skip, cov, hvm⟩ := visit_of_coverage hm
  obtain ⟨skip', cov', hvn⟩ := visit_of_coverage hn
  have hm' : (v.mark n.agent cov').coverage m.agent = v.coverage m.agent := by
    rw [coverage_mark, if_neg hne.symm]
  have hn' : (v.mark m.agent cov).coverage n.agent = v.coverage n.agent := by
    rw [coverage_mark, if_neg hne]
  obtain ⟨hclaims, hagents⟩ := claim_congr (agents_mark_comm v hne cov cov') ns
  rw [claim_cons_of_visit (hvm v rfl), claim_cons_of_visit (hvn _ hn'),
    claim_cons_of_visit (hvn v rfl), claim_cons_of_visit (hvm _ hm')]
  refine ⟨?_, hagents⟩
  rw [hclaims]
  exact List.Perm.swap _ _ _

/-- Two pids of one agent are, too. -/
theorem claim_swap_of_pid_ne {v : Visits} {m n : Node} (hm : ¬ v.isVisited m)
    (hn : ¬ v.isVisited n) (ha : m.agent = n.agent) (hmp : m.hasPid) (hnp : n.hasPid)
    (hne : m.pid ≠ n.pid) (ns : List Node) :
    (v.claim (m :: n :: ns)).1.Perm (v.claim (n :: m :: ns)).1 ∧
      (v.claim (m :: n :: ns)).2.agents = (v.claim (n :: m :: ns)).2.agents := by
  obtain ⟨pids, hc, hfresh⟩ := coverage_of_not_isVisited hm
  obtain ⟨pids', hc', hfresh'⟩ := coverage_of_not_isVisited hn
  obtain rfl : pids = pids' := Coverage.pids.inj (hc.symm.trans ((congrArg _ ha).trans hc'))
  have hother : ∀ {a b : Int32}, a ∉ pids → a ≠ b → a ∉ pids.insert b := by
    intro a b ha hab hmem
    rcases ExtTreeSet.mem_insert.mp hmem with he | hmem
    · exact hab (LawfulEqCmp.eq_of_compare he).symm
    · exact ha hmem
  have hcn : (v.mark m.agent (.pids (pids.insert m.pid))).coverage n.agent =
      .pids (pids.insert m.pid) := by rw [ha, coverage_mark_self]
  have hcm : (v.mark n.agent (.pids (pids.insert n.pid))).coverage m.agent =
      .pids (pids.insert n.pid) := by rw [← ha, coverage_mark_self]
  have hmarks : ((v.mark m.agent (.pids (pids.insert m.pid))).mark n.agent
      (.pids ((pids.insert m.pid).insert n.pid))).agents =
      ((v.mark n.agent (.pids (pids.insert n.pid))).mark m.agent
      (.pids ((pids.insert n.pid).insert m.pid))).agents := by
    rw [ha, agents_mark_mark, agents_mark_mark, insert_comm]
  obtain ⟨hclaims, hagents⟩ := claim_congr hmarks ns
  rw [claim_cons_of_visit (visit_pid hc hmp (hfresh hmp)),
    claim_cons_of_visit (visit_pid hcn hnp (hother (hfresh' hnp) hne.symm)),
    claim_cons_of_visit (visit_pid hc' hnp (hfresh' hnp)),
    claim_cons_of_visit (visit_pid hcm hmp (hother (hfresh hmp) hne))]
  refine ⟨?_, hagents⟩
  rw [hclaims]
  exact List.Perm.swap _ _ _

/-- Two nodes in a row may change places, unless one is the agent of the other and neither is covered. -/
theorem claim_swap (v : Visits) (m n : Node) (ns : List Node) :
    (v.claim (m :: n :: ns)).1.Perm (v.claim (n :: m :: ns)).1 ∧
        (v.claim (m :: n :: ns)).2.agents = (v.claim (n :: m :: ns)).2.agents ∨
      ∃ pids, v.Divides m n pids ∨ v.Divides n m pids := by
  by_cases hm : v.isVisited m = true
  · left
    by_cases hn : v.isVisited n = true
    · rw [claim_cons_of_isVisited hm, claim_cons_of_isVisited hn, claim_cons_of_isVisited hn,
        claim_cons_of_isVisited hm]
      exact ⟨.rfl, rfl⟩
    · obtain ⟨skip, v', hvisit, hclaim⟩ := visit_of_not_isVisited hn
      rw [claim_cons_of_isVisited hm, claim_cons_of_visit hvisit, claim_cons_of_visit hvisit,
        claim_cons_of_isVisited (hclaim.keeps m hm)]
      exact ⟨.rfl, rfl⟩
  by_cases hn : v.isVisited n = true
  · left
    obtain ⟨skip, v', hvisit, hclaim⟩ := visit_of_not_isVisited hm
    rw [claim_cons_of_visit hvisit, claim_cons_of_isVisited (hclaim.keeps n hn),
      claim_cons_of_isVisited hn, claim_cons_of_visit hvisit]
    exact ⟨.rfl, rfl⟩
  by_cases ha : m.agent = n.agent
  · obtain ⟨pids, hc, hfresh⟩ := coverage_of_not_isVisited hm
    obtain ⟨pids', hc', hfresh'⟩ := coverage_of_not_isVisited hn
    obtain rfl : pids = pids' := Coverage.pids.inj (hc.symm.trans ((congrArg _ ha).trans hc'))
    by_cases hmp : m.hasPid = true
    · by_cases hnp : n.hasPid = true
      · left
        by_cases hp : m.pid = n.pid
        · rw [Node.eq_of_parts ha hp]
          exact ⟨.rfl, rfl⟩
        · exact claim_swap_of_pid_ne hm hn ha hmp hnp hp ns
      · exact Or.inr ⟨pids, Or.inr ⟨hc', hnp, hmp, ha, hfresh hmp⟩⟩
    · by_cases hnp : n.hasPid = true
      · exact Or.inr ⟨pids, Or.inl ⟨hc, hmp, hnp, ha.symm, hfresh' hnp⟩⟩
      · left
        rw [Node.eq_of_not_hasPid ha hmp hnp]
        exact ⟨.rfl, rfl⟩
  · exact Or.inl (claim_swap_of_agent_ne hm hn ha ns)

/-- In whatever order nodes are claimed, the same is covered afterwards. -/
theorem agents_claim_perm {ns ns' : List Node} (h : ns.Perm ns') (v : Visits) :
    (v.claim ns).2.agents = (v.claim ns').2.agents := by
  induction h generalizing v with
  | nil => rfl
  | cons n _ ih =>
    by_cases hn : v.isVisited n = true
    · rw [claim_cons_of_isVisited hn, claim_cons_of_isVisited hn]
      exact ih v
    · obtain ⟨skip, v', hvisit, _⟩ := visit_of_not_isVisited hn
      rw [claim_cons_of_visit hvisit, claim_cons_of_visit hvisit]
      exact ih v'
  | swap m n ns =>
    rcases claim_swap v n m ns with ⟨_, hagents⟩ | ⟨pids, hdivides | hdivides⟩
    · exact hagents
    · rw [hdivides.claim_whole, (hdivides.claim_part ns).2]
    · rw [hdivides.claim_whole, (hdivides.claim_part ns).2]
  | trans _ _ ih ih' => exact (ih v).trans (ih' v)

/-- What is kept when claims change places and when a pid is split off its agent, as far as a condition
on the nodes to be claimed allows that. -/
structure Regroups (allowed : Visits → List Node → Prop)
    (same : List Expansion → List Expansion → Prop) : Prop where
  perm : ∀ {es fs}, es.Perm fs → same es fs
  symm : ∀ {es fs}, same es fs → same fs es
  trans : ∀ {es fs gs}, same es fs → same fs gs → same es gs
  cons : ∀ e {es fs}, same es fs → same (e :: es) (e :: fs)
  split : ∀ {v whole part pids ns}, allowed v (whole :: part :: ns) → v.Divides whole part pids →
    ∀ rest, same ((whole, pids) :: rest) ((part, ∅) :: (whole, pids.insert part.pid) :: rest)
  allowed_perm : ∀ {v ns ns'}, ns.Perm ns' → allowed v ns → allowed v ns'
  allowed_tail : ∀ {v n ns}, allowed v (n :: ns) → allowed (v.visit n).2 ns

theorem claim_perm {allowed : Visits → List Node → Prop}
    {same : List Expansion → List Expansion → Prop} (hr : Regroups allowed same)
    {ns ns' : List Node} (h : ns.Perm ns') {v : Visits} (hv : allowed v ns) :
    same (v.claim ns).1 (v.claim ns').1 := by
  induction h generalizing v with
  | nil => exact hr.perm .rfl
  | cons n _ ih =>
    have htail := ih (hr.allowed_tail hv)
    by_cases hn : v.isVisited n = true
    · rw [visit_of_isVisited hn] at htail
      rw [claim_cons_of_isVisited hn, claim_cons_of_isVisited hn]
      exact htail
    · obtain ⟨skip, v', hvisit, _⟩ := visit_of_not_isVisited hn
      rw [hvisit] at htail
      rw [claim_cons_of_visit hvisit, claim_cons_of_visit hvisit]
      exact hr.cons _ htail
  | swap m n ns =>
    rcases claim_swap v n m ns with ⟨hperm, _⟩ | ⟨pids, hdivides | hdivides⟩
    · exact hr.perm hperm
    · rw [hdivides.claim_whole, (hdivides.claim_part ns).1]
      exact hr.split hv hdivides _
    · rw [hdivides.claim_whole, (hdivides.claim_part ns).1]
      exact hr.symm (hr.split (hr.allowed_perm (.swap m n ns) hv) hdivides _)
  | trans h _ ih ih' => exact hr.trans (ih hv) (ih' (hr.allowed_perm h hv))

end Visits

end NetAtlas

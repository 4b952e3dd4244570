import NetAtlas.Proofs.Atlas.ClaimOrder

set_option autoImplicit false

/-!
# Visited processes

A tracker grants visits. A granted visit covers the processes its node stands for that no visit covered
before, so whatever is visited and in whatever order, the granted visits split the processes all visits
stand for. Visits in one direction leave the other alone, and those of one agent the other agents.
-/
namespace NetAtlas

open Std

namespace Node

/-- The processes a node stands for: itself, or all of its agent if it has no pid. -/
def StandsFor (n m : Node) : Prop := m.agent = n.agent ∧ (n.hasPid → m.pid = n.pid)

theorem standsFor_pid {n m : Node} (h : n.hasPid) : n.StandsFor m ↔ m = n := by
  constructor
  · rintro ⟨hagent, hpid⟩
    exact eq_of_parts hagent (hpid h)
  · rintro rfl
    exact ⟨rfl, fun _ => rfl⟩

theorem standsFor_agent {n m : Node} (h : ¬ n.hasPid) : n.StandsFor m ↔ m.agent = n.agent :=
  and_iff_left fun hpid => absurd hpid h

end Node

namespace Expansion

/-- The processes an expansion covers, among them the one of its agent that is not known. -/
def Covers (e : Expansion) (m : Node) : Prop :=
  m.agent = e.1.agent ∧ if e.1.hasPid then m.pid = e.1.pid else m.pid ∉ e.2

theorem covers_pid {n m : Node} {skip : PidGroup} (h : n.hasPid) : Covers (n, skip) m ↔ m = n := by
  rw [Covers, if_pos h]
  exact ⟨fun hm => Node.eq_of_parts hm.1 hm.2, fun hm => ⟨congrArg _ hm, congrArg _ hm⟩⟩

theorem covers_agent {n m : Node} {skip : PidGroup} (h : ¬ n.hasPid) :
    Covers (n, skip) m ↔ m.agent = n.agent ∧ m.pid ∉ skip := by
  rw [Covers, if_neg h]

end Expansion

namespace Visits

variable {v : Visits} {n m : Node} {pids : PidGroup}

theorem isVisited_of_standsFor (hn : v.isVisited n) (hm : n.StandsFor m) : v.isVisited m := by
  by_cases hpid : n.hasPid = true
  · exact (Node.standsFor_pid hpid).mp hm ▸ hn
  · cases hc : v.coverage n.agent with
    | whole => exact isVisited_whole (hm.1 ▸ hc)
    | pids pids => exact absurd ((isVisited_pids hc).mp hn).1 hpid

/-- A visit covers what its node stands for, whether it is granted or not. -/
theorem isVisited_visit (v : Visits) (n m : Node) :
    (v.visit n).2.isVisited m ↔ v.isVisited m ∨ n.StandsFor m := by
  by_cases hn : v.isVisited n = true
  · rw [visit_of_isVisited hn]
    exact (or_iff_left_of_imp (isVisited_of_standsFor hn)).symm
  · obtain ⟨pids, hc, hfresh⟩ := coverage_of_not_isVisited hn
    by_cases hpid : n.hasPid = true
    · rw [visit_pid hc hpid (hfresh hpid), isVisited_mark_pid hc hpid, Node.standsFor_pid hpid]
    · rw [visit_agent hc hpid, isVisited_mark_agent, Node.standsFor_agent hpid]

/-- A granted visit covers what its node stands for and was not covered before. -/
theorem covers_of_visit {v' : Visits} {skip : PidGroup} (hv : v.Noted)
    (h : v.visit n = (some skip, v')) :
    Expansion.Covers (n, skip) m ↔ ¬ v.isVisited m ∧ n.StandsFor m := by
  have hn : ¬ v.isVisited n := fun hn => by
    rw [visit_of_isVisited hn] at h
    cases h
  obtain ⟨pids, hc, hfresh⟩ := coverage_of_not_isVisited hn
  by_cases hpid : n.hasPid = true
  · rw [Expansion.covers_pid hpid, Node.standsFor_pid hpid]
    exact (and_iff_right_of_imp fun he => he ▸ hn).symm
  · rw [visit_agent hc hpid] at h
    cases h
    rw [Expansion.covers_agent hpid, Node.standsFor_agent hpid, and_comm]
    refine and_congr_left fun hagent => ?_
    rw [← hagent] at hc
    rw [isVisited_pids hc, not_iff_not]
    -- The unknown pid is never noted, so the pids left out are those visited.
    refine (and_iff_right_of_imp fun hmem => ?_).symm
    rw [Node.hasPid, decide_eq_true_iff]
    intro hunknown
    have hnonneg := hv _ _ hc _ hmem
    rw [hunknown] at hnonneg
    exact absurd hnonneg (by decide)

theorem covers_claim (hv : v.Noted) (ns : List Node) (m : Node) :
    (∃ e ∈ (v.claim ns).1, Expansion.Covers e m) ↔ ¬ v.isVisited m ∧ ∃ n ∈ ns, n.StandsFor m := by
  induction ns generalizing v with
  | nil => simp [claim]
  | cons n ns ih =>
    rw [List.exists_mem_cons_iff]
    by_cases hn : v.isVisited n = true
    · have hold : n.StandsFor m → v.isVisited m := isVisited_of_standsFor hn
      rw [claim_cons_of_isVisited hn, ih hv]
      tauto
    · obtain ⟨skip, v', hvisit, hclaims⟩ := visit_of_not_isVisited hn
      have hvisited := isVisited_visit v n m
      rw [hvisit] at hvisited
      rw [claim_cons_of_visit hvisit, List.exists_mem_cons_iff, covers_of_visit hv hvisit,
        ih (hclaims.noted hv), hvisited]
      tauto

/-- No process is covered by two granted visits. -/
theorem apart_claim (hv : v.Noted) (ns : List Node) :
    (v.claim ns).1.Pairwise fun e f => ∀ m, ¬ (Expansion.Covers e m ∧ Expansion.Covers f m) := by
  induction ns generalizing v with
  | nil => exact List.Pairwise.nil
  | cons n ns ih =>
    by_cases hn : v.isVisited n = true
    · rw [claim_cons_of_isVisited hn]
      exact ih hv
    · obtain ⟨skip, v', hvisit, hclaims⟩ := visit_of_not_isVisited hn
      rw [claim_cons_of_visit hvisit, List.pairwise_cons]
      refine ⟨fun f hf m ⟨he, hcovers⟩ => ?_, ih (hclaims.noted hv)⟩
      have hvisited := isVisited_visit v n m
      rw [hvisit] at hvisited
      exact ((covers_claim (hclaims.noted hv) ns m).mp ⟨f, hf, hcovers⟩).1
        (hvisited.mpr (Or.inr ((covers_of_visit hv hvisit).mp he).2))

/-- The process that is not known is left out of no visit of its agent. -/
theorem covers_self_of_mem_claim (hv : v.Noted) {ns : List Node} {e : Expansion}
    (h : e ∈ (v.claim ns).1) : Expansion.Covers e e.1 := by
  induction ns generalizing v with
  | nil => exact absurd h List.not_mem_nil
  | cons n ns ih =>
    by_cases hn : v.isVisited n = true
    · rw [claim_cons_of_isVisited hn] at h
      exact ih hv h
    · obtain ⟨skip, v', hvisit, hclaims⟩ := visit_of_not_isVisited hn
      rw [claim_cons_of_visit hvisit] at h
      rcases List.mem_cons.mp h with rfl | h
      · exact (covers_of_visit hv hvisit).mpr ⟨hn, rfl, fun _ => rfl⟩
      · exact ih (hclaims.noted hv) h

theorem noted_empty : empty.Noted := splits_empty.noted

theorem not_isVisited_empty (n : Node) : ¬ empty.isVisited n := by
  rw [isVisited_pids (coverage_empty n.agent)]
  exact fun h => ExtTreeSet.not_mem_empty h.2

theorem visit_fst_eq_none_iff : (v.visit n).1 = none ↔ v.isVisited n := by
  by_cases hn : v.isVisited n = true
  · rw [visit_of_isVisited hn]
    exact iff_of_true rfl hn
  · obtain ⟨skip, v', hvisit, _⟩ := visit_of_not_isVisited hn
    rw [hvisit]
    exact iff_of_false (Option.some_ne_none skip) hn

theorem isVisited_of_coverage_eq {u : Visits} (h : u.coverage n.agent = v.coverage n.agent) :
    u.isVisited n = v.isVisited n := by
  rw [isVisited, isVisited, h]

/-- What a visit answers and what it leaves of its agent is decided by what was expanded of the agent. -/
theorem visit_of_coverage_eq {u : Visits} (h : u.coverage n.agent = v.coverage n.agent) :
    (u.visit n).1 = (v.visit n).1 ∧ (u.visit n).2.coverage n.agent = (v.visit n).2.coverage n.agent := by
  by_cases hn : v.isVisited n = true
  · rw [visit_of_isVisited hn, visit_of_isVisited ((isVisited_of_coverage_eq h).trans hn)]
    exact ⟨rfl, h⟩
  · obtain ⟨skip, cov, hvisit⟩ := visit_of_coverage hn
    rw [hvisit u h, hvisit v rfl, coverage_mark, coverage_mark, if_pos rfl, if_pos rfl]
    exact ⟨rfl, rfl⟩

theorem coverage_visit_of_ne {agent : String} (h : n.agent ≠ agent) :
    (v.visit n).2.coverage agent = v.coverage agent := by
  by_cases hn : v.isVisited n = true
  · rw [visit_of_isVisited hn]
  · obtain ⟨skip, cov, hvisit⟩ := visit_of_coverage hn
    rw [hvisit v rfl, coverage_mark, if_neg h]

end Visits

namespace VisitTracker

/-- A visit of a node in a direction. -/
abbrev Call := Direction × Node

def after (t : VisitTracker) (calls : List Call) : VisitTracker :=
  calls.foldl (fun t (d, n) => (t.visit d n).2) t

/-- What a run of calls answers, call by call. -/
def answers (t : VisitTracker) : List Call → List (Option PidGroup)
  | [] => []
  | (d, n) :: calls => (t.visit d n).1 :: (t.visit d n).2.answers calls

/-- Directions that are kept together: all but the incoming one. -/
def Together (c d : Direction) : Prop := c = .incoming ↔ d = .incoming

instance (c d : Direction) : Decidable (Together c d) := inferInstanceAs (Decidable (_ ↔ _))

/-- The visits granted in the directions kept with one, each with the pids left out. -/
def granted (t : VisitTracker) (d : Direction) (calls : List Call) : List Expansion :=
  (calls.zip (t.answers calls)).flatMap fun (c, skip) =>
    if Together c.1 d then skip.toList.map (Prod.mk c.2) else []

/-- Calls in directions kept apart, or of different agents. -/
def Apart (c c' : Call) : Prop := ¬ Together c.1 c'.1 ∨ c.2.agent ≠ c'.2.agent

variable {t : VisitTracker} {c d : Direction} {n : Node}

theorem visits_congr (t : VisitTracker) (h : Together c d) : t.visits c = t.visits d := by
  cases c <;> cases d <;> first | rfl | exact absurd h (by decide)

theorem visit_fst (t : VisitTracker) (d : Direction) (n : Node) :
    (t.visit d n).1 = ((t.visits d).visit n).1 := by
  cases d <;> rfl

theorem visits_visit (t : VisitTracker) (c d : Direction) (n : Node) :
    (t.visit c n).2.visits d = if Together c d then ((t.visits d).visit n).2 else t.visits d := by
  cases c <;> cases d <;> rfl

/-- The nodes visited in the directions kept with one. -/
def nodes (d : Direction) (calls : List Call) : List Node :=
  (calls.filter fun c => Together c.1 d).map Prod.snd

theorem mem_nodes {calls : List Call} : n ∈ nodes d calls ↔ ∃ c ∈ calls, Together c.1 d ∧ c.2 = n := by
  simp only [nodes, List.mem_map, List.mem_filter, decide_eq_true_eq, and_assoc]

theorem nodes_cons (d : Direction) (c : Call) (calls : List Call) :
    nodes d (c :: calls) = if Together c.1 d then c.2 :: nodes d calls else nodes d calls := by
  rw [nodes, List.filter_cons]
  by_cases hd : Together c.1 d
  · rw [if_pos hd, if_pos (decide_eq_true hd)]
    rfl
  · rw [if_neg hd, if_neg fun h => hd (of_decide_eq_true h)]
    rfl

theorem granted_cons (t : VisitTracker) (d : Direction) (c : Call) (calls : List Call) :
    t.granted d (c :: calls) =
      (if Together c.1 d then (t.visit c.1 c.2).1.toList.map (Prod.mk c.2) else []) ++
        (t.visit c.1 c.2).2.granted d calls := rfl

/-- In one direction a run of calls claims the nodes it visits. -/
theorem run_eq_claim (t : VisitTracker) (d : Direction) (calls : List Call) :
    (t.granted d calls, (t.after calls).visits d) = (t.visits d).claim (nodes d calls) := by
  induction calls generalizing t with
  | nil => rfl
  | cons call calls ih =>
    obtain ⟨c, n⟩ := call
    have hrest := ih (t.visit c n).2
    rw [visits_visit] at hrest
    change (_, ((t.visit c n).2.after calls).visits d) = _
    rw [granted_cons, nodes_cons]
    by_cases hd : Together c d
    · rw [if_pos hd] at hrest
      rw [if_pos hd, if_pos hd, visit_fst, visits_congr t hd]
      by_cases hn : (t.visits d).isVisited n = true
      · rw [Visits.visit_of_isVisited hn] at hrest ⊢
        rw [Visits.claim_cons_of_isVisited hn]
        exact hrest
      · obtain ⟨skip, v, hvisit, _⟩ := Visits.visit_of_not_isVisited hn
        rw [hvisit] at hrest ⊢
        rw [Visits.claim_cons_of_visit hvisit, ← hrest]
        rfl
    · rw [if_neg hd] at hrest
      rw [if_neg hd, if_neg hd]
      exact hrest

theorem granted_eq (t : VisitTracker) (d : Direction) (calls : List Call) :
    t.granted d calls = ((t.visits d).claim (nodes d calls)).1 :=
  congrArg Prod.fst (run_eq_claim t d calls)

theorem visits_after (t : VisitTracker) (d : Direction) (calls : List Call) :
    (t.after calls).visits d = ((t.visits d).claim (nodes d calls)).2 :=
  congrArg Prod.snd (run_eq_claim t d calls)

/-- Trackers that keep the same of all that is apart from a call. -/
def Alike (c : Call) (t u : VisitTracker) : Prop :=
  ∀ c' : Call, Apart c c' → (t.visits c'.1).coverage c'.2.agent = (u.visits c'.1).coverage c'.2.agent

theorem alike_visit (t : VisitTracker) (c : Call) : Alike c (t.visit c.1 c.2).2 t := by
  intro c' hapart
  rw [visits_visit]
  by_cases hd : Together c.1 c'.1
  · rw [if_pos hd]
    exact Visits.coverage_visit_of_ne (hapart.resolve_left fun h => h hd)
  · rw [if_neg hd]

/-- A call apart from another is answered alike, and leaves alike what was. -/
theorem visit_alike {c c' : Call} {u : VisitTracker} (h : Alike c t u) (hapart : Apart c c') :
    (t.visit c'.1 c'.2).1 = (u.visit c'.1 c'.2).1 ∧
      Alike c (t.visit c'.1 c'.2).2 (u.visit c'.1 c'.2).2 := by
  obtain ⟨hanswer, hleft⟩ := Visits.visit_of_coverage_eq (h c' hapart)
  refine ⟨by rw [visit_fst, visit_fst, hanswer], fun x hx => ?_⟩
  rw [visits_visit, visits_visit]
  by_cases hd : Together c'.1 x.1
  · -- In one direction the call leaves its mark on its own agent only.
    rw [if_pos hd, if_pos hd]
    by_cases hagent : c'.2.agent = x.2.agent
    · rw [← visits_congr t hd, ← visits_congr u hd, ← hagent]
      exact hleft
    · rw [Visits.coverage_visit_of_ne hagent, Visits.coverage_visit_of_ne hagent]
      exact h x hx
  · rw [if_neg hd, if_neg hd]
    exact h x hx

theorem answers_alike {c : Call} {u : VisitTracker} (h : Alike c t u) {later : List Call}
    (hlater : ∀ c' ∈ later, Apart c c') : t.answers later = u.answers later := by
  induction later generalizing t u with
  | nil => rfl
  | cons c' later ih =>
    obtain ⟨hc', hlater⟩ := List.forall_mem_cons.mp hlater
    obtain ⟨hanswer, hnext⟩ := visit_alike h hc'
    change (t.visit c'.1 c'.2).1 :: _ = (u.visit c'.1 c'.2).1 :: _
    rw [hanswer, ih hnext hlater]

/-- Whatever is visited in whatever directions, a visit is granted just if its node was not visited, no two
visits granted in a direction cover a process in common, and together they cover what all visits in the
direction stand for. The count is that of the visits granted, and a visit changes nothing for other
directions and agents. Incoming links are one direction here and all others are the second. -/
theorem visits_split_processes (calls : List Call) :
    (∀ d n, ((empty.after calls).visit d n).1 = none ↔ (empty.after calls).isVisited d n) ∧
    (∀ d, (empty.granted d calls).Pairwise fun e f =>
      ∀ m, ¬ (Expansion.Covers e m ∧ Expansion.Covers f m)) ∧
    (∀ d m, (∃ e ∈ empty.granted d calls, Expansion.Covers e m) ↔
      ∃ c ∈ calls, Together c.1 d ∧ c.2.StandsFor m) ∧
    (∀ d, ∀ e ∈ empty.granted d calls, Expansion.Covers e e.1) ∧
    (∀ d, (empty.after calls).count d = (empty.granted d calls).length) ∧
    (∀ d n later, (∀ c ∈ later, Apart (d, n) c) →
      ((empty.after calls).visit d n).2.answers later = (empty.after calls).answers later) ∧
    (∀ d n c, Apart (d, n) c →
      ((empty.after calls).visit d n).2.isVisited c.1 c.2 = (empty.after calls).isVisited c.1 c.2) ∧
    ∀ d n d', ¬ Together d d' → ((empty.after calls).visit d n).2.count d' = (empty.after calls).count d' := by
  have hnoted : ∀ d, (empty.visits d).Noted := fun d => by cases d <;> exact Visits.noted_empty
  refine ⟨fun d n => ?_, fun d => ?_, fun d m => ?_, fun d e he => ?_, fun d => ?_,
    fun d n later hlater => ?_, fun d n c hapart => ?_, fun d n d' hd => ?_⟩
  · rw [visit_fst, Visits.visit_fst_eq_none_iff]
    rfl
  · rw [granted_eq]
    exact Visits.apart_claim (hnoted d) _
  · have hfresh : ¬ (empty.visits d).isVisited m := by cases d <;> exact Visits.not_isVisited_empty m
    rw [granted_eq, Visits.covers_claim (hnoted d), and_iff_right hfresh]
    constructor
    · rintro ⟨n, hn, hm⟩
      obtain ⟨c, hc, hd, rfl⟩ := mem_nodes.mp hn
      exact ⟨c, hc, hd, hm⟩
    · rintro ⟨c, hc, hd, hm⟩
      exact ⟨c.2, mem_nodes.mpr ⟨c, hc, hd, rfl⟩, hm⟩
  · rw [granted_eq] at he
    exact Visits.covers_self_of_mem_claim (hnoted d) he
  · have hzero : (empty.visits d).expanded = 0 := by cases d <;> rfl
    rw [count, visits_after, Visits.expanded_claim, hzero, Nat.zero_add, ← granted_eq]
  · exact answers_alike (alike_visit _ (d, n)) hlater
  · exact Visits.isVisited_of_coverage_eq (alike_visit (empty.after calls) (d, n) c hapart)
  · rw [count, visits_visit, if_neg hd]
    rfl

/-- An agent is visited after one of its pids and before another, and in both directions. -/
def sampleCalls : List Call :=
  [(.outgoing, Node.of "A" 5), (.incoming, Node.of "A" 5), (.outgoing, Node.ofAgent "A"),
    (.outgoing, Node.of "A" 9), (.incoming, Node.of "A" 5)]

/-- The agent is granted without its pid 5, which was granted before it. Visiting it in the other direction
next changes no answer in this one. -/
theorem visits_split_processes_sampleCalls :
    (empty.granted .outgoing sampleCalls).map (fun e => (e.1, e.2.toList)) =
      [(Node.of "A" 5, []), (Node.ofAgent "A", [5])] ∧
    (empty.after sampleCalls).count .outgoing = (empty.granted .outgoing sampleCalls).length ∧
    (∃ e ∈ empty.granted .outgoing sampleCalls, Expansion.Covers e (Node.of "A" 9)) ∧
    ((empty.after sampleCalls).visit .incoming (Node.ofAgent "A")).2.answers [(.outgoing, Node.of "A" 9)] =
      (empty.after sampleCalls).answers [(.outgoing, Node.of "A" 9)] ∧
    ((empty.after sampleCalls).visit .incoming (Node.ofAgent "A")).2.isVisited .outgoing (Node.of "A" 9) =
      (empty.after sampleCalls).isVisited .outgoing (Node.of "A" 9) ∧
    ((empty.after sampleCalls).visit .incoming (Node.ofAgent "A")).2.count .outgoing =
      (empty.after sampleCalls).count .outgoing := by
  obtain ⟨_, _, hunion, _, hcount, hanswers, hvisited, hcounts⟩ := visits_split_processes sampleCalls
  have hcovered : ∃ c ∈ sampleCalls, Together c.1 .outgoing ∧ c.2.StandsFor (Node.of "A" 9) :=
    ⟨(.outgoing, Node.ofAgent "A"), by decide, by decide,
      (Node.standsFor_agent (Node.not_hasPid_ofAgent "A")).mpr rfl⟩
  have hapart : Apart (.incoming, Node.ofAgent "A") (.outgoing, Node.of "A" 9) := Or.inl (by decide)
  refine ⟨by decide +kernel, hcount .outgoing, (hunion .outgoing _).mpr hcovered,
    hanswers .incoming _ _ fun c hc => ?_, hvisited .incoming _ (.outgoing, _) hapart,
    hcounts .incoming _ .outgoing (by decide)⟩
  cases List.mem_singleton.mp hc
  exact hapart

/-- A visit in the third direction is one in the outgoing direction. -/
theorem internal_visit_covers_outgoing :
    Direction.internal ≠ .outgoing ∧ empty.isVisited .outgoing (Node.ofAgent "A") = false ∧
      (empty.visit .internal (Node.ofAgent "A")).2.isVisited .outgoing (Node.ofAgent "A") = true := by
  decide +kernel

end VisitTracker

end NetAtlas

import NetAtlas.Proofs.Atlas.Accounts
import NetAtlas.Proofs.Atlas.ClaimOrder

set_option autoImplicit false

/-!
# Rounds in any order

The nodes of a frontier may be expanded in any order: the links a round finds and the next frontier
are the same. Their traffic is the same too, unless an agent as a whole and a pid of it wait in one
frontier and the pid shares a socket with another pid that is to be expanded with the agent. Then the
answers about that socket are booked once if the agent comes first and twice if the pid does.
-/
namespace NetAtlas

open Std Binding

/-- Two ledgers that book the same under the same links. -/
structure Posting.SameBooks (ps qs : List Posting) : Prop where
  keys : ∀ k, k ∈ ps.map key ↔ k ∈ qs.map key
  owns : (Posting.owns ps).Perm (Posting.owns qs)
  peers : (Posting.peers ps).Perm (Posting.peers qs)

theorem Posting.SameBooks.symm {ps qs : List Posting} (h : Posting.SameBooks ps qs) :
    Posting.SameBooks qs ps :=
  ⟨fun k => (h.keys k).symm, h.owns.symm, h.peers.symm⟩

theorem Posting.SameBooks.trans {ps qs rs : List Posting} (h : Posting.SameBooks ps qs)
    (h' : Posting.SameBooks qs rs) : Posting.SameBooks ps rs :=
  ⟨fun k => (h.keys k).trans (h'.keys k), h.owns.trans h'.owns, h.peers.trans h'.peers⟩

theorem LinkMap.ofPostings_congr (w : Window) {ps qs : List Posting} (h : Posting.SameBooks ps qs) :
    ofPostings w ps = ofPostings w qs := by
  apply ExtTreeMap.ext_getElem?
  intro k
  rw [getElem?_ofPostings, getElem?_ofPostings, LinkValue.ofObservations_perm w
    ((Posting.booked_perm k h.owns).append (Posting.booked_perm k h.peers))]
  exact if_congr (h.keys k) rfl rfl

namespace Contents

variable (c : Contents) (v : View) (w : Window)

theorem mem_keys_of_bound {es : List Expansion} {k : LinkKey} :
    k ∈ (es.flatMap (c.postingsOf v w.range)).map Posting.key ↔
      ∃ p ∈ es.flatMap (c.bound v w.range), Links v (c.reports v.opposite w.range) p k := by
  rw [List.map_flatMap, List.mem_flatMap]
  constructor
  · rintro ⟨e, he, hk⟩
    obtain ⟨p, hp, hl⟩ := (c.mem_keys_postingsOf v w.range).mp hk
    exact ⟨p, List.mem_flatMap.mpr ⟨e, he, hp⟩, hl⟩
  · rintro ⟨p, hp, hl⟩
    obtain ⟨e, he, hp⟩ := List.mem_flatMap.mp hp
    exact ⟨e, he, (c.mem_keys_postingsOf v w.range).mpr ⟨p, hp, hl⟩⟩

/-- The reports an answer is booked with, one for each expansion that binds its socket. -/
def leaders (es : List Expansion) (q : Observation) : List Observation :=
  es.flatMap fun e => ((c.bound v w.range e).find? (sameSocket · q)).toList

theorem peers_perm_leaders (es : List Expansion) :
    (Posting.peers (es.flatMap (c.postingsOf v w.range))).Perm
      ((c.reports v.opposite w.range).flatMap fun q => (c.leaders v w es q).map fun p =>
        (linkKey v p (some q.node), q)) := by
  refine (c.peers_perm v w es).trans (List.Perm.of_eq ?_)
  apply List.flatMap_congr
  intro q _
  rw [leaders, List.map_flatMap]

/-- What two lists of expansions agree on that come from one frontier. -/
structure SameReach (es fs : List Expansion) : Prop where
  agents : ∀ agent, agent ∈ es.map (·.1.agent) ↔ agent ∈ fs.map (·.1.agent)
  bound : (es.flatMap (c.bound v w.range)).Perm (fs.flatMap (c.bound v w.range))

/-- Two lists of expansions that book every answer with the same reports. -/
def SameLeaders (es fs : List Expansion) : Prop :=
  ∀ q ∈ c.reports v.opposite w.range, (c.leaders v w es q).Perm (c.leaders v w fs q)

theorem SameReach.mem_keys_iff {es fs : List Expansion} (h : c.SameReach v w es fs) (k : LinkKey) :
    k ∈ (es.flatMap (c.postingsOf v w.range)).map Posting.key ↔
      k ∈ (fs.flatMap (c.postingsOf v w.range)).map Posting.key := by
  rw [mem_keys_of_bound, mem_keys_of_bound]
  exact exists_congr fun p => and_congr_left' h.bound.mem_iff

theorem SameReach.owns_perm {es fs : List Expansion} (h : c.SameReach v w es fs) :
    (Posting.owns (es.flatMap (c.postingsOf v w.range))).Perm
      (Posting.owns (fs.flatMap (c.postingsOf v w.range))) :=
  (c.owns_perm v w es).trans ((h.bound.map _).trans (c.owns_perm v w fs).symm)

theorem sameBooks_of_sameLeaders {es fs : List Expansion} (h : c.SameReach v w es fs)
    (hl : c.SameLeaders v w es fs) :
    Posting.SameBooks (es.flatMap (c.postingsOf v w.range)) (fs.flatMap (c.postingsOf v w.range)) :=
  ⟨h.mem_keys_iff, h.owns_perm, (c.peers_perm_leaders v w es).trans
    ((List.Perm.flatMap_left _ fun q hq => (hl q hq).map _).trans
      (c.peers_perm_leaders v w fs).symm)⟩

/-- To leave out a pid more is to bind what is not of it. -/
theorem bound_insert (n : Node) (skip : PidGroup) (pid : Int32) :
    c.bound v w.range (n, skip.insert pid) =
      (c.bound v w.range (n, skip)).filter fun o => !decide (o.pid = pid) := by
  rw [bound, bound, List.filter_filter]
  apply List.filter_congr
  intro o _
  rw [Bool.eq_iff_iff, Bool.and_eq_true, Bool.not_eq_true', decide_eq_false_iff_not,
    decide_eq_true_iff, decide_eq_true_iff, admits_iff, admits_iff, ExtTreeSet.mem_insert,
    LawfulEqCmp.compare_eq_iff_eq, not_or]
  constructor
  · rintro ⟨⟨ha, hn, hne, hp⟩, hip⟩
    exact ⟨fun he => hne he.symm, ⟨ha, hn, hp⟩, hip⟩
  · rintro ⟨hne, ⟨ha, hn, hp⟩, hip⟩
    exact ⟨⟨ha, hn, fun he => hne he.symm, hp⟩, hip⟩

theorem mem_bound_insert {n : Node} {skip : PidGroup} {pid : Int32} {p : Observation} :
    p ∈ c.bound v w.range (n, skip.insert pid) ↔ p ∈ c.bound v w.range (n, skip) ∧ p.pid ≠ pid := by
  rw [bound_insert, List.mem_filter, Bool.not_eq_true', decide_eq_false_iff_not]

section Divides

variable {visits : Visits} {whole part : Node} {pids : PidGroup}

/-- The pid binds what the agent binds of it. -/
theorem bound_part (h : visits.Divides whole part pids) :
    c.bound v w.range (part, ∅) =
      (c.bound v w.range (whole, pids)).filter fun o => o.pid = part.pid := by
  rw [bound, bound, List.filter_filter]
  apply List.filter_congr
  intro o _
  rw [Bool.eq_iff_iff, Bool.and_eq_true, decide_eq_true_iff, decide_eq_true_iff, decide_eq_true_iff,
    admits_empty_iff, admits_iff, h.same]
  constructor
  · rintro ⟨⟨ha, hp⟩, hip⟩
    have hp := hp h.has_pid
    exact ⟨hp, ⟨ha, fun hn => absurd hn h.no_pid, hp ▸ h.fresh⟩, hip⟩
  · rintro ⟨hp, ⟨ha, _, _⟩, hip⟩
    exact ⟨⟨ha, fun _ => hp⟩, hip⟩

theorem bound_perm_of_divides (h : visits.Divides whole part pids) :
    (c.bound v w.range (whole, pids)).Perm
      (c.bound v w.range (part, ∅) ++ c.bound v w.range (whole, pids.insert part.pid)) := by
  rw [c.bound_part v w h, bound_insert]
  exact (List.filter_append_perm _ _).symm

theorem mem_bound_part (h : visits.Divides whole part pids) {p : Observation} :
    p ∈ c.bound v w.range (part, ∅) ↔ p ∈ c.bound v w.range (whole, pids) ∧ p.pid = part.pid := by
  rw [c.bound_part v w h, List.mem_filter, decide_eq_true_iff]

/-- An agent that is not covered yet binds of its reports those that are not. -/
theorem mem_bound_whole (h : visits.Divides whole part pids) {p : Observation} :
    p ∈ c.bound v w.range (whole, pids) ↔
      p ∈ c.bound v w.range (whole, ∅) ∧ ¬ visits.Covers p := by
  have hcovers : p.agent = whole.agent → (visits.Covers p ↔ p.pid ∈ pids) := by
    intro ha
    rw [Visits.Covers, ha, h.noted]
  rw [mem_bound, mem_bound, admits_iff, admits_empty_iff]
  constructor
  · rintro ⟨hmem, ⟨ha, hn, hp⟩, hip⟩
    exact ⟨⟨hmem, ⟨ha, hn⟩, hip⟩, fun hc => hp ((hcovers ha).mp hc)⟩
  · rintro ⟨⟨hmem, ⟨ha, hn⟩, hip⟩, hc⟩
    exact ⟨hmem, ⟨ha, hn, fun hp => hc ((hcovers ha).mpr hp)⟩, hip⟩

end Divides

/-- No pid waits in a frontier together with its agent that shares an answered socket with another pid
of the agent, both of them yet to be expanded. -/
def Undivided (visits : Visits) (ns : List Node) : Prop :=
  ∀ n ∈ ns, n.hasPid → n.toAgent ∈ ns → ∀ q ∈ c.reports v.opposite w.range,
    ∀ p ∈ c.bound v w.range (n.toAgent, ∅), ∀ p' ∈ c.bound v w.range (n.toAgent, ∅),
      sameSocket p q → sameSocket p' q → ¬ visits.Covers p → ¬ visits.Covers p' →
        p.pid = n.pid → p'.pid = n.pid

theorem Undivided.perm {visits : Visits} {ns ns' : List Node} (hp : ns.Perm ns')
    (h : c.Undivided v w visits ns) : c.Undivided v w visits ns' :=
  fun n hn hpid ha => h n (hp.mem_iff.mpr hn) hpid (hp.mem_iff.mpr ha)

theorem Undivided.tail {visits : Visits} {n : Node} {ns : List Node}
    (h : c.Undivided v w visits (n :: ns)) : c.Undivided v w (visits.visit n).2 ns := by
  have hcovers : ∀ p, visits.Covers p → (visits.visit n).2.Covers p := by
    intro p hp
    by_cases hn : visits.isVisited n = true
    · rw [Visits.visit_of_isVisited hn]
      exact hp
    · obtain ⟨skip, v', hvisit, hclaim⟩ := Visits.visit_of_not_isVisited hn
      rw [hvisit]
      exact (hclaim.covers p).mpr (Or.inl hp)
  intro m hm hpid ha q hq p hp p' hp' hs hs' hc hc'
  exact h m (List.mem_cons_of_mem _ hm) hpid (List.mem_cons_of_mem _ ha) q hq p hp p' hp' hs hs'
    (fun hcov => hc (hcovers p hcov)) fun hcov => hc' (hcovers p' hcov)

/-- Where a pid divides the reports about the socket of an answer, it matters whether it comes before
its agent or after. -/
theorem reporters_of_divides {visits : Visits} {whole part : Node} {pids : PidGroup}
    (h : visits.Divides whole part pids) {q p p' : Observation}
    (hp : p ∈ c.bound v w.range (whole, pids)) (hp' : p' ∈ c.bound v w.range (whole, pids))
    (hs : sameSocket p q) (hs' : sameSocket p' q) (hpid : p.pid = part.pid)
    (hpid' : p'.pid ≠ part.pid) (rest : List Expansion) :
    c.reporters v w ((part, ∅) :: (whole, pids.insert part.pid) :: rest) q =
      c.reporters v w ((whole, pids) :: rest) q + 1 := by
  have hwhole : (c.bound v w.range (whole, pids)).any (sameSocket · q) = true :=
    List.any_eq_true.mpr ⟨p, hp, hs⟩
  have hpart : (c.bound v w.range (part, ∅)).any (sameSocket · q) = true :=
    List.any_eq_true.mpr ⟨p, (c.mem_bound_part v w h).mpr ⟨hp, hpid⟩, hs⟩
  have hrest : (c.bound v w.range (whole, pids.insert part.pid)).any (sameSocket · q) = true :=
    List.any_eq_true.mpr ⟨p', (c.mem_bound_insert v w).mpr ⟨hp', hpid'⟩, hs'⟩
  simp only [reporters, List.countP_cons, hwhole, hpart, hrest, if_true]

theorem regroups_sameReach : Visits.Regroups (fun _ _ => True) (c.SameReach v w) where
  perm h := ⟨fun _ => (h.map _).mem_iff, h.flatMap_right _⟩
  symm h := ⟨fun agent => (h.agents agent).symm, h.bound.symm⟩
  trans h h' := ⟨fun agent => (h.agents agent).trans (h'.agents agent), h.bound.trans h'.bound⟩
  cons e es fs h := by
    refine ⟨fun agent => ?_, ?_⟩
    · rw [List.map_cons, List.map_cons, List.mem_cons, List.mem_cons, h.agents agent]
    · rw [List.flatMap_cons, List.flatMap_cons]
      exact h.bound.append_left _
  split _ h rest := by
    refine ⟨fun agent => ?_, ?_⟩
    · simp only [List.map_cons, List.mem_cons, h.same, or_self_left]
    · simp only [List.flatMap_cons]
      rw [← List.append_assoc]
      exact (c.bound_perm_of_divides v w h).append_right _
  allowed_perm _ _ := trivial
  allowed_tail _ := trivial

theorem regroups_sameLeaders : Visits.Regroups (c.Undivided v w) (c.SameLeaders v w) where
  perm h _ _ := h.flatMap_right _
  symm h q hq := (h q hq).symm
  trans h h' q hq := (h q hq).trans (h' q hq)
  cons e es fs h q hq := by
    rw [leaders, leaders, List.flatMap_cons, List.flatMap_cons]
    exact (h q hq).append_left _
  split {visits whole part pids ns} hv h rest q hq := by
    -- the socket of an answer is reported by the pid or by the rest of the agent, not by both
    have hagent : part.toAgent = whole := Node.eq_of_not_hasPid
      ((Node.agent_of _ _).trans h.same) (Node.not_hasPid_ofAgent _) h.no_pid
    have hone : ¬ ((c.bound v w.range (part, ∅)).any (sameSocket · q) ∧
        (c.bound v w.range (whole, pids.insert part.pid)).any (sameSocket · q)) := by
      rintro ⟨hpart, hrest⟩
      obtain ⟨p, hp, hs⟩ := List.any_eq_true.mp hpart
      obtain ⟨p', hp', hs'⟩ := List.any_eq_true.mp hrest
      obtain ⟨hp, hpid⟩ := (c.mem_bound_part v w h).mp hp
      obtain ⟨hp', hne⟩ := (c.mem_bound_insert v w).mp hp'
      obtain ⟨hp, hc⟩ := (c.mem_bound_whole v w h).mp hp
      obtain ⟨hp', hc'⟩ := (c.mem_bound_whole v w h).mp hp'
      rw [← hagent] at hp hp'
      refine hne (hv part (List.mem_cons_of_mem _ List.mem_cons_self) h.has_pid ?_ q hq p hp p' hp'
        hs hs' hc hc' hpid)
      rw [hagent]
      exact List.mem_cons_self
    rw [c.bound_part v w h, bound_insert] at hone
    simp only [leaders, List.flatMap_cons]
    rw [c.bound_part v w h, bound_insert, find?_toList_filter hone, List.append_assoc]
  allowed_perm h := Undivided.perm c v w h
  allowed_tail h := Undivided.tail c v w h

end Contents

namespace Side

open Sample

/-- A side whose frontier waits in another order. -/
def waiting (s : Side) (ns : List Node) : Side := { s with frontier := ns }

variable {w : Window} {s : Side} {ns : List Node}

theorem sameReach_claims (c : Contents) (w : Window) (h : ns.Perm s.frontier) :
    c.SameReach s.view w s.claims (s.waiting ns).claims :=
  Visits.claim_perm (c.regroups_sameReach s.view w) h.symm trivial

/-- The next frontier is read off the links found and the nodes covered. -/
theorem nextFrontier_congr (v : View) {visits visits' : Visits} {found found' : LinkMap}
    (hv : visits.agents = visits'.agents) (hf : ∀ k, k ∈ found ↔ k ∈ found') :
    nextFrontier v visits found = nextFrontier v visits' found' := by
  rw [nextFrontier, nextFrontier]
  apply congrArg ExtTreeSet.toList
  apply ExtTreeSet.ext_mem
  intro n
  have hmem : ∀ found : LinkMap, n ∈ found.keys.filterMap (fun key => (farEnd v key).node) ↔
      ∃ k ∈ found, (farEnd v k).node = some n := by
    intro found
    simp only [List.mem_filterMap, ExtTreeMap.mem_keys]
  rw [ExtTreeSet.mem_ofList, ExtTreeSet.mem_ofList, List.contains_iff_mem, List.contains_iff_mem,
    List.mem_filter, List.mem_filter, hmem, hmem, Visits.isVisited_congr hv]
  simp only [hf]

theorem answer_expand_ok_iff (c : Contents) :
    (∃ t, (s.expand w).answer c = .ok t) ↔ ∀ agent ∈ s.claims.map (·.1.agent),
      ∃ ips, (AddressRegistry.addresses agent w.range).answer c = .ok ips := by
  rw [answer_expand, List.forall_mem_map, ← except_mapM_ok_iff, tryExpandIn]
  change _ ↔ ∃ ips, s.lookups c w = .ok ips
  cases s.lookups c w with
  | error e =>
    constructor
    · rintro ⟨_, h⟩
      cases h
    · rintro ⟨_, h⟩
      cases h
  | ok ips => exact ⟨fun _ => ⟨ips, rfl⟩, fun _ => ⟨_, rfl⟩⟩

/-- A round that comes through in one order does so in every other. -/
theorem expand_waiting_ok {st : Storage} {t : Side} (hs : st.AnswersScans)
    (h : (s.expand w st).1 = .ok t) (hp : ns.Perm s.frontier) :
    ∃ t', ((s.waiting ns).expand w st).1 = .ok t' := by
  have hanswer := (answer_expand_ok_iff st.contents).mp ⟨t, (reading_expand w s).answer_eq h⟩
  have hagents := (sameReach_claims st.contents w hp).agents
  obtain ⟨t', ht'⟩ := (answer_expand_ok_iff (s := s.waiting ns) (w := w) st.contents).mpr
    fun agent ha => hanswer agent ((hagents agent).mpr ha)
  obtain ⟨calls, hrun⟩ := (reading_expand w (s.waiting ns)).of_answersScans hs
  exact ⟨t', by rw [hrun, ht']⟩

/-- Ledgers that are the same in every order: no pid may be moved before its agent to any effect. -/
theorem undivided_of_sameBooks (c : Contents)
    (h : ∀ ns, ns.Perm s.frontier →
      Posting.SameBooks (s.ledger c w) ((s.waiting ns).ledger c w)) :
    c.Undivided s.view w s.visits s.frontier := by
  intro n hn hpid ha q hq p hp p' hp' hs hs' hc hc' he
  by_contra hne
  have hagent : p.agent = n.agent := by
    obtain ⟨_, hadmits, _⟩ := (c.mem_bound w s.view).mp hp
    exact (admits_empty_iff.mp hadmits).1.trans (Node.agent_of _ _)
  obtain ⟨pids, hnoted⟩ : ∃ pids, s.visits.coverage n.agent = .pids pids := by
    cases hcov : s.visits.coverage n.agent with
    | whole =>
      rw [Visits.Covers, hagent, hcov] at hc
      exact absurd trivial hc
    | pids pids => exact ⟨pids, rfl⟩
  have hfresh : n.pid ∉ pids := by
    rw [Visits.Covers, hagent, hnoted, he] at hc
    exact hc
  have hdivides : s.visits.Divides n.toAgent n pids :=
    ⟨(congrArg _ (Node.agent_of _ _)).trans hnoted, Node.not_hasPid_ofAgent _, hpid,
      (Node.agent_of _ _).symm, hfresh⟩
  -- the frontier with the agent and the pid in front, in either order
  have hother : n.toAgent ≠ n := fun he => Node.not_hasPid_ofAgent n.agent (he ▸ hpid)
  have hpart : n ∈ s.frontier.erase n.toAgent := (List.mem_erase_of_ne hother.symm).mpr hn
  have hfront : (n.toAgent :: n :: (s.frontier.erase n.toAgent).erase n).Perm s.frontier :=
    ((List.perm_cons_erase hpart).symm.cons _).trans (List.perm_cons_erase ha).symm
  have hbooks := (h _ hfront).symm.trans (h _ ((List.Perm.swap _ _ _).trans hfront))
  have hcount := (hbooks.peers.map Prod.snd).count_eq q
  have hreporters := c.reporters_of_divides s.view w hdivides
    ((c.mem_bound_whole s.view w hdivides).mpr ⟨hp, hc⟩)
    ((c.mem_bound_whole s.view w hdivides).mpr ⟨hp', hc'⟩) hs hs' he hne
    ((s.visits.mark n.toAgent.agent .whole).claim ((s.frontier.erase n.toAgent).erase n)).1
  simp only [ledger, claims, waiting, hdivides.claim_whole, (hdivides.claim_part _).1] at hcount
  rw [c.count_peers, c.count_peers, hreporters] at hcount
  have hpos : 0 < (c.reports s.view.opposite w.range).count q := List.count_pos_iff.mpr hq
  exact absurd (Nat.eq_of_mul_eq_mul_left hpos hcount) (Nat.ne_of_lt (Nat.lt_succ_self _))

theorem sameBooks_of_undivided (c : Contents) (hp : ns.Perm s.frontier)
    (h : c.Undivided s.view w s.visits s.frontier) :
    Posting.SameBooks (s.ledger c w) ((s.waiting ns).ledger c w) :=
  c.sameBooks_of_sameLeaders s.view w (sameReach_claims c w hp)
    (Visits.claim_perm (c.regroups_sameLeaders s.view w) hp.symm h)

/-- A round that comes through does so in every order of its frontier, with the same links, the same
next frontier and the same traffic of the near side. What it books is the same in every order exactly if
no pid that waits together with its agent shares an answered socket with the rest of it; then the links
have the same values. -/
theorem expand_in_any_order {st : Storage} {t : Side} (h : (s.expand w st).1 = .ok t) :
    (st.AnswersScans → ∀ ns, ns.Perm s.frontier → ∃ t', ((s.waiting ns).expand w st).1 = .ok t') ∧
      (∀ ns t', ns.Perm s.frontier → ((s.waiting ns).expand w st).1 = .ok t' →
        t'.frontier = t.frontier ∧ (∀ k, k ∈ t'.links ↔ k ∈ t.links) ∧
        (Posting.owns ((s.waiting ns).ledger st.contents w)).Perm
          (Posting.owns (s.ledger st.contents w)) ∧
        (st.contents.Undivided s.view w s.visits s.frontier → t'.links = t.links)) ∧
      ((∀ ns, ns.Perm s.frontier →
        Posting.SameBooks (s.ledger st.contents w) ((s.waiting ns).ledger st.contents w)) ↔
          st.contents.Undivided s.view w s.visits s.frontier) := by
  refine ⟨fun hs ns hp => expand_waiting_ok hs h hp, fun ns t' hp h' => ?_,
    undivided_of_sameBooks st.contents, fun hu ns hp => sameBooks_of_undivided st.contents hp hu⟩
  rw [answer_expand_eq_ok st.contents w ((reading_expand w s).answer_eq h),
    answer_expand_eq_ok st.contents w ((reading_expand w (s.waiting ns)).answer_eq h')]
  have hreach := sameReach_claims st.contents w hp
  have hkeys : ∀ k, k ∈ LinkMap.ofPostings w ((s.waiting ns).ledger st.contents w) ↔
      k ∈ LinkMap.ofPostings w (s.ledger st.contents w) := by
    intro k
    rw [LinkMap.mem_ofPostings, LinkMap.mem_ofPostings]
    exact (hreach.mem_keys_iff st.contents s.view w k).symm
  refine ⟨nextFrontier_congr s.view (Visits.agents_claim_perm hp s.visits) hkeys, fun k => ?_,
    (hreach.owns_perm st.contents s.view w).symm, fun hu => ?_⟩
  · exact LinkMap.mem_merge.trans ((or_congr_right (hkeys k)).trans LinkMap.mem_merge.symm)
  · rw [expandIn, expandIn, LinkMap.ofPostings_congr w (sameBooks_of_undivided st.contents hp hu)]
    rfl

/-- A callees' side at whose frontier an agent waits with one of its pids. -/
def agentAndPid : Side where
  view := .callee
  depth := 1
  frontier := [Node.ofAgent "A", Node.of "A" 1]
  visits := Visits.empty
  links := ∅

/-- Two processes of the agent, each with a socket of its own. -/
def ownSockets : Storage := Sample.storage [address "A" 1]
  [report "A" 1 .outgoing (host 1, 50000) (host 2, 443) 10,
   report "A" 2 .outgoing (host 1, 50001) (host 2, 443) 20,
   report "B" 7 .incoming (host 1, 50000) (host 2, 443) 100]

theorem expand_in_any_order_ownSockets :
    ∃ t t', (agentAndPid.expand window ownSockets).1 = .ok t ∧
      ((agentAndPid.waiting [Node.of "A" 1, Node.ofAgent "A"]).expand window ownSockets).1 = .ok t' ∧
      t.frontier = [Node.of "B" 7] ∧ t'.frontier = [Node.of "B" 7] ∧ t'.links = t.links := by
  have hperm : [Node.of "A" 1, Node.ofAgent "A"].Perm agentAndPid.frontier := List.Perm.swap _ _ _
  have hrun : (agentAndPid.expand window ownSockets).1.toOption.map (·.frontier) =
      some [Node.of "B" 7] := by decide +kernel
  obtain ⟨t, ht, hfrontier⟩ := except_toOption_map_eq_some hrun
  obtain ⟨hok, horder, _⟩ := expand_in_any_order ht
  obtain ⟨t', ht'⟩ := hok (StoreM.answersScans_ofContents _ _) _ hperm
  obtain ⟨hsame, _, _, hlinks⟩ := horder _ t' hperm ht'
  have hapart : ∀ n ∈ agentAndPid.frontier,
      ∀ p ∈ ownSockets.contents.bound .callee window.range (n.toAgent, ∅),
      ∀ p' ∈ ownSockets.contents.bound .callee window.range (n.toAgent, ∅),
        p.src = p'.src → p.pid = p'.pid := by decide +kernel
  refine ⟨t, t', ht, ht', hfrontier, hsame.trans hfrontier, hlinks ?_⟩
  intro n hn _ _ q _ p hp p' hp' hs hs' _ _ hpid
  have hsrc := (sameSocket_iff.mp hs).1.trans (sameSocket_iff.mp hs').1.symm
  exact (hapart n hn p hp p' hp' hsrc).symm.trans hpid

/-- Two processes of the agent with a socket that both report. -/
def dividedSocket : Storage := Sample.storage [address "A" 1]
  [report "A" 1 .outgoing (host 1, 50000) (host 2, 443) 10,
   report "A" 2 .outgoing (host 1, 50000) (host 2, 443) 20,
   report "B" 7 .incoming (host 1, 50000) (host 2, 443) 100]

/-- The link of the second process carries the answer of 100 sent only if the first one is expanded
before the agent. -/
theorem expand_depends_on_order :
    ((agentAndPid.expand window dividedSocket).1.toOption.map fun t =>
      t.links[Traversal.sharedLink 2]?.map fun value => value.total.sent) = some (some 20) ∧
    (((agentAndPid.waiting [Node.of "A" 1, Node.ofAgent "A"]).expand window
      dividedSocket).1.toOption.map fun t =>
        t.links[Traversal.sharedLink 2]?.map fun value => value.total.sent) = some (some 120) := by
  decide +kernel

end Side

end NetAtlas

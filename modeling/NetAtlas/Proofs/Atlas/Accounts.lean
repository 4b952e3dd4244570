import NetAtlas.Proofs.Atlas.Runs
import NetAtlas.Proofs.Link.Tallies

set_option autoImplicit false

/-!
# Accounts of a run

The links of a direction are a ledger of observations. Those of the side it walks along are booked
once each, if any expansion covers them and their address is known. Those of the other side are booked
once for each expansion that reported their socket, which may be more often than they are stored.
-/
namespace NetAtlas

open Std Binding

/-- A ledger accounts for the links of one direction. -/
structure Books (w : Window) (m : LinkMap) (d : Direction) (ps : List Posting) : Prop where
  keys : ∀ k, k ∈ m ∧ k.direction = d ↔ k ∈ ps.map Posting.key
  values : ∀ k ∈ ps.map Posting.key, m[k]? = some (LinkValue.ofObservations w
    (Posting.booked k (Posting.owns ps) ++ Posting.booked k (Posting.peers ps)))

/-- A link has in each slot the sums of what is booked under it with a time of the slot. -/
theorem Books.summarizes {w : Window} {m : LinkMap} {d : Direction} {ps : List Posting}
    (h : Books w m d ps) {k : LinkKey} {value : LinkValue} (hd : k.direction = d)
    (hvalue : m[k]? = some value) :
    value.Summarizes w (Posting.booked k (Posting.owns ps) ++ Posting.booked k (Posting.peers ps)) := by
  have hmem : k ∈ m := ExtTreeMap.mem_iff_isSome_getElem?.mpr (hvalue ▸ rfl)
  rw [h.values k ((h.keys k).mp ⟨hmem, hd⟩)] at hvalue
  cases hvalue
  exact LinkValue.summarizes_ofObservations w _

namespace Contents

variable (c : Contents) (v : View) (w : Window)

/-- The expansions that bind a report about the socket of an answer. -/
def reporters (es : List Expansion) (q : Observation) : Nat :=
  es.countP fun e => (c.bound v w.range e).any (sameSocket · q)

/-- Expansions that split what they admit bind every report they cover once. -/
theorem flatMap_bound_perm {visits : Visits} {es : List Expansion} (h : visits.Splits es) :
    (es.flatMap (c.bound v w.range)).Perm
      ((c.observations v).filter fun o => w.range.covers o.time ∧
        (v.own o).ip ∈ c.addresses o.agent w.range ∧ ∃ e ∈ es, admits e.1 ∅ o) := by
  have happart : es.Pairwise fun e f => ∀ p ∈ c.reports v w.range,
      ¬ (decide (admits e.1 e.2 p ∧ (v.own p).ip ∈ c.addresses e.1.agent w.range) ∧
        decide (admits f.1 f.2 p ∧ (v.own p).ip ∈ c.addresses f.1.agent w.range)) := by
    apply h.apart.imp
    rintro e f hne p _ ⟨he, hf⟩
    exact hne p ⟨(of_decide_eq_true he).1, (of_decide_eq_true hf).1⟩
  refine (flatMap_filter_perm (fun e p => decide (admits e.1 e.2 p ∧
    (v.own p).ip ∈ c.addresses e.1.agent w.range)) es _ happart).trans (List.Perm.of_eq ?_)
  rw [reports, List.filter_filter]
  apply List.filter_congr
  intro p _
  rw [Bool.eq_iff_iff, Bool.and_eq_true, List.any_eq_true, decide_eq_true_iff, ← h.covers_iff,
    h.covers]
  constructor
  · rintro ⟨⟨e, he, hp⟩, hcov⟩
    obtain ⟨hadmits, hip⟩ := of_decide_eq_true hp
    rw [← (admits_iff.mp hadmits).1] at hip
    exact ⟨hcov, hip, e, he, hadmits⟩
  · rintro ⟨hcov, hip, e, he, hadmits⟩
    rw [(admits_iff.mp hadmits).1] at hip
    exact ⟨⟨e, he, decide_eq_true ⟨hadmits, hip⟩⟩, hcov⟩

theorem owns_perm (es : List Expansion) :
    (Posting.owns (es.flatMap (c.postingsOf v w.range))).Perm
      ((es.flatMap (c.bound v w.range)).map fun p =>
        (ownKey v (c.reports v.opposite w.range) p, p)) := by
  rw [Posting.owns, List.flatMap_assoc, List.map_flatMap]
  exact List.Perm.flatMap_left _ fun e _ => c.owns_postingsOf_perm v w.range e

/-- Reports of the far side: those that an expansion answers, for each expansion anew. -/
theorem peers_perm (es : List Expansion) :
    (Posting.peers (es.flatMap (c.postingsOf v w.range))).Perm
      ((c.reports v.opposite w.range).flatMap fun q => es.flatMap fun e =>
        ((c.bound v w.range e).find? (sameSocket · q)).toList.map fun p =>
          (linkKey v p (some q.node), q)) := by
  rw [Posting.peers, List.flatMap_assoc]
  exact (List.Perm.flatMap_left _ fun e _ => c.peers_postingsOf_perm v w.range e).trans
    (flatMap_comm_perm _ _ _)

theorem find?_toList_length (ps : List Observation) (q : Observation) :
    (ps.find? (sameSocket · q)).toList.length = if ps.any (sameSocket · q) then 1 else 0 := by
  cases hfind : ps.find? (sameSocket · q) with
  | none =>
    have hany : ps.any (sameSocket · q) = false :=
      List.any_eq_false.mpr (List.find?_eq_none.mp hfind)
    rw [hany]
    rfl
  | some p =>
    have hs := List.find?_some hfind
    have hany : ps.any (sameSocket · q) = true :=
      List.any_eq_true.mpr ⟨p, List.mem_of_find?_eq_some hfind, hs⟩
    rw [hany]
    rfl

theorem snd_peers_perm (es : List Expansion) :
    ((Posting.peers (es.flatMap (c.postingsOf v w.range))).map Prod.snd).Perm
      ((c.reports v.opposite w.range).flatMap fun q => List.replicate (c.reporters v w es q) q) := by
  refine ((c.peers_perm v w es).map Prod.snd).trans (List.Perm.of_eq ?_)
  rw [List.map_flatMap]
  apply List.flatMap_congr
  intro q _
  rw [List.map_flatMap, reporters]
  induction es with
  | nil => rfl
  | cons e es ih =>
    rw [List.flatMap_cons, ih, List.map_map, List.countP_cons, Nat.add_comm, ← List.replicate_append_replicate]
    congr 1
    rw [← find?_toList_length]
    exact List.map_const'

theorem count_peers (es : List Expansion) (q : Observation) :
    ((Posting.peers (es.flatMap (c.postingsOf v w.range))).map Prod.snd).count q =
      (c.reports v.opposite w.range).count q * c.reporters v w es q := by
  rw [(c.snd_peers_perm v w es).count_eq]
  induction c.reports v.opposite w.range with
  | nil => rw [List.flatMap_nil, List.count_nil, Nat.zero_mul]
  | cons o os ih =>
    rw [List.flatMap_cons, List.count_append, ih, List.count_cons, List.count_replicate]
    by_cases ho : o = q
    · subst ho
      simp only [beq_self_eq_true, if_true, Nat.add_mul, Nat.one_mul, Nat.add_comm]
    · have hb : (o == q) = false := beq_false_of_ne ho
      simp only [hb, Bool.false_eq_true, if_false, Nat.add_zero, Nat.zero_add]

theorem mem_of_mem_peers {es : List Expansion} {x : LinkKey × Observation}
    (h : x ∈ Posting.peers (es.flatMap (c.postingsOf v w.range))) :
    x.2 ∈ c.reports v.opposite w.range := by
  obtain ⟨q, hq, hx⟩ := List.mem_flatMap.mp ((c.peers_perm v w es).mem_iff.mp h)
  obtain ⟨e, _, hx⟩ := List.mem_flatMap.mp hx
  obtain ⟨p, _, rfl⟩ := List.mem_map.mp hx
  exact hq

theorem mem_of_mem_owns {es : List Expansion} {x : LinkKey × Observation}
    (h : x ∈ Posting.owns (es.flatMap (c.postingsOf v w.range))) : x.2 ∈ c.reports v w.range := by
  obtain ⟨p, hp, rfl⟩ := List.mem_map.mp ((c.owns_perm v w es).mem_iff.mp h)
  obtain ⟨e, _, hp⟩ := List.mem_flatMap.mp hp
  exact List.mem_of_mem_filter hp

end Contents

namespace Traversal

open Sample

variable {w : Window} {s : Storage} {callerDepth calleeDepth : Nat} {withLocalLinks : Bool}
  {agent : String} {t : Traversal}

theorem links_side_of_run (h : (run w callerDepth calleeDepth withLocalLinks agent s).1 = .ok t)
    (v : View) : (t.side v).links =
      LinkMap.ofPostings w (t.ledger s.contents w callerDepth calleeDepth agent v) := by
  rw [side_of_run w h v]
  exact Side.links_after s.contents w rfl t.rounds

theorem books_of_run (h : (run w callerDepth calleeDepth withLocalLinks agent s).1 = .ok t)
    (v : View) :
    Books w t.links v.direction (t.ledger s.contents w callerDepth calleeDepth agent v) := by
  have hside := links_side_of_run h v
  have hkeys : ∀ k, k ∈ t.links ∧ k.direction = v.direction ↔
      k ∈ (t.ledger s.contents w callerDepth calleeDepth agent v).map Posting.key := by
    intro k
    rw [mem_links_iff w h, hside, LinkMap.mem_ofPostings]
  refine ⟨hkeys, fun k hk => ?_⟩
  rw [getElem?_links w h ((hkeys k).mpr hk).2, hside, LinkMap.getElem?_ofPostings, if_pos hk]

theorem splits_of_run (h : (run w callerDepth calleeDepth withLocalLinks agent s).1 = .ok t)
    (v : View) : (t.side v).visits.Splits (t.expanded s.contents w callerDepth calleeDepth agent v) := by
  rw [side_of_run w h v]
  exact Side.splits_after s.contents w rfl t.rounds

/-- Near-side traffic is booked once: the near-side entries are the stored reports of the view that an
expanded node covers and whose address is registered, and no far-side entry is one of these. In each slot
a link has the sums of the counters that are booked under it. An expanded node covers a report exactly if
the visits of the side do. -/
theorem own_traffic_booked_once
    (h : (run w callerDepth calleeDepth withLocalLinks agent s).1 = .ok t) (v : View) :
    Books w t.links v.direction (t.ledger s.contents w callerDepth calleeDepth agent v) ∧
      (∀ (k : LinkKey) (value : LinkValue), k.direction = v.direction → t.links[k]? = some value →
        value.Summarizes w
          (Posting.booked k (Posting.owns (t.ledger s.contents w callerDepth calleeDepth agent v)) ++
            Posting.booked k
              (Posting.peers (t.ledger s.contents w callerDepth calleeDepth agent v)))) ∧
      ((Posting.owns (t.ledger s.contents w callerDepth calleeDepth agent v)).map Prod.snd).Perm
        ((s.contents.observations v).filter fun o => w.range.covers o.time ∧
          (v.own o).ip ∈ s.contents.addresses o.agent w.range ∧
          ∃ e ∈ t.expanded s.contents w callerDepth calleeDepth agent v, admits e.1 ∅ o) ∧
      (∀ x ∈ Posting.peers (t.ledger s.contents w callerDepth calleeDepth agent v),
        x.2.direction = v.opposite.direction) ∧
      ∀ o, (t.side v).visits.Covers o ↔
        ∃ e ∈ t.expanded s.contents w callerDepth calleeDepth agent v, admits e.1 ∅ o := by
  refine ⟨books_of_run h v, fun _ _ hd hvalue => (books_of_run h v).summarizes hd hvalue, ?_, ?_,
    (splits_of_run h v).covers_iff⟩
  · have howns := (s.contents.owns_perm v w
      (t.expanded s.contents w callerDepth calleeDepth agent v)).map Prod.snd
    rw [List.map_map] at howns
    have hid : (Prod.snd ∘ fun p => (ownKey v (s.contents.reports v.opposite w.range) p, p)) =
        (id : Observation → Observation) := rfl
    rw [hid, List.map_id] at howns
    exact howns.trans (s.contents.flatMap_bound_perm v w (splits_of_run h v))
  · intro x hx
    obtain ⟨hmem, _⟩ := List.mem_filter.mp (s.contents.mem_of_mem_peers v w hx)
    exact Contents.mem_observations hmem

/-- A process is reached first, the whole of its agent rounds later. -/
def pidThenAgent : Storage := Sample.storage [address "S" 9, address "A" 1, address "C" 3]
  [report "S" 9 .outgoing (host 9, 40001) (host 1, 80) 10,
   report "A" 5 .incoming (host 9, 40001) (host 1, 80) 10,
   report "A" 5 .outgoing (host 1, 40002) (host 3, 80) 10,
   report "C" 3 .incoming (host 1, 40002) (host 3, 80) 10,
   report "C" 3 .outgoing (host 3, 40003) (host 1, 80) 10,
   report "A" unknownPid .incoming (host 3, 40003) (host 1, 80) 10]

/-- The link of the process that is part of both. -/
def processLink : LinkKey where
  src := linkEnd 1 40002 "A" 5
  dst := linkEnd 3 80 "C" 3
  transport := .tcp
  direction := .outgoing

/-- Each of the three links has the ten that either end sent. -/
theorem own_traffic_booked_once_pidThenAgent :
    ∃ t, (run window 0 10 false "S" pidThenAgent).1 = .ok t ∧
      (t.expanded pidThenAgent.contents window 0 10 "S" .callee).map (·.1) =
        [Node.ofAgent "S", Node.of "A" 5, Node.of "C" 3, Node.ofAgent "A"] ∧
      ((Posting.owns (t.ledger pidThenAgent.contents window 0 10 "S" .callee)).map Prod.snd).Perm
        ((pidThenAgent.contents.observations .callee).filter fun o => window.range.covers o.time ∧
          (View.callee.own o).ip ∈ pidThenAgent.contents.addresses o.agent window.range ∧
          ∃ e ∈ t.expanded pidThenAgent.contents window 0 10 "S" .callee, admits e.1 ∅ o) ∧
      (t.links.links.map fun l => (l.value.bucket 900).sent) = [20, 20, 20] ∧
      ∃ value : LinkValue, t.links[processLink]? = some value ∧ (value.bucket 900).sent = 20 ∧
        value.Summarizes window
          (Posting.booked processLink
              (Posting.owns (t.ledger pidThenAgent.contents window 0 10 "S" .callee)) ++
            Posting.booked processLink
              (Posting.peers (t.ledger pidThenAgent.contents window 0 10 "S" .callee))) := by
  have hrun : ((run window 0 10 false "S" pidThenAgent).1.toOption.map fun t =>
      (t.rounds, t.links.links.map fun l => (l.value.bucket 900).sent,
        t.links[processLink]?.map fun value => (value.bucket 900).sent)) =
      some (4, [20, 20, 20], some 20) := by decide +kernel
  obtain ⟨t, ht, hparts⟩ := except_toOption_map_eq_some hrun
  obtain ⟨hrounds, hsums, hlink⟩ : t.rounds = 4 ∧
      (t.links.links.map fun l => (l.value.bucket 900).sent) = [20, 20, 20] ∧
        (t.links[processLink]?.map fun value => (value.bucket 900).sent) = some 20 := by
    simpa only [Prod.mk.injEq] using hparts
  obtain ⟨value, hvalue, hsent⟩ := Option.map_eq_some_iff.mp hlink
  obtain ⟨_, hsummarizes, hbooked, _⟩ := own_traffic_booked_once ht .callee
  refine ⟨t, ht, ?_, hbooked, hsums, value, hvalue, hsent, hsummarizes _ _ rfl hvalue⟩
  rw [expanded, hrounds]
  decide +kernel

/-- Far-side traffic is booked once for each expansion that reports its socket. It is booked at most once
exactly if no two expansions report one socket. -/
theorem peer_traffic_booked_once_iff
    (h : (run w callerDepth calleeDepth withLocalLinks agent s).1 = .ok t) (v : View) :
    Books w t.links v.direction (t.ledger s.contents w callerDepth calleeDepth agent v) ∧
      (∀ q, ((Posting.peers (t.ledger s.contents w callerDepth calleeDepth agent v)).map
          Prod.snd).count q = (s.contents.reports v.opposite w.range).count q *
            s.contents.reporters v w (t.expanded s.contents w callerDepth calleeDepth agent v) q) ∧
      ((∀ q, ((Posting.peers (t.ledger s.contents w callerDepth calleeDepth agent v)).map
          Prod.snd).count q ≤ (s.contents.observations v.opposite).count q) ↔
        ∀ q ∈ s.contents.reports v.opposite w.range,
          s.contents.reporters v w (t.expanded s.contents w callerDepth calleeDepth agent v) q ≤ 1) := by
  have hcount := s.contents.count_peers v w (t.expanded s.contents w callerDepth calleeDepth agent v)
  refine ⟨books_of_run h v, hcount, ?_⟩
  have hstored : ∀ q ∈ s.contents.reports v.opposite w.range,
      (s.contents.reports v.opposite w.range).count q =
        (s.contents.observations v.opposite).count q := by
    intro q hq
    exact List.count_filter (List.mem_filter.mp hq).2
  constructor
  · intro hle q hq
    have hpos : 0 < (s.contents.reports v.opposite w.range).count q := List.count_pos_iff.mpr hq
    have hq' := hle q
    rw [ledger, hcount q, ← hstored q hq] at hq'
    exact Nat.le_of_mul_le_mul_left (by rwa [Nat.mul_one]) hpos
  · intro hone q
    rw [ledger, hcount q]
    by_cases hq : q ∈ s.contents.reports v.opposite w.range
    · rw [← hstored q hq]
      calc
        _ ≤ (s.contents.reports v.opposite w.range).count q * 1 :=
          Nat.mul_le_mul_left _ (hone q hq)
        _ = (s.contents.reports v.opposite w.range).count q := Nat.mul_one _
    · rw [List.count_eq_zero.mpr hq, Nat.zero_mul]
      exact Nat.zero_le _

theorem peer_traffic_booked_once_pidThenAgent :
    ∃ t, (run window 0 10 false "S" pidThenAgent).1 = .ok t ∧
      ∀ q, ((Posting.peers (t.ledger pidThenAgent.contents window 0 10 "S" .callee)).map
        Prod.snd).count q ≤ (pidThenAgent.contents.observations .caller).count q := by
  have hrun : ((run window 0 10 false "S" pidThenAgent).1.toOption.map (·.rounds)) = some 4 := by
    decide +kernel
  obtain ⟨t, ht, hrounds⟩ := except_toOption_map_eq_some hrun
  refine ⟨t, ht, (peer_traffic_booked_once_iff ht .callee).2.2.mpr ?_⟩
  rw [expanded, hrounds]
  decide +kernel

/-- Two processes of one agent report the same socket and are expanded one by one. -/
def sharedSocket : Storage := Sample.storage [address "S" 9, address "A" 1]
  [report "S" 9 .outgoing (host 9, 40001) (host 1, 80) 1,
   report "A" 1 .incoming (host 9, 40001) (host 1, 80) 1,
   report "S" 9 .outgoing (host 9, 40002) (host 1, 80) 1,
   report "A" 2 .incoming (host 9, 40002) (host 1, 80) 1,
   report "A" 1 .outgoing (host 1, 50000) (host 2, 443) 10,
   report "A" 2 .outgoing (host 1, 50000) (host 2, 443) 20,
   report "B" 7 .incoming (host 1, 50000) (host 2, 443) 100]

def sharedLink (pid : Int32) : LinkKey where
  src := linkEnd 1 50000 "A" pid
  dst := linkEnd 2 443 "B" 7
  transport := .tcp
  direction := .outgoing

/-- The one stored report of 100 sent is part of both links. -/
theorem peer_traffic_booked_twice :
    ∃ t, (run window 0 1 false "S" sharedSocket).1 = .ok t ∧
      (t.links[sharedLink 1]?.map fun value => value.total.sent) = some 110 ∧
      (t.links[sharedLink 2]?.map fun value => value.total.sent) = some 120 ∧
      ¬ ∀ q, ((Posting.peers (t.ledger sharedSocket.contents window 0 1 "S" .callee)).map
        Prod.snd).count q ≤ (sharedSocket.contents.observations .caller).count q := by
  have hrun : ((run window 0 1 false "S" sharedSocket).1.toOption.map fun t =>
      (t.rounds, t.links[sharedLink 1]?.map fun value => value.total.sent,
        t.links[sharedLink 2]?.map fun value => value.total.sent)) =
      some (3, some 110, some 120) := by decide +kernel
  obtain ⟨t, ht, hparts⟩ := except_toOption_map_eq_some hrun
  obtain ⟨hrounds, hfirst, hsecond⟩ :
      t.rounds = 3 ∧ (t.links[sharedLink 1]?.map fun value => value.total.sent) = some 110 ∧
        (t.links[sharedLink 2]?.map fun value => value.total.sent) = some 120 := by
    simpa only [Prod.mk.injEq] using hparts
  refine ⟨t, ht, hfirst, hsecond, fun hle => ?_⟩
  rw [ledger, expanded, hrounds] at hle
  have hnone : ¬ ∀ q ∈ sharedSocket.contents.observations .caller,
      ((Posting.peers (((Side.ofSeed .callee 1 "S").expansions sharedSocket.contents window 3).flatMap
        (sharedSocket.contents.postingsOf .callee window.range))).map Prod.snd).count q ≤
          (sharedSocket.contents.observations .caller).count q := by decide +kernel
  exact hnone fun q _ => hle q

end Traversal

end NetAtlas

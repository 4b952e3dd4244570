import NetAtlas.Atlas.Traversal
import NetAtlas.Proofs.Atlas.Attribution
import NetAtlas.Proofs.Storage.Observations

set_option autoImplicit false

/-!
# The ledger of an expansion

A node is expanded at all addresses of its agent. What that books does not depend on the address an
observation is found under: each report of the node goes under the link with the first stored match,
each stored report of the other side that matches one of them under the link with the first of these.
-/
namespace NetAtlas

open Std

/-- A node to expand and the pids of its agent to leave out. -/
abbrev Expansion := Node × PidGroup

namespace Binding

theorem sameSocket_iff {p q : Observation} :
    sameSocket p q ↔ p.src = q.src ∧ p.dst = q.dst ∧ p.transport = q.transport := decide_eq_true_iff

theorem sameSocket_own {p q : Observation} (h : sameSocket p q) (v : View) : v.own p = v.own q := by
  obtain ⟨hs, hd, _⟩ := sameSocket_iff.mp h
  cases v with
  | caller => exact hd
  | callee => exact hs

theorem sameSocket_peer {p q : Observation} (h : sameSocket p q) (v : View) :
    v.peer p = v.peer q := by
  obtain ⟨hs, hd, _⟩ := sameSocket_iff.mp h
  cases v with
  | caller => exact hs
  | callee => exact hd

theorem links_congr {v : View} {answers answers' : List Observation} {p : Observation}
    (h : answers.filter (sameSocket p) = answers'.filter (sameSocket p)) (k : LinkKey) :
    Links v answers p k ↔ Links v answers' p k := by
  have hmem : ∀ q, (q ∈ answers ∧ sameSocket p q) ↔ (q ∈ answers' ∧ sameSocket p q) := by
    intro q
    rw [← List.mem_filter, h, List.mem_filter]
  constructor
  · rintro (⟨q, hq, hs, rfl⟩ | ⟨hnone, rfl⟩)
    · exact Or.inl ⟨q, ((hmem q).mp ⟨hq, hs⟩).1, hs, rfl⟩
    · exact Or.inr ⟨fun q hq hs => hnone q ((hmem q).mpr ⟨hq, hs⟩).1 hs, rfl⟩
  · rintro (⟨q, hq, hs, rfl⟩ | ⟨hnone, rfl⟩)
    · exact Or.inl ⟨q, ((hmem q).mpr ⟨hq, hs⟩).1, hs, rfl⟩
    · exact Or.inr ⟨fun q hq hs => hnone q ((hmem q).mp ⟨hq, hs⟩).1 hs, rfl⟩

theorem ownKey_congr {v : View} {answers answers' : List Observation} {p : Observation}
    (h : answers.filter (sameSocket p) = answers'.filter (sameSocket p)) :
    ownKey v answers p = ownKey v answers' p := by
  rw [ownKey, ownKey, ← List.head?_filter, ← List.head?_filter, h]

theorem mem_peerIps {v : View} {pending : List Observation} {p : Observation} (h : p ∈ pending) :
    (v.peer p).ip ∈ peerIps v pending := by
  rw [peerIps, ExtTreeSet.mem_toList, ExtTreeSet.mem_ofList]
  exact List.contains_iff_mem.mpr (List.mem_map_of_mem h)

theorem peerIps_nodup (v : View) (pending : List Observation) : (peerIps v pending).Nodup :=
  toList_nodup _

end Binding

namespace Contents

open Binding

/-- The reports an expansion finds at one address. -/
def pendingAt (c : Contents) (v : View) (range : TimeRange) (e : Expansion) (ip : Ip) :
    List Observation :=
  (c.found v ip range).filter (admits e.1 e.2)

def answersTo (c : Contents) (v : View) (range : TimeRange) (pending : List Observation) :
    List Observation :=
  (peerIps v pending).flatMap fun peer => c.found v.opposite peer range

def postingsAt (c : Contents) (v : View) (range : TimeRange) (e : Expansion) (ip : Ip) :
    List Posting :=
  postings v (c.pendingAt v range e ip) (c.answersTo v range (c.pendingAt v range e ip))

def postingsOf (c : Contents) (v : View) (range : TimeRange) (e : Expansion) : List Posting :=
  (c.addresses e.1.agent range).toList.flatMap (c.postingsAt v range e)

/-- The reports an expansion finds at all addresses of its agent. -/
def bound (c : Contents) (v : View) (range : TimeRange) (e : Expansion) : List Observation :=
  (c.reports v range).filter fun p =>
    admits e.1 e.2 p ∧ (v.own p).ip ∈ c.addresses e.1.agent range

variable (c : Contents) (v : View) (range : TimeRange)

theorem pendingAt_eq (e : Expansion) (ip : Ip) :
    c.pendingAt v range e ip =
      (c.reports v range).filter fun p => (v.own p).ip = ip ∧ admits e.1 e.2 p := by
  rw [pendingAt, found, List.filter_filter]
  apply List.filter_congr
  intro p _
  rw [Bool.and_comm, Bool.decide_and, Bool.decide_eq_true]

/-- The answers that match a report are found under its peer address, all of them. -/
theorem answersTo_filter {pending : List Observation} {p : Observation} (hp : p ∈ pending) :
    (c.answersTo v range pending).filter (sameSocket p) =
      (c.reports v.opposite range).filter (sameSocket p) := by
  have helse : ∀ peer ∈ peerIps v pending, peer ≠ (v.peer p).ip →
      (c.found v.opposite peer range).filter (sameSocket p) = [] := by
    intro peer _ hne
    apply List.filter_eq_nil_iff.mpr
    intro q hq hs
    obtain ⟨_, hip⟩ := List.mem_filter.mp hq
    have hip : (v.opposite.own q).ip = peer := of_decide_eq_true hip
    rw [View.own_opposite, ← sameSocket_peer hs v] at hip
    exact hne hip.symm
  rw [answersTo, List.filter_flatMap,
    flatMap_eq_of_ne (v.peer p).ip (peerIps_nodup v pending) helse, if_pos (mem_peerIps hp), found,
    List.filter_filter]
  apply List.filter_congr
  intro q _
  cases hs : sameSocket p q with
  | false => rfl
  | true =>
    rw [View.own_opposite, ← sameSocket_peer hs v, decide_eq_true rfl]
    rfl

/-- Every address finds the reports that have it as their own. -/
theorem flatMap_pendingAt_perm (e : Expansion) :
    ((c.addresses e.1.agent range).toList.flatMap (c.pendingAt v range e)).Perm
      (c.bound v range e) := by
  have hperm := flatMap_filter_perm (fun ip p => decide ((v.own p).ip = ip ∧ admits e.1 e.2 p))
    (c.addresses e.1.agent range).toList (c.reports v range)
    ((toList_nodup _).imp fun hne p _ ⟨ha, hb⟩ =>
      hne ((of_decide_eq_true ha).1.symm.trans (of_decide_eq_true hb).1))
  have hat : (c.pendingAt v range e) = fun ip =>
      (c.reports v range).filter fun p => (v.own p).ip = ip ∧ admits e.1 e.2 p := by
    funext ip
    exact c.pendingAt_eq v range e ip
  rw [hat]
  refine hperm.trans (List.Perm.of_eq ?_)
  apply List.filter_congr
  intro p _
  rw [Bool.eq_iff_iff, List.any_eq_true, decide_eq_true_iff]
  constructor
  · rintro ⟨ip, hip, h⟩
    obtain ⟨rfl, hadm⟩ := of_decide_eq_true h
    exact ⟨hadm, ExtTreeSet.mem_toList.mp hip⟩
  · rintro ⟨hadm, hip⟩
    exact ⟨(v.own p).ip, ExtTreeSet.mem_toList.mpr hip, decide_eq_true ⟨rfl, hadm⟩⟩

theorem mem_keys_postingsOf {e : Expansion} {k : LinkKey} :
    k ∈ (c.postingsOf v range e).map Posting.key ↔
      ∃ p ∈ c.bound v range e, Links v (c.reports v.opposite range) p k := by
  rw [postingsOf, List.map_flatMap, List.mem_flatMap]
  constructor
  · rintro ⟨ip, hip, hk⟩
    obtain ⟨p, hp, hl⟩ := mem_keys_postings.mp hk
    rw [links_congr (c.answersTo_filter v range hp)] at hl
    exact ⟨p, (c.flatMap_pendingAt_perm v range e).mem_iff.mp
      (List.mem_flatMap.mpr ⟨ip, hip, hp⟩), hl⟩
  · rintro ⟨p, hp, hl⟩
    obtain ⟨ip, hip, hp⟩ :=
      List.mem_flatMap.mp ((c.flatMap_pendingAt_perm v range e).mem_iff.mpr hp)
    rw [← links_congr (c.answersTo_filter v range hp)] at hl
    exact ⟨ip, hip, mem_keys_postings.mpr ⟨p, hp, hl⟩⟩

theorem owns_postingsOf_perm (e : Expansion) :
    (Posting.owns (c.postingsOf v range e)).Perm
      ((c.bound v range e).map fun p => (ownKey v (c.reports v.opposite range) p, p)) := by
  rw [postingsOf, Posting.owns, List.flatMap_assoc]
  have hat : ∀ ip ∈ (c.addresses e.1.agent range).toList,
      (Posting.owns (c.postingsAt v range e ip)).Perm ((c.pendingAt v range e ip).map fun p =>
        (ownKey v (c.reports v.opposite range) p, p)) := by
    intro ip _
    refine (owns_postings_perm v _ _).trans (List.Perm.of_eq ?_)
    apply List.map_congr_left
    intro p hp
    rw [ownKey_congr (c.answersTo_filter v range hp)]
  refine (List.Perm.flatMap_left _ hat).trans ?_
  rw [← List.map_flatMap]
  exact (c.flatMap_pendingAt_perm v range e).map _

/-- What one address books of the far side: answers no report matches come to nothing. -/
theorem peers_postingsAt_perm (e : Expansion) (ip : Ip) :
    (Posting.peers (c.postingsAt v range e ip)).Perm
      ((c.reports v.opposite range).flatMap fun q =>
        ((c.pendingAt v range e ip).find? (sameSocket · q)).toList.map fun p =>
          (linkKey v p (some q.node), q)) := by
  rw [postingsAt, peers_postings]
  have hanswers := flatMap_filter_perm (fun peer q => decide ((v.opposite.own q).ip = peer))
    (peerIps v (c.pendingAt v range e ip)) (c.reports v.opposite range)
    ((peerIps_nodup v _).imp fun hne q _ ⟨ha, hb⟩ =>
      hne ((of_decide_eq_true ha).symm.trans (of_decide_eq_true hb)))
  refine (List.Perm.flatMap_right _ hanswers).trans (List.Perm.of_eq ?_)
  rw [flatMap_filter]
  apply List.flatMap_congr
  intro q _
  split
  · rfl
  · next hnone =>
    have hfind : (c.pendingAt v range e ip).find? (sameSocket · q) = none := by
      apply List.find?_eq_none.mpr
      intro p hp hs
      apply hnone
      apply List.any_eq_true.mpr
      refine ⟨(v.peer p).ip, mem_peerIps hp, decide_eq_true ?_⟩
      rw [View.own_opposite, sameSocket_peer hs v]
    rw [hfind]
    rfl

theorem peers_postingsOf_perm (e : Expansion) :
    (Posting.peers (c.postingsOf v range e)).Perm
      ((c.reports v.opposite range).flatMap fun q =>
        ((c.bound v range e).find? (sameSocket · q)).toList.map fun p =>
          (linkKey v p (some q.node), q)) := by
  rw [postingsOf, Posting.peers, List.flatMap_assoc]
  refine (List.Perm.flatMap_left _ fun ip _ => c.peers_postingsAt_perm v range e ip).trans ?_
  refine (flatMap_comm_perm _ _ _).trans (List.Perm.of_eq ?_)
  apply List.flatMap_congr
  intro q _
  have helse : ∀ ip ∈ (c.addresses e.1.agent range).toList, ip ≠ (v.own q).ip →
      (((c.pendingAt v range e ip).find? (sameSocket · q)).toList.map fun p =>
        (linkKey v p (some q.node), q)) = [] := by
    intro ip _ hne
    rw [List.find?_eq_none.mpr]
    · rfl
    · intro p hp hs
      rw [pendingAt_eq] at hp
      obtain ⟨hip, _⟩ := of_decide_eq_true (List.mem_filter.mp hp).2
      rw [sameSocket_own hs v] at hip
      exact hne hip.symm
  rw [flatMap_eq_of_ne (v.own q).ip (toList_nodup _) helse, pendingAt_eq, bound,
    List.find?_filter, List.find?_filter]
  by_cases hip : (v.own q).ip ∈ (c.addresses e.1.agent range).toList
  · rw [if_pos hip]
    have hsame : (fun p => decide ((decide ((v.own p).ip = (v.own q).ip ∧ admits e.1 e.2 p)) = true ∧
        sameSocket p q = true)) = fun p => decide ((decide (admits e.1 e.2 p ∧
        (v.own p).ip ∈ c.addresses e.1.agent range)) = true ∧ sameSocket p q = true) := by
      funext p
      rw [Bool.eq_iff_iff]
      simp only [decide_eq_true_iff]
      constructor
      · rintro ⟨⟨_, hadm⟩, hs⟩
        rw [sameSocket_own hs v]
        exact ⟨⟨hadm, ExtTreeSet.mem_toList.mp hip⟩, hs⟩
      · rintro ⟨⟨hadm, _⟩, hs⟩
        rw [sameSocket_own hs v]
        exact ⟨⟨rfl, hadm⟩, hs⟩
    rw [hsame]
  · rw [if_neg hip, List.find?_eq_none.mpr]
    · rfl
    · intro p _ h
      obtain ⟨h, hs⟩ := of_decide_eq_true h
      obtain ⟨_, hmem⟩ := of_decide_eq_true h
      rw [sameSocket_own hs v] at hmem
      exact hip (ExtTreeSet.mem_toList.mpr hmem)

end Contents

end NetAtlas

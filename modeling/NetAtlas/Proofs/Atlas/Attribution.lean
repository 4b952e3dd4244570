import NetAtlas.Atlas.Binding
import NetAtlas.Proofs.Bags
import NetAtlas.Proofs.Link.Posting

set_option autoImplicit false

/-!
# Attribution of traffic

Joining one side's reports with the other side's answers makes a ledger with one posting for each
matching pair and one for each report without match. A report is booked once, under the link with its
first match; an answer is booked once if any report matches it, under the link with the first.
-/
namespace NetAtlas

namespace Binding

def postings (v : View) (pending answers : List Observation) : List Posting :=
  (answers.zipIdx.flatMap fun (q, j) =>
    (pending.zipIdx.filter fun (p, _) => sameSocket p q).map fun (p, i) => {
      key := linkKey v p (some q.node)
      own := if answers.findIdx (sameSocket p) = j then [p] else []
      peer := if pending.findIdx (sameSocket · q) = i then [q] else [] }) ++
  (unanswered pending answers).map fun p => ⟨linkKey v p none, [p], []⟩

/-- The link a report is booked under. -/
def ownKey (v : View) (answers : List Observation) (p : Observation) : LinkKey :=
  linkKey v p ((answers.find? (sameSocket p)).map (·.node))

/-- The links a report is part of. -/
def Links (v : View) (answers : List Observation) (p : Observation) (k : LinkKey) : Prop :=
  (∃ q ∈ answers, sameSocket p q ∧ k = linkKey v p (some q.node)) ∨
    (∀ q ∈ answers, ¬ sameSocket p q) ∧ k = linkKey v p none

theorem join_eq_ofPostings (w : Window) (v : View) (pending answers : List Observation) :
    join w v pending answers = LinkMap.ofPostings w (postings v pending answers) := by
  rw [join, LinkMap.ofPostings, postings, pairs]
  congr 1
  rw [List.map_append, List.map_flatMap, List.map_flatMap, List.map_map]
  congr 1
  apply List.flatMap_congr
  rintro ⟨q, j⟩ _
  rw [List.map_map, List.map_map]
  rfl

theorem mem_keys_postings {v : View} {pending answers : List Observation} {k : LinkKey} :
    k ∈ (postings v pending answers).map Posting.key ↔ ∃ p ∈ pending, Links v answers p k := by
  rw [postings, List.map_append, List.mem_append, List.map_flatMap, List.mem_flatMap]
  constructor
  · rintro (⟨⟨q, j⟩, hq, hk⟩ | hk)
    · rw [List.map_map] at hk
      obtain ⟨⟨p, i⟩, hp, rfl⟩ := List.mem_map.mp hk
      obtain ⟨hp, hs⟩ := List.mem_filter.mp hp
      exact ⟨p, List.fst_mem_of_mem_zipIdx hp,
        Or.inl ⟨q, List.fst_mem_of_mem_zipIdx hq, hs, rfl⟩⟩
    · rw [List.map_map] at hk
      obtain ⟨p, hp, rfl⟩ := List.mem_map.mp hk
      obtain ⟨hp, hnone⟩ := List.mem_filter.mp hp
      refine ⟨p, hp, Or.inr ⟨fun q hq hs => ?_, rfl⟩⟩
      have := List.all_eq_true.mp hnone q hq
      rw [hs] at this
      exact Bool.false_ne_true this
  · rintro ⟨p, hp, ⟨q, hq, hs, rfl⟩ | ⟨hnone, rfl⟩⟩
    · left
      obtain ⟨i, hp⟩ := exists_mem_zipIdx hp
      obtain ⟨j, hq⟩ := exists_mem_zipIdx hq
      refine ⟨(q, j), hq, ?_⟩
      rw [List.map_map]
      exact List.mem_map.mpr ⟨(p, i), List.mem_filter.mpr ⟨hp, hs⟩, rfl⟩
    · right
      rw [List.map_map]
      refine List.mem_map.mpr ⟨p, List.mem_filter.mpr ⟨hp, ?_⟩, rfl⟩
      apply List.all_eq_true.mpr
      intro q hq
      rw [Bool.eq_false_iff.mpr (hnone q hq)]
      rfl

theorem answered_or_unanswered (answers : List Observation) (p : Observation) :
    (answers.all fun q => !sameSocket p q) = (answers.find? (sameSocket p)).isNone := by
  rw [Bool.eq_iff_iff, List.all_eq_true, Option.isNone_iff_eq_none, List.find?_eq_none]
  simp only [Bool.not_eq_true', Bool.not_eq_true]

/-- Every report is booked once, under the link with its first match. -/
theorem owns_postings_perm (v : View) (pending answers : List Observation) :
    (Posting.owns (postings v pending answers)).Perm
      (pending.map fun p => (ownKey v answers p, p)) := by
  have hpairs : Posting.owns (answers.zipIdx.flatMap fun (q, j) =>
      (pending.zipIdx.filter fun (p, _) => sameSocket p q).map fun (p, i) =>
        (⟨linkKey v p (some q.node), if answers.findIdx (sameSocket p) = j then [p] else [],
          if pending.findIdx (sameSocket · q) = i then [q] else []⟩ : Posting)) =
      answers.zipIdx.flatMap fun x => pending.flatMap fun p =>
        if sameSocket p x.1 ∧ answers.findIdx (sameSocket p) + 0 = x.2 then
          [(linkKey v p (some x.1.node), p)] else [] := by
    rw [Posting.owns, List.flatMap_assoc]
    apply List.flatMap_congr
    rintro ⟨q, j⟩ _
    rw [List.flatMap_map, flatMap_filter, ← flatMap_zipIdx _ pending]
    apply List.flatMap_congr
    rintro ⟨p, i⟩ _
    by_cases hs : sameSocket p q = true
    · by_cases hj : answers.findIdx (sameSocket p) = j
      · simp only [hs, hj, Nat.add_zero, and_self, if_true, List.map_cons, List.map_nil]
      · simp only [hs, hj, Nat.add_zero, and_false, if_true, if_false, List.map_nil]
    · rw [if_neg hs, if_neg fun h => hs h.1]
  have hbare : Posting.owns ((unanswered pending answers).map fun p =>
      (⟨linkKey v p none, [p], []⟩ : Posting)) =
      pending.flatMap fun p =>
        if answers.all fun q => !sameSocket p q then [(linkKey v p none, p)] else [] := by
    rw [Posting.owns, List.flatMap_map, unanswered, flatMap_filter]
    rfl
  rw [postings, Posting.owns_append, hpairs, hbare, List.map_eq_flatMap]
  refine ((flatMap_comm_perm _ _ _).append_right _).trans ?_
  refine (List.flatMap_append_perm _ _ _).trans ?_
  apply List.Perm.of_eq
  apply List.flatMap_congr
  intro p _
  rw [flatMap_zipIdx_first (sameSocket p) fun q => [(linkKey v p (some q.node), p)],
    answered_or_unanswered, ownKey]
  cases answers.find? (sameSocket p) with
  | none => rfl
  | some q => rfl

/-- Every answer that a report matches is booked once, under the link with the first such report. -/
theorem peers_postings (v : View) (pending answers : List Observation) :
    Posting.peers (postings v pending answers) =
      answers.flatMap fun q => (pending.find? (sameSocket · q)).toList.map fun p =>
        (linkKey v p (some q.node), q) := by
  have hbare : Posting.peers ((unanswered pending answers).map fun p =>
      (⟨linkKey v p none, [p], []⟩ : Posting)) = [] := by
    rw [Posting.peers, List.flatMap_map]
    exact List.flatMap_eq_nil_iff.mpr fun _ _ => rfl
  rw [postings, Posting.peers_append, hbare, List.append_nil, Posting.peers, List.flatMap_assoc,
    ← flatMap_zipIdx _ answers]
  apply List.flatMap_congr
  rintro ⟨q, j⟩ _
  rw [List.flatMap_map, flatMap_filter, List.map_eq_flatMap,
    ← flatMap_zipIdx_first (sameSocket · q) _ pending 0]
  apply List.flatMap_congr
  rintro ⟨p, i⟩ _
  by_cases hs : sameSocket p q = true
  · by_cases hi : pending.findIdx (sameSocket · q) = i
    · simp only [hs, hi, Nat.add_zero, and_self, if_true, List.map_cons, List.map_nil]
    · simp only [hs, hi, Nat.add_zero, and_false, if_true, if_false, List.map_nil]
  · rw [if_neg hs, if_neg fun h => hs h.1]

end Binding

end NetAtlas

import NetAtlas.Proofs.Link.Merging

set_option autoImplicit false

/-!
# Postings

A link map can be read as a ledger. A posting books observations under a link: those of the side that
was looked up first and those of the far side. The value of a link is that of all observations booked
under it, so two ledgers that book the same make the same links.
-/
namespace NetAtlas

open Std

structure Posting where
  key : LinkKey
  own : List Observation
  peer : List Observation

namespace Posting

def carried (x : Posting) : List Observation := x.own ++ x.peer

/-- The observations of the near side, each with the link it is booked under. -/
def owns (ps : List Posting) : List (LinkKey × Observation) :=
  ps.flatMap fun x => x.own.map (Prod.mk x.key)

/-- The same for the far side. -/
def peers (ps : List Posting) : List (LinkKey × Observation) :=
  ps.flatMap fun x => x.peer.map (Prod.mk x.key)

/-- What is booked under one link. -/
def booked (k : LinkKey) (entries : List (LinkKey × Observation)) : List Observation :=
  (entries.filter fun e => e.1 = k).map (·.2)

theorem owns_append (ps qs : List Posting) : owns (ps ++ qs) = owns ps ++ owns qs :=
  List.flatMap_append

theorem peers_append (ps qs : List Posting) : peers (ps ++ qs) = peers ps ++ peers qs :=
  List.flatMap_append

theorem booked_append (k : LinkKey) (es fs : List (LinkKey × Observation)) :
    booked k (es ++ fs) = booked k es ++ booked k fs := by
  rw [booked, List.filter_append, List.map_append, booked, booked]

theorem booked_perm (k : LinkKey) {es fs : List (LinkKey × Observation)} (h : es.Perm fs) :
    (booked k es).Perm (booked k fs) := (h.filter _).map _

theorem booked_map_of_eq {k l : LinkKey} (os : List Observation) (h : l = k) :
    booked k (os.map (Prod.mk l)) = os := by
  induction os with
  | nil => rfl
  | cons o os ih =>
    rw [booked] at ih ⊢
    rw [List.map_cons, List.filter_cons, if_pos (decide_eq_true h), List.map_cons, ih]

theorem booked_map_of_ne {k l : LinkKey} (os : List Observation) (h : l ≠ k) :
    booked k (os.map (Prod.mk l)) = [] := by
  induction os with
  | nil => rfl
  | cons o os ih =>
    rw [booked] at ih ⊢
    rw [List.map_cons, List.filter_cons, if_neg fun hd => h (of_decide_eq_true hd), ih]

theorem booked_map_pair (k : LinkKey) (f : Observation → LinkKey) (os : List Observation) :
    booked k (os.map fun o => (f o, o)) = os.filter fun o => f o = k := by
  rw [booked, List.filter_map, List.map_map]
  exact List.map_id _

theorem booked_flatMap {α : Type} (k : LinkKey) (f : α → List (LinkKey × Observation))
    (xs : List α) : booked k (xs.flatMap f) = xs.flatMap fun x => booked k (f x) := by
  rw [booked, List.filter_flatMap, List.map_flatMap]
  rfl

theorem mem_booked {k : LinkKey} {es : List (LinkKey × Observation)} {o : Observation} :
    o ∈ booked k es ↔ (k, o) ∈ es := by
  rw [booked, List.mem_map]
  constructor
  · rintro ⟨⟨l, p⟩, he, rfl⟩
    obtain ⟨he, hk⟩ := List.mem_filter.mp he
    have hl : l = k := of_decide_eq_true hk
    exact hl ▸ he
  · intro he
    exact ⟨(k, o), List.mem_filter.mpr ⟨he, decide_eq_true rfl⟩, rfl⟩

theorem owns_singleton (x : Posting) : owns [x] = x.own.map (Prod.mk x.key) := by
  rw [owns, List.flatMap_singleton]

theorem peers_singleton (x : Posting) : peers [x] = x.peer.map (Prod.mk x.key) := by
  rw [peers, List.flatMap_singleton]

theorem key_mem_of_mem_owns {ps : List Posting} {e : LinkKey × Observation} (h : e ∈ owns ps) :
    e.1 ∈ ps.map key := by
  obtain ⟨x, hx, he⟩ := List.mem_flatMap.mp h
  obtain ⟨o, _, rfl⟩ := List.mem_map.mp he
  exact List.mem_map_of_mem hx

theorem key_mem_of_mem_peers {ps : List Posting} {e : LinkKey × Observation} (h : e ∈ peers ps) :
    e.1 ∈ ps.map key := by
  obtain ⟨x, hx, he⟩ := List.mem_flatMap.mp h
  obtain ⟨o, _, rfl⟩ := List.mem_map.mp he
  exact List.mem_map_of_mem hx

theorem booked_owns_eq_nil {ps : List Posting} {k : LinkKey} (h : k ∉ ps.map key) :
    booked k (owns ps) = [] :=
  List.eq_nil_iff_forall_not_mem.mpr fun _ ho => h (key_mem_of_mem_owns (mem_booked.mp ho))

theorem booked_peers_eq_nil {ps : List Posting} {k : LinkKey} (h : k ∉ ps.map key) :
    booked k (peers ps) = [] :=
  List.eq_nil_iff_forall_not_mem.mpr fun _ ho => h (key_mem_of_mem_peers (mem_booked.mp ho))

end Posting

namespace LinkMap

def ofPostings (w : Window) (ps : List Posting) : LinkMap :=
  ofList (ps.map fun x => (x.key, LinkValue.ofObservations w x.carried))

/-- The value of a link after more of its traffic is found. -/
def gain (old : Option LinkValue) (value : LinkValue) : LinkValue :=
  match old with
  | none => value
  | some v => v.merge value

theorem getElem?_add (m : LinkMap) (key k : LinkKey) (value : LinkValue) :
    (m.add key value)[k]? = if key = k then some (gain m[k]? value) else m[k]? := by
  rw [add, ExtTreeMap.getElem?_alter]
  by_cases h : key = k
  · subst h
    rw [if_pos ReflCmp.compare_self, if_pos rfl]
    rfl
  · rw [if_neg fun hc => h (LawfulEqCmp.eq_of_compare hc), if_neg h]

theorem getElem?_merge (m n : LinkMap) (k : LinkKey) :
    (m.merge n)[k]? =
      match n[k]? with
      | none => m[k]?
      | some value => some (gain m[k]? value) := by
  have h := getElem?_foldl_alter (fun (value : LinkValue) old => some (gain old value)) m n k
  change (n.foldl add m)[k]? = _ at h
  rw [merge, h]
  cases n[k]? with
  | none => rfl
  | some value => rfl

theorem mem_merge {m n : LinkMap} {k : LinkKey} : k ∈ m.merge n ↔ k ∈ m ∨ k ∈ n := by
  rw [Std.ExtTreeMap.mem_iff_isSome_getElem?, Std.ExtTreeMap.mem_iff_isSome_getElem?,
    Std.ExtTreeMap.mem_iff_isSome_getElem?, getElem?_merge]
  cases n[k]? with
  | none => exact (or_iff_left Bool.false_ne_true).symm
  | some value => exact ⟨fun _ => Or.inr rfl, fun _ => rfl⟩

theorem mem_links {m : LinkMap} {l : Link} : l ∈ m.links ↔ m[l.key]? = some l.value := by
  rw [← ExtTreeMap.mem_toList_iff_getElem?_eq_some, links, List.mem_map]
  constructor
  · rintro ⟨_, hmem, rfl⟩
    exact hmem
  · exact fun hmem => ⟨(l.key, l.value), hmem, rfl⟩

theorem exists_mem_links {m : LinkMap} {k : LinkKey} : (∃ l ∈ m.links, l.key = k) ↔ k ∈ m := by
  rw [ExtTreeMap.mem_iff_isSome_getElem?, Option.isSome_iff_exists]
  constructor
  · rintro ⟨l, hl, rfl⟩
    exact ⟨l.value, mem_links.mp hl⟩
  · rintro ⟨value, hvalue⟩
    exact ⟨⟨k, value⟩, mem_links.mpr hvalue, rfl⟩

theorem ofPostings_concat (w : Window) (ps : List Posting) (x : Posting) :
    ofPostings w (ps ++ [x]) =
      (ofPostings w ps).add x.key (LinkValue.ofObservations w x.carried) := by
  simp only [ofPostings, ofList, List.map_append, List.foldl_append, List.map_cons, List.map_nil,
    List.foldl_cons, List.foldl_nil]

/-- The value of a link is that of what is booked under it. -/
theorem getElem?_ofPostings (w : Window) (ps : List Posting) (k : LinkKey) :
    (ofPostings w ps)[k]? =
      if k ∈ ps.map Posting.key then
        some (LinkValue.ofObservations w
          (Posting.booked k (Posting.owns ps) ++ Posting.booked k (Posting.peers ps)))
      else none := by
  induction ps using List.reverseRecOn with
  | nil => exact ExtTreeMap.getElem?_empty
  | append_singleton ps x ih =>
    rw [ofPostings_concat, getElem?_add, ih, Posting.owns_append, Posting.peers_append,
      Posting.booked_append, Posting.booked_append, Posting.owns_singleton,
      Posting.peers_singleton, List.map_append, List.map_singleton]
    by_cases hx : x.key = k
    · rw [if_pos hx, if_pos (List.mem_append_right _ (List.mem_singleton.mpr hx.symm)),
        Posting.booked_map_of_eq _ hx, Posting.booked_map_of_eq _ hx]
      apply congrArg some
      by_cases hk : k ∈ ps.map Posting.key
      · rw [if_pos hk]
        change LinkValue.merge _ _ = _
        rw [← LinkValue.ofObservations_append]
        apply LinkValue.ofObservations_perm
        rw [Posting.carried, List.append_assoc, List.append_assoc]
        apply List.Perm.append_left
        rw [← List.append_assoc, ← List.append_assoc]
        exact List.perm_append_comm.append_right _
      · rw [if_neg hk, Posting.booked_owns_eq_nil hk, Posting.booked_peers_eq_nil hk]
        rfl
    · rw [if_neg hx, Posting.booked_map_of_ne _ hx, Posting.booked_map_of_ne _ hx,
        List.append_nil, List.append_nil]
      have hmem : k ∈ ps.map Posting.key ++ [x.key] ↔ k ∈ ps.map Posting.key := by
        rw [List.mem_append, List.mem_singleton]
        exact or_iff_left fun h => hx h.symm
      simp only [hmem]

theorem mem_ofPostings {w : Window} {ps : List Posting} {k : LinkKey} :
    k ∈ ofPostings w ps ↔ k ∈ ps.map Posting.key := by
  rw [ExtTreeMap.mem_iff_isSome_getElem?, getElem?_ofPostings]
  by_cases h : k ∈ ps.map Posting.key
  · rw [if_pos h]
    exact ⟨fun _ => h, fun _ => rfl⟩
  · rw [if_neg h]
    exact ⟨fun hn => absurd hn Bool.false_ne_true, fun hk => absurd hk h⟩

/-- Ledgers are merged by booking the one after the other. -/
theorem ofPostings_append (w : Window) (ps qs : List Posting) :
    ofPostings w (ps ++ qs) = (ofPostings w ps).merge (ofPostings w qs) := by
  apply ExtTreeMap.ext_getElem?
  intro k
  rw [getElem?_merge, getElem?_ofPostings, getElem?_ofPostings, getElem?_ofPostings,
    List.map_append, Posting.owns_append, Posting.peers_append, Posting.booked_append,
    Posting.booked_append]
  by_cases hq : k ∈ qs.map Posting.key
  · rw [if_pos (List.mem_append_right _ hq), if_pos hq]
    apply congrArg some
    by_cases hp : k ∈ ps.map Posting.key
    · rw [if_pos hp]
      change _ = LinkValue.merge _ _
      rw [← LinkValue.ofObservations_append]
      apply LinkValue.ofObservations_perm
      rw [List.append_assoc, List.append_assoc]
      apply List.Perm.append_left
      rw [← List.append_assoc, ← List.append_assoc]
      exact List.perm_append_comm.append_right _
    · rw [if_neg hp, Posting.booked_owns_eq_nil hp, Posting.booked_peers_eq_nil hp]
      rfl
  · have hmem : k ∈ ps.map Posting.key ++ qs.map Posting.key ↔ k ∈ ps.map Posting.key := by
      rw [List.mem_append]
      exact or_iff_left hq
    rw [if_neg hq, Posting.booked_owns_eq_nil hq, Posting.booked_peers_eq_nil hq, List.append_nil,
      List.append_nil]
    simp only [hmem]

theorem foldl_merge_ofPostings {α : Type} (w : Window) (ledger : α → List Posting) (xs : List α)
    (ps : List Posting) :
    (xs.map fun x => ofPostings w (ledger x)).foldl merge (ofPostings w ps) =
      ofPostings w (ps ++ xs.flatMap ledger) := by
  induction xs generalizing ps with
  | nil => rw [List.flatMap_nil, List.append_nil]; rfl
  | cons x xs ih =>
    rw [List.map_cons, List.foldl_cons, ← ofPostings_append, ih, List.flatMap_cons,
      List.append_assoc]

end LinkMap

end NetAtlas

import NetAtlas.Proofs.Atlas.Accounts

set_option autoImplicit false

/-!
# Mirrored links

A link found from both of its ends is in the result twice. Both carry the reports of its two processes
about the socket, unless one side bound this process's reports apart from those of a process that was
stored before it: the answers then follow the first report bound on the one side and the first report
stored on the other, and the two links differ.
-/
namespace NetAtlas

open Std

def LinkKey.about (k : LinkKey) (o : Observation) : Bool :=
  o.src = k.src.address ∧ o.dst = k.dst.address ∧ o.transport = k.transport

namespace Binding

/-- Of some reports about the socket of a link, the first is one of the near process. -/
def leads (v : View) (k : LinkKey) (os : List Observation) : Bool :=
  (os.find? k.about).map (·.node) = (nearEnd v k).node

theorem about_iff {k : LinkKey} {o : Observation} :
    k.about o ↔ o.src = k.src.address ∧ o.dst = k.dst.address ∧ o.transport = k.transport :=
  decide_eq_true_iff

theorem linkKey_eq_iff {v : View} {p : Observation} {peer : Option Node} {k : LinkKey}
    (hk : k.direction = v.direction) :
    linkKey v p peer = k ↔
      k.about p ∧ (nearEnd v k).node = some p.node ∧ (Side.farEnd v k).node = peer := by
  rw [about_iff]
  constructor
  · rintro rfl
    cases v with
    | caller => exact ⟨⟨rfl, rfl, rfl⟩, rfl, rfl⟩
    | callee => exact ⟨⟨rfl, rfl, rfl⟩, rfl, rfl⟩
  · obtain ⟨⟨srcAddress, srcNode⟩, ⟨dstAddress, dstNode⟩, transport, direction⟩ := k
    rintro ⟨⟨hs, hd, ht⟩, hnear, hfar⟩
    cases hs; cases hd; cases ht; cases hk
    cases v with
    | caller => cases hnear; cases hfar; rfl
    | callee => cases hnear; cases hfar; rfl

theorem nearEnd_opposite (v : View) (k : LinkKey) : nearEnd v.opposite k = Side.farEnd v k := by
  rw [nearEnd, View.opposite_opposite]

theorem sameSocket_eq_about {k : LinkKey} {p : Observation} (hp : k.about p) :
    sameSocket p = k.about := by
  obtain ⟨hs, hd, ht⟩ := about_iff.mp hp
  funext q
  rw [Bool.eq_iff_iff, sameSocket_iff, about_iff, hs, hd, ht]
  constructor
  · rintro ⟨h₁, h₂, h₃⟩
    exact ⟨h₁.symm, h₂.symm, h₃.symm⟩
  · rintro ⟨h₁, h₂, h₃⟩
    exact ⟨h₁.symm, h₂.symm, h₃.symm⟩

theorem sameSocket_eq_about' {k : LinkKey} {q : Observation} (hq : k.about q) :
    (sameSocket · q) = k.about := by
  obtain ⟨hs, hd, ht⟩ := about_iff.mp hq
  funext p
  rw [Bool.eq_iff_iff, sameSocket_iff, about_iff, hs, hd, ht]

theorem own_eq_of_about {k : LinkKey} {o p : Observation} (ho : k.about o) (hp : k.about p)
    (v : View) : v.own o = v.own p := by
  rw [← sameSocket_eq_about ho] at hp
  exact sameSocket_own hp v

/-- A report is booked under a link if it is one of the near process and the first answer is one of the
far process. -/
theorem ownKey_eq_iff {v : View} {answers : List Observation} {o : Observation} {k : LinkKey}
    (hk : k.direction = v.direction) :
    ownKey v answers o = k ↔
      (k.about o ∧ (nearEnd v k).node = some o.node) ∧ leads v.opposite k answers := by
  rw [ownKey, linkKey_eq_iff hk, leads, decide_eq_true_iff, nearEnd_opposite, ← and_assoc]
  apply and_congr_right
  rintro ⟨ho, _⟩
  rw [sameSocket_eq_about ho]
  exact eq_comm

/-- An answer is booked under a link if it is one of the far process and the first report bound is one
of the near process. -/
theorem booked_answer {v : View} {bound : List Observation} {q : Observation} {k : LinkKey} {n : Node}
    (hk : k.direction = v.direction) (hnear : (nearEnd v k).node = some n) :
    Posting.booked k ((bound.find? (sameSocket · q)).toList.map fun p =>
        (linkKey v p (some q.node), q)) =
      if leads v k bound then
        if k.about q ∧ (nearEnd v.opposite k).node = some q.node then [q] else [] else [] := by
  by_cases hq : k.about q = true
  · rw [sameSocket_eq_about' hq, leads]
    cases hfind : bound.find? k.about with
    | none =>
      have hnone : ¬ (Option.map (·.node) (none : Option Observation) = (nearEnd v k).node) := by
        rw [hnear]
        exact Option.some_ne_none n ∘ Eq.symm
      rw [decide_eq_false hnone]
      rfl
    | some p =>
      have hp : k.about p := List.find?_some hfind
      have hkey : linkKey v p (some q.node) = k ↔ _ := linkKey_eq_iff hk
      rw [nearEnd_opposite]
      by_cases hlead : some p.node = (nearEnd v k).node
      · rw [Option.map_some, decide_eq_true hlead, if_pos rfl]
        by_cases hfar : (Side.farEnd v k).node = some q.node
        · rw [if_pos ⟨hq, hfar⟩]
          exact Posting.booked_map_of_eq [q] (hkey.mpr ⟨hp, hlead.symm, hfar⟩)
        · rw [if_neg fun hc => hfar hc.2]
          exact Posting.booked_map_of_ne [q] fun he => hfar (hkey.mp he).2.2
      · rw [Option.map_some, decide_eq_false hlead]
        exact Posting.booked_map_of_ne [q] fun he => hlead (hkey.mp he).2.1.symm
  · -- an answer about another socket is matched by no report about that of the link
    have hinner : ¬ (k.about q ∧ (nearEnd v.opposite k).node = some q.node) := fun hc => hq hc.1
    rw [if_neg hinner, ite_self]
    cases hfind : bound.find? (sameSocket · q) with
    | none => rfl
    | some p =>
      have hs := List.find?_some hfind
      change sameSocket p q = true at hs
      apply Posting.booked_map_of_ne [q]
      intro he
      rw [sameSocket_eq_about ((linkKey_eq_iff hk).mp he).1] at hs
      exact hq hs

end Binding

namespace Contents

open Binding

variable (c : Contents) (v : View) (w : Window)

/-- The reports of a link's near process about its socket. -/
def named (k : LinkKey) : List Observation :=
  (c.reports v w.range).filter fun o => k.about o ∧ (nearEnd v k).node = some o.node

theorem mem_named {k : LinkKey} {o : Observation} :
    o ∈ c.named v w k ↔ o ∈ c.reports v w.range ∧ k.about o ∧ (nearEnd v k).node = some o.node := by
  rw [named, List.mem_filter, decide_eq_true_iff]

theorem flatMap_named (k : LinkKey) (wanted : Bool) :
    ((c.reports v w.range).flatMap fun o =>
      if wanted then if k.about o ∧ (nearEnd v k).node = some o.node then [o] else [] else []) =
      if wanted then c.named v w k else [] := by
  cases wanted with
  | false => exact List.flatMap_eq_nil_iff.mpr fun _ _ => rfl
  | true =>
    rw [if_pos rfl, named, ← flatMap_singleton_ite]
    apply List.flatMap_congr
    intro o _
    rw [if_pos rfl]
    by_cases ho : k.about o ∧ (nearEnd v k).node = some o.node
    · rw [if_pos ho, if_pos (decide_eq_true ho)]
    · rw [if_neg ho, if_neg fun hd => ho (of_decide_eq_true hd)]

/-- What one address books under a link of the near side: all it finds of its process, if the answers
stored start with one of the far process. -/
theorem booked_owns_postingsAt_perm {k : LinkKey} (hk : k.direction = v.direction) (e : Expansion)
    (ip : Ip) :
    (Posting.booked k (Posting.owns (c.postingsAt v w.range e ip))).Perm
      (if leads v.opposite k (c.reports v.opposite w.range) then
        (c.pendingAt v w.range e ip).filter fun o => k.about o ∧ (nearEnd v k).node = some o.node
      else []) := by
  have hkey : ∀ o ∈ c.pendingAt v w.range e ip,
      decide (ownKey v (c.answersTo v w.range (c.pendingAt v w.range e ip)) o = k) =
      decide ((k.about o ∧ (nearEnd v k).node = some o.node) ∧
        leads v.opposite k (c.reports v.opposite w.range)) := by
    intro o ho
    rw [ownKey_congr (c.answersTo_filter v w.range ho), decide_eq_decide]
    exact ownKey_eq_iff hk
  refine (Posting.booked_perm _ (owns_postings_perm v _ _)).trans (List.Perm.of_eq ?_)
  rw [Posting.booked_map_pair, List.filter_congr hkey]
  cases leads v.opposite k (c.reports v.opposite w.range) with
  | false =>
    apply List.filter_eq_nil_iff.mpr
    intro o _ ho
    exact Bool.false_ne_true (of_decide_eq_true ho).2
  | true => simp only [and_true, if_true]

/-- What it books of the far side: all that is stored of its process, if what the address finds starts
with a report of the near process. -/
theorem booked_peers_postingsAt_perm {k : LinkKey} (hk : k.direction = v.direction) {n : Node}
    (hnear : (nearEnd v k).node = some n) (e : Expansion) (ip : Ip) :
    (Posting.booked k (Posting.peers (c.postingsAt v w.range e ip))).Perm
      (if leads v k (c.pendingAt v w.range e ip) then c.named v.opposite w k else []) := by
  refine (Posting.booked_perm _ (c.peers_postingsAt_perm v w.range e ip)).trans (List.Perm.of_eq ?_)
  rw [Posting.booked_flatMap, List.flatMap_congr fun q _ => booked_answer hk hnear]
  exact c.flatMap_named v.opposite w k _

theorem exists_bound_of_mem_keys {es : List Expansion} {k : LinkKey}
    (hk : k ∈ (es.flatMap (c.postingsOf v w.range)).map Posting.key) :
    k.direction = v.direction ∧ ∃ e ∈ es, ∃ p ∈ c.bound v w.range e,
      k.about p ∧ (nearEnd v k).node = some p.node := by
  rw [List.map_flatMap, List.mem_flatMap] at hk
  obtain ⟨e, he, hk⟩ := hk
  obtain ⟨p, hp, hlinks⟩ := (c.mem_keys_postingsOf v w.range).mp hk
  have hdirection := direction_of_links hlinks
  obtain ⟨peer, rfl⟩ : ∃ peer, k = linkKey v p peer := by
    rcases hlinks with ⟨q, _, _, hq⟩ | ⟨_, hq⟩
    · exact ⟨_, hq⟩
    · exact ⟨_, hq⟩
  obtain ⟨habout, hnear, _⟩ := (linkKey_eq_iff hdirection).mp rfl
  exact ⟨hdirection, e, he, p, hp, habout, hnear⟩

/-- Reports of one process about one socket are bound by the same expansions. -/
theorem mem_bound_congr {e : Expansion} (hskip : ∀ pid ∈ e.2, 0 ≤ pid) {k : LinkKey}
    {o p : Observation} (ho : k.about o) (hp : k.about p) (hnode : o.node = p.node)
    (hmem : o ∈ c.reports v w.range) (hbound : p ∈ c.bound v w.range e) :
    o ∈ c.bound v w.range e := by
  obtain ⟨_, hadmits, hip⟩ := (c.mem_bound w v).mp hbound
  rw [← own_eq_of_about ho hp v] at hip
  exact (c.mem_bound w v).mpr ⟨hmem, (admits_congr hskip hnode).mpr hadmits, hip⟩

variable {visits : Visits} {es : List Expansion}

/-- At most one expansion leads with the near process of a link. -/
theorem pairwise_leads (h : visits.Splits es) {k : LinkKey} {n : Node}
    (hnear : (nearEnd v k).node = some n) :
    es.Pairwise fun e f => ¬ (leads v k (c.bound v w.range e) ∧ leads v k (c.bound v w.range f)) := by
  have hfirst : ∀ e : Expansion, leads v k (c.bound v w.range e) →
      ∃ p, p ∈ c.bound v w.range e ∧ p.node = n := by
    intro e he
    have he := (of_decide_eq_true he).trans hnear
    obtain ⟨p, hp, hnode⟩ := Option.map_eq_some_iff.mp he
    exact ⟨p, List.mem_of_find?_eq_some hp, hnode⟩
  refine List.Pairwise.imp_of_mem ?_ h.apart
  rintro e f _ hf hne ⟨hle, hlf⟩
  obtain ⟨p, hp, hpn⟩ := hfirst e hle
  obtain ⟨q, hq, hqn⟩ := hfirst f hlf
  obtain ⟨_, hpe, _⟩ := (c.mem_bound w v).mp hp
  obtain ⟨_, hqf, _⟩ := (c.mem_bound w v).mp hq
  exact hne p ⟨hpe, (admits_congr (h.skipped f hf) (hpn.trans hqn.symm)).mpr hqf⟩

/-- If the first report stored is one of the near process, so is the first one bound with it. -/
theorem leads_bound_of_leads (h : visits.Splits es) {k : LinkKey}
    (hk : k ∈ (es.flatMap (c.postingsOf v w.range)).map Posting.key)
    (hlead : leads v k (c.reports v w.range)) : es.any fun e => leads v k (c.bound v w.range e) := by
  obtain ⟨_, e, he, p, hp, habout, hnear⟩ := c.exists_bound_of_mem_keys v w hk
  obtain ⟨o, ho, hnode⟩ := Option.map_eq_some_iff.mp ((of_decide_eq_true hlead).trans hnear)
  have hoa : k.about o := List.find?_some ho
  have hbound := c.mem_bound_congr v w (h.skipped e he) hoa habout hnode
    (List.mem_of_find?_eq_some ho) hp
  obtain ⟨_, hkeep⟩ := List.mem_filter.mp hbound
  have hfind : (c.bound v w.range e).find? k.about = some o := find?_filter_of_find? ho hkeep
  apply List.any_eq_true.mpr
  refine ⟨e, he, decide_eq_true ?_⟩
  rw [hfind, hnear, ← hnode]
  rfl

/-- What a link carries of the near side: all its process reported, if the answers stored start with
one of the far process. -/
theorem booked_owns_perm (h : visits.Splits es) {k : LinkKey}
    (hk : k ∈ (es.flatMap (c.postingsOf v w.range)).map Posting.key) :
    (Posting.booked k (Posting.owns (es.flatMap (c.postingsOf v w.range)))).Perm
      (if leads v.opposite k (c.reports v.opposite w.range) then c.named v w k else []) := by
  obtain ⟨hdirection, e, he, p, hp, habout, hnear⟩ := c.exists_bound_of_mem_keys v w hk
  have hown : ∀ o : Observation, ownKey v (c.reports v.opposite w.range) o = k ↔
      (k.about o ∧ (nearEnd v k).node = some o.node) ∧
        leads v.opposite k (c.reports v.opposite w.range) := fun o => ownKey_eq_iff hdirection
  have hmem : ∀ o ∈ c.observations v, (k.about o ∧ (nearEnd v k).node = some o.node) →
      ((v.own o).ip ∈ c.addresses o.agent w.range ∧ ∃ f ∈ es, admits f.1 ∅ o) := by
    rintro o _ ⟨ho, hnode⟩
    have hsame : o.node = p.node := Option.some.inj (hnode.symm.trans hnear)
    obtain ⟨_, hadmits, hip⟩ := (c.mem_bound w v).mp hp
    have hadmits := (admits_congr (h.skipped e he) hsame).mpr hadmits
    rw [← own_eq_of_about ho habout v, ← (admits_iff.mp hadmits).1] at hip
    exact ⟨hip, e, he, admits_of_skip hadmits⟩
  refine (Posting.booked_perm k (c.owns_perm v w es)).trans ?_
  rw [Posting.booked_map_pair]
  refine ((c.flatMap_bound_perm v w h).filter _).trans (List.Perm.of_eq ?_)
  cases hlead : leads v.opposite k (c.reports v.opposite w.range) with
  | false =>
    apply List.filter_eq_nil_iff.mpr
    intro o _ ho
    have := ((hown o).mp (of_decide_eq_true ho)).2
    rw [hlead] at this
    exact Bool.false_ne_true this
  | true =>
    rw [if_pos rfl, named, List.filter_filter]
    change _ = List.filter _ ((c.observations v).filter fun o => w.range.covers o.time)
    rw [List.filter_filter]
    apply List.filter_congr
    intro o ho
    rw [Bool.eq_iff_iff, Bool.and_eq_true, Bool.and_eq_true, decide_eq_true_iff, decide_eq_true_iff,
      decide_eq_true_iff, hown o, hlead]
    constructor
    · rintro ⟨⟨hk, _⟩, hcov, _⟩
      exact ⟨hk, hcov⟩
    · rintro ⟨hk, hcov⟩
      exact ⟨⟨hk, rfl⟩, hcov, hmem o ho hk⟩

/-- What a link carries of the far side: all its process reported, if an expansion leads with a report
of the near process. -/
theorem booked_peers_perm (h : visits.Splits es) {k : LinkKey}
    (hk : k ∈ (es.flatMap (c.postingsOf v w.range)).map Posting.key) :
    (Posting.booked k (Posting.peers (es.flatMap (c.postingsOf v w.range)))).Perm
      (if es.any fun e => leads v k (c.bound v w.range e) then c.named v.opposite w k else []) := by
  obtain ⟨hdirection, _, _, _, _, _, hnear⟩ := c.exists_bound_of_mem_keys v w hk
  refine (Posting.booked_perm k (c.peers_perm v w es)).trans (List.Perm.of_eq ?_)
  rw [Posting.booked_flatMap]
  have hall : ∀ q ∈ c.reports v.opposite w.range,
      Posting.booked k (es.flatMap fun e =>
        ((c.bound v w.range e).find? (sameSocket · q)).toList.map fun p =>
          (linkKey v p (some q.node), q)) =
      if es.any fun e => leads v k (c.bound v w.range e) then
        if k.about q ∧ (nearEnd v.opposite k).node = some q.node then [q] else [] else [] := by
    intro q _
    rw [Posting.booked_flatMap, List.flatMap_congr fun _ _ => booked_answer hdirection hnear]
    exact flatMap_ite_of_pairwise _ _ (c.pairwise_leads v w h hnear)
  rw [List.flatMap_congr hall]
  exact c.flatMap_named v.opposite w k _

theorem named_ne_nil {k : LinkKey}
    (hk : k ∈ (es.flatMap (c.postingsOf v w.range)).map Posting.key) : c.named v w k ≠ [] := by
  obtain ⟨_, e, _, p, hp, habout, hnear⟩ := c.exists_bound_of_mem_keys v w hk
  obtain ⟨hmem, _, _⟩ := (c.mem_bound w v).mp hp
  exact List.ne_nil_of_mem ((c.mem_named v w).mpr ⟨hmem, habout, hnear⟩)

theorem direction_of_mem_named {k : LinkKey} {o : Observation} (h : o ∈ c.named v w k) :
    o.direction = v.direction := by
  obtain ⟨hmem, _⟩ := (c.mem_named v w).mp h
  exact mem_observations (List.mem_filter.mp hmem).1

end Contents

namespace Binding

theorem about_congr {k l : LinkKey} (h : k.sameSocket l) : k.about = l.about := by
  obtain ⟨hs, hd, ht⟩ := of_decide_eq_true h
  funext o
  rw [LinkKey.about, LinkKey.about, hs, hd, ht]

theorem nearEnd_congr (v : View) {k l : LinkKey} (h : k.sameSocket l) : nearEnd v k = nearEnd v l := by
  obtain ⟨hs, hd, _⟩ := of_decide_eq_true h
  cases v with
  | caller => exact hd
  | callee => exact hs

theorem leads_congr (v : View) {k l : LinkKey} (h : k.sameSocket l) (os : List Observation) :
    leads v k os = leads v l os := by
  rw [leads, leads, about_congr h, nearEnd_congr v h]

end Binding

namespace Traversal

open Sample Binding

variable {w : Window} {s : Storage} {callerDepth calleeDepth : Nat} {withLocalLinks : Bool}
  {agent : String} {t : Traversal}

/-- What a run booked under a link of one direction. -/
def carried (c : Contents) (w : Window) (callerDepth calleeDepth : Nat) (agent : String)
    (t : Traversal) (v : View) (k : LinkKey) : List Observation :=
  Posting.booked k (Posting.owns (t.ledger c w callerDepth calleeDepth agent v)) ++
    Posting.booked k (Posting.peers (t.ledger c w callerDepth calleeDepth agent v))

/-- An expansion leads with a report of a link's process only if the stored reports do. -/
def LeadsAsStored (c : Contents) (w : Window) (callerDepth calleeDepth : Nat) (agent : String)
    (t : Traversal) (v : View) (k : LinkKey) : Prop :=
  ∀ e ∈ t.expanded c w callerDepth calleeDepth agent v,
    leads v k (c.bound v w.range e) → leads v k (c.reports v w.range)

theorem leadsAsStored_iff (h : (run w callerDepth calleeDepth withLocalLinks agent s).1 = .ok t)
    {v : View} {k : LinkKey}
    (hk : k ∈ (t.ledger s.contents w callerDepth calleeDepth agent v).map Posting.key) :
    t.LeadsAsStored s.contents w callerDepth calleeDepth agent v k ↔
      leads v k (s.contents.reports v w.range) =
        (t.expanded s.contents w callerDepth calleeDepth agent v).any fun e =>
          leads v k (s.contents.bound v w.range e) := by
  constructor
  · intro hkeep
    rw [Bool.eq_iff_iff]
    constructor
    · exact s.contents.leads_bound_of_leads v w (splits_of_run h v) hk
    · intro hany
      obtain ⟨e, he, hlead⟩ := List.any_eq_true.mp hany
      exact hkeep e he hlead
  · intro heq e he hlead
    rw [heq]
    exact List.any_eq_true.mpr ⟨e, he, hlead⟩

theorem carried_perm (h : (run w callerDepth calleeDepth withLocalLinks agent s).1 = .ok t)
    {v : View} {k : LinkKey}
    (hk : k ∈ (t.ledger s.contents w callerDepth calleeDepth agent v).map Posting.key) :
    (t.carried s.contents w callerDepth calleeDepth agent v k).Perm
      ((if leads v.opposite k (s.contents.reports v.opposite w.range) then
          s.contents.named v w k else []) ++
        (if (t.expanded s.contents w callerDepth calleeDepth agent v).any fun e =>
          leads v k (s.contents.bound v w.range e) then s.contents.named v.opposite w k else [])) :=
  (s.contents.booked_owns_perm v w (splits_of_run h v) hk).append
    (s.contents.booked_peers_perm v w (splits_of_run h v) hk)

theorem mirrored_links_carry_same_iff
    (h : (run w callerDepth calleeDepth withLocalLinks agent s).1 = .ok t) {k l : LinkKey}
    (hk : k ∈ t.links) (hl : l ∈ t.links) (hout : k.direction = .outgoing)
    (hin : l.direction = .incoming) (hsame : k.sameSocket l) :
    t.links[k]? = some (LinkValue.ofObservations w
        (t.carried s.contents w callerDepth calleeDepth agent .callee k)) ∧
    t.links[l]? = some (LinkValue.ofObservations w
        (t.carried s.contents w callerDepth calleeDepth agent .caller l)) ∧
    ((t.carried s.contents w callerDepth calleeDepth agent .callee k).Perm
        (t.carried s.contents w callerDepth calleeDepth agent .caller l) ↔
      t.LeadsAsStored s.contents w callerDepth calleeDepth agent .callee k ∧
        t.LeadsAsStored s.contents w callerDepth calleeDepth agent .caller l) ∧
    (t.LeadsAsStored s.contents w callerDepth calleeDepth agent .callee k ∧
        t.LeadsAsStored s.contents w callerDepth calleeDepth agent .caller l →
      t.links[k]? = t.links[l]?) := by
  have hbooks := books_of_run h .callee
  have hbooks' := books_of_run h .caller
  have hkey := (hbooks.keys k).mp ⟨hk, hout⟩
  have hkey' := (hbooks'.keys l).mp ⟨hl, hin⟩
  have hnamed : ∀ v, s.contents.named v w l = s.contents.named v w k := by
    intro v
    rw [Contents.named, Contents.named, about_congr hsame, nearEnd_congr v hsame]
  have hdisjoint : ∀ o ∈ s.contents.named .callee w k, o ∉ s.contents.named .caller w k := by
    intro o ho hmem
    have hd := (s.contents.direction_of_mem_named _ w ho).symm.trans
      (s.contents.direction_of_mem_named _ w hmem)
    cases hd
  have hnonempty := s.contents.named_ne_nil .callee w hkey
  have hnonempty' : s.contents.named .caller w k ≠ [] := by
    rw [← hnamed]
    exact s.contents.named_ne_nil .caller w hkey'
  have hperm := carried_perm h hkey
  have hperm' := carried_perm h hkey'
  rw [hnamed, hnamed] at hperm'
  have hiff : (t.carried s.contents w callerDepth calleeDepth agent .callee k).Perm
      (t.carried s.contents w callerDepth calleeDepth agent .caller l) ↔
      t.LeadsAsStored s.contents w callerDepth calleeDepth agent .callee k ∧
        t.LeadsAsStored s.contents w callerDepth calleeDepth agent .caller l := by
    rw [leadsAsStored_iff h hkey, leadsAsStored_iff h hkey', hperm.congr_left, hperm'.congr_right]
    refine (append_ite_perm_iff hdisjoint hnonempty hnonempty' _ _ _ _).trans ?_
    change (leads .caller k (s.contents.reports .caller w.range) = _ ∧
      _ = leads .callee l (s.contents.reports .callee w.range)) ↔ _
    rw [leads_congr .caller hsame, ← leads_congr .callee hsame]
    constructor
    · rintro ⟨hcaller, hcallee⟩
      exact ⟨hcallee.symm, hcaller⟩
    · rintro ⟨hcallee, hcaller⟩
      exact ⟨hcaller, hcallee.symm⟩
  refine ⟨hbooks.values k hkey, hbooks'.values l hkey', hiff, fun hleads => ?_⟩
  rw [hbooks.values k hkey, hbooks'.values l hkey']
  exact congrArg some (LinkValue.ofObservations_perm w (hiff.mpr hleads))

/-- Two hosts that call each other. -/
def cycle : Storage := Sample.storage [address "A" 1, address "B" 2]
  [report "A" 1 .outgoing (host 1, 40001) (host 2, 80) 10,
   report "B" 7 .incoming (host 1, 40001) (host 2, 80) 5,
   report "B" 7 .outgoing (host 2, 40002) (host 1, 80) 10,
   report "A" 1 .incoming (host 2, 40002) (host 1, 80) 5]

def cycleLink (direction : Direction) : LinkKey where
  src := linkEnd 1 40001 "A" 1
  dst := linkEnd 2 80 "B" 7
  transport := .tcp
  direction := direction

theorem mirrored_links_carry_same_cycle :
    ∃ t, (run window 10 10 false "A" cycle).1 = .ok t ∧ cycleLink .outgoing ∈ t.links ∧
      cycleLink .incoming ∈ t.links ∧
      t.links[cycleLink .outgoing]? = t.links[cycleLink .incoming]? := by
  have hrun : ((run window 10 10 false "A" cycle).1.toOption.map fun t =>
      (t.rounds, t.links.contains (cycleLink .outgoing), t.links.contains (cycleLink .incoming))) =
      some (2, true, true) := by decide +kernel
  obtain ⟨t, ht, hparts⟩ := except_toOption_map_eq_some hrun
  obtain ⟨hrounds, hout, hin⟩ : t.rounds = 2 ∧ t.links.contains (cycleLink .outgoing) = true ∧
      t.links.contains (cycleLink .incoming) = true := by
    simpa only [Prod.mk.injEq] using hparts
  have hk := ExtTreeMap.contains_iff_mem.mp hout
  have hl := ExtTreeMap.contains_iff_mem.mp hin
  refine ⟨t, ht, hk, hl, (mirrored_links_carry_same_iff ht hk hl rfl rfl (by decide)).2.2.2 ?_⟩
  unfold LeadsAsStored expanded
  rw [hrounds]
  decide +kernel

/-- Two processes of an agent report one socket, and only the second of them is called back. -/
def calledBack : Storage := Sample.storage [address "A" 1, address "B" 2]
  [report "A" 1 .outgoing (host 1, 50000) (host 2, 443) 10,
   report "A" 2 .outgoing (host 1, 50000) (host 2, 443) 20,
   report "B" 7 .incoming (host 1, 50000) (host 2, 443) 100,
   report "B" 7 .outgoing (host 2, 50001) (host 1, 80) 1,
   report "A" 2 .incoming (host 2, 50001) (host 1, 80) 1]

def calledBackLink (direction : Direction) : LinkKey where
  src := linkEnd 1 50000 "A" 2
  dst := linkEnd 2 443 "B" 7
  transport := .tcp
  direction := direction

/-- From the callee's end its 100 go to the process stored first, from the caller's end to the process
that is expanded alone. -/
theorem mirrored_links_differ :
    ∃ t, (run window 0 1 false "B" calledBack).1 = .ok t ∧ ∃ k l, k ∈ t.links ∧ l ∈ t.links ∧
      k.sameSocket l ∧ k.direction = .outgoing ∧ l.direction = .incoming ∧
      (t.links[k]?.map fun value => value.total.sent) = some 120 ∧
      (t.links[l]?.map fun value => value.total.sent) = some 20 ∧ t.links[k]? ≠ t.links[l]? := by
  have hrun : ((run window 0 1 false "B" calledBack).1.toOption.map fun t =>
      (t.links.contains (calledBackLink .outgoing), t.links.contains (calledBackLink .incoming),
        t.links[calledBackLink .outgoing]?.map fun value => value.total.sent,
        t.links[calledBackLink .incoming]?.map fun value => value.total.sent)) =
      some (true, true, some 120, some 20) := by decide +kernel
  obtain ⟨t, ht, hparts⟩ := except_toOption_map_eq_some hrun
  simp only [Prod.mk.injEq] at hparts
  obtain ⟨hk, hl, hout, hin⟩ := hparts
  refine ⟨t, ht, calledBackLink .outgoing, calledBackLink .incoming,
    ExtTreeMap.contains_iff_mem.mp hk, ExtTreeMap.contains_iff_mem.mp hl, by decide, rfl, rfl, hout,
    hin, fun heq => ?_⟩
  rw [heq, hin] at hout
  exact absurd hout (by decide)

end Traversal

end NetAtlas

import NetAtlas.Proofs.Atlas.Conservation
import NetAtlas.Proofs.Atlas.MatchingPairs

set_option autoImplicit false

/-!
# Links backed by traffic

A bind links every process that reports a socket from one side to every process that reports it from the
other, but books each report once: those of the seed go with the first answer, the answers with the
first report of the seed. A link that joins neither the process of the first report nor that of the first
answer is left without traffic.
-/
namespace NetAtlas

open Std Binding

namespace LinkValue

theorem ofObservations_eq_empty_iff {w : Window} {os : List Observation} :
    ofObservations w os = ∅ ↔ os = [] := by
  constructor
  · intro h
    cases os with
    | nil => rfl
    | cons o os =>
      have hmem : w.refine o.time.toInt ∈ ofObservations w (o :: os) :=
        (mem_ofObservations w).mpr ⟨o, List.mem_cons_self, rfl⟩
      rw [h] at hmem
      exact absurd hmem ExtTreeMap.not_mem_empty
  · rintro rfl
    rfl

end LinkValue

namespace Contents

variable (c : Contents) (v : View) (w : Window) (e : Expansion) (ip : Ip)

/-- What a bound link carries: the reports bound of its near process, if the first answer is one of the
far process, and the answers of the far process, if the first report bound is one of the near process. -/
def traffic (k : LinkKey) : List Observation :=
  (if leads v.opposite k (c.reports v.opposite w.range) then
    (c.pendingAt v w.range e ip).filter fun o => k.about o ∧ (nearEnd v k).node = some o.node
  else []) ++
    if leads v k (c.pendingAt v w.range e ip) then c.named v.opposite w k else []

variable {c v w e ip}

theorem leads_of_forall {k : LinkKey} {os : List Observation} (hsome : ∃ o ∈ os, k.about o)
    (hall : ∀ o ∈ os, k.about o → (nearEnd v k).node = some o.node) : leads v k os := by
  rw [leads, decide_eq_true_iff]
  cases hfind : os.find? k.about with
  | none =>
    obtain ⟨o, ho, habout⟩ := hsome
    exact absurd habout (List.find?_eq_none.mp hfind o ho)
  | some o => exact (hall o (List.mem_of_find?_eq_some hfind) (List.find?_some hfind)).symm

/-- A far end that is not known has no answers, so none of another process comes first. -/
theorem leads_of_bare {k : LinkKey} {answers : List Observation} (hfar : k.FarKnown v answers)
    (hbare : (Side.farEnd v k).node = none) : leads v.opposite k answers := by
  have hnone := (farEnd_none_iff hfar).mp hbare
  rw [leads, decide_eq_true_iff, nearEnd_opposite, hbare, List.find?_eq_none.mpr hnone]
  rfl

theorem exists_answer {k : LinkKey} {answers : List Observation} {n : Node}
    (hfar : k.FarKnown v answers) (hn : (Side.farEnd v k).node = some n) :
    ∃ q ∈ answers, k.about q ∧ q.node = n := by
  rw [LinkKey.FarKnown, hn] at hfar
  exact hfar

/-- A link is left without traffic if it joins no first report and no first answer. -/
theorem traffic_eq_nil_iff {k : LinkKey} {p : Observation} (hp : p ∈ c.pendingAt v w.range e ip)
    (hl : Links v (c.reports v.opposite w.range) p k) :
    c.traffic v w e ip k = [] ↔
      ¬ leads v k (c.pendingAt v w.range e ip) ∧ ¬ leads v.opposite k (c.reports v.opposite w.range) := by
  obtain ⟨_, habout, hnear, hfar⟩ := links_iff.mp hl
  have hnearReports : ((c.pendingAt v w.range e ip).filter fun o =>
      k.about o ∧ (nearEnd v k).node = some o.node) ≠ [] :=
    List.ne_nil_of_mem (List.mem_filter.mpr ⟨hp, decide_eq_true ⟨habout, hnear⟩⟩)
  have hfarReports : ¬ leads v.opposite k (c.reports v.opposite w.range) →
      c.named v.opposite w k ≠ [] := by
    intro hlead
    cases hn : (Side.farEnd v k).node with
    | none => exact absurd (leads_of_bare hfar hn) hlead
    | some n =>
      obtain ⟨q, hq, hqabout, rfl⟩ := exists_answer hfar hn
      rw [← nearEnd_opposite] at hn
      exact List.ne_nil_of_mem ((c.mem_named v.opposite w).mpr ⟨hq, hqabout, hn⟩)
  rw [traffic, List.append_eq_nil_iff]
  constructor
  · -- The near process has reports, so the first answer is another's; then the far process has answers.
    rintro ⟨howns, hpeers⟩
    have hanswer : ¬ leads v.opposite k (c.reports v.opposite w.range) := by
      intro hlead
      rw [if_pos hlead] at howns
      exact hnearReports howns
    refine ⟨fun hlead => ?_, hanswer⟩
    rw [if_pos hlead] at hpeers
    exact hfarReports hanswer hpeers
  · rintro ⟨hreport, hanswer⟩
    exact ⟨if_neg hanswer, if_neg hreport⟩

end Contents

namespace Binding

open Contents Sample

section Bound

variable {w : Window} {s : Storage} {v : View} {seed : Node} {skip : PidGroup} {ip : Ip} {m : LinkMap}
  {k : LinkKey}

theorem value_of_mem_links (h : (bindDirection w v.direction seed skip ip s).1 = .ok m) {l : Link}
    (hl : l ∈ m.links) :
    l.value = LinkValue.ofObservations w (s.contents.traffic v w (seed, skip) ip l.key) := by
  have hk : l.key ∈ m := LinkMap.exists_mem_links.mp ⟨l, hl, rfl⟩
  have hvalue := LinkMap.mem_links.mp hl
  obtain ⟨p, _, hlinks⟩ := (mem_bound_links h).mp hk
  obtain ⟨hdirection, _, hnear, _⟩ := links_iff.mp hlinks
  rw [bindDirection_eq_ok w h, LinkMap.mem_ofPostings] at hk
  rw [bindDirection_eq_ok w h, LinkMap.getElem?_ofPostings, if_pos hk] at hvalue
  rw [← Option.some.inj hvalue]
  exact LinkValue.ofObservations_perm w
    ((s.contents.booked_owns_postingsAt_perm v w hdirection _ _).append
      (s.contents.booked_peers_postingsAt_perm v w hdirection hnear _ _))

theorem value_eq_empty_iff (h : (bindDirection w v.direction seed skip ip s).1 = .ok m) {l : Link}
    (hl : l ∈ m.links) :
    l.value = ∅ ↔ ¬ leads v l.key (s.contents.pendingAt v w.range (seed, skip) ip) ∧
      ¬ leads v.opposite l.key (s.contents.reports v.opposite w.range) := by
  obtain ⟨p, hp, hlinks⟩ := (mem_bound_links h).mp (LinkMap.exists_mem_links.mp ⟨l, hl, rfl⟩)
  rw [value_of_mem_links h hl, LinkValue.ofObservations_eq_empty_iff, traffic_eq_nil_iff hp hlinks]

/-- A link that joins a first report or a first answer has traffic. -/
theorem backed_of_leads (h : (bindDirection w v.direction seed skip ip s).1 = .ok m) (hk : k ∈ m)
    (hlead : leads v k (s.contents.pendingAt v w.range (seed, skip) ip) ∨
      leads v.opposite k (s.contents.reports v.opposite w.range)) :
    ∃ l ∈ m.links, l.key = k ∧ l.value ≠ ∅ := by
  obtain ⟨l, hl, rfl⟩ := LinkMap.exists_mem_links.mpr hk
  refine ⟨l, hl, rfl, fun hempty => ?_⟩
  obtain ⟨hreport, hanswer⟩ := (value_eq_empty_iff h hl).mp hempty
  exact hlead.elim hreport hanswer

theorem about_linkKey_eq {p : Observation} (hp : k.about p) (v : View) (peer : Option Node) :
    (linkKey v p peer).about = k.about := by
  rw [← sameSocket_eq_about (about_linkKey v p peer), sameSocket_eq_about hp]

/-- The near process of a link has traffic on its link to the process of the first answer. -/
theorem exists_backed_nearEnd (h : (bindDirection w v.direction seed skip ip s).1 = .ok m) (hk : k ∈ m) :
    ∃ l ∈ m.links, l.key.about = k.about ∧ nearEnd v l.key = nearEnd v k ∧ l.value ≠ ∅ := by
  obtain ⟨p, hp, hlinks⟩ := (mem_bound_links h).mp hk
  obtain ⟨_, habout, _, hfar⟩ := links_iff.mp hlinks
  cases hfind : (s.contents.reports v.opposite w.range).find? k.about with
  | none =>
    have hbare := (farEnd_none_iff hfar).mpr (List.find?_eq_none.mp hfind)
    obtain ⟨l, hl, rfl, hvalue⟩ := backed_of_leads h hk (Or.inr (leads_of_bare hfar hbare))
    exact ⟨l, hl, rfl, rfl, hvalue⟩
  | some q =>
    have hq : sameSocket p q := by
      rw [sameSocket_eq_about habout]
      exact List.find?_some hfind
    have hlinks' : Links v (s.contents.reports v.opposite w.range) p (linkKey v p (some q.node)) :=
      Or.inl ⟨q, List.mem_of_find?_eq_some hfind, hq, rfl⟩
    have hlead : leads v.opposite (linkKey v p (some q.node))
        (s.contents.reports v.opposite w.range) := by
      rw [leads, decide_eq_true_iff, about_linkKey_eq habout, hfind, nearEnd_opposite, farEnd_linkKey]
      rfl
    obtain ⟨l, hl, hkey, hvalue⟩ :=
      backed_of_leads h ((mem_bound_links h).mpr ⟨p, hp, hlinks'⟩) (Or.inr hlead)
    exact ⟨l, hl, by rw [hkey, about_linkKey_eq habout],
      by rw [hkey, nearEnd_linkKey, nearEnd_of_links hlinks], hvalue⟩

/-- The far process of a link has traffic on its link to the process of the first report bound. -/
theorem exists_backed_farEnd (h : (bindDirection w v.direction seed skip ip s).1 = .ok m) (hk : k ∈ m) :
    ∃ l ∈ m.links, l.key.about = k.about ∧ Side.farEnd v l.key = Side.farEnd v k ∧ l.value ≠ ∅ := by
  obtain ⟨p, hp, hlinks⟩ := (mem_bound_links h).mp hk
  obtain ⟨_, habout, _, hfar⟩ := links_iff.mp hlinks
  cases hfind : (s.contents.pendingAt v w.range (seed, skip) ip).find? k.about with
  | none => exact absurd habout (List.find?_eq_none.mp hfind p hp)
  | some p' =>
    have habout' : k.about p' := List.find?_some hfind
    have hlinks' : Links v (s.contents.reports v.opposite w.range) p'
        (linkKey v p' (Side.farEnd v k).node) := by
      refine links_iff.mpr ⟨direction_linkKey v p' _, about_linkKey v p' _, ?_, ?_⟩
      · rw [nearEnd_linkKey]
      · rw [LinkKey.FarKnown, farEnd_linkKey, about_linkKey_eq habout']
        exact hfar
    have hlead : leads v (linkKey v p' (Side.farEnd v k).node)
        (s.contents.pendingAt v w.range (seed, skip) ip) := by
      rw [leads, decide_eq_true_iff, about_linkKey_eq habout', hfind, nearEnd_linkKey]
      rfl
    obtain ⟨l, hl, hkey, hvalue⟩ := backed_of_leads h
      ((mem_bound_links h).mpr ⟨p', List.mem_of_find?_eq_some hfind, hlinks'⟩) (Or.inl hlead)
    refine ⟨l, hl, by rw [hkey, about_linkKey_eq habout'], ?_, hvalue⟩
    rw [hkey]
    refine LinkEnd.eq_of_parts ?_ (farEnd_linkKey v p' _)
    obtain ⟨hsrc, hdst, _⟩ := about_iff.mp habout'
    cases v with
    | caller => exact hsrc
    | callee => exact hdst

end Bound

/-- Binding a seed at an address comes through in the directions that have a view. The buckets of a link
are those of its traffic, and there is none just if the link joins neither the process of the first report
bound about its socket nor that of the first answer. So a link has a bucket if its far end is bare, if its
own process bound all reports about the socket or its far process all answers, and every process at an end
of a link has traffic on a link of the same socket. -/
theorem bind_backs_links (w : Window) (s : Storage) (d : Direction) (seed : Node) (skip : PidGroup)
    (ip : Ip) :
    (s.AnswersScans → d ≠ .internal → ∃ m, (bindDirection w d seed skip ip s).1 = .ok m) ∧
    ∀ m, (bindDirection w d seed skip ip s).1 = .ok m → ∃ v : View, v.direction = d ∧ ∀ l ∈ m.links,
      (∀ slot, slot ∈ l.value ↔ ∃ o ∈ s.contents.traffic v w (seed, skip) ip l.key,
        w.refine o.time.toInt = slot) ∧
      (l.value = ∅ ↔ ¬ leads v l.key (s.contents.pendingAt v w.range (seed, skip) ip) ∧
        ¬ leads v.opposite l.key (s.contents.reports v.opposite w.range)) ∧
      ((Side.farEnd v l.key).node = none → l.value ≠ ∅) ∧
      ((∀ p ∈ s.contents.pendingAt v w.range (seed, skip) ip, l.key.about p →
        (nearEnd v l.key).node = some p.node) → l.value ≠ ∅) ∧
      ((∀ q ∈ s.contents.reports v.opposite w.range, l.key.about q →
        (Side.farEnd v l.key).node = some q.node) → l.value ≠ ∅) ∧
      (∃ x ∈ m.links, x.key.about = l.key.about ∧ nearEnd v x.key = nearEnd v l.key ∧ x.value ≠ ∅) ∧
      ∃ x ∈ m.links, x.key.about = l.key.about ∧ Side.farEnd v x.key = Side.farEnd v l.key ∧
        x.value ≠ ∅ := by
  constructor
  · intro hs hd
    cases d with
    | incoming => exact bindDirection_ok w hs .caller seed skip ip
    | outgoing => exact bindDirection_ok w hs .callee seed skip ip
    | internal => exact absurd rfl hd
  · intro m h
    obtain ⟨v, rfl⟩ : ∃ v : View, v.direction = d := by
      cases d with
      | incoming => exact ⟨.caller, rfl⟩
      | outgoing => exact ⟨.callee, rfl⟩
      | internal => cases h
    refine ⟨v, rfl, fun l hl => ?_⟩
    have hk : l.key ∈ m := LinkMap.exists_mem_links.mp ⟨l, hl, rfl⟩
    obtain ⟨p, hp, hlinks⟩ := (mem_bound_links h).mp hk
    obtain ⟨_, habout, _, hfar⟩ := links_iff.mp hlinks
    have hempty := value_eq_empty_iff h hl
    have hbare : (Side.farEnd v l.key).node = none → l.value ≠ ∅ := fun hbare hvalue =>
      (hempty.mp hvalue).2 (leads_of_bare hfar hbare)
    refine ⟨fun slot => ?_, hempty, hbare, fun hall hvalue => ?_, fun hall => ?_,
      exists_backed_nearEnd h hk, exists_backed_farEnd h hk⟩
    · rw [value_of_mem_links h hl, LinkValue.mem_ofObservations]
    · exact (hempty.mp hvalue).1 (leads_of_forall ⟨p, hp, habout⟩ hall)
    · cases hn : (Side.farEnd v l.key).node with
      | none => exact hbare hn
      | some n =>
        obtain ⟨q, hq, hqabout, _⟩ := exists_answer hfar hn
        rw [← nearEnd_opposite] at hall
        exact fun hvalue => (hempty.mp hvalue).2 (leads_of_forall ⟨q, hq, hqabout⟩ hall)

/-- Two processes of each agent report one socket. Those stored last come first, so the two others have a
link without traffic. -/
theorem bind_leaves_link_unbacked :
    ∃ m, (bindDirection sharedWindow .outgoing (Node.ofAgent "A") ∅ (host 1) shared).1 = .ok m ∧
      ∃ l ∈ m.links, l.key.src.node = some (Node.of "A" 1) ∧ l.key.dst.node = some (Node.of "B" 7) ∧
        l.value = ∅ := by
  have hlinks : ((bindDirection sharedWindow .outgoing (Node.ofAgent "A") ∅ (host 1)
      shared).1.toOption.map fun m => m.links.any fun l => l.key.src.node = some (Node.of "A" 1) ∧
        l.key.dst.node = some (Node.of "B" 7) ∧ l.value = ∅) = some true := by decide +kernel
  obtain ⟨m, hm, hany⟩ := except_toOption_map_eq_some hlinks
  obtain ⟨l, hl, hparts⟩ := List.any_eq_true.mp hany
  exact ⟨m, hm, l, hl, of_decide_eq_true hparts⟩

/-- Of the four links one is without traffic, and each of the four processes has traffic on another. -/
theorem bind_backs_links_shared :
    ∃ m, (bindDirection sharedWindow .outgoing (Node.ofAgent "A") ∅ (host 1) shared).1 = .ok m ∧
      m.links.map (fun l => l.value.keys) = [[], [900], [900], [1200]] ∧
      ∃ v : View, v.direction = .outgoing ∧ ∀ l ∈ m.links,
        (∃ x ∈ m.links, nearEnd v x.key = nearEnd v l.key ∧ x.value ≠ ∅) ∧
        ∃ x ∈ m.links, Side.farEnd v x.key = Side.farEnd v l.key ∧ x.value ≠ ∅ := by
  obtain ⟨hok, hbacks⟩ :=
    bind_backs_links sharedWindow shared .outgoing (Node.ofAgent "A") ∅ (host 1)
  obtain ⟨m, hm⟩ := hok (fun _ _ _ _ => rfl) (by decide)
  obtain ⟨v, hv, hlinks⟩ := hbacks m hm
  have hkeys : ((bindDirection sharedWindow .outgoing (Node.ofAgent "A") ∅ (host 1)
      shared).1.toOption.map fun m => m.links.map fun l => l.value.keys) =
        some [[], [900], [900], [1200]] := by decide +kernel
  rw [hm] at hkeys
  refine ⟨m, hm, Option.some.inj hkeys, v, hv, fun l hl => ?_⟩
  obtain ⟨_, _, _, _, _, ⟨x, hx, _, hnear, hxv⟩, y, hy, _, hfar, hyv⟩ := hlinks l hl
  exact ⟨⟨x, hx, hnear, hxv⟩, y, hy, hfar, hyv⟩

end Binding

end NetAtlas

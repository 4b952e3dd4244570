import NetAtlas.Proofs.Atlas.Mirrored

set_option autoImplicit false

/-!
# Binding finds the matching pairs

The links of a bind are those of its reports, each with every process that reported the same socket from
the other side, or with the bare peer address if none did. What a seed admits decides them, so a bind of a
whole agent has the links of its parts.
-/
namespace NetAtlas

open Std Binding StoreM

/-- What is known of the far end of a link: a process that reported its socket, or nothing if none did. -/
def LinkKey.FarKnown (v : View) (answers : List Observation) (k : LinkKey) : Prop :=
  match (Side.farEnd v k).node with
  | some n => ∃ q ∈ answers, k.about q ∧ q.node = n
  | none => ∀ q ∈ answers, ¬ k.about q

namespace Binding

theorem admits_pid_iff {agent : String} {pid : Int32} (h : 0 ≤ pid) {skip : PidGroup}
    {o : Observation} :
    admits (Node.of agent pid) skip o ↔ o.agent = agent ∧ o.pid = pid ∧ o.pid ∉ skip := by
  have hpid : (Node.of agent pid).pid = pid := by rw [Node.pid_of, if_neg (Int32.not_lt.mpr h)]
  have hhas : (Node.of agent pid).hasPid := by
    simp only [Node.hasPid, hpid, decide_eq_true_eq]
    rintro rfl
    exact absurd h (by decide)
  rw [admits_iff, Node.agent_of, hpid]
  simp [hhas]

theorem links_iff {v : View} {answers : List Observation} {p : Observation} {k : LinkKey} :
    Links v answers p k ↔ k.direction = v.direction ∧ k.about p ∧
      (nearEnd v k).node = some p.node ∧ k.FarKnown v answers := by
  constructor
  · intro h
    have hd := direction_of_links h
    rcases h with ⟨q, hq, hs, hkey⟩ | ⟨hnone, hkey⟩
    · obtain ⟨hp, hnear, hfar⟩ := (linkKey_eq_iff hd).mp hkey.symm
      rw [sameSocket_eq_about hp] at hs
      refine ⟨hd, hp, hnear, ?_⟩
      rw [LinkKey.FarKnown, hfar]
      exact ⟨q, hq, hs, rfl⟩
    · obtain ⟨hp, hnear, hfar⟩ := (linkKey_eq_iff hd).mp hkey.symm
      rw [sameSocket_eq_about hp] at hnone
      refine ⟨hd, hp, hnear, ?_⟩
      rw [LinkKey.FarKnown, hfar]
      exact hnone
  · rintro ⟨hd, hp, hnear, hfar⟩
    rw [Links, sameSocket_eq_about hp]
    unfold LinkKey.FarKnown at hfar
    split at hfar
    · next n hn =>
      obtain ⟨q, hq, hs, rfl⟩ := hfar
      exact Or.inl ⟨q, hq, hs, ((linkKey_eq_iff hd).mpr ⟨hp, hnear, hn⟩).symm⟩
    · next hn => exact Or.inr ⟨hfar, ((linkKey_eq_iff hd).mpr ⟨hp, hnear, hn⟩).symm⟩

/-- Whether the process at the far end is known depends on the socket alone. -/
theorem farEnd_none_iff {v : View} {answers : List Observation} {k : LinkKey}
    (h : k.FarKnown v answers) :
    (Side.farEnd v k).node = none ↔ ∀ q ∈ answers, ¬ k.about q := by
  unfold LinkKey.FarKnown at h
  cases hn : (Side.farEnd v k).node with
  | none =>
    rw [hn] at h
    exact iff_of_true rfl h
  | some n =>
    rw [hn] at h
    obtain ⟨q, hq, hs, _⟩ := h
    exact iff_of_false (by simp) fun hnone => hnone q hq hs

section Bound

variable {w : Window} {s : Storage} {v : View} {seed : Node} {skip : PidGroup} {ip : Ip} {m : LinkMap}

theorem mem_bound_links (h : (bindDirection w v.direction seed skip ip s).1 = .ok m) {k : LinkKey} :
    k ∈ m ↔ ∃ p ∈ s.contents.pendingAt v w.range (seed, skip) ip,
      Links v (s.contents.reports v.opposite w.range) p k := by
  rw [bindDirection_eq_ok w h, LinkMap.mem_ofPostings, Contents.postingsAt, mem_keys_postings]
  constructor
  · rintro ⟨p, hp, hl⟩
    exact ⟨p, hp, (links_congr (s.contents.answersTo_filter v w.range hp) k).mp hl⟩
  · rintro ⟨p, hp, hl⟩
    exact ⟨p, hp, (links_congr (s.contents.answersTo_filter v w.range hp) k).mpr hl⟩

/-- What an expansion has among its links at an address. -/
def HasLink (w : Window) (c : Contents) (v : View) (ip : Ip) (e : Expansion) (k : LinkKey) : Prop :=
  ∃ m, (bindDirection w v.direction e.1 e.2 ip).answer c = .ok m ∧ k ∈ m

theorem hasLink_iff {c : Contents} {k : LinkKey} {e : Expansion} :
    HasLink w c v ip e k ↔ ∃ p ∈ c.pendingAt v w.range e ip,
      Links v (c.reports v.opposite w.range) p k := by
  obtain ⟨m, hm⟩ := bindDirection_ok w (answersScans_ofContents c []) v e.1 e.2 ip
  have hmem : k ∈ m ↔ _ := mem_bound_links hm
  rw [← hmem]
  constructor
  · rintro ⟨m', hm', hk⟩
    cases hm.symm.trans hm'
    exact hk
  · exact fun hk => ⟨m, hm, hk⟩

/-- Expansions that together admit what the seed admits have its links together. -/
theorem mem_iff_of_parts (h : (bindDirection w v.direction seed skip ip s).1 = .ok m)
    {parts : List Expansion} (hparts : ∀ o, admits seed skip o ↔ ∃ e ∈ parts, admits e.1 e.2 o)
    (k : LinkKey) : k ∈ m ↔ ∃ e ∈ parts, HasLink w s.contents v ip e k := by
  simp only [mem_bound_links h, hasLink_iff, Contents.pendingAt, List.mem_filter, hparts]
  constructor
  · rintro ⟨p, ⟨hp, e, he, hadmits⟩, hl⟩
    exact ⟨e, he, p, ⟨hp, hadmits⟩, hl⟩
  · rintro ⟨e, he, p, ⟨hp, hadmits⟩, hl⟩
    exact ⟨p, ⟨hp, e, he, hadmits⟩, hl⟩

/-- The reports of an agent are those of some of its pids and those of no such pid. -/
theorem admits_pids_iff (hseed : ¬ seed.hasPid) {pids : PidGroup} (hpids : ∀ pid ∈ pids, 0 ≤ pid)
    (o : Observation) : admits seed skip o ↔
      ∃ e ∈ pids.toList.map (fun pid => (Node.of seed.agent pid, skip)) ++ [(seed, skip ∪ pids)],
        admits e.1 e.2 o := by
  simp only [List.mem_append, List.mem_map, ExtTreeSet.mem_toList, List.mem_singleton]
  constructor
  · intro h
    obtain ⟨hagent, _, hskip⟩ := admits_iff.mp h
    by_cases hmem : o.pid ∈ pids
    · exact ⟨_, Or.inl ⟨o.pid, hmem, rfl⟩, (admits_pid_iff (hpids _ hmem)).mpr ⟨hagent, rfl, hskip⟩⟩
    · refine ⟨_, Or.inr rfl, admits_iff.mpr ⟨hagent, fun hpid => absurd hpid hseed, ?_⟩⟩
      rw [ExtTreeSet.mem_union_iff]
      exact fun hunion => hunion.elim hskip hmem
  · rintro ⟨e, ⟨pid, hmem, rfl⟩ | rfl, h⟩
    · obtain ⟨hagent, _, hskip⟩ := (admits_pid_iff (hpids _ hmem)).mp h
      exact admits_iff.mpr ⟨hagent, fun hpid => absurd hpid hseed, hskip⟩
    · obtain ⟨hagent, hpid, hskip⟩ := admits_iff.mp h
      exact admits_iff.mpr ⟨hagent, hpid, fun hmem => hskip (ExtTreeSet.mem_union_of_left hmem)⟩

end Bound

/-- Binding a seed at an address comes through, and its links are the matching pairs: each is in the
direction that is bound, joins the source and the target of a report of the seed at the address with the
reporter at its own end, and at the far end has a process that reported the socket from the other side, or
the bare address if none did. So all links of a socket have a process there or none has. A seed has the
links of any parts that admit what it admits, an agent those of any of its pids and of the rest. -/
theorem bind_finds_matching_pairs (w : Window) (s : Storage) (v : View) (seed : Node)
    (skip : PidGroup) (ip : Ip) :
    (s.AnswersScans → ∃ m, (bindDirection w v.direction seed skip ip s).1 = .ok m) ∧
    ∀ m, (bindDirection w v.direction seed skip ip s).1 = .ok m →
      (∀ k, k ∈ m ↔ k.direction = v.direction ∧
        (∃ p ∈ s.contents.pendingAt v w.range (seed, skip) ip,
          k.about p ∧ nearEnd v k = ⟨v.own p, some p.node⟩) ∧
        k.FarKnown v (s.contents.reports v.opposite w.range)) ∧
      (∀ k ∈ m, ∀ l ∈ m, k.src.address = l.src.address → k.dst.address = l.dst.address →
        k.transport = l.transport →
        ((Side.farEnd v k).node = none ↔ (Side.farEnd v l).node = none)) ∧
      (∀ parts : List Expansion, (∀ o, admits seed skip o ↔ ∃ e ∈ parts, admits e.1 e.2 o) →
        ∀ k, k ∈ m ↔ ∃ e ∈ parts, HasLink w s.contents v ip e k) ∧
      (¬ seed.hasPid → ∀ pids : PidGroup, (∀ pid ∈ pids, 0 ≤ pid) →
        ∀ k, k ∈ m ↔ (∃ pid ∈ pids, HasLink w s.contents v ip (Node.of seed.agent pid, skip) k) ∨
          HasLink w s.contents v ip (seed, skip ∪ pids) k) := by
  refine ⟨fun hs => bindDirection_ok w hs v seed skip ip, fun m h => ?_⟩
  have hkeys : ∀ k, k ∈ m ↔ k.direction = v.direction ∧
      (∃ p ∈ s.contents.pendingAt v w.range (seed, skip) ip,
        k.about p ∧ nearEnd v k = ⟨v.own p, some p.node⟩) ∧
      k.FarKnown v (s.contents.reports v.opposite w.range) := by
    intro k
    rw [mem_bound_links h]
    constructor
    · rintro ⟨p, hp, hl⟩
      obtain ⟨hd, habout, _, hfar⟩ := links_iff.mp hl
      exact ⟨hd, ⟨p, hp, habout, nearEnd_of_links hl⟩, hfar⟩
    · rintro ⟨hd, ⟨p, hp, habout, hnear⟩, hfar⟩
      exact ⟨p, hp, links_iff.mpr ⟨hd, habout, by rw [hnear], hfar⟩⟩
  refine ⟨hkeys, fun k hk l hl hsrc hdst htransport => ?_, fun parts hparts k => ?_,
    fun hseed pids hpids k => ?_⟩
  · have habout : k.about = l.about := by
      funext o
      rw [LinkKey.about, LinkKey.about, hsrc, hdst, htransport]
    rw [farEnd_none_iff ((hkeys k).mp hk).2.2, farEnd_none_iff ((hkeys l).mp hl).2.2, habout]
  · exact mem_iff_of_parts h hparts k
  · rw [mem_iff_of_parts h (admits_pids_iff hseed hpids)]
    simp [or_and_right, exists_or]

/-- Two processes of an agent and two of another report one socket, a process that is not known reports a
second one, which the other agent has over the other protocol only. -/
def overlapping : Storage := Sample.storage []
  [Sample.report "A" 1 .outgoing (Sample.host 1, 50000) (Sample.host 2, 443) 10,
   Sample.report "A" 2 .outgoing (Sample.host 1, 50000) (Sample.host 2, 443) 20,
   Sample.report "A" unknownPid .outgoing (Sample.host 1, 50001) (Sample.host 2, 443) 30,
   Sample.report "B" 7 .incoming (Sample.host 1, 50000) (Sample.host 2, 443) 100,
   Sample.report "B" 8 .incoming (Sample.host 1, 50000) (Sample.host 2, 443) 200,
   { Sample.report "B" 9 .incoming (Sample.host 1, 50001) (Sample.host 2, 443) 300 with
     transport := .udp }]

/-- The agent has four links that join processes and one to a bare address. -/
theorem bind_finds_matching_pairs_overlapping :
    ∃ m, (bindDirection Sample.window .outgoing (Node.ofAgent "A") ∅ (Sample.host 1) overlapping).1 =
        .ok m ∧
      m.keys.map (fun k => (Side.farEnd .callee k).node) =
        [some (Node.of "B" 7), some (Node.of "B" 8), some (Node.of "B" 7), some (Node.of "B" 8), none] ∧
      (∀ k, k ∈ m ↔ ∃ e ∈ [(Node.ofAgent "A", ∅)],
        HasLink Sample.window overlapping.contents .callee (Sample.host 1) e k) ∧
      ∀ k, k ∈ m ↔
        (∃ pid ∈ ({1, 2} : PidGroup), HasLink Sample.window overlapping.contents .callee (Sample.host 1)
          (Node.of (Node.ofAgent "A").agent pid, ∅) k) ∨
        HasLink Sample.window overlapping.contents .callee (Sample.host 1)
          (Node.ofAgent "A", ∅ ∪ {1, 2}) k := by
  obtain ⟨hok, hpairs⟩ := bind_finds_matching_pairs Sample.window overlapping .callee
    (Node.ofAgent "A") ∅ (Sample.host 1)
  obtain ⟨m, hm⟩ := hok fun _ _ _ _ => rfl
  obtain ⟨_, _, hparts, hpids⟩ := hpairs m hm
  have hkeys : ((bindDirection Sample.window .outgoing (Node.ofAgent "A") ∅ (Sample.host 1)
      overlapping).1.toOption.map fun m => m.keys.map fun k => (Side.farEnd .callee k).node) =
        some [some (Node.of "B" 7), some (Node.of "B" 8), some (Node.of "B" 7), some (Node.of "B" 8),
          none] := by decide +kernel
  rw [show (bindDirection Sample.window .outgoing _ _ _ overlapping).1 = .ok m from hm] at hkeys
  have hlisted : ({1, 2} : PidGroup).toList = [1, 2] := by decide +kernel
  have hpositive : ∀ pid ∈ ({1, 2} : PidGroup), (0 : Int32) ≤ pid := by
    intro pid hpid
    rw [← ExtTreeSet.mem_toList, hlisted, List.mem_pair] at hpid
    rcases hpid with rfl | rfl
    · decide
    · decide
  exact ⟨m, hm, Option.some.inj hkeys, hparts _ (by simp),
    hpids (Node.not_hasPid_ofAgent "A") {1, 2} hpositive⟩

end Binding

end NetAtlas

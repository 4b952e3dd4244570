import NetAtlas.Proofs.Atlas.Frontiers

set_option autoImplicit false

/-!
# What the depths decide

A link names the reporting process at its near end, and no process is expanded twice in a direction. So
no two expansions share a link, and what a deeper run expands after the rounds of a shallower one leaves
the links found by then as they are. The other direction and the links inside the host have no part in it.
-/
namespace NetAtlas

open Std Binding

/-- Whoever has links away from a seed came to them through a link of the seed. -/
theorem Contents.Reaches.seed_link {c : Contents} {w : Window} {v : View} {agent : String} {j : Nat}
    {n : Node} (path : c.Reaches w v agent j n) {k : LinkKey} (link : c.NodeLink w v n k) :
    ∃ l, c.NodeLink w v (Node.ofAgent agent) l := by
  induction path generalizing k with
  | seed => exact ⟨k, link⟩
  | step _ previous _ ih => exact ih previous

section Expansions

variable (c : Contents) (w : Window) (v : View)

/-- Two expansions that both have a link would both admit the report at its near end. -/
theorem Visits.Splits.not_mem_keys {visits : Visits} {es fs : List Expansion}
    (h : visits.Splits (es ++ fs)) {k : LinkKey}
    (hk : k ∈ (es.flatMap (c.postingsOf v w.range)).map Posting.key) :
    k ∉ (fs.flatMap (c.postingsOf v w.range)).map Posting.key := by
  intro hlater
  rw [List.map_flatMap] at hk hlater
  obtain ⟨e, he, hke⟩ := List.mem_flatMap.mp hk
  obtain ⟨f, hf, hkf⟩ := List.mem_flatMap.mp hlater
  obtain ⟨p, hp, hpk⟩ := (c.mem_keys_postingsOf v w.range).mp hke
  obtain ⟨q, hq, hqk⟩ := (c.mem_keys_postingsOf v w.range).mp hkf
  have hnear := (nearEnd_of_links hpk).symm.trans (nearEnd_of_links hqk)
  have hnode : p.node = q.node := Option.some.inj (congrArg LinkEnd.node hnear)
  obtain ⟨_, hadmitsP, _⟩ := (c.mem_bound w v).mp hp
  obtain ⟨_, hadmitsQ, _⟩ := (c.mem_bound w v).mp hq
  have hskip := h.skipped f (List.mem_append_right es hf)
  have hboth : admits f.1 f.2 p := (admits_congr hskip hnode).mpr hadmitsQ
  exact (List.pairwise_append.mp h.apart).2.2 e he f hf p ⟨hadmitsP, hboth⟩

/-- Further expansions change no link that is there. -/
theorem LinkMap.getElem?_of_prefix {visits : Visits} {es fs : List Expansion} (h : visits.Splits fs)
    (hbegins : es <+: fs) {k : LinkKey} {value : LinkValue}
    (hk : (LinkMap.ofPostings w (es.flatMap (c.postingsOf v w.range)))[k]? = some value) :
    (LinkMap.ofPostings w (fs.flatMap (c.postingsOf v w.range)))[k]? = some value := by
  obtain ⟨later, rfl⟩ := hbegins
  have hmem : k ∈ LinkMap.ofPostings w (es.flatMap (c.postingsOf v w.range)) := by
    rw [ExtTreeMap.mem_iff_isSome_getElem?, hk]
    rfl
  have hnone : (LinkMap.ofPostings w (later.flatMap (c.postingsOf v w.range)))[k]? = none := by
    apply ExtTreeMap.getElem?_eq_none
    rw [LinkMap.mem_ofPostings]
    exact h.not_mem_keys c w v (LinkMap.mem_ofPostings.mp hmem)
  rw [List.flatMap_append, LinkMap.ofPostings_append, LinkMap.getElem?_merge, hk, hnone]

end Expansions

namespace Traversal

variable {w : Window} {s : Storage} {agent : String} {callerDepth calleeDepth : Nat}
  {withLocalLinks : Bool} {t : Traversal}

/-- Whenever a run ended, it expanded a side as far as the depth of that side goes. -/
theorem expanded_of_run (h : (run w callerDepth calleeDepth withLocalLinks agent s).1 = .ok t)
    (v : View) :
    t.expanded s.contents w callerDepth calleeDepth agent v =
      (Side.ofSeed v (depthOf callerDepth calleeDepth v) agent).expansions s.contents w
        (depthOf callerDepth calleeDepth v + 1) := by
  rw [expanded]
  rcases depth_lt_or_empty w h v with hlt | hempty
  · exact Side.expansions_of_depth_lt s.contents w hlt
  · rw [side_of_run w h v] at hempty
    by_cases hr : t.rounds ≤ depthOf callerDepth calleeDepth v + 1
    · exact (Side.expansions_of_empty s.contents w hempty hr).1.symm
    · exact Side.expansions_of_depth_lt s.contents w (Nat.lt_of_succ_lt (Nat.lt_of_not_le hr))

theorem getElem?_links_of_run
    (h : (run w callerDepth calleeDepth withLocalLinks agent s).1 = .ok t) {v : View} {k : LinkKey}
    (hk : k.direction = v.direction) :
    t.links[k]? = (LinkMap.ofPostings w
      (((Side.ofSeed v (depthOf callerDepth calleeDepth v) agent).expansions s.contents w
        (depthOf callerDepth calleeDepth v + 1)).flatMap (s.contents.postingsOf v w.range)))[k]? := by
  rw [getElem?_links w h hk, side_of_run w h v, Side.links_after s.contents w rfl,
    ← expanded_of_run h v]
  rfl

/-- Only an id that fits into an observation has links to other hosts. -/
theorem agent_le_of_mem_links
    (h : (run w callerDepth calleeDepth withLocalLinks agent s).1 = .ok t) {v : View} {k : LinkKey}
    (hmem : k ∈ t.links) (hk : k.direction = v.direction) : agent.utf8ByteSize ≤ maxAgentSize := by
  have hside := (mem_links_iff w h).mp ⟨hmem, hk⟩
  rw [side_of_run w h v, Side.mem_links_after s.contents w rfl] at hside
  obtain ⟨e, he, p, hp, hlinks⟩ := hside
  obtain ⟨_, _, path⟩ := Side.reaches_of_mem_expansions s.contents w he
  have hkey := (s.contents.mem_keys_postingsOf v w.range).mpr ⟨p, hp, hlinks⟩
  obtain ⟨l, hseed⟩ := path.seed_link (Side.nodeLink_of_mem_keys s.contents w hkey)
  obtain ⟨q, hq, _⟩ := (s.contents.nodeLink_iff w v).mp hseed
  obtain ⟨_, hadmits, _⟩ := (s.contents.mem_bound w v).mp hq
  have hagent := (admits_empty_iff.mp hadmits).1
  rw [Node.ofAgent, Node.agent_of] at hagent
  exact hagent ▸ q.agent_le

/-- The value of a link in the answer of a run. A run that fails has no links. -/
def valueOf (answer : Except Error Traversal) (k : LinkKey) : Option LinkValue :=
  answer.toOption.bind fun t => t.links[k]?

theorem valueOf_eq_some {answer : Except Error Traversal} {k : LinkKey} {value : LinkValue}
    (h : valueOf answer k = some value) : ∃ t, answer = .ok t ∧ t.links[k]? = some value := by
  cases answer with
  | error e => cases h
  | ok t => exact ⟨t, rfl, h⟩

/-- A run whose own depth in a direction is no smaller has every link of that direction, with the same
value, whatever else it is asked for. -/
theorem valueOf_of_depth_le (hs : s.AnswersScans) {callerDepth' calleeDepth' : Nat}
    {withLocalLinks' : Bool} {v : View}
    (hdepth : depthOf callerDepth calleeDepth v ≤ depthOf callerDepth' calleeDepth' v) {k : LinkKey}
    (hk : k.direction = v.direction) {value : LinkValue}
    (h : valueOf (run w callerDepth calleeDepth withLocalLinks agent s).1 k = some value) :
    valueOf (run w callerDepth' calleeDepth' withLocalLinks' agent s).1 k = some value := by
  obtain ⟨t, ht, hvalue⟩ := valueOf_eq_some h
  have hmem : k ∈ t.links := by
    rw [ExtTreeMap.mem_iff_isSome_getElem?, hvalue]
    rfl
  have hagent := agent_le_of_mem_links ht hmem hk
  obtain ⟨t', ht'⟩ := run_ok w hs callerDepth' calleeDepth'
    (Nat.lt_of_le_of_lt hagent (by decide)) fun _ => hagent
  rw [getElem?_links_of_run ht hk, Side.expansions_of_depth_le s.contents w hdepth (Nat.le_refl _)]
    at hvalue
  rw [ht']
  change t'.links[k]? = some value
  rw [getElem?_links_of_run ht' hk]
  exact LinkMap.getElem?_of_prefix s.contents w v (Side.splits_after s.contents w rfl _)
    (Side.expansions_prefix s.contents w _ (Nat.succ_le_succ hdepth)) hvalue

/-- The links of a direction, with their values, depend on its own depth only: not on the depth of the
other direction, nor on whether links inside the host are asked for. More depth keeps each of them as it
is, so it only adds links. -/
theorem links_by_own_depth (w : Window) (s : Storage) (agent : String) (hs : s.AnswersScans)
    (callerDepth calleeDepth callerDepth' calleeDepth' : Nat) (withLocalLinks withLocalLinks' : Bool) :
    (agent.utf8ByteSize ≤ maxAgentSize →
      ∃ t, (run w callerDepth calleeDepth withLocalLinks agent s).1 = .ok t) ∧
    ∀ v : View,
      (depthOf callerDepth calleeDepth v = depthOf callerDepth' calleeDepth' v →
        ∀ k, k.direction = v.direction →
          valueOf (run w callerDepth calleeDepth withLocalLinks agent s).1 k =
            valueOf (run w callerDepth' calleeDepth' withLocalLinks' agent s).1 k) ∧
      (depthOf callerDepth calleeDepth v ≤ depthOf callerDepth' calleeDepth' v →
        ∀ k value, k.direction = v.direction →
          valueOf (run w callerDepth calleeDepth withLocalLinks agent s).1 k = some value →
          valueOf (run w callerDepth' calleeDepth' withLocalLinks' agent s).1 k = some value) := by
  refine ⟨fun hagent => ?_, fun v => ⟨fun hdepth k hk => ?_, fun hdepth k value hk h => ?_⟩⟩
  · exact run_ok w hs callerDepth calleeDepth (Nat.lt_of_le_of_lt hagent (by decide)) fun _ => hagent
  · apply Option.ext
    intro value
    exact ⟨valueOf_of_depth_le hs (Nat.le_of_eq hdepth) hk,
      valueOf_of_depth_le hs (Nat.le_of_eq hdepth.symm) hk⟩
  · exact valueOf_of_depth_le hs hdepth hk h

open Sample

def firstLink : LinkKey where
  src := linkEnd 1 5000 "A" 1
  dst := linkEnd 2 80 "B" 7
  transport := .tcp
  direction := .outgoing

theorem links_by_own_depth_chain :
    ∃ value, valueOf (run window 0 0 true "A" chain).1 firstLink = some value ∧
      valueOf (run window 2 1 false "A" chain).1 firstLink = some value ∧
      valueOf (run window 0 0 true "A" chain).1 chainLink = none ∧
      (valueOf (run window 2 1 false "A" chain).1 chainLink).isSome := by
  obtain ⟨_, hdepths⟩ := links_by_own_depth window chain "A" (fun _ _ _ _ => rfl) 0 0 2 1 true false
  have hfound : (valueOf (run window 0 0 true "A" chain).1 firstLink).isSome := by decide +kernel
  obtain ⟨value, hvalue⟩ := Option.isSome_iff_exists.mp hfound
  obtain ⟨_, hdeeper⟩ := hdepths .callee
  exact ⟨value, hvalue, hdeeper (by decide) firstLink value rfl hvalue, by decide +kernel,
    by decide +kernel⟩

end Traversal

end NetAtlas

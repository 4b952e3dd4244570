import NetAtlas.Proofs.Atlas.Exploration

set_option autoImplicit false

/-!
# Runs

A run comes through whenever the storage answers and the seed's id fits into the keys. In each
direction its links are those of the nodes within the depth of that side: neither the covering of
whole agents nor the pids left out nor the check for visited nodes loses a link or adds one.
-/
namespace NetAtlas

open Std StoreM

namespace Side

variable (c : Contents) (w : Window) {v : View} {depth : Nat} {agent : String}

theorem agent_lt_of_mem_frontier (hagent : agent.utf8ByteSize < 65536) {r : Nat} {m : Node}
    (h : m ∈ ((ofSeed v depth agent).after c w r).frontier) : m.agent.utf8ByteSize < 65536 := by
  cases reaches_of_mem_frontier c w h with
  | seed =>
    rw [Node.ofAgent, Node.agent_of]
    exact hagent
  | step _ link far =>
    obtain ⟨p, _, hlinks⟩ := (c.nodeLink_iff w v).mp link
    have hle : m.agent.utf8ByteSize ≤ maxAgentSize := Binding.agent_le_of_links hlinks far
    unfold maxAgentSize at hle
    omega

theorem tryStepIn_after_ok (hagent : agent.utf8ByteSize < 65536) (r : Nat) :
    ((ofSeed v depth agent).after c w r).tryStepIn c w r =
      .ok ((ofSeed v depth agent).after c w (r + 1)) := by
  apply tryStepIn_ok
  intro e he
  exact agent_lt_of_mem_frontier c w hagent (Visits.mem_of_mem_claim he)

end Side

namespace Traversal

variable (c : Contents) (w : Window) {callerDepth calleeDepth : Nat} {agent : String}

theorem tryRoundIn_ok (hagent : agent.utf8ByteSize < 65536) {t : Traversal}
    (ht : t.Walked c w (Side.ofSeed .caller callerDepth agent)
      (Side.ofSeed .callee calleeDepth agent)) :
    t.tryRoundIn c w = .ok (t.roundIn c w) := by
  obtain ⟨hcaller, hcallee⟩ := ht
  have hsteps : t.caller.tryStepIn c w t.rounds = .ok (t.caller.stepIn c w t.rounds) ∧
      t.callee.tryStepIn c w t.rounds = .ok (t.callee.stepIn c w t.rounds) := by
    rw [hcaller, hcallee]
    exact ⟨Side.tryStepIn_after_ok c w hagent t.rounds,
      Side.tryStepIn_after_ok c w hagent t.rounds⟩
  rw [tryRoundIn, hsteps.1, hsteps.2]
  rfl

theorem tryWalkIn_ok (hagent : agent.utf8ByteSize < 65536) (fuel : Nat) {t : Traversal}
    (ht : t.Walked c w (Side.ofSeed .caller callerDepth agent)
      (Side.ofSeed .callee calleeDepth agent)) :
    ∃ t', tryWalkIn c w fuel t = .ok t' := by
  induction fuel generalizing t with
  | zero => exact ⟨t, rfl⟩
  | succ fuel ih =>
    rw [tryWalkIn]
    split
    · exact ⟨t, rfl⟩
    · rw [tryRoundIn_ok c w hagent ht]
      exact ih (walked_round c w ht)

/-- Only an id that is too long for a key keeps a run from coming through. -/
theorem run_ok {s : Storage} (hs : s.AnswersScans) (callerDepth calleeDepth : Nat)
    {withLocalLinks : Bool} (hagent : agent.utf8ByteSize < 65536)
    (hlocal : withLocalLinks → agent.utf8ByteSize ≤ maxAgentSize) :
    ∃ t, (run w callerDepth calleeDepth withLocalLinks agent s).1 = .ok t := by
  obtain ⟨calls, hrun⟩ :=
    (reading_run w callerDepth calleeDepth withLocalLinks agent).of_answersScans hs
  have hselect : ∃ internal, (selectLocal w withLocalLinks agent).answer s.contents = .ok internal := by
    cases withLocalLinks with
    | false => exact ⟨∅, rfl⟩
    | true => exact LocalLinks.answer_select_ok s.contents w (hlocal rfl)
  obtain ⟨internal, hselect⟩ := hselect
  have hstart : (start callerDepth calleeDepth agent internal).Walked s.contents w
      (Side.ofSeed .caller callerDepth agent) (Side.ofSeed .callee calleeDepth agent) := ⟨rfl, rfl⟩
  obtain ⟨t, hwalk⟩ := tryWalkIn_ok s.contents w hagent (fuel callerDepth calleeDepth) hstart
  refine ⟨t, ?_⟩
  rw [hrun, answer_run, hselect]
  exact hwalk

variable {s : Storage} {withLocalLinks : Bool} {t : Traversal}

/-- What a run expanded in one direction. -/
def expanded (c : Contents) (w : Window) (callerDepth calleeDepth : Nat) (agent : String)
    (t : Traversal) (v : View) : List Expansion :=
  (Side.ofSeed v (depthOf callerDepth calleeDepth v) agent).expansions c w t.rounds

def ledger (c : Contents) (w : Window) (callerDepth calleeDepth : Nat) (agent : String)
    (t : Traversal) (v : View) : List Posting :=
  (t.expanded c w callerDepth calleeDepth agent v).flatMap (c.postingsOf v w.range)

theorem side_of_run (h : (run w callerDepth calleeDepth withLocalLinks agent s).1 = .ok t) (v : View) :
    t.side v = (Side.ofSeed v (depthOf callerDepth calleeDepth v) agent).after s.contents w t.rounds := by
  obtain ⟨⟨hcaller, hcallee⟩, _⟩ := run_eq_ok w h
  cases v with
  | caller => exact hcaller
  | callee => exact hcallee

theorem frontier_of_finished {t : Traversal} (h : t.finished) (v : View) : (t.side v).frontier = [] := by
  obtain ⟨hcaller, hcallee⟩ := (Bool.and_eq_true _ _).mp h
  cases v with
  | caller => exact List.isEmpty_iff.mp hcaller
  | callee => exact List.isEmpty_iff.mp hcallee

/-- A run goes on beyond the depth of a side or leaves nothing waiting there. -/
theorem depth_lt_or_empty (h : (run w callerDepth calleeDepth withLocalLinks agent s).1 = .ok t)
    (v : View) : depthOf callerDepth calleeDepth v < t.rounds ∨ (t.side v).frontier = [] := by
  obtain ⟨_, _, hend⟩ := run_eq_ok w h
  refine hend.symm.imp (fun hrounds => ?_) fun hfinished => frontier_of_finished hfinished v
  rw [hrounds, fuel]
  cases v <;> simp only [depthOf] <;> omega

/-- When a run ends, everything within the depth of a side is covered. -/
theorem isVisited_of_run (h : (run w callerDepth calleeDepth withLocalLinks agent s).1 = .ok t)
    (v : View) {j : Nat} {n : Node} (hj : j ≤ depthOf callerDepth calleeDepth v)
    (path : s.contents.Reaches w v agent j n) : (t.side v).visits.isVisited n := by
  have hside := side_of_run w h v
  rw [hside]
  rcases depth_lt_or_empty w h v with hlt | hempty
  · exact Side.isVisited_of_reaches s.contents w path (by omega) hj
  · by_cases hr : t.rounds ≤ depthOf callerDepth calleeDepth v + 1
    · rw [hside] at hempty
      exact Side.isVisited_of_frontier_empty s.contents w path hr hempty
    · exact Side.isVisited_of_reaches s.contents w path (by omega) hj

theorem direction_of_mem_side (h : (run w callerDepth calleeDepth withLocalLinks agent s).1 = .ok t)
    {v : View} {k : LinkKey} (hk : k ∈ (t.side v).links) : k.direction = v.direction := by
  rw [side_of_run w h, Side.mem_links_after _ w rfl] at hk
  obtain ⟨_, _, p, _, hlinks⟩ := hk
  exact Binding.direction_of_links hlinks

/-- The links of a direction are those of its side, as they are there. -/
theorem getElem?_links (h : (run w callerDepth calleeDepth withLocalLinks agent s).1 = .ok t)
    {v : View} {k : LinkKey} (hk : k.direction = v.direction) :
    t.links[k]? = (t.side v).links[k]? := by
  obtain ⟨_, hinternal, _⟩ := run_eq_ok w h
  have hlocal : t.internal[k]? = none := by
    apply ExtTreeMap.getElem?_eq_none
    intro hmem
    have hd := (hinternal k hmem).symm.trans hk
    cases v <;> cases hd
  have hother : (t.side v.opposite).links[k]? = none := by
    apply ExtTreeMap.getElem?_eq_none
    intro hmem
    have hd := (direction_of_mem_side w h hmem).symm.trans hk
    cases v <;> cases hd
  cases v with
  | caller =>
    change t.callee.links[k]? = none at hother
    change _ = t.caller.links[k]?
    rw [links, LinkMap.getElem?_merge, LinkMap.getElem?_merge, hlocal, hother]
    cases t.caller.links[k]? with
    | none => rfl
    | some value => rfl
  | callee =>
    change t.caller.links[k]? = none at hother
    change _ = t.callee.links[k]?
    rw [links, LinkMap.getElem?_merge, LinkMap.getElem?_merge, hlocal, hother]
    cases t.callee.links[k]? with
    | none => rfl
    | some value => rfl

theorem mem_links_iff (h : (run w callerDepth calleeDepth withLocalLinks agent s).1 = .ok t)
    {v : View} {k : LinkKey} :
    k ∈ t.links ∧ k.direction = v.direction ↔ k ∈ (t.side v).links := by
  constructor
  · rintro ⟨hmem, hk⟩
    rw [ExtTreeMap.mem_iff_isSome_getElem?] at hmem ⊢
    rw [← getElem?_links w h hk]
    exact hmem
  · intro hmem
    have hk := direction_of_mem_side w h hmem
    rw [ExtTreeMap.mem_iff_isSome_getElem?] at hmem ⊢
    rw [getElem?_links w h hk]
    exact ⟨hmem, hk⟩

/-- A run comes through unless an id is too long, and finds in each direction exactly the links of
the nodes within the depth of that side. -/
theorem run_links_within_depth (w : Window) (s : Storage) (callerDepth calleeDepth : Nat)
    (withLocalLinks : Bool) (agent : String) :
    (s.AnswersScans ∧ agent.utf8ByteSize < 65536 ∧
        (withLocalLinks → agent.utf8ByteSize ≤ maxAgentSize) →
      ∃ t, (run w callerDepth calleeDepth withLocalLinks agent s).1 = .ok t) ∧
    ∀ t, (run w callerDepth calleeDepth withLocalLinks agent s).1 = .ok t →
      ∀ (v : View) (k : LinkKey), k ∈ t.links ∧ k.direction = v.direction ↔
        ∃ j n, j ≤ depthOf callerDepth calleeDepth v ∧ s.contents.Reaches w v agent j n ∧
          s.contents.NodeLink w v n k := by
  constructor
  · rintro ⟨hs, hagent, hlocal⟩
    exact run_ok w hs callerDepth calleeDepth hagent hlocal
  · intro t h v k
    have hcover : ∀ j n, j ≤ depthOf callerDepth calleeDepth v → s.contents.Reaches w v agent j n →
        (t.side v).visits.isVisited n := fun j n hj path => isVisited_of_run w h v hj path
    rw [side_of_run w h v] at hcover
    rw [mem_links_iff w h, side_of_run w h v, Side.mem_links_iff s.contents w hcover]

end Traversal

namespace Sample

def host (n : UInt8) : Ip := ⟨.v4, [10, 0, 0, n], rfl⟩

def address (agent : String) (n : UInt8) : AddressSet := ⟨agent, 1000, [host n]⟩

def report (agent : String) (pid : Int32) (direction : Direction) (src dst : Ip × Int32)
    (sent : Int64) : Draft where
  agent := agent
  pid := pid
  direction := some direction
  src := some src
  dst := some dst
  counters := { sent }
  time := 1000

def insertAll (addresses : List AddressSet) (drafts : List Draft) : StoreM Unit := do
  addresses.forM AddressRegistry.insert
  drafts.forM fun d => do insertObservation (← StoreM.reject d.build)

/-- A storage that answers and holds some addresses and reports. -/
def storage (addresses : List AddressSet) (drafts : List Draft) : Storage where
  contents := (insertAll addresses drafts { contents := .memory .empty }).2.contents

/-- A process behind a port of a host; there is no port 0. -/
def linkEnd (n : UInt8) (port : UInt16) (agent : String) (pid : Int32) : LinkEnd where
  address := if h : 0 < port then ⟨host n, port, h⟩ else ⟨host n, 1, by decide⟩
  node := some (Node.of agent pid)

def window : Window := ⟨⟨900, 1100, by decide, by decide⟩, 300, by decide⟩

end Sample

namespace Traversal

open Sample

/-- Three hosts, each calling the next. -/
def chain : Storage := Sample.storage [address "A" 1, address "B" 2, address "C" 3]
  [report "A" 1 .outgoing (host 1, 5000) (host 2, 80) 1,
   report "B" 7 .incoming (host 1, 5000) (host 2, 80) 2,
   report "B" 7 .outgoing (host 2, 5001) (host 3, 80) 3,
   report "C" 9 .incoming (host 2, 5001) (host 3, 80) 4]

def chainLink : LinkKey where
  src := linkEnd 2 5001 "B" 7
  dst := linkEnd 3 80 "C" 9
  transport := .tcp
  direction := .outgoing

theorem run_links_within_depth_chain :
    ∃ t, (run window 0 1 false "A" chain).1 = .ok t ∧ chainLink ∈ t.links ∧
      ∃ j n, j ≤ 1 ∧ chain.contents.Reaches window .callee "A" j n ∧
        chain.contents.NodeLink window .callee n chainLink := by
  obtain ⟨hok, hlinks⟩ := run_links_within_depth window chain 0 1 false "A"
  obtain ⟨t, ht⟩ := hok ⟨fun _ _ _ _ => rfl, by decide, fun _ => by decide⟩
  have hfound : ((run window 0 1 false "A" chain).1.toOption.any fun t =>
      t.links.contains chainLink) = true := by decide +kernel
  rw [ht] at hfound
  have hmem : chainLink ∈ t.links := ExtTreeMap.contains_iff_mem.mp hfound
  exact ⟨t, ht, hmem, (hlinks t ht .callee chainLink).mp ⟨hmem, rfl⟩⟩

end Traversal

end NetAtlas

import NetAtlas.Atlas.Binding
import NetAtlas.Atlas.LocalLinks
import NetAtlas.Atlas.Lookups
import NetAtlas.Atlas.Visits

set_option autoImplicit false

/-!
# Traversal

From a seed agent the callers and the callees are walked in rounds, each side with a frontier and a
depth of its own. Round `r` expands a side while `r` is at most its depth, so depth 0 finds the seed's
own links. A round fails at the first call the storage does not answer, the callers' side first.
-/
namespace NetAtlas

open Std

/-- One side of a traversal: the view it walks along and what it has found. -/
structure Side where
  view : View
  depth : Nat
  frontier : List Node
  visits : Visits
  links : LinkMap

namespace Side

def ofSeed (view : View) (depth : Nat) (agent : String) : Side where
  view
  depth
  frontier := [Node.ofAgent agent]
  visits := Visits.empty
  links := ∅

/-- The end of a link that lies away from the seed. -/
def farEnd (v : View) (key : LinkKey) : LinkEnd :=
  match v with
  | .caller => key.src
  | .callee => key.dst

def linksAt (w : Window) (v : View) (n : Node) (skip : PidGroup) (ips : ExtTreeSet Ip) :
    StoreM LinkMap := do
  let bound ← ips.toList.mapM fun ip => Binding.bind w v n skip ip
  return bound.foldl LinkMap.merge ∅

/-- The links of one node at all addresses of its agent. -/
def nodeLinks (w : Window) (v : View) (n : Node) (skip : PidGroup) : LookupM LinkMap := do
  linksAt w v n skip (← LookupM.addresses n.agent w.range)

/-- The known nodes at the far ends of links that were not expanded yet. -/
def nextFrontier (v : View) (visits : Visits) (found : LinkMap) : List Node :=
  let nodes := found.keys.filterMap fun key => (farEnd v key).node
  (ExtTreeSet.ofList (nodes.filter fun n => !visits.isVisited n)).toList

def explore (w : Window) (s : Side) : LookupM Side := do
  let (claims, visits) := s.visits.claim s.frontier
  let perNode ← claims.mapM fun (n, skip) => nodeLinks w s.view n skip
  let found := perNode.foldl LinkMap.merge ∅
  return { s with
    frontier := nextFrontier s.view visits found
    visits
    links := s.links.merge found }

/-- An expansion on its own, before which no addresses are known. -/
def expand (w : Window) (s : Side) : StoreM Side := (s.explore w).run' ∅

/-- A side beyond its depth has nothing left to expand. -/
def step (w : Window) (round : Nat) (s : Side) : LookupM Side :=
  if round ≤ s.depth then s.explore w else return { s with frontier := [] }

end Side

structure Traversal where
  caller : Side
  callee : Side
  rounds : Nat
  internal : LinkMap

namespace Traversal

def links (t : Traversal) : LinkMap := (t.internal.merge t.caller.links).merge t.callee.links

def finished (t : Traversal) : Bool := t.caller.frontier.isEmpty && t.callee.frontier.isEmpty

def round (w : Window) (t : Traversal) : LookupM Traversal := do
  let caller ← t.caller.step w t.rounds
  let callee ← t.callee.step w t.rounds
  return { t with caller, callee, rounds := t.rounds + 1 }

/-- Rounds until both frontiers are empty, `fuel` of them at most. -/
def walk (w : Window) : Nat → Traversal → LookupM Traversal
  | 0, t => return t
  | fuel + 1, t => do if t.finished then return t else walk w fuel (← t.round w)

/-- The rounds after the deepest one find both frontiers empty. -/
def fuel (callerDepth calleeDepth : Nat) : Nat := max callerDepth calleeDepth + 2

def start (callerDepth calleeDepth : Nat) (agent : String) (internal : LinkMap) : Traversal where
  caller := Side.ofSeed .caller callerDepth agent
  callee := Side.ofSeed .callee calleeDepth agent
  rounds := 0
  internal := internal

def run (w : Window) (callerDepth calleeDepth : Nat) (withLocalLinks : Bool) (agent : String) :
    StoreM Traversal := do
  let internal ← if withLocalLinks then LocalLinks.select w agent else pure ∅
  (walk w (fuel callerDepth calleeDepth) (start callerDepth calleeDepth agent internal)).run' ∅

end Traversal

end NetAtlas

import NetAtlas.Record.Registry
import NetAtlas.Socket.Node

set_option autoImplicit false

/-!
# Visited nodes

What was expanded of each agent in one direction. Expanding an agent node covers all its processes,
so whoever expands it after some of its pids has to leave those out.
-/
namespace NetAtlas

open Std

/-- What was expanded of one agent. -/
inductive Coverage
  | whole
  | pids (pids : PidGroup)
  deriving DecidableEq

structure Visits where
  agents : ExtTreeMap String Coverage
  expanded : Nat

namespace Visits

def empty : Visits := ⟨∅, 0⟩

def coverage (v : Visits) (agent : String) : Coverage := v.agents.getD agent (.pids ∅)

def isVisited (v : Visits) (n : Node) : Bool :=
  match v.coverage n.agent with
  | .whole => true
  | .pids pids => n.hasPid && pids.contains n.pid

def mark (v : Visits) (agent : String) (c : Coverage) : Visits :=
  ⟨v.agents.insert agent c, v.expanded + 1⟩

/-- Claims a node: nothing if it is covered, otherwise the pids of its agent that were expanded
before and are not to be expanded with it. -/
def visit (v : Visits) (n : Node) : Option PidGroup × Visits :=
  match v.coverage n.agent with
  | .whole => (none, v)
  | .pids pids =>
    if n.hasPid then
      if pids.contains n.pid then (none, v) else (some ∅, v.mark n.agent (.pids (pids.insert n.pid)))
    else (some pids, v.mark n.agent .whole)

/-- Claims nodes one after another; answers those that were not covered. -/
def claim (v : Visits) : List Node → List (Node × PidGroup) × Visits
  | [] => ([], v)
  | n :: ns =>
    match v.visit n with
    | (none, v) => v.claim ns
    | (some skip, v) =>
      let (claims, v) := v.claim ns
      ((n, skip) :: claims, v)

end Visits

/-- What was expanded in each direction. Only incoming and outgoing links are followed, and every other
direction is kept with the outgoing ones. -/
structure VisitTracker where
  incoming : Visits
  outgoing : Visits

namespace VisitTracker

def empty : VisitTracker := ⟨.empty, .empty⟩

def visits (t : VisitTracker) : Direction → Visits
  | .incoming => t.incoming
  | _ => t.outgoing

def isVisited (t : VisitTracker) (d : Direction) (n : Node) : Bool := (t.visits d).isVisited n

def visit (t : VisitTracker) (d : Direction) (n : Node) : Option PidGroup × VisitTracker :=
  let (skip, visits) := (t.visits d).visit n
  match d with
  | .incoming => (skip, { t with incoming := visits })
  | _ => (skip, { t with outgoing := visits })

def count (t : VisitTracker) (d : Direction) : Nat := (t.visits d).expanded

end VisitTracker

end NetAtlas

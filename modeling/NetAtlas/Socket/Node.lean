import NetAtlas.Address.Endpoint

set_option autoImplicit false

/-!
# Processes and link ends

A node is a process: an agent and a pid. The pid -1 stands for an agent whose process is not known,
and every negative pid is read as that one. A link end is an endpoint, with its owner where known; an
end without owner sorts before the same endpoint with one.
-/
namespace NetAtlas

open Std

def unknownPid : Int32 := -1

structure Node where
  agent : String
  pid : Int32
  pid_ge : unknownPid ≤ pid
  deriving DecidableEq, Repr

namespace Node

theorem eq_of_parts {a b : Node} (ha : a.agent = b.agent) (hp : a.pid = b.pid) : a = b := by
  cases a; cases b; simp_all

instance : Ord Node := ⟨compareLex (compareOn agent) (compareOn pid)⟩

instance : TransOrd Node := inferInstanceAs (TransCmp (compareLex (compareOn agent) (compareOn pid)))

instance : LawfulEqOrd Node := lawfulEqCmp_compareLex fun _ _ ha hp =>
  eq_of_parts (LawfulEqCmp.eq_of_compare ha) (LawfulEqCmp.eq_of_compare hp)

def of (agent : String) (pid : Int32) : Node :=
  if h : pid < 0 then ⟨agent, unknownPid, Int32.le_refl _⟩
  else ⟨agent, pid, by
    have h0 : (0 : Int32) ≤ pid := Int32.not_lt.mp h
    exact Int32.le_trans (by decide) h0⟩

/-- The agent as a whole, its process unknown. -/
def ofAgent (agent : String) : Node := of agent unknownPid

def hasPid (n : Node) : Bool := n.pid ≠ unknownPid

/-- The same agent without the pid. -/
def toAgent (n : Node) : Node := ofAgent n.agent

def text (n : Node) : String := s!"{n.agent}:{n.pid}"

end Node

/-- One end of a link. -/
structure LinkEnd where
  address : Endpoint
  node : Option Node
  deriving DecidableEq, Repr

namespace LinkEnd

theorem eq_of_parts {a b : LinkEnd} (ha : a.address = b.address) (hn : a.node = b.node) : a = b := by
  cases a; cases b; simp_all

instance : Ord LinkEnd := ⟨compareLex (compareOn address) (compareOn node)⟩

instance : TransOrd LinkEnd :=
  inferInstanceAs (TransCmp (compareLex (compareOn address) (compareOn node)))

instance : LawfulEqOrd LinkEnd := lawfulEqCmp_compareLex fun _ _ ha hn =>
  eq_of_parts (LawfulEqCmp.eq_of_compare ha) (LawfulEqCmp.eq_of_compare hn)

end LinkEnd

end NetAtlas

import NetAtlas.Socket.Observation

set_option autoImplicit false

/-!
# Views

A connection between two hosts is reported from both sides. Each side's reports have a view of their
own, indexed by the reporter's own address: accepted connections show who called and make the caller
view, opened connections show who was called and make the callee view.
-/
namespace NetAtlas

inductive View
  | caller
  | callee
  deriving DecidableEq, Repr

namespace View

def name : View → String
  | caller => "Caller"
  | callee => "Callee"

/-- The direction of the reports a view holds. -/
def direction : View → Direction
  | caller => .incoming
  | callee => .outgoing

/-- Connections inside one host have no view among these. -/
def ofDirection? : Direction → Option View
  | .incoming => some caller
  | .outgoing => some callee
  | .internal => none

/-- The view that holds the other side's reports. -/
def opposite : View → View
  | caller => callee
  | callee => caller

/-- The reporter's own end of a socket. -/
def own (v : View) (o : Observation) : Endpoint :=
  match v with
  | caller => o.dst
  | callee => o.src

/-- The far end of a socket. -/
def peer (v : View) (o : Observation) : Endpoint :=
  match v with
  | caller => o.src
  | callee => o.dst

theorem ofDirection?_direction (v : View) : ofDirection? v.direction = some v := by cases v <;> rfl

theorem opposite_opposite (v : View) : v.opposite.opposite = v := by cases v <;> rfl

theorem own_opposite (v : View) (o : Observation) : v.opposite.own o = v.peer o := by cases v <;> rfl

end View

end NetAtlas

set_option autoImplicit false

/-!
# Members of a record

A record is offered either by names or by position. By name a known member may not come twice and an
unknown one is passed over; by position there may be fewer items than members, but not more. Either
way it becomes a look-up by name.
-/
namespace NetAtlas

abbrev Members (α : Type) := String → Option α

namespace Members

variable {α β : Type}

def ofPairs? (names : List String) (pairs : List (String × α)) : Option (Members α) :=
  if ∀ name ∈ names, (pairs.map (·.1)).count name ≤ 1 then some fun name => pairs.lookup name
  else none

def ofItems? (names : List String) (items : List α) : Option (Members α) :=
  if items.length ≤ names.length then some fun name => (names.zip items).lookup name else none

/-- Reads a member that has to be there. -/
def required (m : Members α) (read : α → Option β) (name : String) : Option β := m name >>= read

/-- Reads a member if it is there. -/
def optional (m : Members α) (read : α → Option β) (name : String) (default : β) : Option β :=
  match m name with
  | some v => read v
  | none => some default

end Members

end NetAtlas

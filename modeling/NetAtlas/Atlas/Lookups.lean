import NetAtlas.Store.Registries

set_option autoImplicit false

/-!
# Address lookups

A query asks for the addresses of an agent once and remembers them. A lookup that fails is not
remembered.
-/
namespace NetAtlas

open Std

/-- The addresses found so far, by agent. -/
abbrev Lookups := ExtTreeMap String (ExtTreeSet Ip)

abbrev LookupM (α : Type) := StateT Lookups StoreM α

namespace LookupM

def addresses (agent : String) (range : TimeRange) : LookupM (ExtTreeSet Ip) := do
  match (← get)[agent]? with
  | some known => return known
  | none =>
    let found ← AddressRegistry.addresses agent range
    modify (·.insert agent found)
    return found

end LookupM

end NetAtlas

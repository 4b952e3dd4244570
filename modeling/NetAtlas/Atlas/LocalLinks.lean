import NetAtlas.Link.Map
import NetAtlas.Store.Registries

set_option autoImplicit false

/-!
# Links inside a host

The self view knows connections whose ends are on one host. Each socket pair of each pid in the
registry is a link with the reporting process at both ends.
-/
namespace NetAtlas

namespace LocalLinks

def contribution (w : Window) (o : Observation) : LinkKey × LinkValue :=
  (⟨⟨o.src, some o.node⟩, ⟨o.dst, some o.node⟩, o.transport, .internal⟩,
    LinkValue.ofObservations w [o])

def select (w : Window) (agent : String) : StoreM LinkMap := do
  let pids ← PidRegistry.pids agent w.range
  let found ← pids.toList.mapM fun pid => SelfView.query agent pid w.range
  return LinkMap.ofList (found.flatten.map (contribution w))

end LocalLinks

end NetAtlas

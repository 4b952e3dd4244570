import NetAtlas.Link.Map

set_option autoImplicit false

/-!
# Atlases

The answer to a map query: links in the order of their keys and the ends they join. A socket reached
from both of its ends is found once in each direction; the first of the two links is kept.
-/
namespace NetAtlas

open Std

structure Atlas where
  nodes : List LinkEnd
  links : List Link

namespace Atlas

/-- Of neighbours over the same socket the first is kept. -/
def keepFirst (previous : Option LinkKey) : List Link → List Link
  | [] => []
  | l :: ls =>
    if previous.any l.key.sameSocket then keepFirst previous ls else l :: keepFirst (some l.key) ls

def assemble (m : LinkMap) : Atlas :=
  let links := keepFirst none m.links
  ⟨(ExtTreeSet.ofList (links.flatMap fun l => [l.key.src, l.key.dst])).toList, links⟩

/-- The processes at the ends of links. -/
def processes (a : Atlas) : List Node := (ExtTreeSet.ofList (a.nodes.filterMap (·.node))).toList

def isEmpty (a : Atlas) : Bool := a.links.isEmpty

end Atlas

end NetAtlas

import NetAtlas.Proofs.Link.Tallies

set_option autoImplicit false

/-!
# Collecting links

Contributions to links are collected in maps, and these are merged, each merge going through the other
map's links in whatever order it has them. The links that come out, in the order of their keys, are
decided by the contributions as a bag.
-/
namespace NetAtlas

open Std

namespace LinkValue

end LinkValue

namespace LinkMap

/-- The links of a map that is gone through in some order, sorted by their keys. -/
def sorted (order : List (LinkKey × LinkValue)) : List Link :=
  (order.map fun (key, value) => ⟨key, value⟩).mergeSort fun a b => (compare a.key b.key).isLE

variable {cs ds : List (LinkKey × LinkValue)} {m n : LinkMap} {k : LinkKey}

theorem links_ascend (m : LinkMap) : m.links.Pairwise fun a b => compare a.key b.key = .lt :=
  List.pairwise_map.mpr ExtTreeMap.ordered_keys_toList

end LinkMap

end NetAtlas

import NetAtlas.Link.Value

set_option autoImplicit false

/-!
# Links

A link joins two ends over a transport, as found in one direction; the caller's end is its source.
A link map holds one value for each link. Links sort by source, target, transport and direction.
-/
namespace NetAtlas

open Std

structure LinkKey where
  src : LinkEnd
  dst : LinkEnd
  transport : Transport
  direction : Direction
  deriving DecidableEq, Repr

namespace LinkKey

theorem eq_of_parts {a b : LinkKey} (hs : a.src = b.src) (hd : a.dst = b.dst)
    (ht : a.transport = b.transport) (hr : a.direction = b.direction) : a = b := by
  cases a; cases b; simp_all

/-- The order of ends and transport, the direction left aside. -/
def compareSocket : LinkKey → LinkKey → Ordering :=
  compareLex (compareOn src) (compareLex (compareOn dst) (compareOn transport))

instance : TransCmp compareSocket := by unfold compareSocket; infer_instance

instance : Ord LinkKey := ⟨compareLex compareSocket (compareOn direction)⟩

instance : TransOrd LinkKey :=
  inferInstanceAs (TransCmp (compareLex compareSocket (compareOn direction)))

instance : LawfulEqOrd LinkKey := lawfulEqCmp_compareLex fun a b hs hr => by
  simp only [compareSocket, compareLex_eq_eq] at hs
  exact eq_of_parts (LawfulEqCmp.eq_of_compare hs.1) (LawfulEqCmp.eq_of_compare hs.2.1)
    (LawfulEqCmp.eq_of_compare hs.2.2) (LawfulEqCmp.eq_of_compare hr)

/-- The same ends over the same transport, whatever the direction. -/
def sameSocket (a b : LinkKey) : Bool := a.src = b.src ∧ a.dst = b.dst ∧ a.transport = b.transport

end LinkKey

structure Link where
  key : LinkKey
  value : LinkValue
  deriving DecidableEq

abbrev LinkMap := ExtTreeMap LinkKey LinkValue

namespace LinkMap

/-- Merges a value into that of its link. -/
def add (m : LinkMap) (key : LinkKey) (value : LinkValue) : LinkMap :=
  m.alter key fun old => some (match old with | none => value | some v => v.merge value)

def ofList (contributions : List (LinkKey × LinkValue)) : LinkMap :=
  contributions.foldl (fun m (key, value) => m.add key value) ∅

def merge (m n : LinkMap) : LinkMap := n.foldl add m

/-- The links in the order of their keys. -/
def links (m : LinkMap) : List Link := m.toList.map fun (key, value) => ⟨key, value⟩

end LinkMap

end NetAtlas

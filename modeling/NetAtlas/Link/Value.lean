import NetAtlas.Link.Stat
import NetAtlas.Socket.Observation
import NetAtlas.Time.Window

set_option autoImplicit false

/-!
# Link values

The traffic of a link over time: one statistic for each slot of a window in which something was
observed.
-/
namespace NetAtlas

open Std

abbrev LinkValue := ExtTreeMap Int Stat

namespace LinkValue

/-- Merges a statistic into that of a slot. -/
def mergeAt (v : LinkValue) (slot : Int) (stat : Stat) : LinkValue :=
  v.alter slot fun old => some ((old.getD .zero).merge stat)

def add (w : Window) (v : LinkValue) (o : Observation) : LinkValue :=
  v.mergeAt (w.refine o.time.toInt) (.ofCounters o.counters)

def ofObservations (w : Window) (os : List Observation) : LinkValue := os.foldl (add w) ∅

def merge (v u : LinkValue) : LinkValue := u.foldl mergeAt v

/-- All slots taken together. -/
def total (v : LinkValue) : Stat := v.foldl (fun sum _ stat => sum.merge stat) .zero

end LinkValue

end NetAtlas

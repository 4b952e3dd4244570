import NetAtlas.MessagePack.Members
import NetAtlas.MessagePack.Reader
import NetAtlas.MessagePack.Writer
import NetAtlas.Store.Packed

set_option autoImplicit false

/-!
# Snapshots

A packed store as one byte string: a map from the names of its trees to their rows.
-/
namespace NetAtlas

open MessagePack Std

namespace Packed

def rowsValue (rows : ExtTreeMap Bytes Bytes) : Value :=
  .map (rows.toList.map fun (key, bytes) => (.bytes key, .bytes bytes))

def toSnapshot (p : Packed) : Bytes :=
  encode (.map (p.trees.toList.map fun (name, rows) => (.text name, rowsValue rows)))

def row? : Value × Value → Option (Bytes × Bytes)
  | (.bytes key, .bytes bytes) => some (key, bytes)
  | _ => none

def rows? : Value → Option (ExtTreeMap Bytes Bytes)
  | .map entries => do return ExtTreeMap.ofList (← entries.mapM row?)
  | _ => none

def ofSnapshot? (bs : Bytes) : Option Packed := do
  let .map entries ← decode? bs | none
  let trees ← entries.mapM fun (name, rows) => return (← name.text?, ← rows? rows)
  return ⟨ExtTreeMap.ofList trees⟩

end Packed

end NetAtlas

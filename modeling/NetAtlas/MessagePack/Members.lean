import NetAtlas.Members
import NetAtlas.MessagePack.Value

set_option autoImplicit false

/-!
# Records in MessagePack

A record is a map or an array. Wherever text is asked for, the same text as a byte string will do.
The keys of a map are names, or positions written in one byte or in eight.
-/
namespace NetAtlas

namespace MessagePack

namespace Value

def text? : Value → Option String
  | text s => some s
  | bytes bs => (Utf8.decode bs).toOption
  | _ => none

def int? : Value → Option Int
  | natural _ n => some n
  | signed _ v => some v
  | _ => none

def int32? (v : Value) : Option Int32 := do
  let n ← v.int?
  if -0x80000000 ≤ n ∧ n < 0x80000000 then return Int32.ofInt n else failure

def int64? (v : Value) : Option Int64 := do
  let n ← v.int?
  if -0x8000000000000000 ≤ n ∧ n < 0x8000000000000000 then return Int64.ofInt n else failure

def nat32? (v : Value) : Option Nat := do
  let n ← v.int?
  if 0 ≤ n ∧ n < 0x100000000 then return n.toNat else failure

/-- An array whose items are all of one kind. -/
def list? {α : Type} (item : Value → Option α) : Value → Option (List α)
  | array items => items.mapM item
  | _ => none

/-- The name a key stands for, which is unknown for bytes that are no text and for positions beyond
the names. Other keys are not usable. -/
def keyName? (names : List String) : Value → Option (Option String)
  | text s => some (some s)
  | bytes bs => some (Utf8.decode bs).toOption
  | natural .one n => some names[n]?
  | natural .eight n => some names[n]?
  | _ => none

def members? (names : List String) : Value → Option (Members Value)
  | map entries => do
    let pairs ← entries.mapM fun (key, v) => return (← keyName? names key).map fun name => (name, v)
    Members.ofPairs? names (pairs.filterMap id)
  | array items => Members.ofItems? names items
  | _ => none

end Value

end MessagePack

end NetAtlas

import NetAtlas.Record.Registry
import NetAtlas.Store.Table

set_option autoImplicit false

/-!
# Packed rows

A tree maps keys to byte strings, so a row is packed: the length and bytes of each cell's qualifier,
then of its value. There is one tree for each column, known by the column's name. Bytes that do not
unpack are skipped by a scan and kept by a put, which then fails.
-/
namespace NetAtlas

open Std

namespace Row

def packPart (part : Bytes) : Bytes := Bytes.bigEndian 4 part.length ++ part

def pack (cells : List Cell) : Bytes :=
  cells.flatMap fun c => packPart c.qualifier ++ packPart c.value

def readPart : Reader Bytes := do
  let size ← ExceptT.adapt (fun _ => .cellLength) (Reader.take 4)
  ExceptT.adapt (fun _ => .cellPayload) (Reader.take (Bytes.toNat size))

def unpack (bs : Bytes) : Except Corruption (List Cell) :=
  (Reader.many do return ⟨← readPart, ← readPart⟩).read bs

/-- Where a qualifier is looked for: halves are dropped, the upper one if it starts above the
qualifier, until one cell is left. In a sorted row that is the last cell not above the qualifier, or
the first one. -/
def seek (qualifier : Bytes) (cells : List Cell) : Nat :=
  let half := cells.length / 2
  if h : half = 0 then 0
  else
    have inside : half < cells.length := by omega
    if compare cells[half].qualifier qualifier = .gt then
      seek qualifier (cells.take (cells.length - half))
    else half + seek qualifier (cells.drop half)
termination_by cells.length
decreasing_by
  · simp only [List.length_take]; omega
  · simp only [List.length_drop]; omega

/-- Replaces the value at the place found, or puts a new cell beside it. -/
def upsert (qualifier value : Bytes) (cells : List Cell) : List Cell :=
  let i := seek qualifier cells
  match cells[i]? with
  | none => [⟨qualifier, value⟩]
  | some found =>
    match compare found.qualifier qualifier with
    | .eq => cells.take i ++ ⟨found.qualifier, value⟩ :: cells.drop (i + 1)
    | .lt => cells.take (i + 1) ++ ⟨qualifier, value⟩ :: cells.drop (i + 1)
    | .gt => cells.take i ++ ⟨qualifier, value⟩ :: cells.drop i

end Row

structure Packed where
  trees : ExtTreeMap String (ExtTreeMap Bytes Bytes)

namespace Packed

def empty : Packed := ⟨∅⟩

def tree (p : Packed) (column : Column) : ExtTreeMap Bytes Bytes := p.trees.getD column.name ∅

/-- One run of a put on the bytes a row has: the bytes to store, and whether the row was corrupt. A
tree may run it again on newer bytes; what an earlier run reported is forgotten. -/
def update (qualifier value : Bytes) (old : Option Bytes) (_corrupt : Bool) : Option Bytes × Bool :=
  match old.map Row.unpack with
  | none => (some (Row.pack (Row.upsert qualifier value [])), false)
  | some (.ok cells) => (some (Row.pack (Row.upsert qualifier value cells)), false)
  | some (.error _) => (old, true)

def put (p : Packed) (column : Column) (row qualifier value : Bytes) : Except Corruption Packed :=
  let tree := p.tree column
  let (bytes, corrupt) := update qualifier value tree[row]? false
  if corrupt then .error (.row column.name)
  else .ok ⟨p.trees.insert column.name (tree.alter row fun _ => bytes)⟩

def scan (p : Packed) (column : Column) (start stop : Bytes) : List Row :=
  ((p.tree column).toList.filter fun (key, _) => Bytes.between start stop key).filterMap
    fun (key, bytes) => (Row.unpack bytes).toOption.map (⟨key, ·⟩)

/-- Stores bytes as a row without packing. -/
def putRaw (p : Packed) (column : Column) (row bytes : Bytes) : Packed :=
  ⟨p.trees.insert column.name ((p.tree column).insert row bytes)⟩

end Packed

end NetAtlas

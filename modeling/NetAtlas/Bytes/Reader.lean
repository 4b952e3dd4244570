import NetAtlas.Error
import NetAtlas.Bytes.Varint

set_option autoImplicit false

/-!
# Reading bytes in order

A reader takes fields off the front of a byte string. A read that fails keeps what it had already
taken: a number whose length or text is at fault is behind the cursor, a field that is cut off is not.
-/
namespace NetAtlas

/-- The bytes that are left, and how many were taken before them. -/
structure Cursor where
  offset : Nat
  rest : Bytes
  deriving DecidableEq, Repr

def Cursor.ofBytes (bs : Bytes) : Cursor := ⟨0, bs⟩

abbrev Reader (α : Type) := ExceptT Corruption (StateM Cursor) α

namespace Reader

def takeExactly (n : Nat) : Reader { bs : Bytes // bs.length = n } := fun c =>
  if h : (c.rest.take n).length = n then (.ok ⟨c.rest.take n, h⟩, ⟨c.offset + n, c.rest.drop n⟩)
  else (.error (.truncated n c.offset c.rest.length), c)

def take (n : Nat) : Reader Bytes := Subtype.val <$> takeExactly n

def byte : Reader UInt8 := do return (← take 1).headD 0

def int32 : Reader Int32 := do return Bytes.toInt32 (← take 4)

def int64 : Reader Int64 := do return Bytes.toInt64 (← take 8)

def text : Reader String := do
  let size ← take 2
  match Utf8.decode (← take (Bytes.toNat size)) with
  | .ok s => return s
  | .error fault => throw (.badText fault)

/-- A number of which `more` bytes may follow the first one. The last byte that may stand carries the
top bit alone. -/
def groups : Nat → Reader Nat
  | 0 => do
    let b ← byte
    if 1 < b then throw .varintOverflow else return b.toNat
  | more + 1 => do
    let b ← byte
    if b < 128 then return b.toNat else return b.toNat % 128 + 128 * (← groups more)

def varint : Reader Int64 := do return (UInt64.ofNat (← groups (Varint.maxLength - 1))).toInt64

def varint32 : Reader Int32 := do
  let v ← varint
  if v.toInt32.toInt64 = v then return v.toInt32 else throw (.varintOutOfRange v)

def family : Reader Family := do
  let code ← byte
  match Family.ofCode? code with
  | some f => return f
  | none => throw (.unknownFamily code)

def transport : Reader Transport := do
  let code ← byte
  match Transport.ofCode? code with
  | some t => return t
  | none => throw (.unknownTransport code)

def ip (family : Family) : Reader Ip := do
  let octets ← takeExactly family.width
  return ⟨family, octets.1, octets.2⟩

/-- Bytes that are left over are an error. -/
def finish : Reader Unit := do
  let c ← get
  if c.rest = [] then return () else throw (.trailing c.rest.length)

/-- What a reader finds in a byte string. -/
def read {α : Type} (reader : Reader α) (bs : Bytes) : Except Corruption α :=
  (reader (Cursor.ofBytes bs)).1

end Reader

end NetAtlas

import NetAtlas.Bytes.Reader

set_option autoImplicit false

/-!
# Fields

The typed values records are written from. A field is read back by its kind; a byte string and an
address are read by the length and the family that the record fixes elsewhere.
-/
namespace NetAtlas

inductive Field
  | byte (v : UInt8)
  | int32 (v : Int32)
  | int64 (v : Int64)
  | bytes (v : Bytes)
  | text (v : String)
  | varint32 (v : Int32)
  | varint (v : Int64)
  | ip (v : Ip)
  deriving DecidableEq, Repr

namespace Field

inductive Kind
  | byte
  | int32
  | int64
  | bytes (length : Nat)
  | text
  | varint32
  | varint
  | ip (family : Family)
  deriving DecidableEq, Repr

def kind : Field → Kind
  | byte _ => .byte
  | int32 _ => .int32
  | int64 _ => .int64
  | bytes v => .bytes v.length
  | text _ => .text
  | varint32 _ => .varint32
  | varint _ => .varint
  | ip v => .ip v.family

/-- A text behind the two bytes of its length. -/
def textBytes (s : String) : Bytes := Bytes.bigEndian 2 s.utf8ByteSize ++ Utf8.encode s

/-- The two bytes of its length bound a text. -/
def encodeText (s : String) : Except Rejection Bytes :=
  if s.utf8ByteSize < 65536 then .ok (textBytes s) else .error (.textTooLong s.utf8ByteSize)

def encode : Field → Except Rejection Bytes
  | byte v => .ok [v]
  | int32 v => .ok (Bytes.ofInt32 v)
  | int64 v => .ok (Bytes.ofInt64 v)
  | bytes v => .ok v
  | text v => encodeText v
  | varint32 v => .ok (Varint.encode32 v)
  | varint v => .ok (Varint.encode v)
  | ip v => .ok v.octets

/-- Appends a field to what was written. One that is refused leaves that as it was. -/
def write (f : Field) : ExceptT Rejection (StateM Bytes) Unit := do
  let bs ← f.encode
  modify (· ++ bs)

def read : Kind → Reader Field
  | .byte => byte <$> Reader.byte
  | .int32 => int32 <$> Reader.int32
  | .int64 => int64 <$> Reader.int64
  | .bytes length => bytes <$> Reader.take length
  | .text => text <$> Reader.text
  | .varint32 => varint32 <$> Reader.varint32
  | .varint => varint <$> Reader.varint
  | .ip family => ip <$> Reader.ip family

end Field

end NetAtlas

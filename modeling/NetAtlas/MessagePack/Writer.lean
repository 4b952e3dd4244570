import NetAtlas.MessagePack.Value

set_option autoImplicit false

/-!
# Writing MessagePack

Every text, byte string, array and map stands behind its length in the shortest form there is for it.
-/
namespace NetAtlas

namespace MessagePack

/-- The markers of things with a length. A length below `short` is added to `base`; a longer one
follows its marker in one byte, where there is a marker for that, in two bytes or in four. -/
structure Markers where
  short : Nat := 0
  base : Nat := 0
  one : Option UInt8
  two : UInt8
  four : UInt8

namespace Markers

def text : Markers := { short := 32, base := 0xA0, one := some 0xD9, two := 0xDA, four := 0xDB }

def bytes : Markers := { one := some 0xC4, two := 0xC5, four := 0xC6 }

def array : Markers := { short := 16, base := 0x90, one := none, two := 0xDC, four := 0xDD }

def map : Markers := { short := 16, base := 0x80, one := none, two := 0xDE, four := 0xDF }

def extension : Markers := { one := some 0xC7, two := 0xC8, four := 0xC9 }

def long (m : Markers) (n : Nat) : Bytes :=
  if n < 0x10000 then m.two :: Bytes.bigEndian 2 n else m.four :: Bytes.bigEndian 4 n

def encode (m : Markers) (n : Nat) : Bytes :=
  if n < m.short then [UInt8.ofNat (m.base + n)]
  else match m.one with
    | some marker => if n < 0x100 then marker :: Bytes.bigEndian 1 n else m.long n
    | none => m.long n

end Markers

def encodeNatural (w : Width) (n : Nat) : Bytes :=
  match w with
  | .one => if n < 0x80 then [UInt8.ofNat n] else 0xCC :: Bytes.bigEndian 1 n
  | .two => 0xCD :: Bytes.bigEndian 2 n
  | .four => 0xCE :: Bytes.bigEndian 4 n
  | .eight => 0xCF :: Bytes.bigEndian 8 n

/-- The two's complement of an integer in so many bytes. -/
def complement (bytes : Nat) (v : Int) : Bytes := Bytes.bigEndian bytes (v % Bytes.room bytes).toNat

def encodeSigned (w : Width) (v : Int) : Bytes :=
  match w with
  | .one => if -32 ≤ v ∧ v < 0 then complement 1 v else 0xD0 :: complement 1 v
  | .two => 0xD1 :: complement 2 v
  | .four => 0xD2 :: complement 4 v
  | .eight => 0xD3 :: complement 8 v

def encodeFloat (w : Width) (bits : Nat) : Bytes :=
  match w with
  | .eight => 0xCB :: Bytes.bigEndian 8 bits
  | _ => 0xCA :: Bytes.bigEndian 4 bits

def encodeText (s : String) : Bytes :=
  Markers.text.encode s.utf8ByteSize ++ Utf8.encode s

def encodeBytes (bs : Bytes) : Bytes := Markers.bytes.encode bs.length ++ bs

def encodeExtension (kind : UInt8) (data : Bytes) : Bytes :=
  (match data.length with
    | 1 => [0xD4]
    | 2 => [0xD5]
    | 4 => [0xD6]
    | 8 => [0xD7]
    | 16 => [0xD8]
    | n => Markers.extension.encode n) ++ kind :: data

mutual

def encode : Value → Bytes
  | .nil => [0xC0]
  | .bool false => [0xC2]
  | .bool true => [0xC3]
  | .natural w n => encodeNatural w n
  | .signed w v => encodeSigned w v
  | .float w bits => encodeFloat w bits
  | .text s => encodeText s
  | .bytes bs => encodeBytes bs
  | .array items => Markers.array.encode items.length ++ encodeItems items
  | .map entries => Markers.map.encode entries.length ++ encodeEntries entries
  | .extension kind data => encodeExtension kind data

def encodeItems : List Value → Bytes
  | [] => []
  | v :: vs => encode v ++ encodeItems vs

def encodeEntries : List (Value × Value) → Bytes
  | [] => []
  | (key, v) :: entries => encode key ++ encode v ++ encodeEntries entries

end

end MessagePack

end NetAtlas

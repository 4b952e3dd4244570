import NetAtlas.Bytes.Utf8

set_option autoImplicit false

/-!
# MessagePack values

An integer keeps the form it is written in, because that form decides where it may stand: natural
numbers with the bytes they take, numbers with a sign apart. Floats and extensions carry nothing that
is asked for.
-/
namespace NetAtlas

namespace MessagePack

/-- How many bytes a natural number takes. Small numbers share their one byte with the marker. -/
inductive Width
  | one
  | two
  | four
  | eight
  deriving DecidableEq, Repr

namespace Width

def bytes : Width → Nat
  | one => 1
  | two => 2
  | four => 4
  | eight => 8

end Width

inductive Value
  | nil
  | bool (v : Bool)
  | natural (width : Width) (v : Nat)
  | signed (width : Width) (v : Int)
  | float (width : Width) (bits : Nat)
  | text (v : String)
  | bytes (v : Bytes)
  | array (items : List Value)
  | map (entries : List (Value × Value))
  | extension (kind : UInt8) (data : Bytes)
  deriving Repr, Inhabited

namespace Value

/-- A natural number in its shortest form. -/
def ofNat (n : Nat) : Value :=
  if n < 0x100 then natural .one n
  else if n < 0x10000 then natural .two n
  else if n < 0x100000000 then natural .four n
  else natural .eight n

/-- An integer in its shortest form, which has a sign only below zero. -/
def ofInt : Int → Value
  | .ofNat n => ofNat n
  | .negSucc n =>
    if n < 0x80 then signed .one (.negSucc n)
    else if n < 0x8000 then signed .two (.negSucc n)
    else if n < 0x80000000 then signed .four (.negSucc n)
    else signed .eight (.negSucc n)

/-- A map whose keys are names. -/
def record (members : List (String × Value)) : Value :=
  map (members.map fun (name, v) => (text name, v))

end Value

end MessagePack

end NetAtlas

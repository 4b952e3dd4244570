import NetAtlas.MessagePack.Value

set_option autoImplicit false

/-!
# Reading MessagePack

The marker in front of a value says what it is and how long it, or its length, is. A text that is not
UTF-8 is read as the bytes it is made of. Values may be nested to a fixed depth.
-/
namespace NetAtlas

namespace MessagePack

/-- Takes a value off the front of a byte string. -/
abbrev Parse := StateT Bytes Option

/-- A length: part of the marker, or a number of so many bytes behind it. -/
inductive Size
  | fixed (n : Nat)
  | counted (width : Width)
  deriving DecidableEq, Repr

/-- What a marker announces. -/
inductive Head
  | scalar (v : Value)
  | natural (width : Width)
  | signed (width : Width)
  | float (width : Width)
  | text (size : Size)
  | bytes (size : Size)
  | array (size : Size)
  | map (size : Size)
  | extension (size : Size)
  deriving Repr

/-- One marker has no meaning. -/
def Head.ofByte? (b : UInt8) : Option Head :=
  let n := b.toNat
  if n < 0x80 then some (.scalar (.natural .one n))
  else if n < 0x90 then some (.map (.fixed (n - 0x80)))
  else if n < 0xA0 then some (.array (.fixed (n - 0x90)))
  else if n < 0xC0 then some (.text (.fixed (n - 0xA0)))
  else if 0xE0 ≤ n then some (.scalar (.signed .one (n - 0x100)))
  else match n with
    | 0xC0 => some (.scalar .nil)
    | 0xC2 => some (.scalar (.bool false))
    | 0xC3 => some (.scalar (.bool true))
    | 0xC4 => some (.bytes (.counted .one))
    | 0xC5 => some (.bytes (.counted .two))
    | 0xC6 => some (.bytes (.counted .four))
    | 0xC7 => some (.extension (.counted .one))
    | 0xC8 => some (.extension (.counted .two))
    | 0xC9 => some (.extension (.counted .four))
    | 0xCA => some (.float .four)
    | 0xCB => some (.float .eight)
    | 0xCC => some (.natural .one)
    | 0xCD => some (.natural .two)
    | 0xCE => some (.natural .four)
    | 0xCF => some (.natural .eight)
    | 0xD0 => some (.signed .one)
    | 0xD1 => some (.signed .two)
    | 0xD2 => some (.signed .four)
    | 0xD3 => some (.signed .eight)
    | 0xD4 => some (.extension (.fixed 1))
    | 0xD5 => some (.extension (.fixed 2))
    | 0xD6 => some (.extension (.fixed 4))
    | 0xD7 => some (.extension (.fixed 8))
    | 0xD8 => some (.extension (.fixed 16))
    | 0xD9 => some (.text (.counted .one))
    | 0xDA => some (.text (.counted .two))
    | 0xDB => some (.text (.counted .four))
    | 0xDC => some (.array (.counted .two))
    | 0xDD => some (.array (.counted .four))
    | 0xDE => some (.map (.counted .two))
    | 0xDF => some (.map (.counted .four))
    | _ => none

namespace Parse

def byte : Parse UInt8 := fun bs =>
  match bs with
  | b :: rest => some (b, rest)
  | [] => none

def take (n : Nat) : Parse Bytes := fun bs =>
  if (bs.take n).length = n then some (bs.take n, bs.drop n) else none

def number (w : Width) : Parse Nat := do return (← take w.bytes).toNat

def signed (w : Width) : Parse Int := do
  let n ← number w
  return Int.bmod n (Bytes.room w.bytes)

def length : Size → Parse Nat
  | .fixed n => return n
  | .counted w => number w

def head : Parse Head := do
  match Head.ofByte? (← byte) with
  | some h => return h
  | none => failure

def textOrBytes (bs : Bytes) : Value :=
  match Utf8.decode bs with
  | .ok s => .text s
  | .error _ => .bytes bs

/-- So many values one after another. -/
def times {α : Type} (item : Parse α) : Nat → Parse (List α)
  | 0 => return []
  | n + 1 => do
    let a ← item
    return a :: (← times item n)

/-- What follows a marker. `inner` reads the values inside of it; without it nothing may be inside. -/
def body (inner : Option (Parse Value)) : Head → Parse Value
  | .scalar v => return v
  | .natural w => return .natural w (← number w)
  | .signed w => return .signed w (← signed w)
  | .float w => return .float w (← number w)
  | .text size => do return textOrBytes (← take (← length size))
  | .bytes size => do return .bytes (← take (← length size))
  | .array size => do
    let some value := inner | failure
    return .array (← times value (← length size))
  | .map size => do
    let some value := inner | failure
    return .map (← times (do return (← value, ← value)) (← length size))
  | .extension size => do
    if inner.isNone then failure
    let n ← length size
    return .extension (← byte) (← take n)

/-- A value with at most `depth` others around its innermost one. An extension counts as one around
its data. -/
def value : Nat → Parse Value
  | 0 => do body none (← head)
  | depth + 1 => do body (some (value depth)) (← head)

end Parse

def maxDepth : Nat := 1023

/-- The first value in a byte string. Whatever follows it is left alone. -/
def decode? (bs : Bytes) : Option Value := (·.1) <$> (Parse.value maxDepth).run bs

end MessagePack

end NetAtlas

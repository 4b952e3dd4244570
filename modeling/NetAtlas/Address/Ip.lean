import NetAtlas.Bytes.Basic
import NetAtlas.Order

set_option autoImplicit false

/-!
# Internet addresses

An address is its family and that family's number of octets. Every IPv4 address sorts before every
IPv6 address; within a family addresses sort by their octets.
-/
namespace NetAtlas

open Std

inductive Family
  | v4
  | v6
  deriving DecidableEq, Repr

namespace Family

/-- The stored codes. -/
def code : Family → UInt8
  | v4 => 2
  | v6 => 10

def ofCode? (c : UInt8) : Option Family :=
  if c = 2 then some v4 else if c = 10 then some v6 else none

/-- Octets of an address. -/
def width : Family → Nat
  | v4 => 4
  | v6 => 16

def name : Family → String
  | v4 => "Ipv4"
  | v6 => "Ipv6"

theorem ofCode?_code (f : Family) : ofCode? f.code = some f := by cases f <;> rfl

theorem eq_of_ofCode? {c : UInt8} {f : Family} (h : ofCode? c = some f) : c = f.code := by
  unfold ofCode? at h
  split at h
  · cases h; assumption
  · split at h
    · cases h; assumption
    · cases h

theorem code_inj {f g : Family} (h : f.code = g.code) : f = g := by
  cases f <;> cases g <;> first | rfl | exact absurd h (by decide)

instance : Ord Family := ⟨compareOn code⟩

instance : TransOrd Family := inferInstanceAs (TransCmp (compareOn code))

instance : LawfulEqOrd Family := lawfulEqCmp_compareOn fun _ _ => code_inj

end Family

structure Ip where
  family : Family
  octets : Bytes
  octets_length : octets.length = family.width
  deriving DecidableEq, Repr

namespace Ip

theorem eq_of_parts {a b : Ip} (hf : a.family = b.family) (ho : a.octets = b.octets) : a = b := by
  cases a; cases b; simp_all

instance : Ord Ip := ⟨compareLex (compareOn family) (compareOn octets)⟩

instance : TransOrd Ip := inferInstanceAs (TransCmp (compareLex (compareOn family) (compareOn octets)))

instance : LawfulEqOrd Ip := lawfulEqCmp_compareLex fun _ _ hf ho =>
  eq_of_parts (LawfulEqCmp.eq_of_compare hf) (LawfulEqCmp.eq_of_compare ho)

/-- The address whose octets these are, if their number fits the family. -/
def ofOctets? (family : Family) (octets : Bytes) : Option Ip :=
  if h : octets.length = family.width then some ⟨family, octets, h⟩ else none

end Ip

end NetAtlas

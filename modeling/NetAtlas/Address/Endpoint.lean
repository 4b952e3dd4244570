import NetAtlas.Error

set_option autoImplicit false

/-!
# Endpoints

An endpoint is an address with a port between 1 and 65535. Endpoints sort by address, then by port.
-/
namespace NetAtlas

open Std

structure Endpoint where
  ip : Ip
  port : UInt16
  port_pos : 0 < port
  deriving DecidableEq, Repr

namespace Endpoint

theorem eq_of_parts {a b : Endpoint} (hi : a.ip = b.ip) (hp : a.port = b.port) : a = b := by
  cases a; cases b; simp_all

instance : Ord Endpoint := ⟨compareLex (compareOn ip) (compareOn port)⟩

instance : TransOrd Endpoint := inferInstanceAs (TransCmp (compareLex (compareOn ip) (compareOn port)))

instance : LawfulEqOrd Endpoint := lawfulEqCmp_compareLex fun _ _ hi hp =>
  eq_of_parts (LawfulEqCmp.eq_of_compare hi) (LawfulEqCmp.eq_of_compare hp)

/-- The port as it is offered and stored. -/
def portNumber (e : Endpoint) : Int32 := Int32.ofNat e.port.toNat

def make (ip : Ip) (port : Int32) : Except Rejection Endpoint :=
  let number := UInt16.ofNat port.toInt.toNat
  if h : 1 ≤ port.toInt ∧ port.toInt ≤ 65535 then
    .ok ⟨ip, number, by
      rw [UInt16.lt_iff_toNat_lt, UInt16.toNat_ofNat']
      have : port.toInt.toNat % 2 ^ 16 = port.toInt.toNat := Nat.mod_eq_of_lt (by omega)
      simp only [UInt16.toNat_zero]
      omega⟩
  else .error (.portOutOfRange port)

theorem ip_of_make {ip : Ip} {port : Int32} {e : Endpoint} (h : make ip port = .ok e) : e.ip = ip := by
  simp only [make] at h
  split at h
  · cases h; rfl
  · cases h

theorem make_portNumber (e : Endpoint) : make e.ip e.portNumber = .ok e := by
  have hlt : e.port.toNat < 65536 := e.port.toNat_lt
  have hpos : 0 < e.port.toNat := by simpa [UInt16.lt_iff_toNat_lt] using e.port_pos
  have hv : e.portNumber.toInt = e.port.toNat := by
    simp only [portNumber]
    rw [Int32.toInt_ofNat_of_lt (by omega)]
  have hr : 1 ≤ e.portNumber.toInt ∧ e.portNumber.toInt ≤ 65535 := by omega
  simp only [make, hr, and_self, dite_true]
  congr 1
  exact eq_of_parts (b := e) rfl (by simp [hv])

def text (e : Endpoint) : String :=
  match e.ip.family with
  | .v4 => s!"{e.ip.text}:{e.port}"
  | .v6 => s!"[{e.ip.text}]:{e.port}"

end Endpoint

end NetAtlas

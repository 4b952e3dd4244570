import NetAtlas.Order

set_option autoImplicit false

/-!
# What a report says about a socket

The transport protocol, the side of the connection the reporting agent is on, and the traffic
counters. Codes are stored and never change; names are read in any case of ASCII letters.
-/
namespace NetAtlas

open Std

inductive Transport
  | tcp
  | udp
  deriving DecidableEq, Repr

namespace Transport

def code : Transport → UInt8
  | tcp => 0
  | udp => 1

def ofCode? (c : UInt8) : Option Transport :=
  if c = 0 then some tcp else if c = 1 then some udp else none

def name : Transport → String
  | tcp => "TCP"
  | udp => "UDP"

def ofName? (name : String) : Option Transport :=
  match name.toUpper with
  | "TCP" => some tcp
  | "UDP" => some udp
  | _ => none

theorem ofCode?_code (t : Transport) : ofCode? t.code = some t := by cases t <;> rfl

theorem eq_of_ofCode? {c : UInt8} {t : Transport} (h : ofCode? c = some t) : c = t.code := by
  unfold ofCode? at h
  split at h
  · cases h; assumption
  · split at h
    · cases h; assumption
    · cases h

theorem code_inj {s t : Transport} (h : s.code = t.code) : s = t := by
  cases s <;> cases t <;> first | rfl | exact absurd h (by decide)

instance : Ord Transport := ⟨compareOn code⟩

instance : TransOrd Transport := inferInstanceAs (TransCmp (compareOn code))

instance : LawfulEqOrd Transport := lawfulEqCmp_compareOn fun _ _ => code_inj

end Transport

/-- The side of a socket the reporting agent is on: it accepted the connection, it opened the
connection, or both ends are on its host. -/
inductive Direction
  | incoming
  | outgoing
  | internal
  deriving DecidableEq, Repr

namespace Direction

def code : Direction → UInt8
  | incoming => 0
  | outgoing => 1
  | internal => 2

def ofCode? (c : UInt8) : Option Direction :=
  if c = 0 then some incoming
  else if c = 1 then some outgoing
  else if c = 2 then some internal
  else none

def name : Direction → String
  | incoming => "INCOMING"
  | outgoing => "OUTGOING"
  | internal => "LOCAL"

def ofName? (name : String) : Option Direction :=
  match name.toUpper with
  | "INCOMING" => some incoming
  | "OUTGOING" => some outgoing
  | "LOCAL" => some internal
  | _ => none

theorem ofCode?_code (d : Direction) : ofCode? d.code = some d := by cases d <;> rfl

theorem code_inj {d e : Direction} (h : d.code = e.code) : d = e := by
  cases d <;> cases e <;> first | rfl | exact absurd h (by decide)

instance : Ord Direction := ⟨compareOn code⟩

instance : TransOrd Direction := inferInstanceAs (TransCmp (compareOn code))

instance : LawfulEqOrd Direction := lawfulEqCmp_compareOn fun _ _ => code_inj

end Direction

/-- Traffic of one report. The monotonic counters are totals since the socket was opened, the others
what was added in the reported slot. -/
structure Counters where
  monotonicSent : Int64 := 0
  sent : Int64 := 0
  monotonicRecv : Int64 := 0
  recv : Int64 := 0
  monotonicRetransmits : Int64 := 0
  retransmits : Int64 := 0
  deriving DecidableEq, Repr

namespace Counters

def Nonneg (c : Counters) : Prop :=
  0 ≤ c.monotonicSent ∧ 0 ≤ c.sent ∧ 0 ≤ c.monotonicRecv ∧ 0 ≤ c.recv ∧
    0 ≤ c.monotonicRetransmits ∧ 0 ≤ c.retransmits

instance (c : Counters) : Decidable c.Nonneg := by unfold Nonneg; infer_instance

def text (c : Counters) : String :=
  s!"TrafficCounters \x7b monotonic_sent: {c.monotonicSent}, sent: {c.sent}, " ++
  s!"monotonic_recv: {c.monotonicRecv}, recv: {c.recv}, " ++
  s!"monotonic_retransmits: {c.monotonicRetransmits}, retransmits: {c.retransmits} \x7d"

end Counters

end NetAtlas

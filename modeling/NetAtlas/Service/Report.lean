import NetAtlas.Address.Text
import NetAtlas.Socket.Observation

set_option autoImplicit false

/-!
# Reports

A report is an observation as an agent sends it, with names and addresses in writing. Its direction is
looked at first, then its transport, the source address and the target address; then the observation
is built.
-/
namespace NetAtlas

structure Report where
  agent : String
  pid : Int32 := unknownPid
  transport : String := "TCP"
  direction : String
  srcIp : String
  srcPort : Int32
  dstIp : String
  dstPort : Int32
  netNs : Int32 := 0
  counters : Counters := {}
  deriving DecidableEq, Repr

namespace Report

/-- Why a report gives no observation. -/
inductive Refusal
  | unknownDirection (name : String)
  | unknownTransport (name : String)
  | badAddress (text : String)
  | rejected (reason : Rejection)
  deriving DecidableEq, Repr

/-- A character inside quotes. Quotes, backslashes and control characters are escaped. -/
def quoteChar (c : Char) : String :=
  match c with
  | '"' => "\\\""
  | '\\' => "\\\\"
  | '\n' => "\\n"
  | '\r' => "\\r"
  | '\t' => "\\t"
  | '\x00' => "\\0"
  | c =>
    if c.toNat < 0x20 ∨ (0x7F ≤ c.toNat ∧ c.toNat < 0xA0) then
      "\\u\x7b" ++ String.ofList (Nat.toDigits 16 c.toNat) ++ "\x7d"
    else c.toString

def quote (s : String) : String := "\"" ++ String.join (s.toList.map quoteChar) ++ "\""

def Refusal.message : Refusal → String
  | unknownDirection name => s!"Unknown direction: {name}"
  | unknownTransport name => s!"Unknown connection type: {name}"
  | badAddress text => s!"Invalid IP address {quote text}: invalid IP address syntax"
  | rejected reason => (Error.rejected reason).message

def address (text : String) : Except Refusal Ip :=
  match Ip.parse? text with
  | some ip => .ok ip
  | none => .error (.badAddress text)

def observe (r : Report) : Except Refusal Observation := do
  let some direction := Direction.ofName? r.direction | throw (.unknownDirection r.direction)
  let some transport := Transport.ofName? r.transport | throw (.unknownTransport r.transport)
  let srcIp ← address r.srcIp
  let dstIp ← address r.dstIp
  let draft : Draft := {
    agent := r.agent
    pid := r.pid
    transport
    direction := some direction
    src := some (srcIp, r.srcPort)
    dst := some (dstIp, r.dstPort)
    netNs := r.netNs
    counters := r.counters }
  draft.build.mapError .rejected

end Report

end NetAtlas

import NetAtlas.Atlas.Basic
import NetAtlas.MessagePack.Writer
import NetAtlas.Service.Report

set_option autoImplicit false

/-!
# Responses

What clients are answered. A response is written as a map by name; the owner of a link's end is left
out where it is not known.
-/
namespace NetAtlas

namespace Response

/-- Why a request is not carried out, or not to its end. -/
inductive Failure
  | undecodable
  | refused (reason : Report.Refusal)
  | failed (error : Error)
  | interrupted (stored total : Nat) (error : Error)
  deriving DecidableEq, Repr

def Failure.message : Failure → String
  | undecodable => "Invalid request"
  | refused reason => reason.message
  | failed error => error.message
  | interrupted stored total error => s!"stored {stored} of {total} connections: {error.message}"

end Response

inductive Response
  | done
  | failed (cause : Response.Failure)
  | count (n : Nat)
  | atlas (a : Atlas)
  | links (ls : List Link)
  | addresses (ips : List Ip)
  | pids (ps : List Int32)
  | pong

namespace Response

open MessagePack

def version : String := "0.1.0"

def endValue (e : LinkEnd) : Value :=
  .record ([("ip", .text e.address.ip.text), ("port", .ofNat e.address.port.toNat)] ++
    match e.node with
    | some n => [("agentId", .text n.agent), ("pid", .ofInt n.pid.toInt)]
    | none => [])

def statValue (slot : Int) (s : Stat) : Value :=
  .record [("timestamp", .ofInt slot), ("sent", .ofInt s.sent), ("recv", .ofInt s.recv),
    ("retransmits", .ofInt s.retransmits), ("maxMonotonicSent", .ofInt s.maxSent),
    ("maxMonotonicRecv", .ofInt s.maxRecv), ("maxMonotonicRetransmits", .ofInt s.maxRetransmits)]

def linkValue (l : Link) : Value :=
  .record [("src", endValue l.key.src), ("dst", endValue l.key.dst),
    ("connectionType", .text l.key.transport.name), ("direction", .text l.key.direction.name),
    ("stats", .array (l.value.toList.map fun (slot, s) => statValue slot s))]

def toValue : Response → Value
  | done => .record [("ok", .bool true)]
  | failed cause => .record [("error", .text cause.message)]
  | count n => .record [("count", .ofNat n)]
  | atlas a => .record [("nodes", .array (a.nodes.map endValue)), ("links", .array (a.links.map linkValue))]
  | links ls => .record [("links", .array (ls.map linkValue))]
  | addresses ips => .record [("addresses", .array (ips.map fun ip => .text ip.text))]
  | pids ps => .record [("pids", .array (ps.map fun p => .ofInt p.toInt))]
  | pong => .record [("pong", .bool true), ("version", .text version)]

def encode (r : Response) : Bytes := MessagePack.encode r.toValue

end Response

end NetAtlas

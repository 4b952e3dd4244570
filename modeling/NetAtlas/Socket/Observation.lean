import NetAtlas.Socket.Node

set_option autoImplicit false

/-!
# Observations

An observation is one agent's report about one socket in one time slot. It is built from a draft,
which is checked field by field; the first field at fault gives the rejection. The checks that do not
concern the time stay true of an observation for good, the time may be stamped anew.
-/
namespace NetAtlas

structure Observation where
  agent : String
  pid : Int32
  transport : Transport
  direction : Direction
  src : Endpoint
  dst : Endpoint
  netNs : Int32
  counters : Counters
  time : Int64
  agent_pos : 0 < agent.utf8ByteSize
  agent_le : agent.utf8ByteSize ≤ maxAgentSize
  same_family : dst.ip.family = src.ip.family
  counters_nonneg : counters.Nonneg
  deriving DecidableEq, Repr

/-- An observation that is not checked yet. The family is the one the reporter claims. -/
structure Draft where
  agent : String
  pid : Int32 := unknownPid
  transport : Transport := .tcp
  family : Option Family := none
  direction : Option Direction := none
  src : Option (Ip × Int32) := none
  dst : Option (Ip × Int32) := none
  netNs : Int32 := 0
  counters : Counters := {}
  time : Int64 := 0

namespace Observation

def family (o : Observation) : Family := o.src.ip.family

/-- The process that reported the observation. -/
def node (o : Observation) : Node := Node.of o.agent o.pid

def stamp (o : Observation) (time : Int64) : Observation := { o with time }

def draft (o : Observation) : Draft where
  agent := o.agent
  pid := o.pid
  transport := o.transport
  family := some o.family
  direction := some o.direction
  src := some (o.src.ip, o.src.portNumber)
  dst := some (o.dst.ip, o.dst.portNumber)
  netNs := o.netNs
  counters := o.counters
  time := o.time

end Observation

namespace Draft

/-- The ports are looked at last, the source's first. -/
def build (d : Draft) : Except Rejection Observation :=
  if hpos : d.agent.utf8ByteSize = 0 then .error .emptyAgent
  else if hle : maxAgentSize < d.agent.utf8ByteSize then .error (.agentTooLong d.agent)
  else match d.direction, d.src, d.dst with
  | none, _, _ => .error .missingDirection
  | some _, none, _ => .error .missingSource
  | some _, some _, none => .error .missingTarget
  | some direction, some (srcIp, srcPort), some (dstIp, dstPort) =>
    if hfamily : dstIp.family ≠ srcIp.family then .error (.familiesDiffer srcIp dstIp)
    else if d.family.getD srcIp.family ≠ srcIp.family then
      .error (.familyNotDeclared (d.family.getD srcIp.family) srcIp)
    else if d.time < 0 then .error (.negativeTime d.time)
    else if hcounters : ¬ d.counters.Nonneg then .error (.negativeCounter d.counters)
    else
      match hsrc : Endpoint.make srcIp srcPort, hdst : Endpoint.make dstIp dstPort with
      | .error e, _ => .error e
      | .ok _, .error e => .error e
      | .ok src, .ok dst => .ok {
          agent := d.agent
          pid := d.pid
          transport := d.transport
          direction, src, dst
          netNs := d.netNs
          counters := d.counters
          time := d.time
          agent_pos := Nat.pos_of_ne_zero hpos
          agent_le := Nat.le_of_not_lt hle
          same_family := by
            rw [Endpoint.ip_of_make hsrc, Endpoint.ip_of_make hdst]
            exact Decidable.of_not_not hfamily
          counters_nonneg := Decidable.of_not_not hcounters }

end Draft

theorem Observation.build_draft (o : Observation) (h : 0 ≤ o.time) : o.draft.build = .ok o := by
  unfold Draft.build
  split
  · next hc => exact absurd hc (Nat.ne_of_gt o.agent_pos)
  split
  · next hc => exact absurd hc (Nat.not_lt.mpr o.agent_le)
  split
  · next hc => cases hc
  · next hc => cases hc
  · next hc => cases hc
  next hd hs ht =>
  cases hd; cases hs; cases ht
  split
  · next hc => exact absurd o.same_family hc
  split
  · next hc => exact absurd rfl hc
  split
  · next hc => exact absurd hc (Int64.not_lt.mpr h)
  split
  · next hc => exact absurd o.counters_nonneg hc
  split
  · next hm => rw [Endpoint.make_portNumber] at hm; cases hm
  · next hm => rw [Endpoint.make_portNumber] at hm; cases hm
  next hm hn =>
  rw [Endpoint.make_portNumber] at hm hn
  cases hm; cases hn; rfl

end NetAtlas

import NetAtlas.Record.Key
import NetAtlas.Record.View

set_option autoImplicit false

/-!
# Observations in storage

An entry is an observation cut into a row key, a qualifier and a value. Row and qualifier say which
socket, process and slot it is about, the value holds the counters, so a later report about the same
replaces the earlier one. What is read back passes the same checks as a new observation.
-/
namespace NetAtlas

structure Entry where
  row : Bytes
  qualifier : Bytes
  value : Bytes
  deriving DecidableEq, Repr

namespace Entry

def countersValue (o : Observation) : Bytes :=
  Varint.encode o.counters.monotonicSent ++ Varint.encode o.counters.sent ++
  Varint.encode o.counters.monotonicRecv ++ Varint.encode o.counters.recv ++
  Varint.encode o.counters.monotonicRetransmits ++ Varint.encode o.counters.retransmits ++
  Varint.encode32 o.netNs

/-- The address width in the qualifier is that of the family in the row key. -/
def ofView (v : View) (o : Observation) : Entry where
  row := Key.ipRow (v.own o).ip o.time
  qualifier :=
    Field.textBytes o.agent ++ [o.transport.code] ++ Varint.encode32 (v.own o).portNumber ++
    (v.peer o).ip.octets ++ Varint.encode32 (v.peer o).portNumber ++ Varint.encode32 o.pid
  value := countersValue o

def ofSelf (o : Observation) : Entry where
  row := Key.processStem o.agent o.pid ++ Key.timeBytes o.time
  qualifier :=
    [o.transport.code, o.family.code] ++ o.src.ip.octets ++ Bytes.ofInt32 o.src.portNumber ++
    o.dst.ip.octets ++ Bytes.ofInt32 o.dst.portNumber
  value := countersValue o

def readCounters : Reader (Counters × Int32) := do
  let monotonicSent ← Reader.varint
  let sent ← Reader.varint
  let monotonicRecv ← Reader.varint
  let recv ← Reader.varint
  let monotonicRetransmits ← Reader.varint
  let retransmits ← Reader.varint
  let netNs ← Reader.varint32
  Reader.finish
  return ({ monotonicSent, sent, monotonicRecv, recv, monotonicRetransmits, retransmits }, netNs)

structure ViewQualifier where
  agent : String
  transport : Transport
  ownPort : Int32
  peerIp : Ip
  peerPort : Int32
  pid : Int32

def readViewQualifier (family : Family) : Reader ViewQualifier := do
  let agent ← Reader.text
  let transport ← Reader.transport
  let ownPort ← Reader.varint32
  let peerIp ← Reader.ip family
  let peerPort ← Reader.varint32
  let pid ← Reader.varint32
  Reader.finish
  return { agent, transport, ownPort, peerIp, peerPort, pid }

structure SelfQualifier where
  transport : Transport
  family : Family
  src : Ip × Int32
  dst : Ip × Int32

def readSelfQualifier : Reader SelfQualifier := do
  let transport ← Reader.transport
  let family ← Reader.family
  let srcIp ← Reader.ip family
  let srcPort ← Reader.int32
  let dstIp ← Reader.ip family
  let dstPort ← Reader.int32
  Reader.finish
  return { transport, family, src := (srcIp, srcPort), dst := (dstIp, dstPort) }

def check (draft : Draft) : Except Corruption Observation := draft.build.mapError .rejected

def toView (v : View) (e : Entry) : Except Corruption Observation := do
  let (ownIp, time) ← Key.readIpRow.read e.row
  let q ← (readViewQualifier ownIp.family).read e.qualifier
  let (counters, netNs) ← readCounters.read e.value
  let own := (ownIp, q.ownPort)
  let peer := (q.peerIp, q.peerPort)
  check {
    agent := q.agent
    pid := q.pid
    transport := q.transport
    family := some ownIp.family
    direction := some v.direction
    src := some (match v with | .caller => peer | .callee => own)
    dst := some (match v with | .caller => own | .callee => peer)
    netNs, counters, time }

def toSelf (e : Entry) : Except Corruption Observation := do
  let (agent, pid, time) ← Key.readProcessRow.read e.row
  let q ← readSelfQualifier.read e.qualifier
  let (counters, netNs) ← readCounters.read e.value
  check {
    agent, pid
    transport := q.transport
    family := some q.family
    direction := some .internal
    src := some q.src
    dst := some q.dst
    netNs, counters, time }

end Entry

end NetAtlas

import NetAtlas.MessagePack.Members
import NetAtlas.MessagePack.Reader
import NetAtlas.Service.Report

set_option autoImplicit false

/-!
# Requests

What clients ask for. A request is a record with a command: a map with the command under the key
`cmd`, or an array that begins with it. The command is its name or its position among the commands.
-/
namespace NetAtlas

inductive Request
  | reportConnections (reports : List Report)
  | reportLocalAddresses (agent : String) (addresses : List String)
  | selectConnectionMap (agent : String) (first last : Int64) (callerDepth calleeDepth : Nat)
  | selectLocalAddresses (agent : String) (first last : Int64)
  | selectPids (agent : String) (first last : Int64)
  | selectLocalLinks (agent : String) (first last : Int64)
  | flushPids
  | ping
  | shutdown
  deriving DecidableEq, Repr

open MessagePack

namespace Report

def names : List String :=
  ["agentId", "pid", "connectionType", "direction", "srcIp", "srcPort", "dstIp", "dstPort", "netNs",
   "monotonicSent", "sent", "monotonicRecv", "recv", "monotonicRetransmits", "retransmits"]

def ofValue? (v : Value) : Option Report := do
  let m ← v.members? names
  return {
    agent := ← m.required Value.text? "agentId"
    pid := ← m.optional Value.int32? "pid" unknownPid
    transport := ← m.optional Value.text? "connectionType" "TCP"
    direction := ← m.required Value.text? "direction"
    srcIp := ← m.required Value.text? "srcIp"
    srcPort := ← m.required Value.int32? "srcPort"
    dstIp := ← m.required Value.text? "dstIp"
    dstPort := ← m.required Value.int32? "dstPort"
    netNs := ← m.optional Value.int32? "netNs" 0
    counters := {
      monotonicSent := ← m.optional Value.int64? "monotonicSent" 0
      sent := ← m.optional Value.int64? "sent" 0
      monotonicRecv := ← m.optional Value.int64? "monotonicRecv" 0
      recv := ← m.optional Value.int64? "recv" 0
      monotonicRetransmits := ← m.optional Value.int64? "monotonicRetransmits" 0
      retransmits := ← m.optional Value.int64? "retransmits" 0 } }

end Report

inductive Command
  | reportConnections
  | reportLocalAddresses
  | selectConnectionMap
  | selectLocalAddresses
  | selectPids
  | selectLocalLinks
  | flushPids
  | ping
  | shutdown
  deriving DecidableEq, Repr

namespace Command

def all : List Command :=
  [reportConnections, reportLocalAddresses, selectConnectionMap, selectLocalAddresses, selectPids,
   selectLocalLinks, flushPids, ping, shutdown]

def name : Command → String
  | reportConnections => "reportConnections"
  | reportLocalAddresses => "reportLocalAddresses"
  | selectConnectionMap => "selectConnectionMap"
  | selectLocalAddresses => "selectLocalAddresses"
  | selectPids => "selectPids"
  | selectLocalLinks => "selectLocalLinks"
  | flushPids => "flushPids"
  | ping => "ping"
  | shutdown => "shutdown"

def ofValue? : Value → Option Command
  | .natural _ n => all[n]?
  | v => do
    let text ← v.text?
    all.find? (·.name = text)

end Command

namespace Request

/-- The agent and the two times of a selection. -/
def selection? (m : Members Value) : Option (String × Int64 × Int64) := do
  return (← m.required Value.text? "agentId", ← m.required Value.int64? "from",
    ← m.required Value.int64? "to")

/-- A command without members passes over what a map holds, but not over items. -/
def noItems? : Value → Option Unit
  | .map _ => some ()
  | .array [] => some ()
  | _ => none

def ofParts? (command : Command) (body : Value) : Option Request :=
  match command with
  | .reportConnections => do
    let m ← body.members? ["connections"]
    return reportConnections (← m.required (Value.list? Report.ofValue?) "connections")
  | .reportLocalAddresses => do
    let m ← body.members? ["agentId", "addresses"]
    return reportLocalAddresses (← m.required Value.text? "agentId")
      (← m.required (Value.list? Value.text?) "addresses")
  | .selectConnectionMap => do
    let m ← body.members? ["agentId", "from", "to", "callerDepth", "calleeDepth"]
    let (agent, first, last) ← selection? m
    return selectConnectionMap agent first last (← m.optional Value.nat32? "callerDepth" 0)
      (← m.optional Value.nat32? "calleeDepth" 0)
  | .selectLocalAddresses => do
    let (agent, first, last) ← selection? (← body.members? ["agentId", "from", "to"])
    return selectLocalAddresses agent first last
  | .selectPids => do
    let (agent, first, last) ← selection? (← body.members? ["agentId", "from", "to"])
    return selectPids agent first last
  | .selectLocalLinks => do
    let (agent, first, last) ← selection? (← body.members? ["agentId", "from", "to"])
    return selectLocalLinks agent first last
  | .flushPids => do noItems? body; return flushPids
  | .ping => do noItems? body; return ping
  | .shutdown => do noItems? body; return shutdown

def isCommandKey (v : Value) : Bool := v.text? = some "cmd"

/-- The command of a map stands under exactly one key. -/
def ofValue? : Value → Option Request
  | .map entries =>
    match entries.partition fun entry => isCommandKey entry.1 with
    | ([(_, command)], members) => do ofParts? (← Command.ofValue? command) (.map members)
    | _ => none
  | .array (command :: items) => do ofParts? (← Command.ofValue? command) (.array items)
  | _ => none

def decode? (payload : Bytes) : Option Request := MessagePack.decode? payload >>= ofValue?

end Request

end NetAtlas

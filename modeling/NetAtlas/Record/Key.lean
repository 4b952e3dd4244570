import NetAtlas.Bytes.Field

set_option autoImplicit false

/-!
# Row keys

A row key is a stem that names what the row is about, followed by the time. Times are stored reversed,
so that the rows of one stem lie together with the newest first.
-/
namespace NetAtlas

namespace Key

def reverseTime (time : Int64) : Int64 := Int64.maxValue - time

def timeBytes (time : Int64) : Bytes := Bytes.ofInt64 (reverseTime time)

/-- A row of the views: the address it is indexed by. -/
def ipStem (ip : Ip) : Bytes := ip.family.code :: ip.octets

/-- An agent id padded with zero bytes to the largest size. -/
def paddedAgent (agent : String) : Bytes :=
  Utf8.encode agent ++ List.replicate (maxAgentSize - agent.utf8ByteSize) 0

/-- A row of the self view: the process that reported it. -/
def processStem (agent : String) (pid : Int32) : Bytes := paddedAgent agent ++ Bytes.ofInt32 pid

/-- A row of the registries: the agent. -/
def agentStem (agent : String) : Bytes := Field.textBytes agent

def ipRow (ip : Ip) (time : Int64) : Bytes := ipStem ip ++ timeBytes time

def processRow (agent : String) (pid : Int32) (time : Int64) : Except Rejection Bytes :=
  if maxAgentSize < agent.utf8ByteSize then .error (.agentTooLong agent)
  else .ok (processStem agent pid ++ timeBytes time)

def agentRow (agent : String) (time : Int64) : Except Rejection Bytes :=
  (Field.encodeText agent).map (· ++ timeBytes time)

def readTime : Reader Int64 := reverseTime <$> Reader.int64

/-- A padded agent id ends before its first zero byte. -/
def readAgent : Reader String := do
  match Utf8.decode ((← Reader.take maxAgentSize).takeWhile (· ≠ 0)) with
  | .ok agent => return agent
  | .error fault => throw (.badAgent fault)

def readIpRow : Reader (Ip × Int64) := do
  let family ← Reader.family
  let ip ← Reader.ip family
  let time ← readTime
  Reader.finish
  return (ip, time)

def readProcessRow : Reader (String × Int32 × Int64) := do
  let agent ← readAgent
  let pid ← Reader.int32
  let time ← readTime
  Reader.finish
  return (agent, pid, time)

def readAgentRow : Reader (String × Int64) := do
  let agent ← Reader.text
  let time ← readTime
  Reader.finish
  return (agent, time)

end Key

end NetAtlas

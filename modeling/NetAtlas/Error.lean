import NetAtlas.Address.Text
import NetAtlas.Bytes.Utf8
import NetAtlas.Socket.Basic

set_option autoImplicit false

/-!
# Errors

What a caller offers is rejected, what was stored turns out corrupt, or the storage does not answer.
A rejected value that was read from storage counts as corrupt. A trap is no error: nothing answers or
catches it, and the thread that runs into it ends there.
-/
namespace NetAtlas

/-- Longest agent id in bytes: ids are padded to this width inside some row keys. -/
def maxAgentSize : Nat := 24

/-- Why a value is refused before it reaches the storage. -/
inductive Rejection
  | textTooLong (size : Nat)
  | agentTooLong (agent : String)
  | emptyAgent
  | missingDirection
  | missingSource
  | missingTarget
  | familiesDiffer (src dst : Ip)
  | familyNotDeclared (declared : Family) (ip : Ip)
  | negativeTime (time : Int64)
  | negativeCounter (counters : Counters)
  | portOutOfRange (port : Int32)
  | negativeRange (first last : Int64)
  | reversedRange (first last : Int64)
  | slotNotPositive (slot : Int)
  | settingNotPositive (setting : String) (value : Int64)
  | negativeFlushDelay
  | zeroFlushInterval
  | foreignDirection (direction : Direction) (view : String)
  | unboundDirection (direction : Direction)
  | noAddresses (agent : String)
  deriving DecidableEq, Repr

def Rejection.message : Rejection → String
  | textTooLong size => s!"string too long: {size} bytes"
  | agentTooLong agent => s!"agent id longer than {maxAgentSize} bytes: {agent}"
  | emptyAgent => "empty agent id"
  | missingDirection => "direction is required"
  | missingSource => "src address is required"
  | missingTarget => "dst address is required"
  | familiesDiffer src dst => s!"src and dst address families differ: {src.text} / {dst.text}"
  | familyNotDeclared declared ip => s!"declared family {declared.name} does not match address {ip.text}"
  | negativeTime time => s!"negative timestamp: {time}"
  | negativeCounter counters => s!"negative traffic counter: {counters.text}"
  | portOutOfRange port => s!"port out of range: {port}"
  | negativeRange first last => s!"negative time range: {first}..{last}"
  | reversedRange first last => s!"time range from > to: {first} > {last}"
  | slotNotPositive slot => s!"slot size must be positive: {slot}"
  | settingNotPositive setting value => s!"{setting} must be positive, got {value}"
  | negativeFlushDelay => "collector.pid_flush_delay_ms must not be negative"
  | zeroFlushInterval => "collector.pid_flush_interval_ms must be positive"
  | foreignDirection direction view =>
    s!"{direction.name} observation does not belong to the {view} view"
  | unboundDirection direction => s!"cannot bind {direction.name} connections"
  | noAddresses agent => s!"no local addresses for {agent}"

/-- Why stored bytes cannot be read. -/
inductive Corruption
  | truncated (need offset available : Nat)
  | badText (fault : Utf8.Fault)
  | badAgent (fault : Utf8.Fault)
  | varintOverflow
  | varintOutOfRange (value : Int64)
  | unknownFamily (code : UInt8)
  | unknownTransport (code : UInt8)
  | trailing (count : Nat)
  | cellLength
  | cellPayload
  | row (column : String)
  | foreignQualifier (registry : String)
  | rejected (reason : Rejection)
  deriving DecidableEq, Repr

def Corruption.message : Corruption → String
  | truncated need offset available =>
    s!"truncated: need {need} bytes at offset {offset}, have {available}"
  | badText fault => s!"invalid UTF-8: {fault.message}"
  | badAgent fault => s!"invalid agent id: {fault.message}"
  | varintOverflow => "varint overflows 64 bits"
  | varintOutOfRange value => s!"vint out of range: {value}"
  | unknownFamily code => s!"unknown inet family: {code}"
  | unknownTransport code => s!"unknown connection type: {code}"
  | trailing count => s!"{count} trailing bytes"
  | cellLength => "corrupt cell length"
  | cellPayload => "corrupt cell payload"
  | row column => s!"corrupt row in {column}, not overwritten"
  | foreignQualifier registry => s!"unexpected qualifier in {registry} registry"
  | rejected reason => reason.message

inductive Error
  | rejected (reason : Rejection)
  | corrupt (cause : Corruption)
  | unavailable (what : String)
  deriving DecidableEq, Repr

def Error.message : Error → String
  | rejected reason => "Invalid argument: " ++ reason.message
  | corrupt cause => "Malformed record: " ++ cause.message
  | unavailable what => "Storage unavailable: " ++ what

/-- What ends a thread in the middle of its work. What it did before stays done. -/
inductive Trap
  | overflow
  deriving DecidableEq, Repr

end NetAtlas

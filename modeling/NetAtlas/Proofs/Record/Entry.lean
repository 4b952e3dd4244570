import Mathlib.Data.List.TakeWhile
import NetAtlas.Proofs.Bytes.ZeroBytes
import NetAtlas.Proofs.Record.RowKey

set_option autoImplicit false

/-!
# Entries give observations back

An observation is read from its entry as it was written. A padded agent id is read up to its first zero
byte, so the self view gives back those observations whose agent id has none.
-/
namespace NetAtlas

open Reader

namespace Key

theorem readIpRow_ipRow (ip : Ip) (time : Int64) : readIpRow.read (ipRow ip time) = .ok (ip, time) := by
  have h : ReadsAll readIpRow ([ip.family.code] ++ (ip.octets ++ (timeBytes time ++ []))) (ip, time) :=
    (reads_family _).bind_all ((reads_ip rfl).bind_all ((reads_time time).bind_all (readsAll_finish _)))
  simpa [ipRow, ipStem] using h.read

/-- No zero byte would be taken for the padding. -/
def ZeroFree (agent : String) : Prop := 0 ∉ Utf8.encode agent

instance (agent : String) : Decidable (ZeroFree agent) :=
  inferInstanceAs (Decidable (0 ∉ Utf8.encode agent))

theorem paddedAgent_length {agent : String} (h : agent.utf8ByteSize ≤ maxAgentSize) :
    (paddedAgent agent).length = maxAgentSize := by
  rw [paddedAgent, List.length_append, List.length_replicate, Utf8.encode_length]
  omega

theorem processStem_length {agent : String} (h : agent.utf8ByteSize ≤ maxAgentSize) (pid : Int32) :
    (processStem agent pid).length = maxAgentSize + 4 := by
  rw [processStem, List.length_append, paddedAgent_length h, Bytes.ofInt32, Bytes.bigEndian_length]

theorem beforeZero_eq_iff {agent : String} : Utf8.beforeZero agent = agent ↔ ZeroFree agent := by
  have hbytes : Utf8.beforeZero agent = agent ↔
      (Utf8.encode agent).takeWhile (· ≠ 0) = Utf8.encode agent := by
    rw [← Utf8.encode_beforeZero]
    exact ⟨congrArg Utf8.encode, Utf8.encode_inj⟩
  rw [hbytes, List.takeWhile_eq_self_iff, ZeroFree]
  constructor
  · intro hall hzero
    exact of_decide_eq_true (hall 0 hzero) rfl
  · intro hfree b hb
    exact decide_eq_true fun he => hfree (he ▸ hb)

/-- The zero bytes of the padding are left out, whether or not the id has some of its own. -/
theorem takeWhile_padding (agent : String) :
    (paddedAgent agent).takeWhile (· ≠ 0) = (Utf8.encode agent).takeWhile (· ≠ 0) := by
  rw [paddedAgent, List.takeWhile_append]
  split
  · next hall =>
    rw [List.takeWhile_replicate, if_neg (by decide), List.append_nil]
    exact (List.IsPrefix.eq_of_length (List.takeWhile_prefix _) hall).symm
  · rfl

theorem takeWhile_paddedAgent {agent : String} (h : ZeroFree agent) :
    (paddedAgent agent).takeWhile (· ≠ 0) = Utf8.encode agent := by
  rw [takeWhile_padding, ← Utf8.encode_beforeZero, beforeZero_eq_iff.mpr h]

theorem reads_paddedAgent {agent : String} (hle : agent.utf8ByteSize ≤ maxAgentSize) :
    Reads readAgent (paddedAgent agent) (Utf8.beforeZero agent) := by
  rw [readAgent, ← List.append_nil (paddedAgent agent)]
  apply reads_bind (reads_take (paddedAgent_length hle))
  rw [takeWhile_padding, ← Utf8.encode_beforeZero, Utf8.decode_encode]
  exact reads_pure _

theorem reads_agent {agent : String} (hle : agent.utf8ByteSize ≤ maxAgentSize) (h : ZeroFree agent) :
    Reads readAgent (paddedAgent agent) agent := by
  have hread := reads_paddedAgent hle
  rw [beforeZero_eq_iff.mpr h] at hread
  exact hread

theorem readProcessRow_processStem {agent : String} (hle : agent.utf8ByteSize ≤ maxAgentSize)
    (pid : Int32) (time : Int64) :
    readProcessRow.read (processStem agent pid ++ timeBytes time) =
      .ok (Utf8.beforeZero agent, pid, time) := by
  have hread : ReadsAll readProcessRow
      (paddedAgent agent ++ (Bytes.ofInt32 pid ++ (timeBytes time ++ [])))
      (Utf8.beforeZero agent, pid, time) :=
    (reads_paddedAgent hle).bind_all ((reads_int32 pid).bind_all
      ((reads_time time).bind_all (readsAll_finish _)))
  simpa [processStem] using hread.read

end Key

namespace Entry

theorem readCounters_countersValue (o : Observation) :
    readCounters.read (countersValue o) = .ok (o.counters, o.netNs) := by
  have h : ReadsAll readCounters _ (o.counters, o.netNs) :=
    (reads_varint o.counters.monotonicSent).bind_all ((reads_varint o.counters.sent).bind_all
      ((reads_varint o.counters.monotonicRecv).bind_all ((reads_varint o.counters.recv).bind_all
        ((reads_varint o.counters.monotonicRetransmits).bind_all
          ((reads_varint o.counters.retransmits).bind_all
            ((reads_varint32 o.netNs).bind_all (readsAll_finish _)))))))
  simpa [countersValue] using h.read

theorem readViewQualifier_ofView (v : View) (o : Observation) :
    (readViewQualifier (v.own o).ip.family).read (ofView v o).qualifier = .ok {
      agent := o.agent
      transport := o.transport
      ownPort := (v.own o).portNumber
      peerIp := (v.peer o).ip
      peerPort := (v.peer o).portNumber
      pid := o.pid } := by
  have hsize : o.agent.utf8ByteSize < 65536 := Nat.lt_of_le_of_lt o.agent_le (by decide)
  have hfamily : (v.peer o).ip.family = (v.own o).ip.family := by
    cases v with
    | caller => exact o.same_family.symm
    | callee => exact o.same_family
  have h : ReadsAll (readViewQualifier (v.own o).ip.family) _ _ :=
    (reads_text hsize).bind_all ((reads_transport o.transport).bind_all
      ((reads_varint32 (v.own o).portNumber).bind_all ((reads_ip hfamily).bind_all
        ((reads_varint32 (v.peer o).portNumber).bind_all
          ((reads_varint32 o.pid).bind_all (readsAll_finish _))))))
  simpa [ofView] using h.read

theorem readSelfQualifier_ofSelf (o : Observation) :
    readSelfQualifier.read (ofSelf o).qualifier = .ok {
      transport := o.transport
      family := o.family
      src := (o.src.ip, o.src.portNumber)
      dst := (o.dst.ip, o.dst.portNumber) } := by
  have h : ReadsAll readSelfQualifier _ _ :=
    (reads_transport o.transport).bind_all ((reads_family o.family).bind_all
      ((reads_ip (i := o.src.ip) rfl).bind_all ((reads_int32 o.src.portNumber).bind_all
        ((reads_ip (i := o.dst.ip) o.same_family).bind_all
          ((reads_int32 o.dst.portNumber).bind_all (readsAll_finish _))))))
  simpa [ofSelf] using h.read

theorem check_draft {o : Observation} (h : 0 ≤ o.time) : check o.draft = .ok o := by
  rw [check, o.build_draft h]
  rfl

/-- A view gives back what was written to it. -/
theorem toView_ofView {v : View} {o : Observation} (hd : o.direction = v.direction)
    (ht : 0 ≤ o.time) : toView v (ofView v o) = .ok o := by
  have hrow : Key.readIpRow.read (ofView v o).row = .ok ((v.own o).ip, o.time) :=
    Key.readIpRow_ipRow _ _
  have hvalue : readCounters.read (ofView v o).value = .ok (o.counters, o.netNs) :=
    readCounters_countersValue o
  rw [toView, hrow]
  simp only [bind, Except.bind, readViewQualifier_ofView, hvalue]
  rw [← hd, ← check_draft ht, Observation.draft, Observation.family]
  cases v with
  | caller => simp only [View.own, View.peer, o.same_family]
  | callee => rfl

/-- The self view gives back what was written to it, except that it sees an agent id up to its first zero
byte. -/
theorem toSelf_ofSelf_eq {o : Observation} (hd : o.direction = .internal) :
    toSelf (ofSelf o) = check { o.draft with agent := Utf8.beforeZero o.agent } := by
  have hrow : Key.readProcessRow.read (ofSelf o).row = .ok (Utf8.beforeZero o.agent, o.pid, o.time) :=
    Key.readProcessRow_processStem o.agent_le o.pid o.time
  have hvalue : readCounters.read (ofSelf o).value = .ok (o.counters, o.netNs) :=
    readCounters_countersValue o
  rw [toSelf, hrow]
  simp only [bind, Except.bind, readSelfQualifier_ofSelf, hvalue, Observation.draft, hd]

theorem toSelf_ofSelf {o : Observation} (hd : o.direction = .internal) (ht : 0 ≤ o.time)
    (ha : Key.ZeroFree o.agent) : toSelf (ofSelf o) = .ok o := by
  rw [toSelf_ofSelf_eq hd, Key.beforeZero_eq_iff.mpr ha]
  exact check_draft ht

end Entry

namespace Varint

theorem encode_length_le (v : Int64) : (encode v).length ≤ maxLength := (isNumber_encode v).length_le

theorem encode32_length_le (v : Int32) : (encode32 v).length ≤ maxLength := encode_length_le _

end Varint

namespace Entry

theorem octets_length_le (ip : Ip) : ip.octets.length ≤ 16 := by
  rw [ip.octets_length]
  cases ip.family <;> decide

theorem countersValue_length_lt (o : Observation) : (countersValue o).length < Bytes.room 4 := by
  have hmax : Varint.maxLength = 10 := rfl
  have hroom : Bytes.room 4 = 4294967296 := rfl
  have h₁ := Varint.encode_length_le o.counters.monotonicSent
  have h₂ := Varint.encode_length_le o.counters.sent
  have h₃ := Varint.encode_length_le o.counters.monotonicRecv
  have h₄ := Varint.encode_length_le o.counters.recv
  have h₅ := Varint.encode_length_le o.counters.monotonicRetransmits
  have h₆ := Varint.encode_length_le o.counters.retransmits
  have h₇ := Varint.encode32_length_le o.netNs
  simp only [countersValue, List.length_append]
  omega

theorem ofView_qualifier_length_lt (v : View) (o : Observation) :
    (ofView v o).qualifier.length < Bytes.room 4 := by
  have hmax : Varint.maxLength = 10 := rfl
  have hroom : Bytes.room 4 = 4294967296 := rfl
  have hagent : o.agent.utf8ByteSize ≤ 24 := o.agent_le
  have hip := octets_length_le (v.peer o).ip
  have h₁ := Varint.encode32_length_le (v.own o).portNumber
  have h₂ := Varint.encode32_length_le (v.peer o).portNumber
  have h₃ := Varint.encode32_length_le o.pid
  simp only [ofView, Field.textBytes, List.length_append, List.length_singleton,
    Bytes.bigEndian_length, Utf8.encode_length]
  omega

theorem ofSelf_qualifier_length_lt (o : Observation) : (ofSelf o).qualifier.length < Bytes.room 4 := by
  have hroom : Bytes.room 4 = 4294967296 := rfl
  have hsrc := octets_length_le o.src.ip
  have hdst := octets_length_le o.dst.ip
  simp only [ofSelf, Bytes.ofInt32, List.length_append, List.length_cons, List.length_nil,
    Bytes.bigEndian_length]
  omega

end Entry

end NetAtlas

import NetAtlas.Proofs.Bytes.Taken
import NetAtlas.Proofs.Bytes.Written
import NetAtlas.Record.Entry
import NetAtlas.Time.Range

set_option autoImplicit false

/-!
# Row keys and times

Reversed times sort newest first, so the keys of one stem from that of a range's last time to that of
its first are the times after the first and up to the last. Between them nothing else can stand in the
place of the time but a number that is not negative, so no time is read there that is out of bounds.
-/
namespace NetAtlas

/-- The times a query over a range is about. -/
def TimeRange.covers (r : TimeRange) (time : Int64) : Bool := r.first < time ∧ time ≤ r.last

namespace Key

theorem reverseTime_reverseTime (time : Int64) : reverseTime (reverseTime time) = time := by
  rw [reverseTime, reverseTime, Int64.sub_eq_iff_eq_add, Int64.add_comm, Int64.sub_add_cancel]

theorem timeBytes_length (time : Int64) : (timeBytes time).length = 8 := Bytes.bigEndian_length _ _

/-- As unsigned numbers reversed times descend over all times, the negative ones above the others. -/
theorem toNat_timeBytes (time : Int64) :
    ((timeBytes time).toNat : Int) = 0x7FFFFFFFFFFFFFFF - time.toInt := by
  have hlt : (reverseTime time).toUInt64.toNat < Bytes.room 8 := UInt64.toNat_lt _
  have hsigned : time.toInt = if 2 * time.toUInt64.toNat < 2 ^ 64 then (time.toUInt64.toNat : Int)
      else time.toUInt64.toNat - 2 ^ 64 := BitVec.toInt_eq_toNat_cond time.toBitVec
  have hmax : Int64.maxValue.toUInt64.toNat = 0x7FFFFFFFFFFFFFFF := rfl
  have hbound := time.toUInt64.toNat_lt
  rw [timeBytes, Bytes.ofInt64, Bytes.toNat_bigEndian, Nat.mod_eq_of_lt hlt, reverseTime,
    Int64.toUInt64_sub, UInt64.toNat_sub, hmax]
  split at hsigned
  · omega
  · omega

theorem compare_timeBytes {a b : Int64} : compare (timeBytes a) (timeBytes b) = .lt ↔ b < a := by
  have ha := toNat_timeBytes a
  have hb := toNat_timeBytes b
  rw [Bytes.compare_eq_compare_toNat (by simp only [timeBytes_length]), Nat.compare_eq_lt,
    Int64.lt_iff_toInt_lt]
  omega

theorem timeBytes_inj {a b : Int64} (h : timeBytes a = timeBytes b) : a = b := by
  have ha := toNat_timeBytes a
  have hb := toNat_timeBytes b
  rw [h] at ha
  rw [← Int64.toInt_inj]
  omega

theorem between_timeBytes {range : TimeRange} {time : Int64} :
    Bytes.between (timeBytes range.last) (timeBytes range.first) (timeBytes time) ↔
      range.covers time := by
  have hfirst := toNat_timeBytes range.first
  have hlast := toNat_timeBytes range.last
  have htime := toNat_timeBytes time
  rw [Bytes.between_iff_toNat (by simp only [timeBytes_length]) (by simp only [timeBytes_length])]
  simp only [TimeRange.covers, decide_eq_true_eq, Int64.lt_iff_toInt_lt, Int64.le_iff_toInt_le]
  omega

/-- The bytes of a number between those of two times are not above those of the earlier one. -/
theorem stored_nonneg {range : TimeRange} {stored : Int64} {rest : Bytes}
    (h : Bytes.between (timeBytes range.last) (timeBytes range.first) (Bytes.ofInt64 stored ++ rest)) :
    0 ≤ stored := by
  have hfirst := toNat_timeBytes range.first
  have htime := toNat_timeBytes (reverseTime stored)
  have hpos : (0 : Int) ≤ range.first.toInt := Int64.le_iff_toInt_le.mp range.first_nonneg
  have hbytes : timeBytes (reverseTime stored) = Bytes.ofInt64 stored := by
    rw [timeBytes, reverseTime_reverseTime]
  rw [← hbytes] at h
  have hle := Bytes.toNat_le_of_append_lt (by simp only [timeBytes_length]) (Bytes.between_iff.mp h).2
  have hreverse : 0 ≤ reverseTime stored := by
    rw [Int64.le_iff_toInt_le, Int64.toInt_zero]
    omega
  have hstored : (reverseTime (reverseTime stored)).toInt =
      Int64.maxValue.toInt - (reverseTime stored).toInt :=
    Int64.toInt_sub_of_le _ _ hreverse (Int64.le_maxValue _)
  have hlast := (reverseTime stored).toInt_le
  rw [reverseTime_reverseTime] at hstored
  rw [Int64.le_iff_toInt_le, hstored, Int64.toInt_zero]
  omega

theorem toInt_reverseTime {stored : Int64} (h : 0 ≤ stored) :
    (reverseTime stored).toInt = Int64.maxValue.toInt - stored.toInt :=
  Int64.toInt_sub_of_le _ _ h (Int64.le_maxValue _)

/-- If stems are told apart whatever follows, a scan of one stem finds that stem alone, at the times of the
range. -/
theorem between_stem {κ : Type} {stem : κ → Bytes} {k other : κ} {range : TimeRange} {time : Int64}
    (hinj : ∀ x y, stem other ++ x = stem k ++ y → other = k ∧ x = y) :
    Bytes.between (stem k ++ timeBytes range.last) (stem k ++ timeBytes range.first)
        (stem other ++ timeBytes time) ↔
      other = k ∧ range.covers time := by
  rw [Bytes.between_append]
  constructor
  · rintro ⟨rest, heq, hrest⟩
    obtain ⟨rfl, rfl⟩ := hinj _ _ heq
    exact ⟨rfl, between_timeBytes.mp hrest⟩
  · rintro ⟨rfl, hc⟩
    exact ⟨timeBytes time, rfl, between_timeBytes.mpr hc⟩

theorem ipStem_inj {a b : Ip} {x y : Bytes} (h : ipStem a ++ x = ipStem b ++ y) : a = b ∧ x = y := by
  simp only [ipStem, List.cons_append, List.cons.injEq] at h
  have hf : a.family = b.family := Family.code_inj h.1
  have hl : a.octets.length = b.octets.length := by rw [a.octets_length, b.octets_length, hf]
  obtain ⟨ho, hx⟩ := List.append_inj h.2 hl
  exact ⟨Ip.eq_of_parts hf ho, hx⟩

theorem between_ipRow {ip other : Ip} {range : TimeRange} {time : Int64} :
    Bytes.between (ipRow ip range.last) (ipRow ip range.first) (ipRow other time) ↔
      other = ip ∧ range.covers time :=
  between_stem fun _ _ => ipStem_inj

/-- Reads a row by a reader for the stem and the number behind it. -/
def readReversed {κ : Type} (readStored : Reader (κ × Int64)) : Reader (κ × Int64) := do
  let (stem, stored) ← readStored
  Reader.finish
  return (stem, reverseTime stored)

def readIpStored : Reader (Ip × Int64) := do
  let family ← Reader.family
  let ip ← Reader.ip family
  return (ip, ← Reader.int64)

def readAgentStored : Reader (String × Int64) := do
  let agent ← Reader.text
  return (agent, ← Reader.int64)

theorem readIpRow_eq : readIpRow = readReversed readIpStored := by
  simp only [readIpRow, readReversed, readIpStored, readTime, map_eq_pure_bind, bind_assoc, pure_bind]

theorem readAgentRow_eq : readAgentRow = readReversed readAgentStored := by
  simp only [readAgentRow, readReversed, readAgentStored, readTime, map_eq_pure_bind, bind_assoc,
    pure_bind]

theorem readIpStored_eq_ok {c c' : Cursor} {ip : Ip} {stored : Int64}
    (h : readIpStored c = (.ok (ip, stored), c')) :
    c.rest = ipStem ip ++ (Bytes.ofInt64 stored ++ c'.rest) := by
  obtain ⟨family, c₁, hfamily, h⟩ := Reader.bind_eq_ok h
  obtain ⟨ip', c₂, hip, h⟩ := Reader.bind_eq_ok h
  obtain ⟨stored', c₃, hstored, h⟩ := Reader.bind_eq_ok h
  cases h
  obtain ⟨rfl, hoctets⟩ := Reader.ip_eq_ok hip
  rw [Reader.family_takes _ _ _ hfamily, hoctets, Reader.int64_takes _ _ _ hstored]
  rfl

theorem readAgentStored_eq_ok {c c' : Cursor} {agent : String} {stored : Int64}
    (h : readAgentStored c = (.ok (agent, stored), c')) :
    agent.utf8ByteSize < 65536 ∧ c.rest = agentStem agent ++ (Bytes.ofInt64 stored ++ c'.rest) := by
  obtain ⟨agent', c₁, hagent, h⟩ := Reader.bind_eq_ok h
  obtain ⟨stored', c₂, hstored, h⟩ := Reader.bind_eq_ok h
  cases h
  obtain ⟨hsize, htext⟩ := Reader.text_eq_ok hagent
  rw [htext, Reader.int64_takes _ _ _ hstored]
  exact ⟨hsize, rfl⟩

/-- A row that is read to its end is its stem and its time. -/
theorem readReversed_eq_ok {κ : Type} {readStored : Reader (κ × Int64)} {row : Bytes} {stem : κ}
    {time : Int64} (h : (readReversed readStored).read row = .ok (stem, time)) :
    ∃ stored c, readStored (Cursor.ofBytes row) = (.ok (stem, stored), c) ∧ c.rest = [] ∧
      Bytes.ofInt64 stored = timeBytes time := by
  obtain ⟨last, hrun⟩ := exceptT_exists_run h
  obtain ⟨⟨stem', stored⟩, c, hstored, hrun⟩ := Reader.bind_eq_ok hrun
  obtain ⟨_, c', hfinish, hrun⟩ := Reader.bind_eq_ok hrun
  cases hrun
  exact ⟨stored, c, hstored, Reader.finish_eq_ok hfinish, by rw [timeBytes, reverseTime_reverseTime]⟩

theorem eq_ipRow_of_read {row : Bytes} {ip : Ip} {time : Int64}
    (h : readIpRow.read row = .ok (ip, time)) : row = ipRow ip time := by
  rw [readIpRow_eq] at h
  obtain ⟨stored, c, hstored, hrest, hbytes⟩ := readReversed_eq_ok h
  have hrow := readIpStored_eq_ok hstored
  rw [hrest, List.append_nil, hbytes] at hrow
  exact hrow

theorem agentStem_inj {a b : String} {x y : Bytes} (ha : a.utf8ByteSize < 65536)
    (hb : b.utf8ByteSize < 65536) (h : agentStem a ++ x = agentStem b ++ y) : a = b ∧ x = y :=
  (Reader.reads_text ha).append_inj (Reader.reads_text hb) h

theorem between_agentRow {agent other : String} {range : TimeRange} {time : Int64}
    (ha : agent.utf8ByteSize < 65536) (ho : other.utf8ByteSize < 65536) :
    Bytes.between (agentStem agent ++ timeBytes range.last) (agentStem agent ++ timeBytes range.first)
        (agentStem other ++ timeBytes time) ↔
      other = agent ∧ range.covers time :=
  between_stem fun _ _ => agentStem_inj ho ha

theorem agentRow_eq_ok {agent : String} {time : Int64} {row : Bytes} :
    agentRow agent time = .ok row ↔
      agent.utf8ByteSize < 65536 ∧ row = agentStem agent ++ timeBytes time := by
  rw [agentRow, Field.encodeText]
  split
  · next h =>
    constructor
    · rintro ⟨⟩
      exact ⟨h, rfl⟩
    · rintro ⟨_, rfl⟩
      rfl
  · next h =>
    constructor
    · rintro ⟨⟩
    · rintro ⟨hlt, _⟩
      exact absurd hlt h

theorem processRow_eq_ok {agent : String} {pid : Int32} {time : Int64} {row : Bytes} :
    processRow agent pid time = .ok row ↔
      agent.utf8ByteSize ≤ maxAgentSize ∧ row = processStem agent pid ++ timeBytes time := by
  rw [processRow]
  split
  · next h =>
    constructor
    · rintro ⟨⟩
    · rintro ⟨hle, _⟩
      exact absurd h (Nat.not_lt.mpr hle)
  · next h =>
    constructor
    · rintro ⟨⟩
      exact ⟨Nat.not_lt.mp h, rfl⟩
    · rintro ⟨_, rfl⟩
      rfl

theorem eq_agentRow_of_read {row : Bytes} {agent : String} {time : Int64}
    (h : readAgentRow.read row = .ok (agent, time)) : agentRow agent time = .ok row := by
  rw [readAgentRow_eq] at h
  obtain ⟨stored, c, hstored, hrest, hbytes⟩ := readReversed_eq_ok h
  obtain ⟨hsize, hrow⟩ := readAgentStored_eq_ok hstored
  rw [hrest, List.append_nil, hbytes] at hrow
  exact agentRow_eq_ok.mpr ⟨hsize, hrow⟩

theorem reads_time (time : Int64) : Reader.Reads readTime (timeBytes time) time := by
  have h := Reader.reads_map (f := reverseTime) (Reader.reads_int64 (reverseTime time))
  rw [reverseTime_reverseTime] at h
  exact h

/-- The row of an agent and a time gives both back. -/
theorem readAgentRow_agentRow {row : Bytes} {agent : String} {time : Int64}
    (h : agentRow agent time = .ok row) : readAgentRow.read row = .ok (agent, time) := by
  obtain ⟨hsize, rfl⟩ := agentRow_eq_ok.mp h
  have hread : Reader.ReadsAll readAgentRow (agentStem agent ++ (timeBytes time ++ [])) (agent, time) :=
    (Reader.reads_text hsize).bind_all ((reads_time time).bind_all (Reader.readsAll_finish _))
  simpa using hread.read

end Key

end NetAtlas

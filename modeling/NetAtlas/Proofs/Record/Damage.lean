import NetAtlas.Proofs.Bytes.Steady
import NetAtlas.Proofs.Record.RoundTrips

set_option autoImplicit false

/-!
# Damaged entries are refused

Each part of an entry is read to its end and holds nothing but what its reader takes. So an entry of which
a part was cut short, or runs on behind its end, is never taken for an observation.
-/
namespace NetAtlas

open Reader

namespace Key

theorem composed_readTime : Composed readTime := composed_map composed_int64 _

theorem composed_readAgent : Composed readAgent := by
  refine .steps (composed_take _) fun bs => ?_
  split
  · exact .answers _
  · exact .refuses _

theorem strict_readIpRow : Strict readIpRow :=
  composed_family.bind_strict fun f => (composed_ip f).bind_strict fun _ =>
    composed_readTime.bind_strict fun _ => strict_finish _

theorem strict_readProcessRow : Strict readProcessRow :=
  composed_readAgent.bind_strict fun _ => composed_int32.bind_strict fun _ =>
    composed_readTime.bind_strict fun _ => strict_finish _

end Key

namespace Entry

theorem strict_readViewQualifier (f : Family) : Strict (readViewQualifier f) :=
  composed_text.bind_strict fun _ => composed_transport.bind_strict fun _ =>
    composed_varint32.bind_strict fun _ => (composed_ip f).bind_strict fun _ =>
      composed_varint32.bind_strict fun _ => composed_varint32.bind_strict fun _ => strict_finish _

theorem strict_readSelfQualifier : Strict readSelfQualifier :=
  composed_transport.bind_strict fun _ => composed_family.bind_strict fun f =>
    (composed_ip f).bind_strict fun _ => composed_int32.bind_strict fun _ =>
      (composed_ip f).bind_strict fun _ => composed_int32.bind_strict fun _ => strict_finish _

theorem strict_readCounters : Strict readCounters :=
  composed_varint.bind_strict fun _ => composed_varint.bind_strict fun _ =>
    composed_varint.bind_strict fun _ => composed_varint.bind_strict fun _ =>
      composed_varint.bind_strict fun _ => composed_varint.bind_strict fun _ =>
        composed_varint32.bind_strict fun _ => strict_finish _

inductive Part
  | row
  | qualifier
  | value

def part (e : Entry) : Part → Bytes
  | .row => e.row
  | .qualifier => e.qualifier
  | .value => e.value

def withPart (e : Entry) (bs : Bytes) : Part → Entry
  | .row => { e with row := bs }
  | .qualifier => { e with qualifier := bs }
  | .value => { e with value := bs }

/-- With any part cut short the entry ends too soon, and with anything behind the end of a part, that
is left over. -/
structure RefusesDamage (decode : Entry → Except Corruption Observation) (e : Entry) : Prop where
  cut : ∀ p cut, cut <+: e.part p → cut ≠ e.part p →
    ∃ cause, decode (e.withPart cut p) = .error cause ∧ cause.IsTruncated
  extended : ∀ p extra, extra ≠ [] →
    decode (e.withPart (e.part p ++ extra) p) = .error (.trailing extra.length)

/-- How the parts of an entry are read. What the row says may decide how the qualifier is. -/
structure Layout (α β : Type) where
  row : Reader α
  qualifier : α → Reader β
  row_strict : Strict row
  qualifier_strict : ∀ a, Strict (qualifier a)

namespace Layout

variable {α β : Type} {l : Layout α β} {e : Entry}

/-- What was read is made an observation at the end, or refused. -/
def decode (l : Layout α β) (observe : α → β → Counters × Int32 → Except Corruption Observation)
    (e : Entry) : Except Corruption Observation := do
  let r ← l.row.read e.row
  let q ← (l.qualifier r).read e.qualifier
  let counted ← readCounters.read e.value
  observe r q counted

variable {observe : α → β → Counters × Int32 → Except Corruption Observation}

theorem decode_of_row {r : α} (hrow : l.row.read e.row = .ok r) :
    l.decode observe e =
      (l.qualifier r).read e.qualifier >>= fun q => readCounters.read e.value >>= observe r q := by
  rw [decode, hrow]
  rfl

/-- Each part has a reader of its own, and what that one refuses is refused. -/
theorem exists_reader {r : α} {q : β} {counted : Counters × Int32} (hrow : l.row.read e.row = .ok r)
    (hqualifier : (l.qualifier r).read e.qualifier = .ok q)
    (hvalue : readCounters.read e.value = .ok counted) (p : Part) :
    ∃ (γ : Type) (m : Reader γ) (c : γ), Strict m ∧ m.read (e.part p) = .ok c ∧
      ∀ bs cause, m.read bs = .error cause → l.decode observe (e.withPart bs p) = .error cause := by
  cases p with
  | row =>
    refine ⟨α, l.row, r, l.row_strict, hrow, fun bs cause h => ?_⟩
    rw [decode, withPart, h]
    rfl
  | qualifier =>
    refine ⟨β, l.qualifier r, q, l.qualifier_strict r, hqualifier, fun bs cause h => ?_⟩
    rw [decode_of_row (e := e.withPart bs .qualifier) hrow, withPart, h]
    rfl
  | value =>
    refine ⟨Counters × Int32, readCounters, counted, strict_readCounters, hvalue, fun bs cause h => ?_⟩
    rw [decode_of_row (e := e.withPart bs .value) hrow, withPart, hqualifier]
    change (readCounters.read bs >>= observe r q) = _
    rw [h]
    rfl

theorem refusesDamage {r : α} {q : β} {counted : Counters × Int32} (hrow : l.row.read e.row = .ok r)
    (hqualifier : (l.qualifier r).read e.qualifier = .ok q)
    (hvalue : readCounters.read e.value = .ok counted) : RefusesDamage (l.decode observe) e where
  cut p cut hcut hne := by
    obtain ⟨_, m, c, hstrict, hread, hrefused⟩ := exists_reader hrow hqualifier hvalue p
    obtain ⟨cause, herror, htruncated⟩ := hstrict.read_cut hread hcut hne
    exact ⟨cause, hrefused cut cause herror, htruncated⟩
  extended p extra hne := by
    obtain ⟨_, m, c, hstrict, hread, hrefused⟩ := exists_reader hrow hqualifier hvalue p
    exact hrefused _ _ (hstrict.read_extended hread hne)

end Layout

def viewLayout : Layout (Ip × Int64) ViewQualifier where
  row := Key.readIpRow
  qualifier r := readViewQualifier r.1.family
  row_strict := Key.strict_readIpRow
  qualifier_strict r := strict_readViewQualifier r.1.family

def selfLayout : Layout (String × Int32 × Int64) SelfQualifier where
  row := Key.readProcessRow
  qualifier _ := readSelfQualifier
  row_strict := Key.strict_readProcessRow
  qualifier_strict _ := strict_readSelfQualifier

theorem exists_toView_eq (v : View) : ∃ observe, toView v = viewLayout.decode observe := ⟨_, rfl⟩

theorem exists_toSelf_eq : ∃ observe, toSelf = selfLayout.decode observe := ⟨_, rfl⟩

/-- An entry that was written is refused when any of its parts is cut short or goes on behind its end. -/
theorem written_refusesDamage (o : Observation) :
    (∀ v, RefusesDamage (toView v) (ofView v o)) ∧ RefusesDamage toSelf (ofSelf o) := by
  have hcounters := readCounters_countersValue o
  constructor
  · intro v
    obtain ⟨observe, heq⟩ := exists_toView_eq v
    rw [heq]
    exact Layout.refusesDamage (Key.readIpRow_ipRow _ _) (readViewQualifier_ofView v o) hcounters
  · obtain ⟨observe, heq⟩ := exists_toSelf_eq
    rw [heq]
    exact Layout.refusesDamage (Key.readProcessRow_processStem o.agent_le _ _)
      (readSelfQualifier_ofSelf o) hcounters

/-- Of the qualifier the first byte is left, or one byte more stands behind the time. -/
theorem written_refusesDamage_byte :
    [Transport.udp.code] <+: (ofSelf (accepted 5 (by decide))).qualifier ∧
    [Transport.udp.code] ≠ (ofSelf (accepted 5 (by decide))).qualifier ∧
    (∃ cause, toSelf { ofSelf (accepted 5 (by decide)) with qualifier := [Transport.udp.code] } =
      .error cause ∧ cause.IsTruncated) ∧
    toView .caller { ofView .caller (accepted 5 (by decide)) with
      row := (ofView .caller (accepted 5 (by decide))).row ++ [0] } = .error (.trailing 1) := by
  obtain ⟨hviews, hself⟩ := written_refusesDamage (accepted 5 (by decide))
  have hcut : [Transport.udp.code] <+: (ofSelf (accepted 5 (by decide))).qualifier := ⟨_, rfl⟩
  have hne : [Transport.udp.code] ≠ (ofSelf (accepted 5 (by decide))).qualifier := by decide
  exact ⟨hcut, hne, hself.cut .qualifier _ hcut hne, (hviews .caller).extended .row [0] (by decide)⟩

end Entry

end NetAtlas

import NetAtlas.Atlas.Query
import NetAtlas.Collector.Basic

set_option autoImplicit false

/-!
# Settings

The settings of the collector and of the queries. Settings that are loaded from a file are checked;
the first one at fault is reported.
-/
namespace NetAtlas

structure Settings where
  collector : CollectorSettings := {}
  query : QuerySettings := {}
  deriving DecidableEq, Repr

namespace Settings

/-- The settings that have to be positive, in the order in which they are looked at. -/
def slots (s : Settings) : List (String × Int64) :=
  [("collector.observation_slot_ms", s.collector.observationSlot),
   ("collector.address_slot_ms", s.collector.addressSlot),
   ("collector.pid_slot_ms", s.collector.pidSlot),
   ("query.min_window_slot_ms", s.query.minWindowSlot),
   ("query.max_window_points", s.query.maxWindowPoints)]

def validate (s : Settings) : Except Rejection Unit :=
  match s.slots.find? fun slot => slot.2 ≤ 0 with
  | some (name, value) => .error (.settingNotPositive name value)
  | none =>
    if s.collector.pidFlushDelay < 0 then .error .negativeFlushDelay
    else if s.collector.pidFlushInterval = 0 then .error .zeroFlushInterval
    else .ok ()

/-- What holds of settings that are accepted. -/
structure Valid (s : Settings) : Prop where
  observationSlot_pos : 0 < s.collector.observationSlot
  addressSlot_pos : 0 < s.collector.addressSlot
  pidSlot_pos : 0 < s.collector.pidSlot
  minWindowSlot_pos : 0 < s.query.minWindowSlot
  maxWindowPoints_pos : 0 < s.query.maxWindowPoints
  pidFlushDelay_nonneg : 0 ≤ s.collector.pidFlushDelay
  pidFlushInterval_pos : 0 < s.collector.pidFlushInterval

theorem validate_eq_ok_iff (s : Settings) : s.validate = .ok () ↔ s.Valid := by
  have hdelay : ¬ s.collector.pidFlushDelay < 0 ↔ 0 ≤ s.collector.pidFlushDelay := Int64.not_lt
  have hinterval : ¬ s.collector.pidFlushInterval = 0 ↔ 0 < s.collector.pidFlushInterval := by
    rw [← UInt64.toNat_inj, UInt64.lt_iff_toNat_lt]
    simp only [UInt64.toNat_zero]
    omega
  have hslots : (s.slots.find? fun slot => slot.2 ≤ 0) = none ↔
      0 < s.collector.observationSlot ∧ 0 < s.collector.addressSlot ∧ 0 < s.collector.pidSlot ∧
        0 < s.query.minWindowSlot ∧ 0 < s.query.maxWindowPoints := by
    simp [slots, Int64.not_le]
  unfold validate
  constructor
  · intro h
    split at h
    · cases h
    next hnone =>
    split at h
    · cases h
    next hd =>
    split at h
    · cases h
    next hi =>
    obtain ⟨h1, h2, h3, h4, h5⟩ := hslots.mp hnone
    exact ⟨h1, h2, h3, h4, h5, hdelay.mp hd, hinterval.mp hi⟩
  · intro h
    rw [hslots.mpr ⟨h.1, h.2, h.3, h.4, h.5⟩]
    simp only [hdelay.mpr h.6, hinterval.mpr h.7, if_false]

end Settings

end NetAtlas

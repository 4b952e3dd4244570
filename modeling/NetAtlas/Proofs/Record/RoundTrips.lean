import NetAtlas.Proofs.Storage.SelfQueries

set_option autoImplicit false

/-!
# Entries and the observations they hold

What a view stores of an observation gives the observation back, and its row and qualifier are that of no
observation with another identity. The self view stores agent ids without their length: an id is read up
to its first zero byte, and one that begins with a zero byte is read as empty and refused.
-/
namespace NetAtlas

namespace Utf8

theorem beforeZero_size_le (s : String) : (beforeZero s).utf8ByteSize ≤ s.utf8ByteSize := by
  rw [← encode_length, ← encode_length, encode_beforeZero]
  exact (List.takeWhile_prefix _).length_le

theorem beforeZero_size_eq_zero_iff {s : String} (h : 0 < s.utf8ByteSize) :
    (beforeZero s).utf8ByteSize = 0 ↔ (encode s).head? = some 0 := by
  rw [← encode_length] at h
  rw [← encode_length, encode_beforeZero, List.length_eq_zero_iff]
  cases hs : encode s with
  | nil => rw [hs] at h; exact absurd h (Nat.lt_irrefl 0)
  | cons b bs => by_cases hb : b = 0 <;> simp [hb]

end Utf8

theorem Draft.time_nonneg {d : Draft} {o : Observation} (h : d.build = .ok o) : 0 ≤ o.time :=
  (build_eq_ok h).2.2.2.2.2

namespace Entry

variable {d : Draft} {o p : Observation}

/-- Whatever is in the fields of an observation, its view gives it back, and finds another in its place
exactly if that one is about the same socket, process and time. -/
theorem view_cells_round_trip (v : View) (hbuilt : d.build = .ok o) (hd : o.direction = v.direction)
    (p : Observation) :
    toView v (ofView v o) = .ok o ∧
    ((ofView v o).row = (ofView v p).row ∧ (ofView v o).qualifier = (ofView v p).qualifier ↔
      o.agent = p.agent ∧ o.transport = p.transport ∧ o.src = p.src ∧ o.dst = p.dst ∧ o.pid = p.pid ∧
        o.time = p.time) := by
  have hplace := @View.samePlace_iff v o p
  simp only [samePlace, decide_eq_true_eq, Observation.identity, Identity.mk.injEq] at hplace
  exact ⟨toView_ofView hd (Draft.time_nonneg hbuilt), hplace⟩

/-- An accepted connection between two processes of unknown pid, over IPv6. -/
def accepted (sent : Int64) (h : Counters.Nonneg { sent }) : Observation where
  agent := "relay"
  pid := -7
  transport := .udp
  direction := .incoming
  src := ⟨⟨.v6, [0xFE, 0x80, 0, 0, 0, 0, 0, 0, 0, 0, 0, 0, 0, 0, 0, 1], rfl⟩, 40123, by decide⟩
  dst := ⟨⟨.v6, [0xFE, 0x80, 0, 0, 0, 0, 0, 0, 0, 0, 0, 0, 0, 0, 0, 2], rfl⟩, 5353, by decide⟩
  netNs := -3
  counters := { sent }
  time := 60000
  agent_pos := by decide
  agent_le := by decide
  same_family := rfl
  counters_nonneg := h

/-- A later report about the same takes the place of the earlier one, and says what it says. -/
theorem view_cells_round_trip_accepted :
    (accepted 5 (by decide)).draft.build = .ok (accepted 5 (by decide)) ∧
    (accepted 5 (by decide)).direction = View.caller.direction ∧
    toView .caller (ofView .caller (accepted 5 (by decide))) = .ok (accepted 5 (by decide)) ∧
    (ofView .caller (accepted 5 (by decide))).row = (ofView .caller (accepted 8 (by decide))).row ∧
    (ofView .caller (accepted 5 (by decide))).qualifier =
      (ofView .caller (accepted 8 (by decide))).qualifier := by
  have hbuilt := (accepted 5 (by decide)).build_draft (by decide)
  obtain ⟨hread, hplace⟩ := view_cells_round_trip .caller hbuilt rfl (accepted 8 (by decide))
  obtain ⟨hrow, hqualifier⟩ := hplace.mpr ⟨rfl, rfl, rfl, rfl, rfl, rfl⟩
  exact ⟨hbuilt, rfl, hread, hrow, hqualifier⟩

theorem toSelf_ofSelf_leading_zero (hd : o.direction = .internal)
    (hzero : (Utf8.encode o.agent).head? = some 0) :
    toSelf (ofSelf o) = .error (.rejected .emptyAgent) := by
  rw [toSelf_ofSelf_eq hd, check, Draft.build,
    dif_pos ((Utf8.beforeZero_size_eq_zero_iff o.agent_pos).mpr hzero)]
  rfl

theorem toSelf_ofSelf_cut (hd : o.direction = .internal) (ht : 0 ≤ o.time)
    (hzero : (Utf8.encode o.agent).head? ≠ some 0) :
    ∃ hpos hle, toSelf (ofSelf o) =
      .ok { o with agent := Utf8.beforeZero o.agent, agent_pos := hpos, agent_le := hle } := by
  have hpos : 0 < (Utf8.beforeZero o.agent).utf8ByteSize :=
    Nat.pos_of_ne_zero fun h => hzero ((Utf8.beforeZero_size_eq_zero_iff o.agent_pos).mp h)
  have hle : (Utf8.beforeZero o.agent).utf8ByteSize ≤ maxAgentSize :=
    Nat.le_trans (Utf8.beforeZero_size_le o.agent) o.agent_le
  refine ⟨hpos, hle, ?_⟩
  rw [toSelf_ofSelf_eq hd]
  exact check_draft (o := { o with agent := _, agent_pos := hpos, agent_le := hle }) ht

/-- The self view gives back exactly the observations whose agent id has no zero byte. Of another id it gives
what stands before the first zero byte, if anything does. Among ids without zero bytes it finds one
observation in the place of another exactly if they are about the same socket, process and time. -/
theorem self_cells_round_trip_iff (hbuilt : d.build = .ok o) (hd : o.direction = .internal) :
    (toSelf (ofSelf o) = .ok o ↔ Key.ZeroFree o.agent) ∧
    (¬ Key.ZeroFree o.agent →
      ((Utf8.encode o.agent).head? = some 0 → toSelf (ofSelf o) = .error (.rejected .emptyAgent)) ∧
      ((Utf8.encode o.agent).head? ≠ some 0 → ∃ cut hpos hle,
        Utf8.encode cut = (Utf8.encode o.agent).takeWhile (· ≠ 0) ∧
        toSelf (ofSelf o) = .ok { o with agent := cut, agent_pos := hpos, agent_le := hle })) ∧
    ∀ p : Observation, Key.ZeroFree o.agent → Key.ZeroFree p.agent →
      ((ofSelf o).row = (ofSelf p).row ∧ (ofSelf o).qualifier = (ofSelf p).qualifier ↔
        o.agent = p.agent ∧ o.transport = p.transport ∧ o.src = p.src ∧ o.dst = p.dst ∧
          o.pid = p.pid ∧ o.time = p.time) := by
  have ht := Draft.time_nonneg hbuilt
  refine ⟨⟨zeroFree_of_toSelf, toSelf_ofSelf hd ht⟩, fun _ => ⟨toSelf_ofSelf_leading_zero hd, fun h => ?_⟩,
    fun p ho hp => ?_⟩
  · obtain ⟨hpos, hle, hread⟩ := toSelf_ofSelf_cut hd ht h
    exact ⟨_, hpos, hle, Utf8.encode_beforeZero o.agent, hread⟩
  · have hplace := SelfView.samePlace_iff ho hp
    simp only [samePlace, decide_eq_true_eq, Observation.identity, Identity.mk.injEq] at hplace
    exact hplace

/-- An A, a zero byte and a B are read as an A. -/
theorem self_cells_round_trip_iff_cut :
    (SelfView.report "A\x00B" (by decide) (by decide)).draft.build =
      .ok (SelfView.report "A\x00B" (by decide) (by decide)) ∧
    ¬ Key.ZeroFree "A\x00B" ∧ (Utf8.encode "A\x00B").head? ≠ some 0 ∧
    toSelf (ofSelf (SelfView.report "A\x00B" (by decide) (by decide))) =
      .ok (SelfView.report "A" (by decide) (by decide)) := by
  have hbuilt := (SelfView.report "A\x00B" (by decide) (by decide)).build_draft (by decide)
  have hzero : ¬ Key.ZeroFree "A\x00B" := by decide
  have hhead : (Utf8.encode "A\x00B").head? ≠ some 0 := by decide
  obtain ⟨cut, _, _, hcut, hread⟩ := ((self_cells_round_trip_iff hbuilt rfl).2.1 hzero).2 hhead
  have hbytes : (Utf8.encode "A\x00B").takeWhile (· ≠ 0) = Utf8.encode "A" := by decide
  cases Utf8.encode_inj (hcut.trans hbytes)
  exact ⟨hbuilt, hzero, hhead, hread⟩

end Entry

end NetAtlas

import NetAtlas.Proofs.Record.Entry

set_option autoImplicit false

/-!
# What scan bounds select

A row is a stem and a time, and a column has stems of one kind. No two of them begin a common row unless
they are the same, so no row of another stem stands between two rows of one stem. Within a stem the rows
of later times stand first. So from the row of a range's last time up to that of its first time there are
exactly the rows of their stem at the times of the range.
-/
namespace NetAtlas

namespace Key

/-- The bytes of a row before its time. -/
def beforeTime (row : Bytes) : Bytes := row.take (row.length - 8)

theorem beforeTime_append (stem : Bytes) (time : Int64) : beforeTime (stem ++ timeBytes time) = stem := by
  have hlength : (stem ++ timeBytes time).length - 8 = stem.length := by
    rw [List.length_append, timeBytes_length, Nat.add_sub_cancel]
  rw [beforeTime, hlength, List.take_left]

/-- Rows by stem and time, where `row` writes the row of a name at a time unless the name is too long. -/
structure Scannable {κ : Type} (row : κ → Int64 → Except Rejection Bytes) : Prop where
  between_iff : ∀ {k other : κ} {range : TimeRange} {time : Int64} {start stop key : Bytes},
    row k range.last = .ok start → row k range.first = .ok stop → row other time = .ok key →
      (Bytes.between start stop key ↔
        beforeTime key = beforeTime start ∧ range.first < time ∧ time ≤ range.last)
  later_first : ∀ {k other : κ} {time later : Int64} {key laterKey : Bytes},
    row k time = .ok key → row other later = .ok laterKey → beforeTime key = beforeTime laterKey →
      (compare laterKey key = .lt ↔ time < later)

theorem scannable_of_stem {κ : Type} {row : κ → Int64 → Except Rejection Bytes} (stem : κ → Bytes)
    (Admits : κ → Prop)
    (hrow : ∀ {k time bs}, row k time = .ok bs → Admits k ∧ bs = stem k ++ timeBytes time)
    (hfree : ∀ {k other x y}, Admits k → Admits other → stem other ++ x = stem k ++ y →
      stem other = stem k) : Scannable row where
  between_iff {k other range time start stop key} hstart hstop hkey := by
    obtain ⟨hk, rfl⟩ := hrow hstart
    obtain ⟨_, rfl⟩ := hrow hstop
    obtain ⟨hother, rfl⟩ := hrow hkey
    have hinj : ∀ x y, stem other ++ x = stem k ++ y → stem other = stem k ∧ x = y := by
      intro x y h
      have hsame := hfree hk hother h
      rw [hsame] at h
      exact ⟨hsame, List.append_cancel_left h⟩
    rw [beforeTime_append, beforeTime_append]
    refine (@between_stem Bytes id _ _ _ _ hinj).trans ?_
    rw [TimeRange.covers, decide_eq_true_iff]
  later_first {k other time later key laterKey} hkey hlater hsame := by
    obtain ⟨_, rfl⟩ := hrow hkey
    obtain ⟨_, rfl⟩ := hrow hlater
    rw [beforeTime_append, beforeTime_append] at hsame
    rw [hsame, Bytes.compare_append, compare_timeBytes]

theorem scannable_ipRow : Scannable fun ip time => .ok (ipRow ip time) := by
  refine scannable_of_stem ipStem (fun _ => True) ?_ ?_
  · rintro ip time bs ⟨⟩
    exact ⟨trivial, rfl⟩
  · intro ip other x y _ _ h
    rw [(ipStem_inj h).1]

/-- Padding makes the stems of all processes equally long. -/
theorem scannable_processRow :
    Scannable fun (process : String × Int32) time => processRow process.1 process.2 time := by
  refine scannable_of_stem (fun process => processStem process.1 process.2)
    (fun process => process.1.utf8ByteSize ≤ maxAgentSize) processRow_eq_ok.mp ?_
  intro process other x y hle hother h
  exact (List.append_inj h (by rw [processStem_length hother, processStem_length hle])).1

theorem scannable_agentRow : Scannable agentRow := by
  refine scannable_of_stem agentStem (fun agent => agent.utf8ByteSize < 65536) agentRow_eq_ok.mp ?_
  intro agent other x y hagent hother h
  rw [(agentStem_inj hother hagent h).1]

theorem beforeTime_ipRow_eq_iff {ip other : Ip} {time time' : Int64} :
    beforeTime (ipRow ip time) = beforeTime (ipRow other time') ↔ ip = other := by
  rw [ipRow, ipRow, beforeTime_append, beforeTime_append]
  constructor
  · intro h
    exact (ipStem_inj (congrArg (· ++ []) h)).1
  · rintro rfl
    rfl

theorem beforeTime_agentRow_eq_iff {agent other : String} {time time' : Int64} {row row' : Bytes}
    (h : agentRow agent time = .ok row) (h' : agentRow other time' = .ok row') :
    beforeTime row = beforeTime row' ↔ agent = other := by
  obtain ⟨hagent, rfl⟩ := agentRow_eq_ok.mp h
  obtain ⟨hother, rfl⟩ := agentRow_eq_ok.mp h'
  rw [beforeTime_append, beforeTime_append]
  constructor
  · intro hsame
    exact (agentStem_inj hagent hother (congrArg (· ++ []) hsame)).1
  · rintro rfl
    rfl

/-- The rows of the views, of the self view and of the registries are scannable. A row of a view or a
registry has the bytes before its time from its address or agent alone, and no other has the same. -/
theorem rows_scannable :
    Scannable (fun ip time => .ok (ipRow ip time)) ∧
    Scannable (fun (process : String × Int32) time => processRow process.1 process.2 time) ∧
    Scannable agentRow ∧
    (∀ (ip other : Ip) (time time' : Int64),
      beforeTime (ipRow ip time) = beforeTime (ipRow other time') ↔ ip = other) ∧
    (∀ (agent other : String) (time time' : Int64) (row row' : Bytes),
      agentRow agent time = .ok row → agentRow other time' = .ok row' →
        (beforeTime row = beforeTime row' ↔ agent = other)) ∧
    (∀ (agent : String) (pid : Int32) (time : Int64),
      (∃ row, processRow agent pid time = .ok row) ↔ agent.utf8ByteSize ≤ maxAgentSize) ∧
    ∀ (agent : String) (time : Int64),
      (∃ row, agentRow agent time = .ok row) ↔ agent.utf8ByteSize < 65536 := by
  refine ⟨scannable_ipRow, scannable_processRow, scannable_agentRow,
    fun _ _ _ _ => beforeTime_ipRow_eq_iff, fun _ _ _ _ _ _ => beforeTime_agentRow_eq_iff, ?_, ?_⟩
  · intro agent pid time
    simp only [processRow_eq_ok, exists_and_left, exists_eq, and_true]
  · intro agent time
    simp only [agentRow_eq_ok, exists_and_left, exists_eq, and_true]

/-- Between two rows of one agent there are rows of its own, and none of an agent whose id begins alike. -/
theorem rows_scannable_ids_begin_alike :
    let row (agent : String) (time : Int64) := agentStem agent ++ timeBytes time
    agentRow "svc" 2000 = .ok (row "svc" 2000) ∧ agentRow "svc" 1000 = .ok (row "svc" 1000) ∧
    agentRow "svc" 1500 = .ok (row "svc" 1500) ∧ agentRow "svc-a" 1500 = .ok (row "svc-a" 1500) ∧
    Bytes.between (row "svc" 2000) (row "svc" 1000) (row "svc" 1500) ∧
    ¬ Bytes.between (row "svc" 2000) (row "svc" 1000) (row "svc-a" 1500) ∧
    compare (row "svc" 2000) (row "svc" 1500) = .lt := by
  intro row
  have hrow : ∀ agent ∈ ["svc", "svc-a"], ∀ time, agentRow agent time = .ok (row agent time) := by
    intro agent hagent time
    refine agentRow_eq_ok.mpr ⟨?_, rfl⟩
    revert agent
    decide
  have hsvc := hrow "svc" (by decide)
  have hlonger := hrow "svc-a" (by decide)
  obtain ⟨_, _, hscan, _, hagent, _⟩ := rows_scannable
  let range : TimeRange := ⟨1000, 2000, by decide, by decide⟩
  have hstart : agentRow "svc" range.last = .ok (row "svc" 2000) := hsvc 2000
  have hstop : agentRow "svc" range.first = .ok (row "svc" 1000) := hsvc 1000
  refine ⟨hsvc 2000, hsvc 1000, hsvc 1500, hlonger 1500, ?_, ?_, ?_⟩
  · rw [hscan.between_iff hstart hstop (hsvc 1500), hagent _ _ _ _ _ _ (hsvc 1500) (hsvc 2000)]
    exact ⟨rfl, by decide, by decide⟩
  · rw [hscan.between_iff hstart hstop (hlonger 1500), hagent _ _ _ _ _ _ (hlonger 1500) (hsvc 2000)]
    exact fun h => absurd h.1 (by decide)
  · have hsame := (hagent _ _ _ _ _ _ (hsvc 1500) (hsvc 2000)).mpr rfl
    exact (hscan.later_first (hsvc 1500) (hsvc 2000) hsame).mpr (by decide)

end Key

end NetAtlas

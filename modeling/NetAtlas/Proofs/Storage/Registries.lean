import NetAtlas.Proofs.Storage.Observations

set_option autoImplicit false

/-!
# Registries and processes as queries find them

A query by agent fails only for an id that is too long to be written into a key.
-/
namespace NetAtlas

open Std StoreM

variable (c : Contents)

theorem AddressRegistry.reading_query (agent : String) (range : TimeRange) :
    Reading (AddressRegistry.query agent range) := reading_readCells _ _ _ _

theorem PidRegistry.reading_query (agent : String) (range : TimeRange) :
    Reading (PidRegistry.query agent range) := reading_readCells _ _ _ _

theorem reading_addresses (agent : String) (range : TimeRange) :
    Reading (AddressRegistry.addresses agent range) :=
  reading_map (AddressRegistry.reading_query agent range) _

theorem agentRow_ok {agent : String} (h : agent.utf8ByteSize < 65536) (time : Int64) :
    ∃ bs, Key.agentRow agent time = .ok bs := ⟨_, Key.agentRow_eq_ok.mpr ⟨h, rfl⟩⟩

theorem processRow_ok {agent : String} (h : agent.utf8ByteSize ≤ maxAgentSize) (pid : Int32)
    (time : Int64) : ∃ bs, Key.processRow agent pid time = .ok bs :=
  ⟨_, Key.processRow_eq_ok.mpr ⟨h, rfl⟩⟩

/-- An agent id short enough for a key has an answer. -/
theorem answer_addresses_ok {agent : String} (h : agent.utf8ByteSize < 65536)
    (range : TimeRange) :
    (AddressRegistry.addresses agent range).answer c = .ok (c.addresses agent range) := by
  obtain ⟨start, hstart⟩ := agentRow_ok h range.last
  obtain ⟨stop, hstop⟩ := agentRow_ok h range.first
  have hanswer : ∃ found, (AddressRegistry.addresses agent range).answer c = .ok found := by
    rw [AddressRegistry.addresses, answer_map (AddressRegistry.reading_query agent range),
      AddressRegistry.query, answer_readCells _ hstart hstop]
    exact ⟨_, rfl⟩
  obtain ⟨found, hfound⟩ := hanswer
  rw [Contents.addresses, hfound]
  rfl

theorem answer_addresses_eq_ok {agent : String} {range : TimeRange} {found : ExtTreeSet Ip}
    (h : (AddressRegistry.addresses agent range).answer c = .ok found) :
    found = c.addresses agent range := by
  rw [Contents.addresses, h]
  rfl

theorem reading_pids (agent : String) (range : TimeRange) : Reading (PidRegistry.pids agent range) :=
  reading_map (PidRegistry.reading_query agent range) _

theorem answer_pids_ok {agent : String} (h : agent.utf8ByteSize < 65536) (range : TimeRange) :
    ∃ pids, (PidRegistry.pids agent range).answer c = .ok pids := by
  obtain ⟨start, hstart⟩ := agentRow_ok h range.last
  obtain ⟨stop, hstop⟩ := agentRow_ok h range.first
  rw [PidRegistry.pids, answer_map (PidRegistry.reading_query agent range), PidRegistry.query,
    answer_readCells _ hstart hstop]
  exact ⟨_, rfl⟩

theorem reading_selfQuery (agent : String) (pid : Int32) (range : TimeRange) :
    Reading (SelfView.query agent pid range) :=
  reading_readCells _ _ _ _

theorem answer_selfQuery_ok {agent : String} (h : agent.utf8ByteSize ≤ maxAgentSize) (pid : Int32)
    (range : TimeRange) : ∃ found, (SelfView.query agent pid range).answer c = .ok found := by
  obtain ⟨start, hstart⟩ := processRow_ok h pid range.last
  obtain ⟨stop, hstop⟩ := processRow_ok h pid range.first
  rw [SelfView.query, answer_readCells _ hstart hstop]
  exact ⟨_, rfl⟩

end NetAtlas

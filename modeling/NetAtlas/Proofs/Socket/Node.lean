import NetAtlas.Socket.Observation

set_option autoImplicit false

/-!
# Nodes of reports

Every negative pid is read as the unknown one, so a node gives back the agent of a report and its pid,
if that is not negative.
-/
namespace NetAtlas

namespace Node

theorem agent_of (agent : String) (pid : Int32) : (of agent pid).agent = agent := by
  unfold of
  split
  · rfl
  · rfl

theorem pid_of (agent : String) (pid : Int32) :
    (of agent pid).pid = if pid < 0 then unknownPid else pid := by
  unfold of
  split
  · rfl
  · rfl

theorem pid_nonneg {n : Node} (h : n.hasPid) : 0 ≤ n.pid := by
  have hne : n.pid ≠ unknownPid := of_decide_eq_true h
  have hge := Int32.le_iff_toInt_le.mp n.pid_ge
  have hint : n.pid.toInt ≠ unknownPid.toInt := fun he => hne (Int32.toInt_inj.mp he)
  have hunknown : unknownPid.toInt = -1 := by decide
  have hzero : (0 : Int32).toInt = 0 := by decide
  rw [Int32.le_iff_toInt_le]
  omega

theorem not_hasPid_ofAgent (agent : String) : ¬ (ofAgent agent).hasPid := by
  rw [hasPid, ofAgent, pid_of, if_pos (by decide)]
  decide

end Node

theorem Observation.pid_of_node_eq {o p : Observation} (h : o.node = p.node) :
    o.agent = p.agent ∧ (o.pid = p.pid ∨ o.pid < 0 ∧ p.pid < 0) := by
  have hagent := congrArg Node.agent h
  have hpid := congrArg Node.pid h
  unfold node at hagent hpid
  rw [Node.agent_of, Node.agent_of] at hagent
  rw [Node.pid_of, Node.pid_of] at hpid
  refine ⟨hagent, ?_⟩
  by_cases ho : o.pid < 0
  · by_cases hp : p.pid < 0
    · exact Or.inr ⟨ho, hp⟩
    · rw [if_pos ho, if_neg hp] at hpid
      exact absurd (hpid ▸ by decide : p.pid < 0) hp
  · by_cases hp : p.pid < 0
    · rw [if_neg ho, if_pos hp] at hpid
      exact absurd (hpid ▸ by decide : o.pid < 0) ho
    · rw [if_neg ho, if_neg hp] at hpid
      exact Or.inl hpid

end NetAtlas

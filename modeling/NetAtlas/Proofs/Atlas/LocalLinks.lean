import NetAtlas.Atlas.LocalLinks
import NetAtlas.Proofs.Link.Posting
import NetAtlas.Proofs.Storage.Registries

set_option autoImplicit false

/-!
# Links inside a host as queries find them

Selecting an agent's local links only reads, and comes through for every agent id that fits into a key
of the self view. None of these links has the direction of a view.
-/
namespace NetAtlas

open Std StoreM

namespace LocalLinks

variable (c : Contents) (w : Window)

theorem reading_select (agent : String) : Reading (select w agent) :=
  reading_bind (reading_pids _ _) fun _ =>
    reading_map (reading_mapM _ fun _ => reading_selfQuery _ _ _) _

theorem answer_select (agent : String) :
    (select w agent).answer c =
      (PidRegistry.pids agent w.range).answer c >>= fun pids =>
        (pids.toList.mapM fun pid => (SelfView.query agent pid w.range).answer c) >>= fun found =>
          .ok (LinkMap.ofList (found.flatten.map (contribution w))) := by
  rw [select, answer_bind (reading_pids _ _) fun _ =>
    reading_map (reading_mapM _ fun _ => reading_selfQuery _ _ _) _]
  congr 1
  funext pids
  rw [answer_bind (reading_mapM _ fun _ => reading_selfQuery _ _ _) fun _ => reading_pure _,
    answer_mapM _ fun _ => reading_selfQuery _ _ _]
  rfl

theorem answer_select_ok {agent : String} (h : agent.utf8ByteSize ≤ maxAgentSize) :
    ∃ m, (select w agent).answer c = .ok m := by
  have hlt : agent.utf8ByteSize < 65536 := Nat.lt_of_le_of_lt h (by decide)
  obtain ⟨pids, hpids⟩ := answer_pids_ok c hlt w.range
  choose found hfound using fun pid => answer_selfQuery_ok c h pid w.range
  rw [answer_select, hpids]
  change ∃ m, ((pids.toList.mapM fun pid => (SelfView.query agent pid w.range).answer c) >>= _) = .ok m
  rw [except_mapM_ok fun pid _ => hfound pid]
  exact ⟨_, rfl⟩

theorem ofList_contributions (os : List Observation) :
    LinkMap.ofList (os.map (contribution w)) =
      LinkMap.ofPostings w (os.map fun o => ⟨(contribution w o).1, [o], []⟩) := by
  rw [LinkMap.ofPostings, List.map_map]
  rfl

theorem direction_of_mem_select {agent : String} {m : LinkMap}
    (h : (select w agent).answer c = .ok m) {k : LinkKey} (hk : k ∈ m) :
    k.direction = .internal := by
  rw [answer_select] at h
  obtain ⟨pids, _, h⟩ := except_bind_eq_ok h
  obtain ⟨found, _, h⟩ := except_bind_eq_ok h
  cases h
  rw [ofList_contributions, LinkMap.mem_ofPostings, List.map_map] at hk
  obtain ⟨o, _, rfl⟩ := List.mem_map.mp hk
  rfl

end LocalLinks

end NetAtlas

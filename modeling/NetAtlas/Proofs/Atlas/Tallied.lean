import NetAtlas.Proofs.Atlas.Accounts
import NetAtlas.Proofs.Atlas.LocalTraffic
import NetAtlas.Proofs.Link.Tallies

set_option autoImplicit false

/-!
# Tallies of a range

Every value that a query forms is a tally of observations with times of its range: the reports that are
booked on either side of a walk, and those of the links inside a host.
-/
namespace NetAtlas

open Std StoreM

/-- A value into which observations of the range of a window are added and merged. -/
def LinkValue.Tallied (w : Window) (v : LinkValue) : Prop :=
  ∃ t : Tally, (∀ o ∈ t.observations, w.range.covers o.time) ∧ v = t.value w

def LinkMap.Tallied (w : Window) (m : LinkMap) : Prop :=
  ∀ (k : LinkKey) (value : LinkValue), m[k]? = some value → value.Tallied w

variable {w : Window}

namespace LinkValue

theorem tallied_ofObservations {os : List Observation} (h : ∀ o ∈ os, w.range.covers o.time) :
    (ofObservations w os).Tallied w :=
  ⟨.ofList os, by rwa [Tally.observations_ofList], (Tally.value_ofList w os).symm⟩

theorem tallied_merge {v u : LinkValue} (hv : v.Tallied w) (hu : u.Tallied w) :
    (v.merge u).Tallied w := by
  obtain ⟨t, ht, rfl⟩ := hv
  obtain ⟨t', ht', rfl⟩ := hu
  exact ⟨.merge t t', List.forall_mem_append.mpr ⟨ht, ht'⟩, rfl⟩

end LinkValue

namespace LinkMap

theorem tallied_empty : Tallied w ∅ := by simp [Tallied]

theorem tallied_merge {m n : LinkMap} (hm : m.Tallied w) (hn : n.Tallied w) :
    (m.merge n).Tallied w := by
  intro k value hvalue
  rw [getElem?_merge] at hvalue
  cases hk : n[k]? with
  | none =>
    rw [hk] at hvalue
    exact hm k value hvalue
  | some new =>
    rw [hk] at hvalue
    cases hold : m[k]? with
    | none =>
      rw [hold] at hvalue
      cases hvalue
      exact hn k new hk
    | some old =>
      rw [hold] at hvalue
      cases hvalue
      exact LinkValue.tallied_merge (hm k old hold) (hn k new hk)

theorem tallied_ofPostings {ps : List Posting}
    (howns : ∀ x ∈ Posting.owns ps, w.range.covers x.2.time)
    (hpeers : ∀ x ∈ Posting.peers ps, w.range.covers x.2.time) : (ofPostings w ps).Tallied w := by
  intro k value hvalue
  rw [getElem?_ofPostings] at hvalue
  split at hvalue <;> cases hvalue
  apply LinkValue.tallied_ofObservations
  intro o ho
  rcases List.mem_append.mp ho with ho | ho
  · exact howns (k, o) (Posting.mem_booked.mp ho)
  · exact hpeers (k, o) (Posting.mem_booked.mp ho)

theorem tallied_of_mem_links {m : LinkMap} (h : m.Tallied w) {l : Link} (hl : l ∈ m.links) :
    l.value.Tallied w := by
  obtain ⟨⟨k, value⟩, hmem, rfl⟩ := List.mem_map.mp hl
  exact h k value (ExtTreeMap.mem_toList_iff_getElem?_eq_some.mp hmem)

end LinkMap

theorem LocalLinks.tallied_select {c : Contents} {agent : String} {m : LinkMap}
    (h : (select w agent).answer c = .ok m) : m.Tallied w := by
  rw [answer_select] at h
  obtain ⟨pids, _, h⟩ := except_bind_eq_ok h
  obtain ⟨found, hfound, h⟩ := except_bind_eq_ok h
  cases h
  have hcovers : ∀ o ∈ found.flatten, w.range.covers o.time := by
    intro o ho
    obtain ⟨os, hos, ho⟩ := List.mem_flatten.mp ho
    obtain ⟨pid, _, hquery⟩ := except_mapM_mem hfound hos
    exact SelfView.covers_of_answer hquery ho
  rw [ofList_contributions]
  apply LinkMap.tallied_ofPostings
  · intro x hx
    simp only [Posting.owns, List.flatMap_map, List.mem_flatMap, List.mem_map] at hx
    obtain ⟨o, ho, p, hp, rfl⟩ := hx
    exact hcovers p (List.mem_singleton.mp hp ▸ ho)
  · simp [Posting.peers]

namespace Traversal

variable {s : Storage} {callerDepth calleeDepth : Nat} {withLocalLinks : Bool} {agent : String}
  {t : Traversal}

theorem tallied_selectLocal {m : LinkMap}
    (h : (selectLocal w withLocalLinks agent).answer s.contents = .ok m) : m.Tallied w := by
  cases withLocalLinks with
  | false =>
    cases h
    exact LinkMap.tallied_empty
  | true => exact LocalLinks.tallied_select h

theorem tallied_side (h : (run w callerDepth calleeDepth withLocalLinks agent s).1 = .ok t) (v : View) :
    (t.side v).links.Tallied w := by
  rw [links_side_of_run h v]
  apply LinkMap.tallied_ofPostings
  · intro x hx
    exact (List.mem_filter.mp (s.contents.mem_of_mem_owns v w hx)).2
  · intro x hx
    exact (List.mem_filter.mp (s.contents.mem_of_mem_peers v w hx)).2

theorem tallied_links (h : (run w callerDepth calleeDepth withLocalLinks agent s).1 = .ok t) :
    t.links.Tallied w := by
  obtain ⟨_, hselect, _⟩ := walked_of_run w h
  exact LinkMap.tallied_merge
    (LinkMap.tallied_merge (tallied_selectLocal hselect) (tallied_side h .caller))
    (tallied_side h .callee)

end Traversal

end NetAtlas

import NetAtlas.Proofs.Atlas.Tallied
import NetAtlas.Proofs.Time.Grid

set_option autoImplicit false

/-!
# Answers on the grid

All observations that a query books have times of its range, so all buckets of its links are slots of its
window. No sampler makes more slots than the points it was set to and one.
-/
namespace NetAtlas

open Std StoreM

/-- Buckets that are slots of a window, and no more of them than one over the points. -/
structure LinkValue.Samples (w : Window) (points : Int64) (v : LinkValue) : Prop where
  onGrid : ∀ slot ∈ v, w.OnGrid slot
  size_le : (v.size : Int) ≤ max 1 points.toInt + 1

theorem LinkValue.size_le_count {w : Window} {v : LinkValue} (h : ∀ slot ∈ v, w.OnGrid slot) :
    v.size ≤ w.count := by
  have hsub : v.keys ⊆ w.slots := fun slot hslot => (h slot (ExtTreeMap.mem_keys.mp hslot)).mem_slots
  calc
    v.size = v.keys.length := ExtTreeMap.length_keys.symm
    _ ≤ w.slots.length := (List.subperm_of_subset ExtTreeMap.nodup_keys hsub).length_le
    _ = w.count := w.slots_length

/-- All links have buckets on the grid alone. -/
def LinkMap.OnGrid (w : Window) (m : LinkMap) : Prop :=
  ∀ (k : LinkKey) (value : LinkValue), m[k]? = some value → ∀ slot ∈ value, w.OnGrid slot

namespace LinkMap

variable {w : Window}

/-- Observations of the range are booked in slots of the window. -/
theorem onGrid_of_tallied {m : LinkMap} (h : m.Tallied w) : m.OnGrid w := by
  intro k value hvalue slot hslot
  obtain ⟨t, hcovers, rfl⟩ := h k value hvalue
  rw [Tally.value_eq] at hslot
  obtain ⟨o, ho, rfl⟩ := (LinkValue.mem_ofObservations w).mp hslot
  exact w.onGrid_refine (hcovers o ho)

theorem samples_of_tallied {settings : QuerySettings} {range : TimeRange} {m : LinkMap}
    (hw : settings.sampler.window range = .ok w) (h : m.Tallied w) {l : Link} (hl : l ∈ m.links) :
    l.value.Samples w settings.maxWindowPoints := by
  obtain ⟨⟨k, value⟩, hmem, rfl⟩ := List.mem_map.mp hl
  have hgrid := onGrid_of_tallied h k value (ExtTreeMap.mem_toList_iff_getElem?_eq_some.mp hmem)
  have hsize : (value.size : Int) ≤ w.count := by exact_mod_cast LinkValue.size_le_count hgrid
  exact ⟨hgrid, Int.le_trans hsize (Sampler.count_le hw)⟩

end LinkMap

namespace Query

variable {settings : QuerySettings} {s : Storage} {agent : String} {range : TimeRange}
  {callerDepth calleeDepth : Nat} {w : Window}

theorem atlas_eq_ok {sampler : Sampler} {atlas : Atlas} (hw : sampler.window range = .ok w)
    (h : (Query.atlas settings sampler agent range callerDepth calleeDepth s).1 = .ok atlas) :
    ∃ t, (Traversal.run w callerDepth calleeDepth settings.includeLocalLinks agent s).1 = .ok t ∧
      atlas = Atlas.assemble t.links := by
  unfold Query.atlas at h
  split at h
  · cases h
  · rw [hw] at h
    change ((Traversal.run w callerDepth calleeDepth settings.includeLocalLinks agent >>= fun t =>
      pure (Atlas.assemble t.links)) s).1 = _ at h
    rw [exceptT_bind_run] at h
    rcases hrun : Traversal.run w callerDepth calleeDepth settings.includeLocalLinks agent s with ⟨e | t, s'⟩
    · rw [hrun] at h
      cases h
    · rw [hrun] at h
      cases h
      exact ⟨t, rfl, rfl⟩

theorem localLinks_eq_ok {sampler : Sampler} {links : List Link} (hw : sampler.window range = .ok w)
    (h : (Query.localLinks sampler agent range s).1 = .ok links) :
    ∃ m, (LocalLinks.select w agent).answer s.contents = .ok m ∧ links = m.links := by
  have hselect := LocalLinks.reading_select w agent
  have hquery : Query.localLinks sampler agent range =
      LocalLinks.select w agent >>= fun m => pure m.links := by rw [Query.localLinks, hw]; rfl
  rw [hquery] at h
  have hanswer := (reading_map hselect _).answer_eq h
  rw [answer_map hselect] at hanswer
  obtain ⟨m, hm, rfl⟩ := except_map_eq_ok hanswer
  exact ⟨m, hm, rfl⟩

/-- Whatever is stored, in whatever range and with whatever settings and depths: the window the sampler
picks has a slot for each bucket of each link that is answered, and no link has more buckets than the
points, at least one, and one more. -/
theorem answers_on_grid (s : Storage) (settings : QuerySettings) (agent : String) (range : TimeRange)
    (callerDepth calleeDepth : Nat) :
    ∃ w, settings.sampler.window range = .ok w ∧ w.range = range ∧
      (s.AnswersScans → 0 < agent.utf8ByteSize → agent.utf8ByteSize ≤ maxAgentSize →
        (∃ atlas, (Query.atlas settings settings.sampler agent range callerDepth calleeDepth s).1 =
          .ok atlas) ∧
        ∃ links, (Query.localLinks settings.sampler agent range s).1 = .ok links) ∧
      (∀ atlas, (Query.atlas settings settings.sampler agent range callerDepth calleeDepth s).1 =
          .ok atlas → ∀ l ∈ atlas.links, l.value.Samples w settings.maxWindowPoints) ∧
      ∀ links, (Query.localLinks settings.sampler agent range s).1 = .ok links →
        ∀ l ∈ links, l.value.Samples w settings.maxWindowPoints := by
  obtain ⟨w, hw, hrange⟩ := settings.window_ok range
  refine ⟨w, hw, hrange, fun hs hpos hle => ?_, fun atlas h l hl => ?_, fun links h l hl => ?_⟩
  · obtain ⟨_, t, _, _, hatlas⟩ := Query.atlas_ok settings range callerDepth calleeDepth hs hpos hle
    obtain ⟨links, hlinks, _⟩ := Query.localLinks_ok settings range hs hle
    exact ⟨⟨_, hatlas⟩, links, hlinks⟩
  · obtain ⟨t, ht, rfl⟩ := atlas_eq_ok hw h
    exact LinkMap.samples_of_tallied hw (Traversal.tallied_links ht) (Atlas.mem_of_mem_keepFirst hl)
  · obtain ⟨m, hm, rfl⟩ := localLinks_eq_ok hw h
    exact LinkMap.samples_of_tallied hw (LocalLinks.tallied_select hm) hl

def reportTwice : StoreM Unit := do
  Sample.insertAll [⟨"A", 500, [Sample.host 1]⟩] <| [500, 950].flatMap fun time =>
    [{ Sample.report "A" 1 .outgoing (Sample.host 1, 5000) (Sample.host 2, 80) 1 with time },
     { Sample.report "A" 1 .internal (Sample.host 1, 5001) (Sample.host 1, 81) 1 with time }]
  PidRegistry.insert ⟨"A", 500, {1}⟩

/-- A socket to another host and one inside the host, both seen at 500 and at 950. -/
def seenTwice : Storage where
  contents := (reportTwice { contents := .memory .empty }).2.contents

def onePoint : QuerySettings := { minWindowSlot := 1, maxWindowPoints := 1 }

/-- The one slot that was asked for is as long as the range, and the range begins within it. -/
theorem answers_on_grid_one_point :
    ∃ w atlas links,
      (Query.atlas onePoint onePoint.sampler "A" ⟨100, 1000, by decide, by decide⟩ 1 1 seenTwice).1 =
        .ok atlas ∧
      (Query.localLinks onePoint.sampler "A" ⟨100, 1000, by decide, by decide⟩ seenTwice).1 = .ok links ∧
      atlas.links.map (·.value.keys) = [[0, 900], [0, 900]] ∧
      (∀ l ∈ atlas.links, l.value.Samples w 1) ∧ ∀ l ∈ links, l.value.Samples w 1 := by
  obtain ⟨w, _, _, hok, hatlas, hlinks⟩ :=
    answers_on_grid seenTwice onePoint "A" ⟨100, 1000, by decide, by decide⟩ 1 1
  obtain ⟨⟨atlas, ha⟩, links, hl⟩ := hok (fun _ _ _ _ => rfl) (by decide) (by decide)
  have hkeys : ((Query.atlas onePoint onePoint.sampler "A" ⟨100, 1000, by decide, by decide⟩ 1 1
      seenTwice).1.toOption.map fun atlas => atlas.links.map (·.value.keys)) =
        some [[0, 900], [0, 900]] := by decide +kernel
  rw [ha] at hkeys
  exact ⟨w, atlas, links, ha, hl, Option.some.inj hkeys, hatlas atlas ha, hlinks links hl⟩

end Query

end NetAtlas

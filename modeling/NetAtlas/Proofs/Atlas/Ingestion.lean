import NetAtlas.Proofs.Atlas.Assembly
import NetAtlas.Proofs.Atlas.Mirrored
import NetAtlas.Proofs.Collector.Runs
import NetAtlas.Proofs.Storage.Stored
import NetAtlas.Settings.Basic

set_option autoImplicit false

/-!
# From reports to maps

A report and the addresses of its agent that are taken in at one clock reading are stored at the starts
of two slots, each of a length of its own. A map shows the report's socket exactly if its range has both:
the time of the report and, for the address it was seen at, a time at which the agent had it.
-/
namespace NetAtlas

open Std

namespace Binding

theorem exists_links (v : View) (answers : List Observation) (p : Observation) :
    ∃ k, Links v answers p k := by
  by_cases h : ∃ q ∈ answers, sameSocket p q
  · obtain ⟨q, hq, hsame⟩ := h
    exact ⟨_, Or.inl ⟨q, hq, hsame, rfl⟩⟩
  · exact ⟨_, Or.inr ⟨fun q hq hsame => h ⟨q, hq, hsame⟩, rfl⟩⟩

theorem nearEnd_of_sameSocket {v : View} {k l : LinkKey} (h : k.sameSocket l) :
    nearEnd v k = nearEnd v l := by
  obtain ⟨hsrc, hdst, _⟩ := Atlas.sameSocket_iff.mp h
  cases v with
  | caller => exact hdst
  | callee => exact hsrc

end Binding

namespace QuerySettings

theorem window_ok (settings : QuerySettings) (range : TimeRange) :
    ∃ w, settings.sampler.window range = .ok w ∧ w.range = range := by
  have hpos : 0 < settings.sampler.slot range := by
    simp only [sampler, Sampler.slot]
    omega
  rw [Sampler.window, Window.make, dif_pos hpos]
  exact ⟨_, rfl, rfl⟩

end QuerySettings

section Maps

variable {s : Storage} {agent : String} {callerDepth calleeDepth : Nat} {v : View} {o : Observation}

theorem Query.atlas_ok (settings : QuerySettings) (range : TimeRange) (callerDepth calleeDepth : Nat)
    (hs : s.AnswersScans) (hpos : 0 < agent.utf8ByteSize)
    (hle : agent.utf8ByteSize ≤ maxAgentSize) :
    ∃ w t, w.range = range ∧
      (Traversal.run w callerDepth calleeDepth settings.includeLocalLinks agent s).1 = .ok t ∧
      (Query.atlas settings settings.sampler agent range callerDepth calleeDepth s).1 =
        .ok (Atlas.assemble t.links) := by
  obtain ⟨w, hw, hrange⟩ := settings.window_ok range
  have hne : ¬ agent.isEmpty := by
    intro hempty
    rw [String.isEmpty_iff.mp hempty] at hpos
    exact Nat.lt_irrefl 0 hpos
  have hlocal : settings.includeLocalLinks → agent.utf8ByteSize ≤ maxAgentSize := fun _ => hle
  obtain ⟨t, ht⟩ := Traversal.run_ok w hs callerDepth calleeDepth
    (Nat.lt_of_le_of_lt hle (by decide)) hlocal
  refine ⟨w, t, hrange, ht, ?_⟩
  rw [Query.atlas, if_neg hne, hw]
  change ((Traversal.run w callerDepth calleeDepth settings.includeLocalLinks agent >>= fun t =>
    pure (Atlas.assemble t.links)) s).1 = _
  rw [exceptT_bind_run]
  rcases hrun : Traversal.run w callerDepth calleeDepth settings.includeLocalLinks agent s with ⟨answer, s'⟩
  rw [hrun] at ht
  cases ht
  rfl

variable {w : Window} {t : Traversal} {withLocalLinks : Bool}

theorem Traversal.exists_link_of_found
    (h : (run w callerDepth calleeDepth withLocalLinks o.agent s).1 = .ok t)
    (ho : o ∈ s.contents.found v (v.own o).ip w.range)
    (hip : (v.own o).ip ∈ s.contents.addresses o.agent w.range) :
    ∃ k ∈ t.links, Binding.nearEnd v k = ⟨v.own o, some o.node⟩ := by
  obtain ⟨k, hk⟩ := Binding.exists_links v (s.contents.reports v.opposite w.range) o
  -- the seed is an agent as a whole, so it takes the reports of all its processes
  have hbound : o ∈ s.contents.bound v w.range (Node.ofAgent o.agent, ∅) := by
    refine (s.contents.mem_bound w v).mpr ⟨List.mem_of_mem_filter ho, ?_, ?_⟩
    · rw [Binding.admits_empty_iff, Node.ofAgent, Node.agent_of]
      exact ⟨rfl, fun hpid => absurd hpid (Node.not_hasPid_ofAgent o.agent)⟩
    · rw [Node.ofAgent, Node.agent_of]
      exact hip
  have hnode : s.contents.NodeLink w v (Node.ofAgent o.agent) k :=
    (s.contents.nodeLink_iff w v).mpr ⟨o, hbound, hk⟩
  have hcover : ∀ j n, j ≤ depthOf callerDepth calleeDepth v →
      s.contents.Reaches w v o.agent j n → (t.side v).visits.isVisited n :=
    fun j n hj path => isVisited_of_run w h v hj path
  rw [side_of_run w h v] at hcover
  have hside : k ∈ (t.side v).links := by
    rw [side_of_run w h v, Side.mem_links_iff s.contents w hcover]
    exact ⟨0, _, Nat.zero_le _, Contents.Reaches.seed, hnode⟩
  exact ⟨k, ((mem_links_iff w h).mpr hside).1, Binding.nearEnd_of_links hk⟩

theorem Traversal.address_of_link
    (h : (run w callerDepth calleeDepth withLocalLinks agent s).1 = .ok t) {k : LinkKey}
    (hk : k ∈ t.links) (hd : k.direction = v.direction) {n : Node}
    (hnode : (Binding.nearEnd v k).node = some n) :
    (Binding.nearEnd v k).address.ip ∈ s.contents.addresses n.agent w.range := by
  have hside := (mem_links_iff w h).mp ⟨hk, hd⟩
  rw [side_of_run w h v, Side.mem_links_after s.contents w rfl] at hside
  obtain ⟨e, _, p, hp, hlinks⟩ := hside
  obtain ⟨_, hadmits, hip⟩ := (s.contents.mem_bound w v).mp hp
  have hnear : Binding.nearEnd v k = ⟨v.own p, some p.node⟩ := Binding.nearEnd_of_links hlinks
  rw [hnear] at hnode ⊢
  cases hnode
  rw [Observation.node, Node.agent_of, (Binding.admits_iff.mp hadmits).1]
  exact hip

end Maps

namespace Collector

/-- The addresses of an agent and one of its reports are taken in at one clock reading. The report's pid
is noted at any other one. -/
def ingest (addressesFirst : Bool) (now noted : Int64) (addresses : List Ip) (o : Observation) :
    CollectM Unit :=
  if addressesFirst then do
    reportAddresses now o.agent addresses
    report now noted o
  else do
    report now noted o
    reportAddresses now o.agent addresses

section Ingest

variable {c c' : Collector} {now noted : Int64} {addresses : List Ip} {o : Observation}
  {agent : String} {v : View}

theorem reportAddresses_eq_ok (h : reportAddresses now agent addresses c = (.ok (), c')) :
    c'.settings = c.settings ∧ ∃ row,
      Key.agentRow agent (slotOf now c.settings.addressSlot) = .ok row ∧
      c.storage.contents.put AddressRegistry.column row AddressRegistry.qualifier
        (AddressSet.encode addresses) = .ok c'.storage.contents := by
  rw [reportAddresses_run] at h
  split at h
  · cases h
  · split at h
    · cases h
    · rw [stored] at h
      rcases hinsert : AddressRegistry.insert ⟨agent, slotOf now c.settings.addressSlot, addresses⟩
        c.storage with ⟨answer, storage⟩
      rw [hinsert] at h
      cases h
      obtain ⟨row, hrow, hput⟩ := AddressRegistry.insert_eq_ok hinsert
      exact ⟨rfl, row, hrow, hput⟩

theorem report_eq_ok (hd : o.direction = v.direction) (h : report now noted o c = (.ok (), c')) :
    c'.settings = c.settings ∧
      c.storage.contents.put v.column
        (Entry.ofView v (o.stamp (slotOf now c.settings.observationSlot))).row
        (Entry.ofView v (o.stamp (slotOf now c.settings.observationSlot))).qualifier
        (Entry.ofView v (o.stamp (slotOf now c.settings.observationSlot))).value =
          .ok c'.storage.contents := by
  rw [report_run] at h
  rcases hinsert : insertObservation (o.stamp (slotOf now c.settings.observationSlot)) c.storage with
    ⟨answer, storage⟩
  rw [hinsert] at h
  cases answer with
  | error e => cases h
  | ok u =>
    cases h
    have hview : View.ofDirection? (o.stamp (slotOf now c.settings.observationSlot)).direction = some v := by
      change View.ofDirection? o.direction = some v
      rw [hd, View.ofDirection?_direction]
    rw [insertObservation, hview] at hinsert
    exact ⟨rfl, (View.insert_eq_ok hinsert).2⟩

theorem fits_ofView (c : Contents) (v : View) (o : Observation) : c.fits (Entry.ofView v o).value := by
  cases c with
  | memory m => trivial
  | packed p =>
    simp only [Contents.fits, Entry.ofView]
    exact Entry.countersValue_length_lt o

theorem ingest_eq_ok {addressesFirst : Bool} (hd : o.direction = v.direction)
    (hfits : c.storage.contents.fits (AddressSet.encode addresses))
    (h : ingest addressesFirst now noted addresses o c = (.ok (), c')) :
    (∃ row, Key.agentRow o.agent (slotOf now c.settings.addressSlot) = .ok row ∧
      c'.storage.contents.HasCell AddressRegistry.column row AddressRegistry.qualifier
        (AddressSet.encode addresses)) ∧
    c'.storage.contents.HasCell v.column
      (Entry.ofView v (o.stamp (slotOf now c.settings.observationSlot))).row
      (Entry.ofView v (o.stamp (slotOf now c.settings.observationSlot))).qualifier
      (Entry.ofView v (o.stamp (slotOf now c.settings.observationSlot))).value := by
  -- the two are stored in different columns, so the second leaves the first as it is
  have hne : AddressRegistry.column.name ≠ v.column.name := by cases v <;> decide
  have hq := Entry.ofView_qualifier_length_lt v (o.stamp (slotOf now c.settings.observationSlot))
  cases addressesFirst with
  | true =>
    rw [ingest, if_pos rfl, exceptT_bind_run] at h
    rcases hfirst : reportAddresses now o.agent addresses c with ⟨e | u, c₁⟩
    · rw [hfirst] at h
      cases h
    · rw [hfirst] at h
      obtain ⟨hsettings, row, hrow, hput⟩ := reportAddresses_eq_ok hfirst
      obtain ⟨_, hput'⟩ := report_eq_ok hd h
      rw [hsettings] at hput'
      have hcell := Contents.hasCell_of_put hput (by decide) hfits
      exact ⟨⟨row, hrow, hcell.put hput' hne.symm⟩,
        Contents.hasCell_of_put hput' hq (fits_ofView _ _ _)⟩
  | false =>
    rw [ingest, if_neg Bool.false_ne_true, exceptT_bind_run] at h
    rcases hfirst : report now noted o c with ⟨e | u, c₁⟩
    · rw [hfirst] at h
      cases h
    · rw [hfirst] at h
      obtain ⟨hsettings, hput⟩ := report_eq_ok hd hfirst
      obtain ⟨_, row, hrow, hput'⟩ := reportAddresses_eq_ok h
      rw [hsettings] at hrow
      have hcell := Contents.hasCell_of_put hput hq (fits_ofView _ _ _)
      have hfits' := (Contents.fits_put hput (AddressSet.encode addresses)).mpr hfits
      exact ⟨⟨row, hrow, Contents.hasCell_of_put hput' (by decide) hfits'⟩, hcell.put hput' hne⟩

/-- A report and an address set are taken in at one clock reading, and the range of a map has the time
of the report. If it has that of the addresses too, the report's address is one of the agent's; and if the
agent had that address in the range, the map has a link with the reporting process at that end, while
otherwise it has none in the direction of the report. -/
theorem map_shows_ingested (c c' : Collector) (addressesFirst : Bool) (now noted : Int64)
    (addresses : List Ip) (o : Observation) (v : View) (hd : o.direction = v.direction)
    (hown : (v.own o).ip ∈ addresses)
    (hfits : c.storage.contents.fits (AddressSet.encode addresses))
    (h : ingest addressesFirst now noted addresses o c = (.ok (), c')) (hscans : c'.storage.AnswersScans)
    (settings : QuerySettings) (range : TimeRange) (callerDepth calleeDepth : Nat)
    (hrange : range.covers (slotOf now c.settings.observationSlot)) :
    (range.covers (slotOf now c.settings.addressSlot) →
      (v.own o).ip ∈ c'.storage.contents.addresses o.agent range) ∧
    ∃ atlas, (Query.atlas settings settings.sampler o.agent range callerDepth calleeDepth c'.storage).1 =
        .ok atlas ∧
      ((v.own o).ip ∈ c'.storage.contents.addresses o.agent range →
        ∃ l ∈ atlas.links, Binding.nearEnd v l.key = ⟨v.own o, some o.node⟩) ∧
      ((v.own o).ip ∉ c'.storage.contents.addresses o.agent range →
        ∀ l ∈ atlas.links, l.key.direction = v.direction →
          Binding.nearEnd v l.key ≠ ⟨v.own o, some o.node⟩) := by
  obtain ⟨⟨row, hrow, haddresses⟩, hreport⟩ := ingest_eq_ok hd hfits h
  refine ⟨fun ht => AddressRegistry.mem_addresses_of_hasCell hrow haddresses ht hown, ?_⟩
  obtain ⟨w, t, rfl, ht, hatlas⟩ :=
    Query.atlas_ok settings range callerDepth calleeDepth hscans o.agent_pos o.agent_le
  have hstamped : v.own (o.stamp (slotOf now c.settings.observationSlot)) = v.own o := by
    cases v <;> rfl
  have hfound := Contents.mem_found_of_hasCell hreport hd hrange
  refine ⟨_, hatlas, fun hip => ?_, fun hip l hl hdirection hnear => ?_⟩
  · obtain ⟨k, hk, hnear⟩ := Traversal.exists_link_of_found
      (o := o.stamp (slotOf now c.settings.observationSlot)) ht hfound (by rw [hstamped]; exact hip)
    obtain ⟨l, hl, hsame⟩ := Atlas.exists_link_of_mem hk
    refine ⟨l, hl, ?_⟩
    rw [← Binding.nearEnd_of_sameSocket hsame, hnear, hstamped]
    rfl
  · -- a process is at the end of a link only by a report that its agent had the address for
    have hnode : (Binding.nearEnd v l.key).node = some o.node := by rw [hnear]
    have haddress := Traversal.address_of_link ht (Atlas.mem_of_mem_links hl) hdirection hnode
    rw [hnear, Observation.node, Node.agent_of] at haddress
    exact hip haddress

end Ingest

def ingested : Collector :=
  (ingest true 460000 460000 [(Sample.sighting 1).src.ip] (Sample.sighting 1) (Sample.collector .none)).2

theorem ingested_eq :
    ingest true 460000 460000 [(Sample.sighting 1).src.ip] (Sample.sighting 1) (Sample.collector .none) =
      (.ok (), ingested) := rfl

theorem map_shows_ingested_sighting :
    View.callee.own (Sample.sighting 1) = (Sample.sighting 1).src ∧
    (Sample.collector .none).storage.contents.fits (AddressSet.encode [(Sample.sighting 1).src.ip]) ∧
    ingest true 460000 460000 [(Sample.sighting 1).src.ip] (Sample.sighting 1) (Sample.collector .none) =
      (.ok (), ingested) ∧
    ingested.storage.AnswersScans ∧
    ∃ atlas, (Query.atlas {} ({} : QuerySettings).sampler "A" ⟨0, 500000, by decide, by decide⟩ 0 0
        ingested.storage).1 = .ok atlas ∧
      ∃ l ∈ atlas.links, l.key.src = ⟨(Sample.sighting 1).src, some (Node.of "A" 1)⟩ := by
  have hscans : ingested.storage.AnswersScans := fun _ _ _ _ => rfl
  obtain ⟨hregistered, atlas, hatlas, hlink, -⟩ := map_shows_ingested (Sample.collector .none) ingested
    true 460000 460000 [(Sample.sighting 1).src.ip] (Sample.sighting 1) .callee rfl (List.mem_singleton.mpr rfl)
    trivial ingested_eq hscans {} ⟨0, 500000, by decide, by decide⟩ 0 0 (by decide +kernel)
  exact ⟨rfl, trivial, ingested_eq, hscans, atlas, hatlas, hlink (hregistered (by decide +kernel))⟩

/-- With the settings that are the defaults, the report is stored at 420000 and the address at 300000. A
range from 400000 on has the report and a map without links. -/
theorem ingested_unseen_between_slots :
    Settings.validate {} = .ok () ∧ (Sample.collector .none).settings = {} ∧
    ingest true 460000 460000 [(Sample.sighting 1).src.ip] (Sample.sighting 1) (Sample.collector .none) =
      (.ok (), ingested) ∧
    (⟨400000, 500000, by decide, by decide⟩ : TimeRange).covers
      (slotOf 460000 ({} : CollectorSettings).observationSlot) ∧
    (Query.atlas {} ({} : QuerySettings).sampler "A" ⟨400000, 500000, by decide, by decide⟩ 0 0
      ingested.storage).1.map (·.links) = .ok [] :=
  ⟨by decide +kernel, rfl, ingested_eq, by decide +kernel, by decide +kernel⟩

end Collector

end NetAtlas

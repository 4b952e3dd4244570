import NetAtlas.Proofs.Storage.Records

set_option autoImplicit false

/-!
# What a view answers

A query of a view answers, newest first, the observation inserted last under each identity: agent,
transport, both endpoints, pid and time. What the view does not take in, what goes to the other view or
lies under another address leaves the answer as it is, and no agent changes the answer about another.
-/
namespace NetAtlas

open Std

/-- What tells the observations of one view apart. -/
structure Identity where
  agent : String
  transport : Transport
  src : Endpoint
  dst : Endpoint
  pid : Int32
  time : Int64
  deriving DecidableEq

def Observation.identity (o : Observation) : Identity :=
  ⟨o.agent, o.transport, o.src, o.dst, o.pid, o.time⟩

theorem exists_lastOf_identity {os : List Observation} {o : Observation} (ho : o ∈ os) :
    ∃ x, lastOf (fun y => y.identity = x.identity) os = some x ∧ x.identity = o.identity := by
  obtain ⟨x, hx⟩ := exists_lastOf ho (p := fun y => y.identity = o.identity) (by simp)
  have hid := of_decide_eq_true (mem_of_lastOf hx).2
  refine ⟨x, ?_, hid⟩
  rw [hid]
  exact hx

theorem Endpoint.eq_of_portNumber {a b : Endpoint} (hip : a.ip = b.ip)
    (hport : a.portNumber = b.portNumber) : a = b := by
  have h := make_portNumber a
  rw [hip, hport, make_portNumber] at h
  exact (Except.ok.inj h).symm

namespace View

theorem column_inj {v w : View} (h : v.column = w.column) : v = w := by
  cases v <;> cases w <;> first | rfl | exact absurd h (by decide)

theorem ends_eq_iff (v : View) {o p : Observation} :
    v.own o = v.own p ∧ v.peer o = v.peer p ↔ o.src = p.src ∧ o.dst = p.dst := by
  cases v with
  | caller => exact and_comm
  | callee => exact Iff.rfl

theorem own_of_identity (v : View) {o p : Observation} (h : o.identity = p.identity) :
    v.own o = v.own p := by
  simp only [Observation.identity, Identity.mk.injEq] at h
  exact (v.ends_eq_iff.mpr ⟨h.2.2.1, h.2.2.2.1⟩).1

/-- Row and qualifier are the identity and nothing else. -/
theorem samePlace_iff (v : View) {o p : Observation} :
    (Entry.ofView v o).samePlace (Entry.ofView v p) ↔ o.identity = p.identity := by
  simp only [Entry.samePlace, decide_eq_true_eq, Observation.identity, Identity.mk.injEq]
  constructor
  · rintro ⟨hrow, hqualifier⟩
    have hread : Key.readIpRow.read (Entry.ofView v o).row = .ok ((v.own o).ip, o.time) :=
      Key.readIpRow_ipRow _ _
    rw [hrow, show Key.readIpRow.read (Entry.ofView v p).row = .ok ((v.own p).ip, p.time) from
      Key.readIpRow_ipRow _ _] at hread
    simp only [Except.ok.injEq, Prod.mk.injEq] at hread
    have hq := Entry.readViewQualifier_ofView v o
    rw [hqualifier, ← hread.1, Entry.readViewQualifier_ofView v p] at hq
    simp only [Except.ok.injEq, Entry.ViewQualifier.mk.injEq] at hq
    obtain ⟨hagent, htransport, hownPort, hpeerIp, hpeerPort, hpid⟩ := hq
    have hends := v.ends_eq_iff.mp ⟨Endpoint.eq_of_portNumber hread.1.symm hownPort.symm,
      Endpoint.eq_of_portNumber hpeerIp.symm hpeerPort.symm⟩
    exact ⟨hagent.symm, htransport.symm, hends.1, hends.2, hpid.symm, hread.2.symm⟩
  · rintro ⟨hagent, htransport, hsrc, hdst, hpid, htime⟩
    obtain ⟨hown, hpeer⟩ := v.ends_eq_iff.mpr ⟨hsrc, hdst⟩
    simp only [Entry.ofView, hagent, htransport, hown, hpeer, hpid, htime, and_self]

def ListedBefore (v : View) (a b : Observation) : Prop :=
  b.time < a.time ∨
    a.time = b.time ∧ compare (Entry.ofView v a).qualifier (Entry.ofView v b).qualifier = .lt

theorem listedBefore_of_before {v : View} {a b : Observation} (hip : (v.own a).ip = (v.own b).ip)
    (h : (Entry.ofView v a).Before (Entry.ofView v b)) : v.ListedBefore a b := by
  have hrow : ∀ o, (Entry.ofView v o).row = Key.ipStem (v.own o).ip ++ Key.timeBytes o.time :=
    fun _ => rfl
  rw [Entry.Before, hrow, hrow, hip, Bytes.compare_append, Key.compare_timeBytes,
    List.append_cancel_left_eq] at h
  exact h.imp_right (And.imp_left Key.timeBytes_inj)

theorem ListedBefore.asymm {v : View} {a b : Observation} (hab : v.ListedBefore a b) :
    ¬ v.ListedBefore b a := by
  intro hba
  rcases hab with hab | ⟨htime, hab⟩
  · rcases hba with hba | ⟨htime, _⟩
    · exact Int64.lt_asymm hab hba
    · exact Int64.lt_irrefl (htime ▸ hab)
  · rcases hba with hba | ⟨_, hba⟩
    · exact Int64.lt_irrefl (htime ▸ hba)
    · exact OrientedCmp.not_lt_of_lt hab hba

theorem eq_of_listed {v : View} {xs ys : List Observation} (hx : xs.Pairwise v.ListedBefore)
    (hy : ys.Pairwise v.ListedBefore) (h : ∀ o, o ∈ xs ↔ o ∈ ys) : xs = ys := by
  have hasymm : Std.Asymm v.ListedBefore := ⟨fun _ _ => ListedBefore.asymm⟩
  exact hx.eq_of_mem_iff hy h

def accepted (v : View) (offers : List (View × Observation)) : List Observation :=
  offers.filterMap fun (w, o) => if w = v ∧ o.direction = v.direction then some o else none

theorem mem_accepted {v : View} {offers : List (View × Observation)} {o : Observation} :
    o ∈ accepted v offers ↔ (v, o) ∈ offers ∧ o.direction = v.direction := by
  simp only [accepted, List.mem_filterMap, Option.ite_none_right_eq_some, Option.some.injEq]
  constructor
  · rintro ⟨⟨w, p⟩, hmem, ⟨rfl, hd⟩, rfl⟩
    exact ⟨hmem, hd⟩
  · rintro ⟨hmem, hd⟩
    exact ⟨_, hmem, ⟨rfl, hd⟩, rfl⟩

theorem accepted_concat (v w : View) (offers : List (View × Observation)) (o : Observation) :
    accepted v (offers ++ [(w, o)]) =
      accepted v offers ++ if w = v ∧ o.direction = v.direction then [o] else [] := by
  rw [accepted, List.filterMap_append]
  by_cases h : w = v ∧ o.direction = v.direction <;> simp [h, accepted]

/-- What a query for an address finds after some offers to the views. -/
structure LastInserted (offers : List (View × Observation)) (v : View) (ip : Ip) (range : TimeRange)
    (found : List Observation) : Prop where
  mem_iff : ∀ o, o ∈ found ↔
    lastOf (fun x => x.identity = o.identity) (accepted v offers) = some o ∧
      (v.own o).ip = ip ∧ range.covers o.time
  exists_of_accepted : ∀ o ∈ accepted v offers, (v.own o).ip = ip → range.covers o.time →
    ∃ x ∈ found, x.identity = o.identity
  nodup : (found.map Observation.identity).Nodup
  listed : found.Pairwise v.ListedBefore

section LastInserted

variable {offers : List (View × Observation)} {v w : View} {ip : Ip} {range : TimeRange}
  {found found' : List Observation} {o : Observation}

theorem LastInserted.unique (h : LastInserted offers v ip range found)
    (h' : LastInserted offers v ip range found') : found = found' :=
  eq_of_listed h.listed h'.listed fun o => by rw [h.mem_iff, h'.mem_iff]

theorem LastInserted.mem_concat (h : LastInserted offers v ip range found)
    (h' : LastInserted (offers ++ [(w, o)]) v ip range found') (p : Observation)
    (hp : w = v → (v.own o).ip = ip → o.identity ≠ p.identity) : p ∈ found' ↔ p ∈ found := by
  rw [h.mem_iff, h'.mem_iff, accepted_concat]
  split
  · next hv =>
    rw [lastOf_concat]
    by_cases hip : (v.own o).ip = ip
    · rw [if_neg (by simpa using hp hv.1 hip)]
    · split
      · next hid =>
        have hown := v.own_of_identity (of_decide_eq_true hid)
        have hpip : (v.own p).ip ≠ ip := hown ▸ hip
        simp [hpip]
      · rfl
  · rw [List.append_nil]

theorem LastInserted.concat_elsewhere (h : LastInserted offers v ip range found)
    (h' : LastInserted (offers ++ [(w, o)]) v ip range found') (hout : w ≠ v ∨ (w.own o).ip ≠ ip) :
    found' = found := by
  apply eq_of_listed h'.listed h.listed
  intro p
  apply h.mem_concat h'
  rintro rfl hip
  rcases hout with hout | hout
  · exact absurd rfl hout
  · exact absurd hip hout

theorem LastInserted.concat_agent (h : LastInserted offers v ip range found)
    (h' : LastInserted (offers ++ [(w, o)]) v ip range found') {agent : String}
    (hagent : agent ≠ o.agent) :
    found'.filter (·.agent = agent) = found.filter (·.agent = agent) := by
  apply eq_of_listed (h'.listed.filter _) (h.listed.filter _)
  intro p
  rw [List.mem_filter, List.mem_filter]
  apply and_congr_left
  intro hp
  apply h.mem_concat h'
  intro _ _ hid
  exact hagent ((of_decide_eq_true hp).symm.trans (congrArg Identity.agent hid).symm)

end LastInserted

/-- The storage after some offers to the views; those that are refused are passed over. -/
def insertAll (offers : List (View × Observation)) (s : Storage) : Storage :=
  offers.foldl (fun s (w, o) => (w.insert o s).2) s

theorem insertAll_concat (offers : List (View × Observation)) (w : View) (o : Observation)
    (s : Storage) : insertAll (offers ++ [(w, o)]) s = (w.insert o (insertAll offers s)).2 := by
  rw [insertAll, List.foldl_append]
  rfl

def writes (offers : List (View × Observation)) : List Write :=
  offers.filterMap fun (w, o) =>
    if o.direction = w.direction then some ⟨w.column, Entry.ofView w o⟩ else none

theorem filter_writes (v : View) (offers : List (View × Observation)) :
    (writes offers).filter (·.column = v.column) =
      (accepted v offers).map fun o => ⟨v.column, Entry.ofView v o⟩ := by
  rw [writes, accepted, List.filter_filterMap, List.map_filterMap]
  congr 1
  funext ⟨w, o⟩
  by_cases hw : w = v
  · subst hw
    by_cases hd : o.direction = w.direction <;> simp [hd]
  · have hcolumn : w.column ≠ v.column := fun he => hw (column_inj he)
    by_cases hd : o.direction = w.direction <;> simp [hd, hw, hcolumn]

section Inserts

variable {s : Storage} {ws : List Write} {offers : List (View × Observation)} {v w : View}
  {o : Observation} {ip : Ip} {range : TimeRange}

theorem fits_ofView (w : View) (o : Observation) : Write.Fits ⟨w.column, Entry.ofView w o⟩ :=
  ⟨Entry.ofView_qualifier_length_lt w o, Entry.countersValue_length_lt o⟩

theorem insert_of_foreign (h : o.direction ≠ w.direction) (s : Storage) :
    w.insert o s = (.error (.rejected (.foreignDirection o.direction w.name)), s) := by
  rw [insert, if_neg h]
  rfl

theorem insert_eq_put (h : o.direction = w.direction) :
    w.insert o = StoreM.put w.column (Entry.ofView w o).row (Entry.ofView w o).qualifier
      (Entry.ofView w o).value := by
  rw [insert, if_pos h]

theorem insert_of_direction (hs : s.Holds ws) (h : o.direction = w.direction) :
    ∃ s', w.insert o s = (.ok (), s') ∧ s'.Holds (ws ++ [⟨w.column, Entry.ofView w o⟩]) := by
  rw [insert_eq_put h]
  obtain ⟨s', hput, hs'⟩ := hs.put (fits_ofView w o)
  exact ⟨s', hput, hs'⟩

theorem holds_insertAll (hs : s.Holds []) (offers : List (View × Observation)) :
    (insertAll offers s).Holds (writes offers) := by
  induction offers using List.reverseRecOn with
  | nil => exact hs
  | append_singleton offers offer ih =>
    obtain ⟨w, o⟩ := offer
    rw [insertAll_concat]
    by_cases hd : o.direction = w.direction
    · obtain ⟨s', hinsert, hs'⟩ := insert_of_direction ih hd
      rw [hinsert]
      simpa [writes, hd] using hs'
    · rw [insert_of_foreign hd]
      simpa [writes, hd] using ih

theorem toView_of_accepted (htimes : ∀ offer ∈ offers, 0 ≤ offer.2.time) (v : View) :
    ∀ o ∈ accepted v offers, (Entry.ofView v o).toView v = .ok o := by
  intro o ho
  obtain ⟨hmem, hd⟩ := mem_accepted.mp ho
  exact Entry.toView_ofView hd (htimes _ hmem)

theorem mem_found (hs : s.Holds (writes offers)) (htimes : ∀ offer ∈ offers, 0 ≤ offer.2.time) :
    o ∈ s.contents.found v ip range ↔
      lastOf (fun x => x.identity = o.identity) (accepted v offers) = some o ∧
        (v.own o).ip = ip ∧ range.covers o.time := by
  have hrecord : o ∈ s.contents.observations v ↔
      lastOf (fun x => x.identity = o.identity) (accepted v offers) = some o := by
    rw [Contents.observations, hs.2.mem_records (toView_of_accepted htimes v) (filter_writes v offers)]
    simp only [← samePlace_iff v, Bool.decide_eq_true]
  simp only [Contents.found, Contents.reports, List.mem_filter, hrecord, decide_eq_true_eq]
  tauto

theorem lastInserted_found (hs : s.Holds (writes offers)) (htimes : ∀ offer ∈ offers, 0 ≤ offer.2.time)
    (v : View) (ip : Ip) (range : TimeRange) :
    LastInserted offers v ip range (s.contents.found v ip range) := by
  have hbefore : (s.contents.found v ip range).Pairwise fun a b =>
      (Entry.ofView v a).Before (Entry.ofView v b) := by
    have hrecords := hs.2.records_ascend (toView_of_accepted htimes v) (filter_writes v offers)
    exact (hrecords.filter _).filter _
  refine ⟨fun o => mem_found hs htimes, ?_, ?_, ?_⟩
  · intro o ho hip hcovers
    obtain ⟨x, hx, hid⟩ := exists_lastOf_identity ho
    have hown := v.own_of_identity hid
    have htime : x.time = o.time := congrArg Identity.time hid
    refine ⟨x, (mem_found hs htimes).mpr ⟨hx, ?_, ?_⟩, hid⟩
    · rw [hown]
      exact hip
    · rw [htime]
      exact hcovers
  · rw [List.Nodup, List.pairwise_map]
    exact hbefore.imp fun hab hid => hab.not_samePlace ((samePlace_iff v).mpr hid)
  · apply hbefore.imp_of_mem
    intro a b ha hb hab
    have haip := ((mem_found hs htimes).mp ha).2.1
    have hbip := ((mem_found hs htimes).mp hb).2.1
    exact listedBefore_of_before (haip.trans hbip.symm) hab

theorem query_run (hs : s.Holds ws) (v : View) (ip : Ip) (range : TimeRange) :
    (v.query ip range s).1 = .ok (s.contents.found v ip range) := by
  obtain ⟨calls, hquery⟩ := (reading_query v ip range).of_answersScans hs.answersScans
  rw [hquery, answer_query]

/-- After any offers to the views, in memory or packed, a query finds the observation inserted last
under each identity of its address and range. An offer that a view does not take in changes nothing; one
it takes in changes no answer of the other view, none for another address, and none about another agent. -/
theorem query_finds_last_inserted (offers : List (View × Observation))
    (htimes : ∀ offer ∈ offers, 0 ≤ offer.2.time) (v : View) (ip : Ip) (range : TimeRange) :
    ∀ c ∈ [Contents.memory .empty, Contents.packed .empty], ∃ found,
      (v.query ip range (insertAll offers { contents := c })).1 = .ok found ∧
      LastInserted offers v ip range found ∧
      ∀ w o,
        (o.direction ≠ w.direction → w.insert o (insertAll offers { contents := c }) =
          (.error (.rejected (.foreignDirection o.direction w.name)),
            insertAll offers { contents := c })) ∧
        (o.direction = w.direction → 0 ≤ o.time →
          (w.insert o (insertAll offers { contents := c })).1 = .ok () ∧
          ∃ found', (v.query ip range (w.insert o (insertAll offers { contents := c })).2).1 = .ok found' ∧
            (w ≠ v ∨ (w.own o).ip ≠ ip → found' = found) ∧
            ∀ agent ≠ o.agent,
              found'.filter (·.agent = agent) = found.filter (·.agent = agent)) := by
  intro c hc
  have hempty := Storage.holds_of_empty hc
  have hs := holds_insertAll hempty offers
  have hfound := lastInserted_found hs htimes v ip range
  refine ⟨_, query_run hs v ip range, hfound, fun w o => ⟨fun hd => insert_of_foreign hd _, ?_⟩⟩
  intro hd htime
  have hs' := holds_insertAll hempty (offers ++ [(w, o)])
  have htimes' : ∀ offer ∈ offers ++ [(w, o)], 0 ≤ offer.2.time :=
    List.forall_mem_append.mpr ⟨htimes, List.forall_mem_singleton.mpr htime⟩
  have hfound' := lastInserted_found hs' htimes' v ip range
  have hquery' := query_run hs' v ip range
  rw [insertAll_concat] at hquery' hfound'
  obtain ⟨s', hinsert, _⟩ := insert_of_direction hs hd
  exact ⟨by rw [hinsert], _, hquery', hfound.concat_elsewhere hfound',
    fun agent hagent => hfound.concat_agent hfound' hagent⟩

end Inserts

def sample (netNs : Int32) (direction : Direction) : Observation where
  agent := "B"
  pid := 1
  transport := .tcp
  direction
  src := ⟨⟨.v4, [10, 0, 9, 2], rfl⟩, 40900, by decide⟩
  dst := ⟨⟨.v4, [10, 0, 9, 1], rfl⟩, 8090, by decide⟩
  netNs
  counters := { sent := 9 }
  time := 9000
  agent_pos := by decide
  agent_le := by decide
  same_family := rfl
  counters_nonneg := by decide

def sampleRange : TimeRange := ⟨8999, 9000, by decide, by decide⟩

/-- An observation is inserted twice, and offered once more with a direction the view refuses. -/
def sampleOffers : List (View × Observation) :=
  [(caller, sample 1 .incoming), (caller, sample 2 .incoming), (caller, sample 3 .outgoing)]

theorem query_finds_last_inserted_twice :
    (∀ offer ∈ sampleOffers, 0 ≤ offer.2.time) ∧
    ∀ c ∈ [Contents.memory .empty, Contents.packed .empty],
      (caller.query ⟨.v4, [10, 0, 9, 1], rfl⟩ sampleRange
        (insertAll sampleOffers { contents := c })).1 = .ok [sample 2 .incoming] := by
  have htimes : ∀ offer ∈ sampleOffers, 0 ≤ offer.2.time := by decide
  have hmemory : (caller.query ⟨.v4, [10, 0, 9, 1], rfl⟩ sampleRange
      (insertAll sampleOffers { contents := .memory .empty })).1 = .ok [sample 2 .incoming] := by
    decide +kernel
  have hfinds := query_finds_last_inserted sampleOffers htimes caller ⟨.v4, [10, 0, 9, 1], rfl⟩ sampleRange
  obtain ⟨inMemory, hquery, hinMemory, _⟩ := hfinds (.memory .empty) (by simp)
  rw [hquery] at hmemory
  refine ⟨htimes, fun c hc => ?_⟩
  obtain ⟨found, hfound, hlast, _⟩ := hfinds c hc
  rw [hfound, hlast.unique hinMemory]
  exact hmemory

end View

end NetAtlas

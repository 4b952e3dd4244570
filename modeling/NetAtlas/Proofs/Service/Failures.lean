import NetAtlas.Proofs.Atlas.Outages
import NetAtlas.Proofs.Collector.Written
import NetAtlas.Service.Session

set_option autoImplicit false

/-!
# What failed requests leave behind

A request that fails leaves what its answer says and nothing else. A batch that is refused leaves
everything as it was, one that is interrupted has stored the reports that are counted in the answer; of a
flush that fails, or runs into a trap, everything that was buffered is written or still buffered. Whatever
only asks changes nothing.
-/
namespace NetAtlas

namespace Collector

/-- Nothing is different but that some calls were made. -/
def Idle (c c' : Collector) : Prop := ∃ made, c' = { c with storage := c.storage.noting made }

theorem Idle.refl (c : Collector) : c.Idle c := ⟨[], rfl⟩

theorem idle_stored {α : Type} {m : StoreM α} (hm : StoreM.Reading m) (c : Collector) :
    c.Idle (stored m c).2 := by
  obtain ⟨made, h⟩ := hm.noting_eq c.storage
  refine ⟨made, ?_⟩
  rw [← h]
  rfl

theorem idle_of_reportAddresses {now : Int64} {agent : String} {addresses : List Ip} {e : Error}
    {c c' : Collector} (h : reportAddresses now agent addresses c = (.error e, c')) : c.Idle c' := by
  rw [reportAddresses_run] at h
  split at h
  · cases h
    exact Idle.refl c
  · split at h
    · cases h
      exact Idle.refl c
    · rw [stored] at h
      rcases hinsert : AddressRegistry.insert ⟨agent, slotOf now c.settings.addressSlot, addresses⟩
        c.storage with ⟨answer, storage⟩
      rw [hinsert] at h
      cases h
      obtain ⟨made, rfl⟩ := Registry.noting_of_insert hinsert
      exact ⟨made, rfl⟩

/-- The buffer after the pid of a report was noted in a slot, if it has one. -/
def notePid (b : PidBuffer) (slot : Int64) (o : Observation) : PidBuffer :=
  if 0 ≤ o.pid then b.add slot o.agent {o.pid} else b

/-- Some reports were taken in, all of them and nothing else: each one's cell was put, each pid noted.
Each report has two readings of the clock. -/
structure Took (clock : Clock) (os : List Observation) (c c' : Collector) : Prop where
  contents : (os.mapIdx fun i o => o.stamp (slotOf (clock (2 * i)) c.settings.observationSlot)).foldlM
    Contents.writeObservation c.storage.contents = .ok c'.storage.contents
  buffer : c'.buffer = (os.mapIdx fun i o => (slotOf (clock (2 * i + 1)) c.buffer.slotSize, o)).foldl
    (fun b (slot, o) => notePid b slot o) c.buffer
  settings : c'.settings = c.settings

variable {clock : Clock} {os : List Observation} {o : Observation} {c c₁ c' : Collector}

theorem slotSize_notePid (b : PidBuffer) (slot : Int64) (o : Observation) :
    (notePid b slot o).slotSize = b.slotSize := by
  rw [notePid]
  split <;> rfl

theorem Took.nil (clock : Clock) (hcontents : c'.storage.contents = c.storage.contents)
    (hbuffer : c'.buffer = c.buffer) (hsettings : c'.settings = c.settings) : Took clock [] c c' where
  contents := congrArg Except.ok hcontents.symm
  buffer := hbuffer
  settings := hsettings

theorem Took.cons
    (hput : c.storage.contents.writeObservation
      (o.stamp (slotOf (clock 0) c.settings.observationSlot)) = .ok c₁.storage.contents)
    (hbuffer : c₁.buffer = notePid c.buffer (slotOf (clock 1) c.buffer.slotSize) o)
    (hsettings : c₁.settings = c.settings) (h : Took (clock.after 2) os c₁ c') :
    Took clock (o :: os) c c' where
  contents := by
    rw [List.mapIdx_cons, List.foldlM_cons, hput]
    exact hsettings ▸ h.contents
  buffer := by
    rw [h.buffer, hbuffer, slotSize_notePid, List.mapIdx_cons, List.foldl_cons]
    rfl
  settings := h.settings.trans hsettings

/-- A report is taken in as a whole or changes nothing. -/
theorem report_took (accepted noted : Int64) (o : Observation) (c : Collector) :
    (∃ c₁, report accepted noted o c = (.ok (), c₁) ∧
      c.storage.contents.writeObservation (o.stamp (slotOf accepted c.settings.observationSlot)) =
        .ok c₁.storage.contents ∧
      c₁.buffer = notePid c.buffer (slotOf noted c.buffer.slotSize) o ∧ c₁.settings = c.settings) ∨
    ∃ e c₁, report accepted noted o c = (.error e, c₁) ∧ c.Idle c₁ := by
  rw [report_run]
  rcases hput : insertObservation (o.stamp (slotOf accepted c.settings.observationSlot)) c.storage with
    ⟨e | u, storage⟩
  · rw [insertObservation_eq_put] at hput
    exact Or.inr ⟨e, _, rfl, _, by rw [StoreM.noting_of_put hput]⟩
  · rw [insertObservation_eq_put] at hput
    refine Or.inl ⟨_, rfl, StoreM.put_eq_ok hput, ?_, rfl⟩
    rw [notePid, PidBuffer.increment_eq_add]

end Collector

namespace Request

open Collector

variable {clock : Clock} {c : Collector}

theorem run_bind {ε α β : Type} (action : ExceptT ε (StateM Collector) α)
    (f : Except ε α → ExceptT Trap (StateM Collector) β) (c : Collector) :
    ((liftM action.run : ExceptT Trap (StateM Collector) (Except ε α)) >>= f) c =
      f (action c).1 (action c).2 := rfl

theorem storeReports_cons (clock : Clock) (total stored : Nat) (o : Observation)
    (os : List Observation) (c : Collector) :
    storeReports clock total stored (o :: os) c =
      match Collector.report (clock 0) (clock 1) o c with
      | (.ok _, c') => storeReports (clock.after 2) total (stored + 1) os c'
      | (.error e, c') => (.ok (.failed (.interrupted stored total e)), c') := by
  rw [storeReports, run_bind]
  rcases Collector.report (clock 0) (clock 1) o c with ⟨e | u, c'⟩ <;> rfl

/-- A batch is stored up to the first report that fails. -/
theorem storeReports_took (clock : Clock) (total stored : Nat) (os : List Observation) (c : Collector) :
    ∃ response c', storeReports clock total stored os c = (.ok response, c') ∧
      (response = .count (stored + os.length) ∧ Took clock os c c' ∨
        ∃ k e, k < os.length ∧ response = .failed (.interrupted (stored + k) total e) ∧
          Took clock (os.take k) c c') := by
  induction os generalizing clock stored c with
  | nil => exact ⟨_, c, rfl, Or.inl ⟨rfl, Took.nil clock rfl rfl rfl⟩⟩
  | cons o os ih =>
    rw [storeReports_cons]
    obtain ⟨c₁, hreport, hput, hbuffer, hsettings⟩ | ⟨e, c₁, hreport, made, rfl⟩ :=
      report_took (clock 0) (clock 1) o c
    · rw [hreport]
      obtain ⟨response, c', hrest, ⟨hcount, htook⟩ | ⟨k, e, hk, hfailed, htook⟩⟩ :=
        ih (clock.after 2) (stored + 1) c₁
      · refine ⟨response, c', hrest, Or.inl ⟨?_, Took.cons hput hbuffer hsettings htook⟩⟩
        rw [hcount, List.length_cons, Nat.add_assoc, Nat.add_comm 1]
      · refine ⟨response, c', hrest, Or.inr ⟨k + 1, e, Nat.succ_lt_succ hk, ?_,
          Took.cons hput hbuffer hsettings htook⟩⟩
        rw [hfailed, Nat.add_assoc, Nat.add_comm 1]
    · rw [hreport]
      exact ⟨_, _, rfl, Or.inr ⟨0, e, Nat.succ_pos _, rfl, Took.nil clock rfl rfl rfl⟩⟩

theorem answerWith_run {α : Type} (respond : α → Response) (action : CollectM α) (c : Collector) :
    answerWith respond action c = match action c with
      | (.ok a, c') => (.ok (respond a), c')
      | (.error e, c') => (.ok (.failed (.failed e)), c') := by
  rw [answerWith, run_bind]
  rcases action c with ⟨e | a, c'⟩ <;> rfl

theorem snd_answerWith {α : Type} (respond : α → Response) (action : CollectM α) (c : Collector) :
    (answerWith respond action c).2 = (action c).2 := by
  rw [answerWith_run]
  rcases action c with ⟨e | a, c'⟩ <;> rfl

theorem snd_flush (clock : Clock) (c : Collector) :
    (flush clock c).2 = (Collector.flushPids64 clock c).2 := by
  rw [flush, run_bind]
  rcases Collector.flushPids64 clock c with ⟨(e | t) | n, c'⟩ <;> rfl

/-- The requests that only ask for what is stored. -/
def isSelection : Request → Bool
  | selectConnectionMap .. | selectLocalAddresses .. | selectPids .. | selectLocalLinks .. => true
  | _ => false

theorem idle_select {α : Type} (respond : α → Response) (first last : Int64)
    {query : TimeRange → StoreM α} (hquery : ∀ range, StoreM.Reading (query range)) (c : Collector) :
    c.Idle (select respond first last query c).2 := by
  rw [select, snd_answerWith]
  exact idle_stored (StoreM.reading_bind (StoreM.reading_reject _) hquery) c

theorem idle_of_isSelection {request : Request} (h : request.isSelection) (settings : QuerySettings)
    (clock : Clock) (c : Collector) : c.Idle (request.answer settings clock c).2 := by
  cases request with
  | selectConnectionMap agent first last callerDepth calleeDepth =>
    exact idle_select _ _ _ (fun range => (Question.atlas settings settings.sampler agent range
      callerDepth calleeDepth).reading_ask) c
  | selectLocalAddresses agent first last =>
    exact idle_select _ _ _ (fun range => (Question.localAddresses agent range).reading_ask) c
  | selectPids agent first last =>
    exact idle_select _ _ _ (fun range => (Question.pids agent range).reading_ask) c
  | selectLocalLinks agent first last =>
    exact idle_select _ _ _ (fun range =>
      (Question.localLinks settings.sampler agent range).reading_ask) c
  | reportConnections reports => cases h
  | reportLocalAddresses agent addresses => cases h
  | flushPids => cases h
  | ping => cases h
  | shutdown => cases h

theorem idle_of_addresses_failed (settings : QuerySettings) {agent : String} {addresses : List String}
    {cause : Response.Failure} {c' : Collector}
    (h : (reportLocalAddresses agent addresses).answer settings clock c = (.ok (.failed cause), c')) :
    c.Idle c' := by
  rw [answer] at h
  cases hips : addresses.mapM Report.address with
  | error reason =>
    rw [hips] at h
    cases h
    exact Idle.refl c
  | ok ips =>
    rw [hips] at h
    change answerWith (fun _ => .done) (Collector.reportAddresses (clock 0) agent ips) c = _ at h
    rw [answerWith_run] at h
    rcases hreport : Collector.reportAddresses (clock 0) agent ips c with ⟨e | u, c₁⟩
    · rw [hreport] at h
      cases h
      exact idle_of_reportAddresses hreport
    · rw [hreport] at h
      cases h

end Request

namespace Session

open Collector

/-- What requests leave behind, whatever fails. A batch with a report that is rejected leaves everything
as it was; of any other, as many first reports as the answer counts are taken in and nothing else.
Local addresses that are not taken in, selections, pings and undecodable payloads change nothing. A flush
leaves every buffered pid written or buffered, however it ends. -/
theorem failures_accounted (settings : QuerySettings) (clock : Clock) (c : Collector) :
    (∀ reports, (∃ r ∈ reports, ∃ reason, r.observe = .error reason) →
      ∃ reason, answer settings clock (some (.reportConnections reports)) c =
        (.ok (.failed (.refused reason)), c)) ∧
    (∀ reports os, reports.mapM Report.observe = .ok os →
      ∃ response c', answer settings clock (some (.reportConnections reports)) c = (.ok response, c') ∧
        (response = .count reports.length ∧ Took clock os c c' ∨
          ∃ k e, k < reports.length ∧ response = .failed (.interrupted k reports.length e) ∧
            Took clock (os.take k) c c')) ∧
    (∀ agent addresses cause c',
      answer settings clock (some (.reportLocalAddresses agent addresses)) c = (.ok (.failed cause), c') →
        c.Idle c') ∧
    (∀ request, Request.isSelection request → c.Idle (answer settings clock (some request) c).2) ∧
    (answer settings clock (some .ping) c).2 = c ∧ (answer settings clock none c).2 = c ∧
    ∃ written, Wrote written c (answer settings clock (some .flushPids) c).2 ∧
      (∀ slot agent pid, pid ∈ c.buffer.pids slot agent →
        pid ∈ (answer settings clock (some .flushPids) c).2.buffer.pids slot agent ∨
          ∃ set ∈ written, set.time = slot ∧ set.agent = agent ∧ pid ∈ set.pids) ∧
      ((∀ set ∈ written, c.storage.contents.fits (PidSet.encode set.pids)) →
        ∀ set ∈ written,
          set ∈ (answer settings clock (some .flushPids) c).2.storage.contents.pidSets) := by
  refine ⟨fun reports hrejected => ?_, fun reports os hos => ?_, fun agent addresses cause c' h => ?_,
    fun request hselection => ?_, rfl, rfl, ?_⟩
  · obtain ⟨r, hr, reason, hreason⟩ := hrejected
    rw [answer, Request.answer]
    cases hos : reports.mapM Report.observe with
    | error first => exact ⟨first, rfl⟩
    | ok os =>
      obtain ⟨o, ho⟩ := except_mapM_ok_iff.mp ⟨os, hos⟩ r hr
      rw [hreason] at ho
      cases ho
  · obtain ⟨response, c', hrun, htook⟩ := Request.storeReports_took clock os.length 0 os c
    rw [answer, Request.answer, hos]
    rw [Nat.zero_add] at htook
    rw [← except_mapM_length hos]
    refine ⟨response, c', hrun, htook.imp_right fun ⟨k, e, hk, hfailed, hfirst⟩ => ?_⟩
    exact ⟨k, e, hk, by rw [hfailed, Nat.zero_add], hfirst⟩
  · exact Request.idle_of_addresses_failed settings h
  · exact Request.idle_of_isSelection hselection settings clock c
  · have hflush : (answer settings clock (some .flushPids) c).2 = (flushPids64 clock c).2 :=
      Request.snd_flush clock c
    rw [hflush]
    obtain ⟨written, hwrote⟩ := wrote_flushPids64 clock c
    exact ⟨written, hwrote, fun slot agent pid hpid => hwrote.accounts hpid,
      (Contents.mem_pidSets_of_writes hwrote.contents hwrote.apart).1⟩

end Session

end NetAtlas

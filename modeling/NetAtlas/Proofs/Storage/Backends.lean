import NetAtlas.Proofs.Storage.Writes

set_option autoImplicit false

/-!
# Tables in memory and packed rows

Whatever is done with a store, one in memory and a packed one answer alike, and what they answer is the
last write of every cell. What a packed store keeps is taken to outlive a flush and a reopening.
-/
namespace NetAtlas

open Std

/-- The rows of a scan after some writes. -/
structure LastWritten (ws : List Write) (column : Column) (start stop : Bytes) (rows : List Row) :
    Prop where
  keys_ascend : rows.Pairwise fun r s => compare r.key s.key = .lt
  cells_ascend : ∀ row ∈ rows, row.cells ≠ [] ∧ Row.Ascends row.cells
  mem_cells : ∀ key qualifier value,
    (∃ row ∈ rows, row.key = key ∧ ⟨qualifier, value⟩ ∈ row.cells) ↔
      compare start key ≠ .gt ∧ compare key stop = .lt ∧
        Write.last? ws column key qualifier = some value
  none_of_reversed : compare start stop ≠ .lt → rows = []

namespace Contents

variable {c : Contents} {ws : List Write}

theorem Holds.scan_eq (h : c.Holds ws) (column : Column) (start stop : Bytes) :
    c.scan column start stop = (memory (Memory.written ws)).scan column start stop := by
  rw [scan_eq_filter_rows, scan_eq_filter_rows, h.rows_eq]

theorem Holds.lastWritten (h : c.Holds ws) (column : Column) (start stop : Bytes) :
    LastWritten ws column start stop (c.scan column start stop) := by
  rw [scan_eq_filter_rows]
  refine ⟨(h.rows_ascend column).filter _, ?_, ?_, ?_⟩
  · intro row hrow
    exact h.cells_ascend (List.mem_of_mem_filter hrow)
  · intro key qualifier value
    rw [← h.hasCell, ← and_assoc, ← Bytes.between_iff]
    constructor
    · rintro ⟨row, hrow, rfl, hcell⟩
      obtain ⟨hmem, hbetween⟩ := List.mem_filter.mp hrow
      exact ⟨hbetween, row, hmem, rfl, hcell⟩
    · rintro ⟨hbetween, row, hmem, rfl, hcell⟩
      exact ⟨row, List.mem_filter.mpr ⟨hmem, hbetween⟩, rfl, hcell⟩
  · intro hreversed
    apply List.filter_eq_nil_iff.mpr
    intro row _ hbetween
    obtain ⟨hstart, hstop⟩ := Bytes.between_iff.mp hbetween
    exact hreversed (TransCmp.lt_of_isLE_of_lt (Ordering.isLE_iff_ne_gt.mpr hstart) hstop)

end Contents

inductive Access
  | put (w : Write)
  | scan (column : Column) (start stop : Bytes)
  | flush
  | reopen

namespace Access

/-- Only a scan has rows to answer. -/
def run : Access → StoreM (List Row)
  | put w => do
    StoreM.put w.column w.entry.row w.entry.qualifier w.entry.value
    return []
  | scan column start stop => StoreM.scan column start stop
  | flush => do
    StoreM.flush
    return []
  | reopen => do
    set { contents := (← get).contents : Storage }
    return []

def writes : Access → List Write
  | put w => [w]
  | _ => []

def Answers (ws : List Write) (rows : List Row) : Access → Prop
  | scan column start stop => LastWritten ws column start stop rows
  | _ => rows = []

def answer (ws : List Write) : Access → List Row
  | scan column start stop => (Contents.memory (Memory.written ws)).scan column start stop
  | _ => []

theorem answers_answer (ws : List Write) (a : Access) : a.Answers ws (a.answer ws) := by
  cases a with
  | scan column start stop =>
    have h : (Contents.memory (Memory.written ws)).Holds ws := rfl
    exact h.lastWritten column start stop
  | _ => rfl

end Access

theorem StoreM.call_run {s : Storage} (h : s.outage = Outage.none) (c : Call) :
    call c s = (.ok (), { s with calls := c :: s.calls }) := by
  simp [call, h, Outage.none]

namespace Access

variable {s : Storage} {ws : List Write}

theorem run_of_holds (h : s.Holds ws) (a : Access) (hfits : ∀ w ∈ a.writes, w.Fits) :
    ∃ s', a.run s = (.ok (a.answer ws), s') ∧ s'.Holds (ws ++ a.writes) := by
  cases a with
  | put w =>
    obtain ⟨s', hput, hs'⟩ := h.put (hfits w (List.mem_singleton.mpr rfl))
    refine ⟨s', ?_, hs'⟩
    rw [run, exceptT_bind_run, hput]
    rfl
  | scan column start stop =>
    refine ⟨{ s with calls := .scan column.table start stop :: s.calls }, ?_, h.1, ?_⟩
    · rw [run, StoreM.scan, exceptT_bind_run, StoreM.call_run h.1, answer, ← h.2.scan_eq]
      rfl
    · simpa [writes] using h.2
  | flush =>
    refine ⟨{ s with calls := .flush :: s.calls }, ?_, h.1, ?_⟩
    · rw [run, StoreM.flush, exceptT_bind_run, StoreM.call_run h.1]
      rfl
    · simpa [writes] using h.2
  | reopen => exact ⟨{ contents := s.contents }, rfl, rfl, by simpa [writes] using h.2⟩

def answersFrom (ws : List Write) : List Access → List (List Row)
  | [] => []
  | a :: as => a.answer ws :: answersFrom (ws ++ a.writes) as

theorem mapM_run_of_holds (h : s.Holds ws) (as : List Access)
    (hfits : ∀ w ∈ as.flatMap writes, w.Fits) :
    ∃ s', (as.mapM run) s = (.ok (answersFrom ws as), s') ∧ s'.Holds (ws ++ as.flatMap writes) := by
  -- the writes so far are what the store holds before each access
  induction as generalizing s ws with
  | nil => exact ⟨s, rfl, by simpa using h⟩
  | cons a as ih =>
    obtain ⟨s', hrun, hs'⟩ := run_of_holds h a fun w hw => hfits w (by simp [hw])
    obtain ⟨s'', hrest, hs''⟩ := ih hs' fun w hw => hfits w (by
      rw [List.flatMap_cons]
      exact List.mem_append_right _ hw)
    refine ⟨s'', ?_, by simpa using hs''⟩
    rw [List.mapM_cons, exceptT_bind_run, hrun]
    change ((as.mapM run >>= fun bs => pure (a.answer ws :: bs)) s') = _
    rw [exceptT_bind_run, hrest]
    rfl

theorem answers_answersFrom (ws : List Write) {before after : List Access} {a : Access} :
    ∃ rows, (answersFrom ws (before ++ a :: after))[before.length]? = some rows ∧
      a.Answers (ws ++ before.flatMap writes) rows := by
  induction before generalizing ws with
  | nil => exact ⟨a.answer ws, rfl, by simpa using answers_answer ws a⟩
  | cons b before ih => simpa [answersFrom] using ih (ws ++ b.writes)

/-- Stores that start empty, in memory or packed, give the same answers, every scan the last writes
before it, and a further put changes its own cell and no other. -/
theorem backends_answer_last_writes (accesses : List Access)
    (hfits : ∀ w ∈ accesses.flatMap writes, w.Fits) :
    ∃ answers : List (List Row),
      (∀ c ∈ [Contents.memory .empty, Contents.packed .empty], ∃ s,
        (accesses.mapM run) { contents := c } = (.ok answers, s) ∧
        ∀ w : Write, w.Fits → ∃ s', (put w).run s = (.ok [], s') ∧
          ∀ column key qualifier value, s'.contents.HasCell column key qualifier value ↔
            if w.column = column ∧ w.entry.row = key ∧ w.entry.qualifier = qualifier
            then w.entry.value = value else s.contents.HasCell column key qualifier value) ∧
      ∀ before a after, accesses = before ++ a :: after →
        ∃ rows, answers[before.length]? = some rows ∧ a.Answers (before.flatMap writes) rows := by
  refine ⟨answersFrom [] accesses, ?_, ?_⟩
  · intro c hc
    have hempty := Storage.holds_of_empty hc
    obtain ⟨s, hrun, hs⟩ := mapM_run_of_holds hempty accesses hfits
    refine ⟨s, hrun, fun w hw => ?_⟩
    obtain ⟨s', hput, hs'⟩ := run_of_holds hs (put w) (by simpa [writes] using hw)
    refine ⟨s', hput, fun column key qualifier value => ?_⟩
    rw [hs'.2.hasCell, hs.2.hasCell, writes, Write.last?_concat, Write.hits]
    simp only [decide_eq_true_eq]
    split
    · rw [Option.some_inj]
    · rfl
  · rintro before a after rfl
    exact answers_answersFrom []

/-- A cell put twice, the second time after a reopening, and a put beside it in another family. -/
def sampleAccesses : List Access :=
  [put ⟨⟨.caller, "NCS"⟩, ⟨[1], [], [7]⟩⟩, reopen, put ⟨⟨.caller, "NCS"⟩, ⟨[1], [], [8]⟩⟩,
    put ⟨⟨.caller, "N"⟩, ⟨[1], [], [9]⟩⟩, scan ⟨.caller, "NCS"⟩ [] [2]]

theorem sampleAccesses_answered :
    (∀ w ∈ sampleAccesses.flatMap writes, w.Fits) ∧
    ∀ c ∈ [Contents.memory .empty, Contents.packed .empty],
      ((sampleAccesses.mapM run) { contents := c }).1 =
        .ok [[], [], [], [], [⟨[1], [⟨[], [8]⟩]⟩]] := by
  have hfits : ∀ w ∈ sampleAccesses.flatMap writes, w.Fits := by
    simp [sampleAccesses, writes, Write.Fits, Bytes.room]
  have hmemory : ((sampleAccesses.mapM run) { contents := .memory .empty }).1 =
      .ok [[], [], [], [], [⟨[1], [⟨[], [8]⟩]⟩]] := by
    decide +kernel
  obtain ⟨answers, hruns, _⟩ := backends_answer_last_writes sampleAccesses hfits
  obtain ⟨m, hm, _⟩ := hruns (.memory .empty) (by simp)
  rw [hm] at hmemory
  refine ⟨hfits, fun c hc => ?_⟩
  obtain ⟨s, hs, _⟩ := hruns c hc
  rw [hs]
  exact hmemory

end Access

end NetAtlas

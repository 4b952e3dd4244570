import Mathlib.Data.List.Basic
import NetAtlas.Proofs.Record.RowKey
import NetAtlas.Proofs.Storage.Reading
import NetAtlas.Store.Registries

set_option autoImplicit false

/-!
# Stored observations as queries find them

A view holds whatever can be read of the cells of its column, stray bytes beside it notwithstanding. A
query finds of these, in storage order, exactly those with its address and a time of its range.
-/
namespace NetAtlas

theorem Draft.build_eq_ok {d : Draft} {o : Observation} (h : d.build = .ok o) :
    d.agent = o.agent ∧ d.direction = some o.direction ∧ (∃ port, d.src = some (o.src.ip, port)) ∧
      (∃ port, d.dst = some (o.dst.ip, port)) ∧ o.time = d.time ∧ 0 ≤ o.time := by
  unfold Draft.build at h
  split at h
  · cases h
  split at h
  · cases h
  split at h
  · cases h
  · cases h
  · cases h
  next direction srcIp srcPort dstIp dstPort hdirection hsrc hdst =>
    split at h
    · cases h
    split at h
    · cases h
    split at h
    · cases h
    next htime =>
      split at h
      · cases h
      split at h
      · cases h
      · cases h
      next hs ht =>
        cases h
        rw [hdirection, hsrc, hdst, Endpoint.ip_of_make hs, Endpoint.ip_of_make ht]
        exact ⟨rfl, rfl, ⟨srcPort, rfl⟩, ⟨dstPort, rfl⟩, rfl, Int64.not_lt.mp htime⟩

theorem Draft.pid_of_build {d : Draft} {o : Observation} (h : d.build = .ok o) : o.pid = d.pid := by
  unfold Draft.build at h
  repeat' split at h
  all_goals cases h
  rfl

namespace Entry

/-- Where an observation that was read from a view lies in it. -/
theorem toView_eq_ok {v : View} {e : Entry} {o : Observation} (h : e.toView v = .ok o) :
    e.row = Key.ipRow (v.own o).ip o.time ∧ o.direction = v.direction ∧ 0 ≤ o.time := by
  obtain ⟨⟨ownIp, time⟩, hrow, h⟩ := except_bind_eq_ok h
  obtain ⟨q, _, h⟩ := except_bind_eq_ok h
  obtain ⟨⟨counters, netNs⟩, _, h⟩ := except_bind_eq_ok h
  obtain ⟨_, hd, ⟨srcPort, hs⟩, ⟨dstPort, ht⟩, htime, hpos⟩ :=
    Draft.build_eq_ok (except_mapError_eq_ok h)
  have hstored : e.row = Key.ipRow ownIp o.time := by
    rw [show o.time = time from htime]
    exact Key.eq_ipRow_of_read hrow
  have hown : ownIp = (v.own o).ip := by
    cases v with
    | caller => exact congrArg Prod.fst (Option.some.inj ht)
    | callee => exact congrArg Prod.fst (Option.some.inj hs)
  exact ⟨hown ▸ hstored, (Option.some.inj hd).symm, hpos⟩

end Entry

namespace Contents

def rows (c : Contents) (column : Column) : List Row :=
  match c with
  | memory m => (m.rows column).toList.map fun (key, cells) => ⟨key, Memory.cellList cells⟩
  | packed p =>
    (p.tree column).toList.filterMap fun (key, bytes) => (Row.unpack bytes).toOption.map (⟨key, ·⟩)

theorem scan_eq_filter_rows (c : Contents) (column : Column) (start stop : Bytes) :
    c.scan column start stop =
      (c.rows column).filter fun row => Bytes.between start stop row.key := by
  cases c with
  | memory m =>
    simp only [scan, Memory.scan, rows, List.filter_map]
    rfl
  | packed p =>
    simp only [scan, Packed.scan, rows, List.filter_filterMap, List.filterMap_filter]
    congr 1
    funext x
    cases Row.unpack x.2 with
    | error e => simp [Except.toOption]
    | ok cells => simp [Except.toOption, Option.filter]

/-- All observations a view holds that can be read. -/
def observations (c : Contents) (v : View) : List Observation :=
  readCells (Entry.toView v) (c.rows v.column)

def reports (c : Contents) (v : View) (range : TimeRange) : List Observation :=
  (c.observations v).filter fun o => range.covers o.time

/-- What a query for an address finds. -/
def found (c : Contents) (v : View) (ip : Ip) (range : TimeRange) : List Observation :=
  (c.reports v range).filter fun o => (v.own o).ip = ip

/-- The local addresses of an agent in a range; an id that has no key has none. -/
def addresses (c : Contents) (agent : String) (range : TimeRange) : Std.ExtTreeSet Ip :=
  ((AddressRegistry.addresses agent range).answer c).toOption.getD ∅

theorem mem_observations {c : Contents} {v : View} {o : Observation} (h : o ∈ c.observations v) :
    o.direction = v.direction := by
  simp only [observations, readCells, List.mem_flatMap, List.mem_filterMap] at h
  obtain ⟨row, _, cell, _, hread⟩ := h
  exact (Entry.toView_eq_ok (except_toOption_eq_some hread)).2.1

end Contents

/-- If a row decides of all that can be read of it whether it is wanted, reading the wanted rows and
picking what is wanted of all rows come to the same. -/
theorem readCells_filter {α : Type} {read : Entry → Except Corruption α} {wanted : Row → Bool}
    {pick : α → Bool} (rows : List Row)
    (h : ∀ row ∈ rows, ∀ cell ∈ row.cells, ∀ a,
      read ⟨row.key, cell.qualifier, cell.value⟩ = .ok a → pick a = wanted row) :
    readCells read (rows.filter wanted) = (readCells read rows).filter pick := by
  induction rows with
  | nil => rfl
  | cons row rows ih =>
    have hrow : ∀ a ∈ row.cells.filterMap fun cell =>
        (read ⟨row.key, cell.qualifier, cell.value⟩).toOption, pick a = wanted row := by
      intro a ha
      obtain ⟨cell, hcell, hread⟩ := List.mem_filterMap.mp ha
      exact h row List.mem_cons_self cell hcell a (except_toOption_eq_some hread)
    simp only [readCells, List.flatMap_cons, List.filter_append] at ih ⊢
    rw [← ih fun other hother => h other (List.mem_cons_of_mem _ hother), List.filter_congr hrow,
      List.filter_cons]
    cases wanted row with
    | false => simp
    | true => simp only [if_true, List.flatMap_cons, List.filter_true]

section ReadCells

variable {α : Type} (column : Column) (key : Int64 → Except Rejection Bytes) (range : TimeRange)
  (read : Entry → Except Corruption α)

theorem reading_scanRange : StoreM.Reading (scanRange column key range) :=
  StoreM.reading_bind (StoreM.reading_reject _) fun _ =>
    StoreM.reading_bind (StoreM.reading_reject _) fun _ => StoreM.reading_scan _ _ _

/-- Every query reads the cells of the rows of one stem. -/
theorem reading_readCells :
    StoreM.Reading (do return readCells read (← scanRange column key range)) :=
  StoreM.reading_map (reading_scanRange column key range) _

variable {column key range}

theorem answer_readCells {start stop : Bytes} (hstart : key range.last = .ok start)
    (hstop : key range.first = .ok stop) (c : Contents) :
    StoreM.answer (do return readCells read (← scanRange column key range)) c =
      .ok (readCells read (c.scan column start stop)) := by
  rw [StoreM.answer_map (reading_scanRange column key range), scanRange, hstart, hstop]
  rfl

/-- If everything that is read has its name and its time in its row, a query finds what has the name it asks
for and a time of its range. -/
theorem answer_readCells_stem {κ : Type} [DecidableEq κ] {stem : κ → Bytes} {k : κ} {name : α → κ}
    {time : α → Int64} (hkey : ∀ t, key t = .ok (stem k ++ Key.timeBytes t))
    (hrow : ∀ e a, read e = .ok a → e.row = stem (name a) ++ Key.timeBytes (time a))
    (hinj : ∀ e a, read e = .ok a → ∀ x y, stem (name a) ++ x = stem k ++ y → name a = k ∧ x = y)
    (c : Contents) : StoreM.answer (do return readCells read (← scanRange column key range)) c =
      .ok ((readCells read (c.rows column)).filter fun a => name a = k ∧ range.covers (time a)) := by
  rw [answer_readCells read (hkey _) (hkey _), Contents.scan_eq_filter_rows]
  apply congrArg Except.ok
  apply readCells_filter
  intro row _ cell _ a ha
  rw [Bool.eq_iff_iff, show row.key = _ from hrow _ a ha, Key.between_stem (hinj _ a ha),
    decide_eq_true_iff]

end ReadCells

namespace View

theorem reading_query (v : View) (ip : Ip) (range : TimeRange) :
    StoreM.Reading (v.query ip range) := reading_readCells _ _ _ _

theorem answer_query (v : View) (ip : Ip) (range : TimeRange) (c : Contents) :
    (v.query ip range).answer c = .ok (c.found v ip range) := by
  have hrow : ∀ e o, Entry.toView v e = .ok o →
      e.row = Key.ipStem (v.own o).ip ++ Key.timeBytes o.time := fun _ _ h => (Entry.toView_eq_ok h).1
  refine (answer_readCells_stem (Entry.toView v) (fun _ => rfl) hrow
    (fun _ _ _ _ _ => Key.ipStem_inj) c).trans ?_
  simp [Contents.found, Contents.reports, Contents.observations, List.filter_filter]

end View

end NetAtlas

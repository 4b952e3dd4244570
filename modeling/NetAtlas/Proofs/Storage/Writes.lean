import Mathlib.Data.List.Induction
import NetAtlas.Proofs.Storage.Upsert

set_option autoImplicit false

/-!
# What writes leave behind

After any writes a cell holds the value written to it last. Tables in memory show this directly. Packed
rows pack those in memory, cell by cell in the same order, as long as every length fits into the four
bytes it is written with, so they hold the same rows.
-/
namespace NetAtlas

open Std

section LastOf

variable {α β : Type} {p : α → Bool}

/-- The last element with a property. -/
def lastOf (p : α → Bool) (xs : List α) : Option α := xs.reverse.find? p

theorem lastOf_concat (p : α → Bool) (xs : List α) (x : α) :
    lastOf p (xs ++ [x]) = if p x then some x else lastOf p xs := by
  rw [lastOf, List.reverse_append, List.reverse_singleton, List.singleton_append, List.find?_cons]
  cases p x <;> rfl

theorem mem_of_lastOf {xs : List α} {x : α} (h : lastOf p xs = some x) : x ∈ xs ∧ p x :=
  ⟨List.mem_reverse.mp (List.mem_of_find?_eq_some h), List.find?_some h⟩

theorem exists_lastOf {xs : List α} {x : α} (h : x ∈ xs) (hx : p x) : ∃ y, lastOf p xs = some y :=
  Option.isSome_iff_exists.mp (List.find?_isSome.mpr ⟨x, List.mem_reverse.mpr h, hx⟩)

theorem lastOf_map (f : β → α) (xs : List β) :
    lastOf p (xs.map f) = (lastOf (p ∘ f) xs).map f := by
  rw [lastOf, lastOf, ← List.map_reverse, List.find?_map]

theorem lastOf_congr {q : α → Bool} {xs : List α} (h : ∀ x ∈ xs, p x = q x) :
    lastOf p xs = lastOf q xs := by
  induction xs using List.reverseRecOn with
  | nil => rfl
  | append_singleton xs x ih =>
    rw [lastOf_concat, lastOf_concat, h x (by simp), ih fun y hy => h y (by simp [hy])]

theorem lastOf_filter {q : α → Bool} (h : ∀ x, p x → q x) (xs : List α) :
    lastOf p (xs.filter q) = lastOf p xs := by
  rw [lastOf, lastOf, ← List.filter_reverse, List.find?_filter]
  congr 1
  funext x
  have hx := h x
  cases hp : p x <;> simp_all

end LastOf

/-- A value put under the row and the qualifier of an entry. -/
structure Write where
  column : Column
  entry : Entry
  deriving DecidableEq

namespace Write

def hits (column : Column) (row qualifier : Bytes) (w : Write) : Bool :=
  w.column = column ∧ w.entry.row = row ∧ w.entry.qualifier = qualifier

/-- Qualifier and value are short enough for the lengths in a packed row. -/
def Fits (w : Write) : Prop :=
  w.entry.qualifier.length < Bytes.room 4 ∧ w.entry.value.length < Bytes.room 4

def last? (ws : List Write) (column : Column) (row qualifier : Bytes) : Option Bytes :=
  (lastOf (hits column row qualifier) ws).map (·.entry.value)

theorem last?_concat (ws : List Write) (w : Write) (column : Column) (row qualifier : Bytes) :
    last? (ws ++ [w]) column row qualifier =
      if w.hits column row qualifier then some w.entry.value else last? ws column row qualifier := by
  rw [last?, lastOf_concat]
  split <;> rfl

end Write

namespace Column

theorem colon_notMem_name (t : Table) : ':' ∉ t.name.toList := by
  cases t <;> decide

theorem name_inj {a b : Column} (h : a.name = b.name) : a = b := by
  have hparts : ∀ c : Column, c.name.toList = c.table.name.toList ++ ':' :: c.family.toList := by
    intro c
    simp [name, toString]
  have hcut : ∀ c : Column, c.name.toList.takeWhile (· ≠ ':') = c.table.name.toList := by
    intro c
    rw [hparts, List.takeWhile_append_of_pos, List.takeWhile_cons_of_neg (by simp), List.append_nil]
    intro x hx
    have hne : x ≠ ':' := fun he => colon_notMem_name c.table (he ▸ hx)
    simpa using hne
  -- the name of a table has no colon, so the first colon of a column's name ends it
  have htable : a.table = b.table := by
    apply Table.name_inj
    rw [← String.toList_inj, ← hcut, ← hcut, h]
  have hrest := congrArg String.toList h
  rw [hparts, hparts, htable, List.append_cancel_left_eq, List.cons.injEq, String.toList_inj] at hrest
  exact eq_of_parts htable hrest.2

end Column

namespace Memory

def write (m : Memory) (w : Write) : Memory :=
  m.put w.column w.entry.row w.entry.qualifier w.entry.value

def written (ws : List Write) : Memory := ws.foldl write empty

theorem written_concat (ws : List Write) (w : Write) : written (ws ++ [w]) = (written ws).write w := by
  simp [written]

theorem rows_empty (column : Column) : empty.rows column = ∅ := ExtTreeMap.getD_empty

theorem getElem?_rows_write (m : Memory) (w : Write) (column : Column) (row : Bytes) :
    ((m.write w).rows column)[row]? =
      if w.column = column ∧ w.entry.row = row then
        some (((m.rows column).getD row ∅).insert w.entry.qualifier w.entry.value)
      else (m.rows column)[row]? := by
  rw [write, rows_put]
  by_cases hc : w.column = column
  · subst hc
    rw [if_pos rfl, ExtTreeMap.getElem?_insert]
    by_cases hr : w.entry.row = row
    · subst hr
      simp [ReflCmp.compare_self]
    · rw [if_neg fun he => hr (LawfulEqCmp.eq_of_compare he), if_neg fun he => hr he.2]
  · rw [if_neg hc, if_neg fun he => hc he.1]

theorem getElem?_written (ws : List Write) (column : Column) (row qualifier : Bytes) :
    (((written ws).rows column).getD row ∅)[qualifier]? = Write.last? ws column row qualifier := by
  induction ws using List.reverseRecOn with
  | nil =>
    change ((empty.rows column).getD row ∅)[qualifier]? = none
    rw [rows_empty, ExtTreeMap.getD_empty, ExtTreeMap.getElem?_empty]
  | append_singleton ws w ih =>
    rw [written_concat, Write.last?_concat, ← ih, ExtTreeMap.getD_eq_getD_getElem?,
      getElem?_rows_write, Write.hits]
    by_cases hplace : w.column = column ∧ w.entry.row = row
    · rw [if_pos hplace, Option.getD_some, ExtTreeMap.getElem?_insert]
      by_cases hq : w.entry.qualifier = qualifier
      · simp [hplace, hq, ReflCmp.compare_self]
      · rw [if_neg fun he => hq (LawfulEqCmp.eq_of_compare he)]
        simp [hq]
    · rw [if_neg hplace, ← ExtTreeMap.getD_eq_getD_getElem?]
      have hmiss : ¬ (w.column = column ∧ w.entry.row = row ∧ w.entry.qualifier = qualifier) :=
        fun he => hplace ⟨he.1, he.2.1⟩
      simp [hmiss]

theorem cellList_ne_nil_of_written {ws : List Write} {column : Column} {row : Bytes} {cells : Cells}
    (h : ((written ws).rows column)[row]? = some cells) : cellList cells ≠ [] := by
  induction ws using List.reverseRecOn generalizing cells with
  | nil =>
    change (empty.rows column)[row]? = some cells at h
    rw [rows_empty, ExtTreeMap.getElem?_empty] at h
    cases h
  | append_singleton ws w ih =>
    rw [written_concat, getElem?_rows_write] at h
    split at h
    · cases h
      rw [← upsert_cellList]
      exact List.ne_nil_of_mem (Row.mem_upsert _ _ _)
    · exact ih h

def Fits (m : Memory) : Prop :=
  ∀ (column : Column) (row : Bytes) (cells : Cells), (m.rows column)[row]? = some cells →
    ∀ c ∈ cellList cells, c.qualifier.length < Bytes.room 4 ∧ c.value.length < Bytes.room 4

theorem fits_written {ws : List Write} (h : ∀ w ∈ ws, w.Fits) : (written ws).Fits := by
  intro column row cells hrow c hc
  have hget : (((written ws).rows column).getD row ∅)[c.qualifier]? = some c.value := by
    rw [ExtTreeMap.getD_eq_getD_getElem?, hrow]
    exact Contents.mem_cellList.mp hc
  rw [getElem?_written, Write.last?] at hget
  obtain ⟨w, hw, hvalue⟩ := Option.map_eq_some_iff.mp hget
  obtain ⟨hmem, hhits⟩ := mem_of_lastOf hw
  have hfits := h w hmem
  simp only [Write.hits, decide_eq_true_eq] at hhits
  rw [Write.Fits, hhits.2.2, hvalue] at hfits
  exact hfits

end Memory

namespace Packed

/-- Every row of the trees is a row in memory, packed. -/
def Packs (p : Packed) (m : Memory) : Prop :=
  ∀ column, p.tree column = (m.rows column).map fun _ cells => Row.pack (Memory.cellList cells)

theorem packs_empty : empty.Packs Memory.empty := by
  intro column
  apply ExtTreeMap.ext_getElem?
  intro row
  rw [Memory.rows_empty, tree, empty, ExtTreeMap.getD_empty, ExtTreeMap.getElem?_map]
  simp

theorem Packs.getElem? {p : Packed} {m : Memory} (h : p.Packs m) (column : Column) (row : Bytes) :
    (p.tree column)[row]? =
      ((m.rows column)[row]?).map fun cells => Row.pack (Memory.cellList cells) := by
  rw [h, ExtTreeMap.getElem?_map]

/-- So a put starts from the cells in memory. -/
theorem Packs.cells?_eq {p : Packed} {m : Memory} (h : p.Packs m) (hfits : m.Fits) (column : Column)
    (row : Bytes) : Row.cells? (p.tree column)[row]? =
      some (Memory.cellList ((m.rows column).getD row ∅)) := by
  rw [h.getElem?, ExtTreeMap.getD_eq_getD_getElem?]
  cases hrow : (m.rows column)[row]? with
  | none => rfl
  | some cells =>
    rw [Option.map_some, Row.cells?, Row.unpack_pack (hfits _ _ _ hrow)]
    rfl

theorem Packs.put {p : Packed} {m : Memory} (h : p.Packs m) (hfits : m.Fits) (w : Write) :
    ∃ p', p.put w.column w.entry.row w.entry.qualifier w.entry.value = .ok p' ∧
      p'.Packs (m.write w) := by
  rw [put_eq, h.cells?_eq hfits]
  refine ⟨_, rfl, fun column => ?_⟩
  apply ExtTreeMap.ext_getElem?
  intro row
  rw [tree_insert, ExtTreeMap.getElem?_map, Memory.getElem?_rows_write]
  by_cases hc : w.column = column
  · subst hc
    rw [if_pos rfl, ExtTreeMap.getElem?_insert]
    by_cases hr : w.entry.row = row
    · subst hr
      rw [Memory.upsert_cellList]
      simp [ReflCmp.compare_self]
    · rw [if_neg fun he => hr (LawfulEqCmp.eq_of_compare he), if_neg fun he => hr he.2, h.getElem?]
  · rw [if_neg fun he => hc (Column.name_inj he), if_neg fun he => hc he.1, h.getElem?]

theorem Packs.rows {p : Packed} {m : Memory} (h : p.Packs m) (hfits : m.Fits) (column : Column) :
    (Contents.packed p).rows column = (Contents.memory m).rows column := by
  rw [Contents.rows, Contents.rows, h, ExtTreeMap.toList_map, List.filterMap_map]
  rw [← List.filterMap_eq_map]
  apply List.filterMap_congr
  intro row hrow
  have hget := ExtTreeMap.mem_toList_iff_getElem?_eq_some.mp hrow
  simp only [Function.comp_apply, Row.unpack_pack (hfits _ _ _ hget)]
  rfl

end Packed

namespace Contents

/-- What is stored is what these writes left behind. -/
def Holds (c : Contents) (ws : List Write) : Prop :=
  match c with
  | memory m => m = Memory.written ws
  | packed p => p.Packs (Memory.written ws) ∧ ∀ w ∈ ws, w.Fits

theorem holds_memory_empty : (memory .empty).Holds [] := rfl

theorem holds_packed_empty : (packed .empty).Holds [] :=
  ⟨Packed.packs_empty, fun _ h => absurd h List.not_mem_nil⟩

variable {c : Contents} {ws : List Write}

theorem fits_of_length_lt {value : Bytes} (h : value.length < Bytes.room 4) : c.fits value := by
  cases c with
  | memory m => trivial
  | packed p => exact h

theorem Holds.put (h : c.Holds ws) {w : Write} (hq : w.entry.qualifier.length < Bytes.room 4)
    (hv : c.fits w.entry.value) :
    ∃ c', c.put w.column w.entry.row w.entry.qualifier w.entry.value = .ok c' ∧
      c'.Holds (ws ++ [w]) := by
  cases c with
  | memory m =>
    cases h
    exact ⟨_, rfl, (Memory.written_concat ws w).symm⟩
  | packed p =>
    obtain ⟨p', hput, hpacks⟩ := h.1.put (Memory.fits_written h.2) w
    refine ⟨packed p', ?_, ?_, ?_⟩
    · rw [Contents.put, hput]
      rfl
    · rw [Memory.written_concat]
      exact hpacks
    · exact List.forall_mem_append.mpr ⟨h.2, List.forall_mem_singleton.mpr ⟨hq, hv⟩⟩

theorem Holds.rows_eq (h : c.Holds ws) (column : Column) :
    c.rows column = (memory (Memory.written ws)).rows column := by
  cases c with
  | memory m =>
    cases h
    rfl
  | packed p => exact h.1.rows (Memory.fits_written h.2) column

theorem Holds.hasCell (h : c.Holds ws) {column : Column} {key qualifier value : Bytes} :
    c.HasCell column key qualifier value ↔ Write.last? ws column key qualifier = some value := by
  rw [HasCell, h.rows_eq, ← HasCell, hasCell_memory, Memory.getElem?_written]

theorem Holds.rows_ascend (h : c.Holds ws) (column : Column) :
    (c.rows column).Pairwise fun r s => compare r.key s.key = .lt := by
  rw [h.rows_eq, rows, List.pairwise_map]
  exact ExtTreeMap.ordered_keys_toList

theorem Holds.cells_ascend (h : c.Holds ws) {column : Column} {row : Row} (hrow : row ∈ c.rows column) :
    row.cells ≠ [] ∧ Row.Ascends row.cells := by
  rw [h.rows_eq] at hrow
  obtain ⟨cells, hget, hcells⟩ := mem_rows_memory.mp hrow
  rw [hcells]
  exact ⟨Memory.cellList_ne_nil_of_written hget, Memory.ascends_cellList cells⟩

end Contents

/-- The storage answers all calls and holds what these writes left behind. -/
def Storage.Holds (s : Storage) (ws : List Write) : Prop :=
  s.outage = Outage.none ∧ s.contents.Holds ws

theorem Storage.Holds.answersScans {s : Storage} {ws : List Write} (h : s.Holds ws) :
    s.AnswersScans := by
  intro calls table start stop
  rw [h.1]
  rfl

theorem Storage.holds_of_empty {c : Contents}
    (h : c ∈ [Contents.memory .empty, Contents.packed .empty]) :
    Storage.Holds { contents := c } [] := by
  simp only [List.mem_cons, List.not_mem_nil, or_false] at h
  rcases h with rfl | rfl
  · exact ⟨rfl, Contents.holds_memory_empty⟩
  · exact ⟨rfl, Contents.holds_packed_empty⟩

theorem Storage.Holds.put_of_fits {s : Storage} {ws : List Write} (h : s.Holds ws) {w : Write}
    (hq : w.entry.qualifier.length < Bytes.room 4) (hv : s.contents.fits w.entry.value) :
    ∃ s', StoreM.put w.column w.entry.row w.entry.qualifier w.entry.value s = (.ok (), s') ∧
      s'.Holds (ws ++ [w]) := by
  obtain ⟨c, hput, hc⟩ := h.2.put hq hv
  exact ⟨_, StoreM.put_run_of_ok h.1 hput, h.1, hc⟩

theorem Storage.Holds.put {s : Storage} {ws : List Write} (h : s.Holds ws) {w : Write} (hw : w.Fits) :
    ∃ s', StoreM.put w.column w.entry.row w.entry.qualifier w.entry.value s = (.ok (), s') ∧
      s'.Holds (ws ++ [w]) :=
  h.put_of_fits hw.1 (Contents.fits_of_length_lt hw.2)

end NetAtlas

import NetAtlas.Proofs.Storage.Writes

set_option autoImplicit false

/-!
# Corrupt rows

Any bytes may stand in place of a packed row. A put into a row that is absent or unpacks changes that row
alone and keeps its other cells, in whatever order they are; a put into a row that does not unpack fails
and changes nothing. A tree takes what a put gives only if the row still has the bytes that the put ran on,
and otherwise has it run again on those the row has now; what counts is the run that is taken. A scan
leaves out the rows that do not unpack.
-/
namespace NetAtlas

open Std

namespace Packed

abbrev Tree := ExtTreeMap Bytes Bytes

variable {row qualifier value : Bytes} {tree : Tree}

/-- The tree and the report of a put that runs on the bytes the row has. -/
def swapped (row qualifier value : Bytes) (tree : Tree) : Tree × Bool :=
  let (bytes, corrupt) := update qualifier value tree[row]? false
  (tree.alter row fun _ => bytes, corrupt)

/-- A put is run on the bytes that were last seen in its row, and what it gives is taken if the row still
has them. The trees are those that are met in turn, each with whatever others have written since; there is
no outcome while every one of them has other bytes in the row. -/
def attempts (row qualifier value : Bytes) : Option Bytes → Bool → List Tree → Option (Tree × Bool)
  | _, _, [] => none
  | seen, corrupt, tree :: later =>
    let (bytes, corrupt) := update qualifier value seen corrupt
    if tree[row]? = seen then some (tree.alter row fun _ => bytes, corrupt)
    else attempts row qualifier value tree[row]? corrupt later

theorem attempts_cons (row qualifier value : Bytes) (seen : Option Bytes) (corrupt : Bool) (tree : Tree)
    (later : List Tree) : attempts row qualifier value seen corrupt (tree :: later) =
      if tree[row]? = seen then some (swapped row qualifier value tree)
      else attempts row qualifier value tree[row]? (update qualifier value seen corrupt).2 later := by
  by_cases h : tree[row]? = seen
  · subst h
    simp only [attempts, if_true]
    rfl
  · simp only [attempts, if_neg h]

/-- The outcome is that of a run on a tree as it was met, after attempts that all came to nothing. -/
theorem exists_of_attempts {seen : Option Bytes} {corrupt : Bool} {met : List Tree} {outcome : Tree × Bool}
    (h : attempts row qualifier value seen corrupt met = some outcome) :
    ∃ before tree later, met = before ++ tree :: later ∧
      attempts row qualifier value seen corrupt before = none ∧
      outcome = swapped row qualifier value tree := by
  induction met generalizing seen corrupt with
  | nil => cases h
  | cons tree later ih =>
    rw [attempts_cons] at h
    by_cases hseen : tree[row]? = seen
    · rw [if_pos hseen] at h
      exact ⟨[], tree, later, rfl, rfl, (Option.some.inj h).symm⟩
    · rw [if_neg hseen] at h
      obtain ⟨before, last, rest, rfl, hbefore, houtcome⟩ := ih h
      refine ⟨tree :: before, last, rest, rfl, ?_, houtcome⟩
      rw [attempts_cons, if_neg hseen]
      exact hbefore

/-- Only bytes that change each time keep a put from its outcome. -/
theorem attempts_eq_none_iff {seen : Option Bytes} {corrupt : Bool} {met : List Tree} :
    attempts row qualifier value seen corrupt met = none ↔
      (seen :: met.map fun tree => tree[row]?).IsChain (· ≠ ·) := by
  induction met generalizing seen corrupt with
  | nil => simp [attempts]
  | cons tree later ih =>
    rw [attempts_cons, List.map_cons, List.isChain_cons_cons, ne_comm]
    by_cases hseen : tree[row]? = seen
    · simp [hseen]
    · rw [if_neg hseen, ih]
      simp [hseen]

theorem swapped_of_corrupt (h : (swapped row qualifier value tree).2 = true) :
    (swapped row qualifier value tree).1 = tree := by
  rw [swapped, update_eq] at h ⊢
  cases hcells : Row.cells? tree[row]? with
  | some cells =>
    rw [hcells] at h
    cases h
  | none =>
    -- the bytes that were found are put back, and a key that had none still has none
    apply ExtTreeMap.ext_getElem?
    intro key
    change (tree.alter row fun _ => tree[row]?)[key]? = tree[key]?
    rw [ExtTreeMap.getElem?_alter]
    by_cases hkey : compare row key = .eq
    · rw [if_pos hkey, LawfulEqCmp.eq_of_compare hkey]
    · rw [if_neg hkey]

theorem put_eq_swapped (p : Packed) (column : Column) (row qualifier value : Bytes) :
    p.put column row qualifier value =
      if (swapped row qualifier value (p.tree column)).2 then .error (.row column.name)
      else .ok ⟨p.trees.insert column.name (swapped row qualifier value (p.tree column)).1⟩ := rfl

/-- What a put leaves that found these cells in its row. Lengths are written with four bytes, so the row
unpacks just when those of the new cell fit. -/
structure Upserted (p p' : Packed) (column : Column) (row qualifier value : Bytes)
    (cells after : List Cell) : Prop where
  stored : (p'.tree column)[row]? = some (Row.pack after)
  unpacks_iff : Row.unpack (Row.pack after) = .ok after ↔
    qualifier.length < Bytes.room 4 ∧ value.length < Bytes.room 4
  mem_after : ⟨qualifier, value⟩ ∈ after
  others_kept : after.filter (·.qualifier ≠ qualifier) = cells.filter (·.qualifier ≠ qualifier)
  elsewhere : ∀ other key, other ≠ column ∨ key ≠ row → (p'.tree other)[key]? = (p.tree other)[key]?

theorem put_upserts {p : Packed} {column : Column} {cells : List Cell}
    (h : Row.cells? (p.tree column)[row]? = some cells) (qualifier value : Bytes) :
    ∃ p' after, p.put column row qualifier value = .ok p' ∧
      Upserted p p' column row qualifier value cells after := by
  have hput := put_eq p column row qualifier value
  rw [h] at hput
  refine ⟨_, Row.upsert qualifier value cells, hput, ?_, Row.unpack_pack_upsert_iff h qualifier value,
    Row.mem_upsert qualifier value cells, Row.filter_upsert qualifier value cells, ?_⟩
  · rw [tree_insert, if_pos rfl, ExtTreeMap.getElem?_insert_self]
  · intro other key hother
    rw [tree_insert]
    by_cases hname : column.name = other.name
    · cases Column.name_inj hname
      have hkey : key ≠ row := hother.resolve_left fun hne => hne rfl
      rw [if_pos rfl, ExtTreeMap.getElem?_insert, if_neg fun hc => hkey (LawfulEqCmp.eq_of_compare hc).symm]
    · rw [if_neg hname]

theorem mem_scan_iff {p : Packed} {column : Column} {start stop : Bytes} {r : Row} :
    r ∈ p.scan column start stop ↔ Bytes.between start stop r.key ∧
      ∃ bytes, (p.tree column)[r.key]? = some bytes ∧ Row.unpack bytes = .ok r.cells := by
  change r ∈ (Contents.packed p).scan column start stop ↔ _
  rw [Contents.scan_eq_filter_rows, List.mem_filter, Contents.mem_rows_packed, and_comm]

theorem scan_ascends (p : Packed) (column : Column) (start stop : Bytes) :
    (p.scan column start stop).Pairwise fun r s => compare r.key s.key = .lt := by
  apply List.Pairwise.filterMap _ _ (ExtTreeMap.ordered_keys_toList.filter _)
  rintro ⟨key, bytes⟩ ⟨key', bytes'⟩ hlt r hr r' hr'
  obtain ⟨cells, _, rfl⟩ := Option.map_eq_some_iff.mp hr
  obtain ⟨cells', _, rfl⟩ := Option.map_eq_some_iff.mp hr'
  exact hlt

/-- A put into a row that is absent or unpacks succeeds, leaves its cell and all others of the row in their
order, and no other row changes; a put into any other row fails and leaves everything as it was. Where
others write in between, the outcome is that of a put into what the last run met, and there is one as soon
as a run meets the bytes it ran on. A scan finds the rows of its range that unpack, in the order of their
keys. -/
theorem put_contains_corruption (p : Packed) (column : Column) (row qualifier value : Bytes) :
    (∀ cells, Row.cells? (p.tree column)[row]? = some cells →
      ∃ p' after, (Contents.packed p).put column row qualifier value = .ok (.packed p') ∧
        Upserted p p' column row qualifier value cells after) ∧
    (Row.cells? (p.tree column)[row]? = none →
      (Contents.packed p).put column row qualifier value = .error (.corrupt (.row column.name)) ∧
      ∀ s : Storage, s.contents = .packed p →
        (StoreM.put column row qualifier value s).2.contents = .packed p) ∧
    (∀ seen corrupt met, attempts row qualifier value seen corrupt met = none ↔
      (seen :: met.map fun tree => tree[row]?).IsChain (· ≠ ·)) ∧
    (∀ seen corrupt met tree' reported,
      attempts row qualifier value seen corrupt met = some (tree', reported) →
      ∃ before tree later, met = before ++ tree :: later ∧
        attempts row qualifier value seen corrupt before = none ∧ (reported = true → tree' = tree) ∧
        ∀ last : Packed, last.tree column = tree → last.put column row qualifier value =
          if reported then .error (.row column.name)
          else .ok ⟨last.trees.insert column.name tree'⟩) ∧
    ∀ start stop, (p.scan column start stop).Pairwise (fun r s => compare r.key s.key = .lt) ∧
      ∀ r, r ∈ p.scan column start stop ↔ Bytes.between start stop r.key ∧
        ∃ bytes, (p.tree column)[r.key]? = some bytes ∧ Row.unpack bytes = .ok r.cells := by
  refine ⟨?_, ?_, fun _ _ _ => attempts_eq_none_iff, ?_,
    fun start stop => ⟨scan_ascends p column start stop, fun _ => mem_scan_iff⟩⟩
  · intro cells hcells
    obtain ⟨p', after, hput, hafter⟩ := put_upserts hcells qualifier value
    refine ⟨p', after, ?_, hafter⟩
    rw [Contents.put, hput]
    rfl
  · intro hcorrupt
    have hput : (Contents.packed p).put column row qualifier value =
        .error (.corrupt (.row column.name)) := by
      rw [Contents.put, put_eq, hcorrupt]
      rfl
    refine ⟨hput, fun s hs => ?_⟩
    rcases hrun : StoreM.put column row qualifier value s with ⟨e | u, s'⟩
    · rw [StoreM.put_eq_error hrun, hs]
    · have hok := StoreM.put_eq_ok hrun
      rw [hs, hput] at hok
      cases hok
  · intro seen corrupt met tree' reported h
    obtain ⟨before, tree, later, hmet, hbefore, houtcome⟩ := exists_of_attempts h
    obtain ⟨rfl, rfl⟩ := Prod.mk.inj houtcome
    refine ⟨before, tree, later, hmet, hbefore, swapped_of_corrupt, ?_⟩
    rintro last rfl
    exact put_eq_swapped last column row qualifier value

namespace Garbled

def column : Column := ⟨.caller, "NCS"⟩

/-- A row whose cells do not ascend, and one that claims more bytes than it has. -/
def store : Packed := Packed.empty
  |>.putRaw column [1] (Row.pack [⟨[98], [7]⟩, ⟨[97], [8]⟩])
  |>.putRaw column [2] [0, 0, 0, 9, 97, 98]

end Garbled

/-- The corrupt row goes away while a put runs on it, so the put is run again and succeeds. -/
theorem put_contains_corruption_garbled :
    (∃ p' after, (Contents.packed Garbled.store).put Garbled.column [1] [97] [9] = .ok (.packed p') ∧
      Upserted Garbled.store p' Garbled.column [1] [97] [9] [⟨[98], [7]⟩, ⟨[97], [8]⟩] after) ∧
    (Contents.packed Garbled.store).put Garbled.column [2] [97] [9] =
      .error (.corrupt (.row "NetworkConnectionStatisticsCaller:NCS")) ∧
    (∃ tree', attempts [2] [97] [9] (some [0, 0, 0, 9, 97, 98]) false [∅, ∅] = some (tree', false) ∧
      empty.put Garbled.column [2] [97] [9] =
        .ok ⟨empty.trees.insert Garbled.column.name tree'⟩) ∧
    ⟨[1], [⟨[98], [7]⟩, ⟨[97], [8]⟩]⟩ ∈ Garbled.store.scan Garbled.column [] [3] := by
  have hunsorted : Row.cells? (Garbled.store.tree Garbled.column)[([1] : Bytes)]? =
      some [⟨[98], [7]⟩, ⟨[97], [8]⟩] := by decide +kernel
  have hcorrupt : Row.cells? (Garbled.store.tree Garbled.column)[([2] : Bytes)]? = none := by
    decide +kernel
  have hrerun : attempts [2] [97] [9] (some [0, 0, 0, 9, 97, 98]) false [∅, ∅] =
      some ((swapped [2] [97] [9] ∅).1, false) := by
    rw [attempts_cons, if_neg (by simp), attempts_cons, if_pos rfl]
    rfl
  obtain ⟨hput, _, _, _, hscan⟩ := put_contains_corruption Garbled.store Garbled.column [1] [97] [9]
  obtain ⟨_, hfail, _, hlast, _⟩ := put_contains_corruption Garbled.store Garbled.column [2] [97] [9]
  obtain ⟨before, tree, later, hmet, _, _, hstored⟩ := hlast _ _ _ _ _ hrerun
  have hempty : empty.tree Garbled.column = tree := by
    have htree : tree ∈ [(∅ : Tree), ∅] := hmet ▸ by simp
    simpa [eq_comm, empty, Packed.tree] using htree
  have hrow := (Row.cells?_eq_some.mp hunsorted).resolve_left fun hnone => absurd hnone.2 (by simp)
  exact ⟨hput _ hunsorted, (hfail hcorrupt).1, ⟨_, hrerun, hstored _ hempty⟩,
    ((hscan [] [3]).2 _).mpr ⟨by decide, hrow⟩⟩

/-- A put into an absent row can itself leave bytes that do not unpack. -/
theorem put_of_room {p : Packed} {column : Column} {row value : Bytes}
    (habsent : (p.tree column)[row]? = none) (hlength : value.length = Bytes.room 4)
    (hbegins : value.take 4 = [255, 255, 255, 255]) :
    ∃ p', p.put column row [] value = .ok p' ∧ Row.cells? (p'.tree column)[row]? = none := by
  have hafter : Row.upsert [] value [] = [⟨[], value⟩] := by simp [Row.upsert]
  have hput := put_eq p column row [] value
  rw [habsent, Row.cells?] at hput
  refine ⟨_, hput, ?_⟩
  rw [hafter]
  rw [tree_insert, if_pos rfl, ExtTreeMap.getElem?_insert_self, Row.cells?]
  cases hread : Row.unpack (Row.pack [⟨[], value⟩]) with
  | ok cells => exact absurd hread (Row.unpack_pack_of_room hlength hbegins cells)
  | error cause => rfl

/-- A value of four gibibytes is put into an absent row. The put succeeds, but the row does not unpack, and
the next put into it fails. -/
theorem put_of_four_gibibytes :
    Row.cells? (empty.tree Garbled.column)[([1] : Bytes)]? = some [] ∧
    ∃ p', (Contents.packed empty).put Garbled.column [1] [] (List.replicate 4294967296 255) =
        .ok (.packed p') ∧
      Row.cells? (p'.tree Garbled.column)[([1] : Bytes)]? = none ∧
      (Contents.packed p').put Garbled.column [1] [97] [98] =
        .error (.corrupt (.row "NetworkConnectionStatisticsCaller:NCS")) := by
  have habsent : (empty.tree Garbled.column)[([1] : Bytes)]? = none := by decide +kernel
  have hbegins : (List.replicate 4294967296 255 : Bytes).take 4 = [255, 255, 255, 255] := by
    rw [List.take_replicate]
    rfl
  have hlength : (List.replicate 4294967296 255 : Bytes).length = Bytes.room 4 := List.length_replicate
  obtain ⟨p', hput, hcorrupt⟩ := put_of_room habsent hlength hbegins
  refine ⟨by rw [habsent]; rfl, p', ?_, hcorrupt, ?_⟩
  · rw [Contents.put, hput]
    rfl
  · rw [Contents.put, put_eq, hcorrupt]
    rfl

end Packed

end NetAtlas

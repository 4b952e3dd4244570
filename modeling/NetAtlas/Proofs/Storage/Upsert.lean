import Mathlib.Data.List.Sort
import NetAtlas.Proofs.Storage.Cells

set_option autoImplicit false

/-!
# Rows in the order of their qualifiers

A packed row ascends by qualifier. Halving it finds the last cell that is not above a qualifier, so a
put splits the row there: what is below comes before the new cell, what is above comes after it. In a
row of any order a put still leaves a cell with its qualifier and value.
-/
namespace NetAtlas

open Std

namespace Row

def Ascends (cells : List Cell) : Prop :=
  cells.Pairwise fun c d => compare c.qualifier d.qualifier = .lt

variable {qualifier : Bytes} {cells : List Cell}

theorem seek_lt (qualifier : Bytes) (h : cells ≠ []) : seek qualifier cells < cells.length := by
  have hpos := List.length_pos_iff.mpr h
  fun_induction seek qualifier cells with
  | case1 => exact hpos
  | case2 cells half hhalf inside hgt ih =>
    clear_value half
    have hlen : (cells.take (cells.length - half)).length = cells.length - half := by simp
    have hlt := ih (List.ne_nil_of_length_pos (by omega)) (by omega)
    omega
  | case3 cells half hhalf inside hle ih =>
    clear_value half
    have hlen : (cells.drop half).length = cells.length - half := by simp
    have hlt := ih (List.ne_nil_of_length_pos (by omega)) (by omega)
    omega

theorem seek_take_lt (qualifier : Bytes) {n : Nat} (hn : 0 < n) (hle : n ≤ cells.length) :
    seek qualifier (cells.take n) < n := by
  have hlen : (cells.take n).length = n := by simp [hle]
  have hlt := seek_lt qualifier (List.ne_nil_of_length_pos (hlen.symm ▸ hn))
  omega

/-- Behind the place found there are only cells above the qualifier. -/
theorem above_of_mem_drop_seek (qualifier : Bytes) (h : Ascends cells) :
    ∀ c ∈ cells.drop (seek qualifier cells + 1), compare c.qualifier qualifier = .gt := by
  fun_induction seek qualifier cells with
  | case1 cells half hhalf =>
    have hlen : cells.length ≤ 0 + 1 := by omega
    simp [List.drop_of_length_le hlen]
  | case2 cells half hhalf inside hgt ih =>
    intro c hc
    have hmid : half ≤ cells.length - half := by omega
    clear_value half
    have hlt := seek_take_lt qualifier (Nat.sub_pos_of_lt inside) (Nat.sub_le cells.length half)
    obtain ⟨j, hj, rfl⟩ := List.getElem_of_mem hc
    simp only [List.length_drop] at hj
    rw [List.getElem_drop]
    by_cases hcut : seek qualifier (cells.take (cells.length - half)) + 1 + j < cells.length - half
    · apply ih (h.sublist (List.take_sublist _ _))
      rw [List.mem_iff_getElem]
      refine ⟨j, by simp; omega, ?_⟩
      rw [List.getElem_drop, List.getElem_take]
    · -- what was cut off lies from the middle on
      rw [OrientedCmp.gt_iff_lt] at hgt ⊢
      rcases Nat.eq_or_lt_of_le (Nat.le_trans hmid (Nat.not_lt.mp hcut)) with hsame | hbehind
      · simp only [← hsame]
        exact hgt
      · exact TransCmp.lt_trans hgt (List.pairwise_iff_getElem.mp h _ _ _ _ hbehind)
  | case3 cells half hhalf inside hle ih =>
    have hrest := ih (h.sublist (List.drop_sublist _ _))
    rw [List.drop_drop] at hrest
    rw [Nat.add_assoc]
    exact hrest

/-- Only the first cell is found although it is above the qualifier. -/
theorem not_above_seek (qualifier : Bytes) (cells : List Cell) (c : Cell)
    (hc : cells[seek qualifier cells]? = some c) (hpos : 0 < seek qualifier cells) :
    compare c.qualifier qualifier ≠ .gt := by
  fun_induction seek qualifier cells with
  | case1 => exact absurd hpos (Nat.lt_irrefl 0)
  | case2 cells half hhalf inside hgt ih =>
    clear_value half
    have hlt := seek_take_lt qualifier (Nat.sub_pos_of_lt inside) (Nat.sub_le cells.length half)
    apply ih _ hpos
    rw [List.getElem?_take, if_pos hlt, hc]
  | case3 cells half hhalf inside hle ih =>
    by_cases hzero : seek qualifier (cells.drop half) = 0
    · rw [hzero, Nat.add_zero, List.getElem?_eq_getElem inside] at hc
      cases hc
      exact hle
    · rw [← List.getElem?_drop] at hc
      exact ih hc (Nat.pos_of_ne_zero hzero)

theorem exists_seek (qualifier : Bytes) (h : cells ≠ []) :
    ∃ before c behind, cells = before ++ c :: behind ∧ seek qualifier cells = before.length := by
  have hlt := seek_lt qualifier h
  refine ⟨cells.take (seek qualifier cells), cells[seek qualifier cells],
    cells.drop (seek qualifier cells + 1), ?_, ?_⟩
  · rw [← List.drop_eq_getElem_cons hlt, List.take_append_drop]
  · rw [List.length_take, Nat.min_eq_left (Nat.le_of_lt hlt)]

theorem upsert_of_seek {value : Bytes} {before behind : List Cell} {c : Cell}
    (h : seek qualifier (before ++ c :: behind) = before.length) :
    upsert qualifier value (before ++ c :: behind) =
      match compare c.qualifier qualifier with
      | .eq => before ++ ⟨c.qualifier, value⟩ :: behind
      | .lt => before ++ c :: ⟨qualifier, value⟩ :: behind
      | .gt => before ++ ⟨qualifier, value⟩ :: c :: behind := by
  have hfound : (before ++ c :: behind)[before.length]? = some c := by simp
  have htake : (before ++ c :: behind).take (before.length + 1) = before ++ [c] := by
    simp [List.take_append, List.take_of_length_le]
  have hdrop : (before ++ c :: behind).drop (before.length + 1) = behind := by
    simp [List.drop_append]
  cases hc : compare c.qualifier qualifier <;>
    simp only [upsert, h, hfound, htake, hdrop, hc, List.take_left, List.drop_left, List.append_assoc,
      List.singleton_append]

/-- Whatever the order of a row, a put leaves a cell with its qualifier and value. -/
theorem mem_upsert (qualifier value : Bytes) (cells : List Cell) :
    ⟨qualifier, value⟩ ∈ upsert qualifier value cells := by
  by_cases h : cells = []
  · subst h
    rw [upsert_nil]
    exact List.mem_singleton.mpr rfl
  · obtain ⟨before, c, behind, rfl, hseek⟩ := exists_seek qualifier h
    rw [upsert_of_seek hseek]
    cases hc : compare c.qualifier qualifier with
    | eq => simp [LawfulEqCmp.eq_of_compare hc]
    | lt => simp
    | gt => simp

theorem mem_of_mem_upsert {value : Bytes} {d : Cell} (h : d ∈ upsert qualifier value cells) :
    d = ⟨qualifier, value⟩ ∨ d ∈ cells := by
  by_cases hne : cells = []
  · subst hne
    rw [upsert_nil] at h
    exact Or.inl (List.mem_singleton.mp h)
  · obtain ⟨before, c, behind, rfl, hseek⟩ := exists_seek qualifier hne
    rw [upsert_of_seek hseek] at h
    cases hc : compare c.qualifier qualifier with
    | eq =>
      rw [hc, LawfulEqCmp.eq_of_compare hc] at h
      simp at h ⊢
      tauto
    | lt =>
      rw [hc] at h
      simp at h ⊢
      tauto
    | gt =>
      rw [hc] at h
      simp at h ⊢
      tauto

/-- A put leaves the cells with other qualifiers, in the order they had. -/
theorem filter_upsert (qualifier value : Bytes) (cells : List Cell) :
    (upsert qualifier value cells).filter (·.qualifier ≠ qualifier) =
      cells.filter (·.qualifier ≠ qualifier) := by
  by_cases h : cells = []
  · subst h
    rw [upsert_nil]
    simp
  · obtain ⟨before, c, behind, rfl, hseek⟩ := exists_seek qualifier h
    rw [upsert_of_seek hseek]
    cases hc : compare c.qualifier qualifier with
    | eq => simp [LawfulEqCmp.eq_of_compare hc]
    | lt => simp [List.filter_cons]
    | gt => simp

theorem mem_upsert_of_mem {value : Bytes} {d : Cell} (h : d ∈ cells) (hne : d.qualifier ≠ qualifier) :
    d ∈ upsert qualifier value cells := by
  have hkept : d ∈ cells.filter (·.qualifier ≠ qualifier) :=
    List.mem_filter.mpr ⟨h, decide_eq_true hne⟩
  rw [← filter_upsert qualifier value] at hkept
  exact List.mem_of_mem_filter hkept

/-- In a row that ascends the new cell stands between those below and those above its qualifier. -/
theorem upsert_of_ascends (h : Ascends cells) (qualifier value : Bytes) :
    upsert qualifier value cells =
      cells.filter (fun c => compare c.qualifier qualifier = .lt) ++
        ⟨qualifier, value⟩ :: cells.filter (fun c => compare c.qualifier qualifier = .gt) := by
  by_cases hne : cells = []
  · subst hne
    exact upsert_nil qualifier value
  · have habove := above_of_mem_drop_seek qualifier h
    have hfirst := fun c => not_above_seek qualifier cells c
    obtain ⟨before, c, behind, rfl, hseek⟩ := exists_seek qualifier hne
    have hbehind : ∀ d ∈ behind, compare d.qualifier qualifier = .gt := by
      intro d hd
      apply habove d
      rw [hseek]
      simpa [List.drop_append, List.drop_of_length_le] using hd
    have hbefore : ∀ d ∈ before, compare d.qualifier qualifier = .lt := by
      intro d hd
      have hdc := (List.pairwise_append.mp h).2.2 d hd c List.mem_cons_self
      have hle : compare c.qualifier qualifier ≠ .gt := by
        apply hfirst c
        · simp [hseek]
        · rw [hseek]
          exact List.length_pos_of_mem hd
      exact TransCmp.lt_of_lt_of_isLE hdc (Ordering.isLE_iff_ne_gt.mpr hle)
    have hlow : before.filter (fun d => compare d.qualifier qualifier = .lt) = before := by
      simpa [List.filter_eq_self] using hbefore
    have hnone : before.filter (fun d => compare d.qualifier qualifier = .gt) = [] := by
      simp +contextual [List.filter_eq_nil_iff, hbefore]
    have hhigh : behind.filter (fun d => compare d.qualifier qualifier = .gt) = behind := by
      simpa [List.filter_eq_self] using hbehind
    have hempty : behind.filter (fun d => compare d.qualifier qualifier = .lt) = [] := by
      simp +contextual [List.filter_eq_nil_iff, hbehind]
    rw [upsert_of_seek hseek, List.filter_append, List.filter_append, List.filter_cons,
      List.filter_cons, hlow, hnone, hhigh, hempty]
    cases hc : compare c.qualifier qualifier with
    | eq => simp [LawfulEqCmp.eq_of_compare hc]
    | lt => simp
    | gt =>
      have hzero : before = [] := by
        by_contra hmore
        refine hfirst c ?_ ?_ hc
        · simp [hseek]
        · rw [hseek]
          exact List.length_pos_iff.mpr hmore
      simp [hzero]

theorem ascends_upsert (h : Ascends cells) (qualifier value : Bytes) :
    Ascends (upsert qualifier value cells) := by
  rw [upsert_of_ascends h, Ascends, List.pairwise_append, List.pairwise_cons]
  refine ⟨h.sublist List.filter_sublist, ⟨?_, h.sublist List.filter_sublist⟩, ?_⟩
  · intro d hd
    simp only [List.mem_filter, decide_eq_true_eq] at hd
    exact OrientedCmp.gt_iff_lt.mp hd.2
  · intro c hc d hd
    simp only [List.mem_filter, List.mem_cons, decide_eq_true_eq] at hc hd
    rcases hd with rfl | hd
    · exact hc.2
    · exact TransCmp.lt_trans hc.2 (OrientedCmp.gt_iff_lt.mp hd.2)

theorem mem_upsert_of_ascends (h : Ascends cells) {value : Bytes} {d : Cell} :
    d ∈ upsert qualifier value cells ↔
      if d.qualifier = qualifier then d.value = value else d ∈ cells := by
  rw [upsert_of_ascends h]
  simp only [List.mem_append, List.mem_cons, List.mem_filter, decide_eq_true_eq]
  by_cases hd : d.qualifier = qualifier
  · subst hd
    cases d
    simp [ReflCmp.compare_self]
  · have hne : compare d.qualifier qualifier ≠ .eq := fun he => hd (LawfulEqCmp.eq_of_compare he)
    have hcell : d ≠ ⟨qualifier, value⟩ := fun he => hd (by rw [he])
    cases hc : compare d.qualifier qualifier with
    | eq => exact absurd hc hne
    | lt => simp [hd, hcell]
    | gt => simp [hd, hcell]

theorem fits_upsert {value : Bytes} (hq : qualifier.length < Bytes.room 4)
    (hv : value.length < Bytes.room 4)
    (h : ∀ c ∈ cells, c.qualifier.length < Bytes.room 4 ∧ c.value.length < Bytes.room 4) :
    ∀ c ∈ upsert qualifier value cells,
      c.qualifier.length < Bytes.room 4 ∧ c.value.length < Bytes.room 4 := by
  intro c hc
  rcases mem_of_mem_upsert hc with rfl | hc
  · exact ⟨hq, hv⟩
  · exact h c hc

/-- The row that a put packs unpacks just when the lengths of the new cell fit. -/
theorem unpack_pack_upsert_iff {stored : Option Bytes} (h : cells? stored = some cells)
    (qualifier value : Bytes) :
    unpack (pack (upsert qualifier value cells)) = .ok (upsert qualifier value cells) ↔
      qualifier.length < Bytes.room 4 ∧ value.length < Bytes.room 4 := by
  constructor
  · intro hunpack
    exact fits_of_unpack hunpack _ (mem_upsert qualifier value cells)
  · rintro ⟨hq, hv⟩
    apply unpack_pack (fits_upsert hq hv _)
    rcases cells?_eq_some.mp h with ⟨_, rfl⟩ | ⟨bytes, _, hunpack⟩
    · exact fun c hc => absurd hc List.not_mem_nil
    · exact fits_of_unpack hunpack

end Row

namespace Memory

open Row

theorem ascends_cellList (cells : Cells) : Ascends (cellList cells) := by
  rw [Ascends, cellList, List.pairwise_map]
  exact ExtTreeMap.ordered_keys_toList

/-- A put into a packed row is the put into the map of its cells. -/
theorem upsert_cellList (cells : Cells) (qualifier value : Bytes) :
    upsert qualifier value (cellList cells) = cellList (cells.insert qualifier value) := by
  have hasymm : Std.Asymm fun c d : Cell => compare c.qualifier d.qualifier = .lt :=
    ⟨fun _ _ => OrientedCmp.not_lt_of_lt⟩
  apply (ascends_upsert (ascends_cellList cells) qualifier value).eq_of_mem_iff
    (ascends_cellList (cells.insert qualifier value))
  intro d
  rw [mem_upsert_of_ascends (ascends_cellList cells)]
  cases d with
  | mk q v =>
    rw [Contents.mem_cellList, Contents.mem_cellList, ExtTreeMap.getElem?_insert]
    by_cases hq : q = qualifier
    · subst hq
      simp [ReflCmp.compare_self, eq_comm]
    · have hne : compare qualifier q ≠ .eq := fun he => hq (LawfulEqCmp.eq_of_compare he).symm
      simp [hq, hne]

end Memory

end NetAtlas

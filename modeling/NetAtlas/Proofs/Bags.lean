import Mathlib.Data.List.Perm.Basic
import NetAtlas.Order

set_option autoImplicit false

/-!
# Rearranging lists

What is collected from pairs can be collected along either side, and what is picked by conditions of
which at most one holds at a time is picked by their disjunction. Lists are compared as bags here.
-/
namespace NetAtlas

variable {α β γ : Type}

theorem flatMap_filter (pick : α → Bool) (f : α → List β) (xs : List α) :
    (xs.filter pick).flatMap f = xs.flatMap fun x => if pick x then f x else [] := by
  induction xs with
  | nil => rfl
  | cons x xs ih =>
    rw [List.flatMap_cons, ← ih, List.filter_cons]
    cases pick x with
    | false => rfl
    | true => rfl

/-- Rows first or columns first. -/
theorem flatMap_comm_perm (f : α → β → List γ) (xs : List α) (ys : List β) :
    (xs.flatMap fun x => ys.flatMap (f x)).Perm (ys.flatMap fun y => xs.flatMap fun x => f x y) := by
  induction xs with
  | nil =>
    have h : (ys.flatMap fun y => ([] : List α).flatMap fun x => f x y) = [] :=
      List.flatMap_eq_nil_iff.mpr fun _ _ => rfl
    rw [h]
    rfl
  | cons x xs ih =>
    simp only [List.flatMap_cons]
    exact (ih.append_left _).trans (List.flatMap_append_perm ys (f x) _)

theorem flatMap_zipIdx (f : α → List β) (xs : List α) :
    (xs.zipIdx.flatMap fun x => f x.1) = xs.flatMap f := by
  rw [← List.flatMap_map Prod.fst f, List.zipIdx_map_fst]

theorem exists_mem_zipIdx {xs : List α} {x : α} (h : x ∈ xs) : ∃ i, (x, i) ∈ xs.zipIdx := by
  obtain ⟨i, hi⟩ := List.mem_iff_getElem?.mp h
  exact ⟨i, List.mk_mem_zipIdx_iff_getElem?.mpr hi⟩

/-- Of the items with a property the first has the least position. -/
theorem flatMap_zipIdx_first (pick : α → Bool) (f : α → List β) (xs : List α) (k : Nat) :
    ((xs.zipIdx k).flatMap fun x => if pick x.1 ∧ xs.findIdx pick + k = x.2 then f x.1 else []) =
      (xs.find? pick).toList.flatMap f := by
  induction xs generalizing k with
  | nil => rfl
  | cons x xs ih =>
    rw [List.zipIdx_cons, List.flatMap_cons, List.find?_cons, List.findIdx_cons]
    cases hx : pick x with
    | true =>
      rw [if_pos ⟨rfl, by rw [cond_true, Nat.zero_add]⟩]
      have hrest : ((xs.zipIdx (k + 1)).flatMap fun y =>
          if pick y.1 ∧ (bif true then 0 else xs.findIdx pick + 1) + k = y.2 then f y.1 else []) =
          [] := by
        apply List.flatMap_eq_nil_iff.mpr
        intro y hy
        have hle := List.le_snd_of_mem_zipIdx hy
        rw [if_neg]
        rintro ⟨_, he⟩
        rw [cond_true] at he
        omega
      rw [hrest, List.append_nil]
      exact (List.flatMap_singleton f x).symm
    | false =>
      rw [if_neg fun h => Bool.false_ne_true h.1, List.nil_append, ← ih (k + 1)]
      apply List.flatMap_congr
      intro y _
      rw [cond_false, Nat.add_right_comm _ 1 k, Nat.add_assoc _ k 1]

theorem flatMap_eq_of_ne [DecidableEq α] {f : α → List β} {xs : List α} (a : α) (hd : xs.Nodup)
    (h : ∀ x ∈ xs, x ≠ a → f x = []) : xs.flatMap f = if a ∈ xs then f a else [] := by
  induction xs with
  | nil => rfl
  | cons x xs ih =>
    obtain ⟨hx, hd⟩ := List.nodup_cons.mp hd
    rw [List.flatMap_cons, ih hd fun y hy => h y (List.mem_cons_of_mem _ hy)]
    by_cases ha : x = a
    · subst ha
      rw [if_neg hx, if_pos List.mem_cons_self, List.append_nil]
    · rw [h x List.mem_cons_self ha, List.nil_append]
      have hmem : a ∈ x :: xs ↔ a ∈ xs := by
        rw [List.mem_cons]
        exact or_iff_right fun he => ha he.symm
      simp only [hmem]

/-- Conditions that exclude each other pick together what their disjunction picks. -/
theorem flatMap_filter_perm (pick : α → β → Bool) (xs : List α) (ys : List β)
    (h : xs.Pairwise fun a b => ∀ y ∈ ys, ¬ (pick a y ∧ pick b y)) :
    (xs.flatMap fun x => ys.filter (pick x)).Perm (ys.filter fun y => xs.any (pick · y)) := by
  induction xs with
  | nil =>
    have hnone : (ys.filter fun y => ([] : List α).any (pick · y)) = [] :=
      List.filter_eq_nil_iff.mpr fun y _ => by rw [List.any_nil]; exact Bool.false_ne_true
    rw [hnone]
    rfl
  | cons x xs ih =>
    obtain ⟨hx, hrest⟩ := List.pairwise_cons.mp h
    rw [List.flatMap_cons]
    refine ((ih hrest).append_left _).trans ?_
    have hsplit := List.filter_append_perm (pick x) (ys.filter fun y => (x :: xs).any (pick · y))
    rw [List.filter_filter, List.filter_filter] at hsplit
    refine List.Perm.trans ?_ hsplit
    apply List.Perm.of_eq
    congr 1
    · apply List.filter_congr
      intro y _
      rw [List.any_cons]
      cases pick x y with
      | false => rfl
      | true => rfl
    · apply List.filter_congr
      intro y hy
      rw [List.any_cons]
      cases hp : pick x y with
      | false => rfl
      | true =>
        rw [Bool.not_true, Bool.false_and]
        apply List.any_eq_false.mpr
        intro b hb hby
        exact hx b hb y hy ⟨hp, hby⟩

/-- If at most one of some conditions holds, what it stands for is collected at most once. -/
theorem flatMap_ite_of_pairwise (pick : α → Bool) (ys : List β) {xs : List α}
    (h : xs.Pairwise fun a b => ¬ (pick a ∧ pick b)) :
    (xs.flatMap fun x => if pick x then ys else []) = if xs.any pick then ys else [] := by
  induction xs with
  | nil => rfl
  | cons x xs ih =>
    obtain ⟨hx, hrest⟩ := List.pairwise_cons.mp h
    rw [List.flatMap_cons, ih hrest, List.any_cons]
    cases hp : pick x with
    | false => rfl
    | true =>
      have hnone : xs.any pick = false :=
        List.any_eq_false.mpr fun y hy hpy => hx y hy ⟨hp, hpy⟩
      rw [hnone]
      exact List.append_nil ys

theorem flatMap_singleton_ite (pick : α → Bool) (xs : List α) :
    (xs.flatMap fun x => if pick x then [x] else []) = xs.filter pick := by
  rw [← flatMap_filter]
  exact List.flatMap_singleton' _

/-- The first item with a property stays the first where it is kept. -/
theorem find?_filter_of_find? {pick wanted : α → Bool} {xs : List α} {x : α}
    (h : xs.find? wanted = some x) (hx : pick x) : (xs.filter pick).find? wanted = some x := by
  induction xs with
  | nil => cases h
  | cons y ys ih =>
    rw [List.find?_cons] at h
    cases hw : wanted y with
    | true =>
      rw [hw] at h
      cases h
      rw [List.filter_cons_of_pos hx, List.find?_cons_of_pos hw]
    | false =>
      rw [hw] at h
      by_cases hp : pick y = true
      · rw [List.filter_cons_of_pos hp, List.find?_cons_of_neg (Bool.eq_false_iff.mp hw)]
        exact ih h
      · rw [List.filter_cons_of_neg hp]
        exact ih h

/-- Leaving out items without a property does not change which item is the first with it. -/
theorem find?_filter_of_forall {pick wanted : α → Bool} {xs : List α}
    (h : ∀ x ∈ xs, wanted x → pick x) : (xs.filter pick).find? wanted = xs.find? wanted := by
  induction xs with
  | nil => rfl
  | cons x xs ih =>
    have hrest := ih fun y hy => h y (List.mem_cons_of_mem _ hy)
    rw [List.filter_cons]
    split
    · rw [List.find?_cons, List.find?_cons, hrest]
    · next hp =>
      rw [List.find?_cons_of_neg fun hw => hp (h x List.mem_cons_self hw)]
      exact hrest

/-- If not both halves of a list hold items with a property, the first of all is the first of one half. -/
theorem find?_toList_filter {pick wanted : α → Bool} {xs : List α}
    (h : ¬ ((xs.filter pick).any wanted ∧ (xs.filter fun x => !pick x).any wanted)) :
    (xs.find? wanted).toList = ((xs.filter pick).find? wanted).toList ++
      ((xs.filter fun x => !pick x).find? wanted).toList := by
  have hnone : ∀ ys : List α, ¬ ys.any wanted → ys.find? wanted = none := fun ys hys =>
    List.find?_eq_none.mpr (List.any_eq_false.mp (Bool.eq_false_iff.mpr hys))
  by_cases hp : (xs.filter pick).any wanted = true
  · have hrest : ¬ (xs.filter fun x => !pick x).any wanted := fun hn => h ⟨hp, hn⟩
    rw [hnone _ hrest, Option.toList_none, List.append_nil, find?_filter_of_forall]
    intro x hx hw
    by_contra hpick
    exact hrest (List.any_eq_true.mpr ⟨x, List.mem_filter.mpr
      ⟨hx, (Bool.not_eq_true' _).mpr (Bool.eq_false_iff.mpr hpick)⟩, hw⟩)
  · rw [hnone _ hp, Option.toList_none, List.nil_append, find?_filter_of_forall]
    intro x hx hw
    rw [Bool.not_eq_true', Bool.eq_false_iff]
    exact fun hpick => hp (List.any_eq_true.mpr ⟨x, List.mem_filter.mpr ⟨hx, hpick⟩, hw⟩)

theorem mem_ite_nil {a : Bool} {xs : List α} {x : α} :
    x ∈ (if a then xs else []) ↔ a = true ∧ x ∈ xs := by
  cases a with
  | false => exact ⟨fun h => absurd h List.not_mem_nil, fun h => absurd h.1 Bool.false_ne_true⟩
  | true => exact ⟨fun h => ⟨rfl, h⟩, fun h => h.2⟩

/-- Two bags made up of parts that share no item are the same exactly if they have the same parts. -/
theorem append_ite_perm_iff {xs ys : List α} (hd : ∀ x ∈ xs, x ∉ ys) (hx : xs ≠ []) (hy : ys ≠ [])
    (a b a' b' : Bool) :
    ((if a then xs else []) ++ (if b then ys else [])).Perm
        ((if b' then ys else []) ++ (if a' then xs else [])) ↔ a = a' ∧ b = b' := by
  constructor
  · intro h
    obtain ⟨x, hx⟩ := List.exists_mem_of_ne_nil xs hx
    obtain ⟨y, hy⟩ := List.exists_mem_of_ne_nil ys hy
    have hxys := hd x hx
    have hyxs : y ∉ xs := fun hmem => hd y hmem hy
    constructor
    · have hmem := h.mem_iff (a := x)
      simp only [List.mem_append, mem_ite_nil, hx, hxys, and_true, and_false, or_false,
        false_or] at hmem
      exact Bool.eq_iff_iff.mpr hmem
    · have hmem := h.mem_iff (a := y)
      simp only [List.mem_append, mem_ite_nil, hy, hyxs, and_true, and_false, or_false,
        false_or] at hmem
      exact Bool.eq_iff_iff.mpr hmem
  · rintro ⟨rfl, rfl⟩
    exact List.perm_append_comm

theorem toList_nodup [Ord α] [Std.TransOrd α] (s : Std.ExtTreeSet α) : s.toList.Nodup := by
  apply List.Pairwise.imp _ Std.ExtTreeSet.distinct_toList
  intro a b hne he
  subst he
  exact hne Std.ReflCmp.compare_self

end NetAtlas

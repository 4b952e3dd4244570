import NetAtlas.Proofs.Link.Tallies
import NetAtlas.Proofs.Time.Checked

set_option autoImplicit false

/-!
# Checked sums

Every sum of a tally is one of two 64-bit numbers and is cut off at the ends of the 64-bit range. So however
observations are added and values are merged, a checked computation comes to the same value.
-/
namespace NetAtlas

open Std

namespace Stat

def checkedMerge (s t : Stat) : Option Stat := do
  return {
    sent := ← Operator.addSaturating.run s.sent t.sent
    recv := ← Operator.addSaturating.run s.recv t.recv
    retransmits := ← Operator.addSaturating.run s.retransmits t.retransmits
    maxSent := max s.maxSent t.maxSent
    maxRecv := max s.maxRecv t.maxRecv
    maxRetransmits := max s.maxRetransmits t.maxRetransmits }

theorem fits64_of_bounds {n : Int} (h : 0 ≤ n ∧ n ≤ 0x7FFFFFFFFFFFFFFF) : Fits64 n :=
  fits64_of_between h.1 h.2 (by decide) (by decide)

theorem checkedMerge_eq {s t : Stat} (hs : s.Bounded) (ht : t.Bounded) :
    s.checkedMerge t = some (s.merge t) := by
  rw [checkedMerge,
    Operator.run_saturating rfl rfl (fits64_of_bounds hs.sent) (fits64_of_bounds ht.sent),
    Operator.run_saturating rfl rfl (fits64_of_bounds hs.recv) (fits64_of_bounds ht.recv),
    Operator.run_saturating rfl rfl (fits64_of_bounds hs.retransmits) (fits64_of_bounds ht.retransmits)]
  rfl

end Stat

namespace LinkValue

def checkedMergeAt (v : LinkValue) (slot : Int) (stat : Stat) : Option LinkValue := do
  return v.insert slot (← (v[slot]?.getD .zero).checkedMerge stat)

def checkedAdd (w : Window) (v : LinkValue) (o : Observation) : Option LinkValue := do
  v.checkedMergeAt (← w.checkedRefine o.time.toInt) (.ofCounters o.counters)

def checkedMerge (v u : LinkValue) : Option LinkValue :=
  u.toList.foldlM (fun v x => v.checkedMergeAt x.1 x.2) v

variable {v u : LinkValue} {slot : Int} {stat : Stat}

theorem insert_eq_mergeAt :
    v.insert slot ((v[slot]?.getD .zero).merge stat) = v.mergeAt slot stat := by
  apply ExtTreeMap.ext_getElem?
  intro k
  rw [ExtTreeMap.getElem?_insert, getElem?_mergeAt]
  by_cases h : slot = k
  · subst h
    rw [if_pos ReflCmp.compare_self, if_pos rfl]
  · rw [if_neg fun hc => h (LawfulEqCmp.eq_of_compare hc), if_neg h]

theorem checkedMergeAt_eq (hv : v.Bounded) (hstat : stat.Bounded) :
    v.checkedMergeAt slot stat = some (v.mergeAt slot stat) := by
  rw [checkedMergeAt, Stat.checkedMerge_eq (bounded_getD hv slot) hstat]
  exact congrArg some insert_eq_mergeAt

theorem bounded_mergeAt (hv : v.Bounded) (hstat : stat.Bounded) : (v.mergeAt slot stat).Bounded := by
  intro k merged h
  rw [getElem?_mergeAt] at h
  split at h
  · cases h
    exact Stat.bounded_merge (bounded_getD hv k) hstat
  · exact hv k merged h

theorem foldlM_checkedMergeAt {items : List (Int × Stat)} (hitems : ∀ x ∈ items, x.2.Bounded)
    (hv : v.Bounded) : items.foldlM (fun v x => v.checkedMergeAt x.1 x.2) v =
      some (items.foldl (fun v x => v.mergeAt x.1 x.2) v) := by
  induction items generalizing v with
  | nil => rfl
  | cons x items ih =>
    obtain ⟨hx, hrest⟩ := List.forall_mem_cons.mp hitems
    rw [List.foldlM_cons, checkedMergeAt_eq hv hx]
    exact ih hrest (bounded_mergeAt hv hx)

theorem checkedMerge_eq (hv : v.Bounded) (hu : u.Bounded) : v.checkedMerge u = some (v.merge u) := by
  rw [checkedMerge, foldlM_checkedMergeAt _ hv, merge, ExtTreeMap.foldl_eq_foldl_toList]
  rintro ⟨slot, stat⟩ hmem
  exact hu slot stat (ExtTreeMap.mem_toList_iff_getElem?_eq_some.mp hmem)

theorem checkedAdd_eq {w : Window} (hslot : Fits64 w.slot) (hv : v.Bounded) {o : Observation}
    (ho : 0 ≤ o.time) : v.checkedAdd w o = some (v.add w o) := by
  rw [checkedAdd, w.checkedRefine_eq hslot (fits64_toInt o.time) (Int64.le_iff_toInt_le.mp ho)]
  exact checkedMergeAt_eq hv (Stat.bounded_ofCounters o.counters_nonneg)

end LinkValue

namespace Tally

variable (w : Window)

def checkedValue : Tally → Option LinkValue
  | empty => some ∅
  | add t o => do (← t.checkedValue).checkedAdd w o
  | merge t u => do (← t.checkedValue).checkedMerge (← u.checkedValue)

theorem checkedValue_eq (hslot : Fits64 w.slot) (t : Tally) (h : ∀ o ∈ t.observations, 0 ≤ o.time) :
    t.checkedValue w = some (t.value w) := by
  induction t with
  | empty => rfl
  | add t o ih =>
    obtain ⟨ht, ho⟩ := List.forall_mem_append.mp h
    rw [checkedValue, ih ht]
    exact LinkValue.checkedAdd_eq hslot (t.bounded_value w) (ho o (List.mem_singleton.mpr rfl))
  | merge t u iht ihu =>
    obtain ⟨ht, hu⟩ := List.forall_mem_append.mp h
    rw [checkedValue, iht ht, ihu hu]
    exact LinkValue.checkedMerge_eq (t.bounded_value w) (u.bounded_value w)

end Tally

end NetAtlas

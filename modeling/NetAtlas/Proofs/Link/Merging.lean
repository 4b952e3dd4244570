import Mathlib.Data.List.Induction
import NetAtlas.Link.Map

set_option autoImplicit false

/-!
# Merging traffic

Counters are not negative, so sums that stop at the largest 64-bit number do not depend on the order
and the grouping in which they are formed. The value of a link is that of the observations it was
formed from, taken as a bag.
-/
namespace NetAtlas

open Std

section Fold

variable {κ ν : Type} [Ord κ] [TransOrd κ] [LawfulEqOrd κ]

/-- Folding a list with one item for each key alters each of its keys once. -/
theorem getElem?_foldl_alter_list (step : ν → Option ν → Option ν) (items : List (κ × ν))
    (hd : items.Pairwise fun a b => ¬ compare a.1 b.1 = .eq) (m : ExtTreeMap κ ν) (k : κ) :
    (∀ v, (k, v) ∈ items → (items.foldl (fun m x => m.alter x.1 (step x.2)) m)[k]? = step v m[k]?) ∧
      ((∀ v, (k, v) ∉ items) → (items.foldl (fun m x => m.alter x.1 (step x.2)) m)[k]? = m[k]?) := by
  induction items generalizing m with
  | nil => exact ⟨fun v hv => absurd hv List.not_mem_nil, fun _ => rfl⟩
  | cons x items ih =>
    obtain ⟨hx, hrest⟩ := List.pairwise_cons.mp hd
    obtain ⟨hin, hout⟩ := ih hrest (m.alter x.1 (step x.2))
    rw [List.foldl_cons]
    constructor
    · intro v hv
      rcases List.mem_cons.mp hv with rfl | hv
      · have hfresh : ∀ u, (k, u) ∉ items := fun u hu => hx (k, u) hu ReflCmp.compare_self
        rw [hout hfresh, ExtTreeMap.getElem?_alter_self]
      · have hne : ¬ compare x.1 k = .eq := hx (k, v) hv
        rw [hin v hv, ExtTreeMap.getElem?_alter, if_neg hne]
    · intro hnone
      have hne : ¬ compare x.1 k = .eq := by
        intro he
        cases LawfulEqCmp.eq_of_compare he
        exact hnone x.2 List.mem_cons_self
      rw [hout fun v hv => hnone v (List.mem_cons_of_mem _ hv), ExtTreeMap.getElem?_alter, if_neg hne]

/-- The entries of a map may be folded in any order. -/
theorem getElem?_foldl_alter_of_perm (step : ν → Option ν → Option ν) (m : ExtTreeMap κ ν)
    {n : ExtTreeMap κ ν} {order : List (κ × ν)} (ho : order.Perm n.toList) (k : κ) :
    (order.foldl (fun m x => m.alter x.1 (step x.2)) m)[k]? =
      match n[k]? with
      | none => m[k]?
      | some v => step v m[k]? := by
  have hdistinct : order.Pairwise fun a b => ¬ compare a.1 b.1 = .eq :=
    ExtTreeMap.distinct_keys_toList.perm ho.symm fun hne he => hne (OrientedCmp.eq_symm he)
  have hmem : ∀ v, (k, v) ∈ order ↔ n[k]? = some v := fun v => by
    rw [ho.mem_iff, ExtTreeMap.mem_toList_iff_getElem?_eq_some]
  obtain ⟨hin, hout⟩ := getElem?_foldl_alter_list step order hdistinct m k
  cases hk : n[k]? with
  | none =>
    apply hout
    intro v hv
    rw [hmem, hk] at hv
    cases hv
  | some v => exact hin v ((hmem v).mpr hk)

theorem getElem?_foldl_alter (step : ν → Option ν → Option ν) (m n : ExtTreeMap κ ν) (k : κ) :
    (n.foldl (fun m k v => m.alter k (step v)) m)[k]? =
      match n[k]? with
      | none => m[k]?
      | some v => step v m[k]? := by
  rw [ExtTreeMap.foldl_eq_foldl_toList]
  exact getElem?_foldl_alter_of_perm step m (List.Perm.refl _) k

end Fold

namespace Stat

theorem ext_parts {s t : Stat} (h₁ : s.sent = t.sent) (h₂ : s.recv = t.recv)
    (h₃ : s.retransmits = t.retransmits) (h₄ : s.maxSent = t.maxSent) (h₅ : s.maxRecv = t.maxRecv)
    (h₆ : s.maxRetransmits = t.maxRetransmits) : s = t := by
  cases s; cases t; simp_all

/-- The numbers observations lead to: not negative, and the sums within 64 bits. -/
structure Bounded (s : Stat) : Prop where
  sent : 0 ≤ s.sent ∧ s.sent ≤ 0x7FFFFFFFFFFFFFFF
  recv : 0 ≤ s.recv ∧ s.recv ≤ 0x7FFFFFFFFFFFFFFF
  retransmits : 0 ≤ s.retransmits ∧ s.retransmits ≤ 0x7FFFFFFFFFFFFFFF
  maxSent : 0 ≤ s.maxSent
  maxRecv : 0 ≤ s.maxRecv
  maxRetransmits : 0 ≤ s.maxRetransmits

theorem clamp_bounds {n : Int} (h : 0 ≤ n) : 0 ≤ clamp n ∧ clamp n ≤ 0x7FFFFFFFFFFFFFFF := by
  unfold clamp
  omega

theorem clamp_eq {n : Int} (h : 0 ≤ n ∧ n ≤ 0x7FFFFFFFFFFFFFFF) : clamp n = n := by
  unfold clamp
  omega

/-- Once the sum has stopped, adding more that is not negative leaves it there. -/
theorem clamp_add_assoc {a b c : Int} (ha : 0 ≤ a) (hb : 0 ≤ b) (hc : 0 ≤ c) :
    clamp (clamp (a + b) + c) = clamp (a + clamp (b + c)) := by
  unfold clamp
  omega

theorem bounded_zero : zero.Bounded := by constructor <;> decide

theorem bounded_merge {s t : Stat} (hs : s.Bounded) (ht : t.Bounded) : (s.merge t).Bounded where
  sent := clamp_bounds (Int.add_nonneg hs.sent.1 ht.sent.1)
  recv := clamp_bounds (Int.add_nonneg hs.recv.1 ht.recv.1)
  retransmits := clamp_bounds (Int.add_nonneg hs.retransmits.1 ht.retransmits.1)
  maxSent := Int.le_trans hs.maxSent (Int.le_max_left _ _)
  maxRecv := Int.le_trans hs.maxRecv (Int.le_max_left _ _)
  maxRetransmits := Int.le_trans hs.maxRetransmits (Int.le_max_left _ _)

theorem int64_bounds {v : Int64} (h : 0 ≤ v) : 0 ≤ v.toInt ∧ v.toInt ≤ 0x7FFFFFFFFFFFFFFF :=
  ⟨Int64.le_iff_toInt_le.mp h, v.toInt_le⟩

theorem bounded_ofCounters {c : Counters} (h : c.Nonneg) : (ofCounters c).Bounded where
  sent := int64_bounds h.2.1
  recv := int64_bounds h.2.2.2.1
  retransmits := int64_bounds h.2.2.2.2.2
  maxSent := (int64_bounds h.1).1
  maxRecv := (int64_bounds h.2.2.1).1
  maxRetransmits := (int64_bounds h.2.2.2.2.1).1

theorem merge_comm (s t : Stat) : s.merge t = t.merge s := by
  simp only [merge, Int.add_comm s.sent, Int.add_comm s.recv, Int.add_comm s.retransmits,
    Int.max_comm s.maxSent, Int.max_comm s.maxRecv, Int.max_comm s.maxRetransmits]

theorem merge_assoc {s t u : Stat} (hs : s.Bounded) (ht : t.Bounded) (hu : u.Bounded) :
    (s.merge t).merge u = s.merge (t.merge u) := by
  apply ext_parts
  · exact clamp_add_assoc hs.sent.1 ht.sent.1 hu.sent.1
  · exact clamp_add_assoc hs.recv.1 ht.recv.1 hu.recv.1
  · exact clamp_add_assoc hs.retransmits.1 ht.retransmits.1 hu.retransmits.1
  · exact Int.max_assoc _ _ _
  · exact Int.max_assoc _ _ _
  · exact Int.max_assoc _ _ _

theorem zero_merge {s : Stat} (hs : s.Bounded) : zero.merge s = s := by
  apply ext_parts
  · exact (congrArg clamp (Int.zero_add _)).trans (clamp_eq hs.sent)
  · exact (congrArg clamp (Int.zero_add _)).trans (clamp_eq hs.recv)
  · exact (congrArg clamp (Int.zero_add _)).trans (clamp_eq hs.retransmits)
  · exact Int.max_eq_right hs.maxSent
  · exact Int.max_eq_right hs.maxRecv
  · exact Int.max_eq_right hs.maxRetransmits

end Stat

namespace LinkValue

def Bounded (v : LinkValue) : Prop := ∀ (slot : Int) (stat : Stat), v[slot]? = some stat → stat.Bounded

theorem getElem?_mergeAt (v : LinkValue) (slot k : Int) (stat : Stat) :
    (v.mergeAt slot stat)[k]? =
      if slot = k then some ((v[k]?.getD .zero).merge stat) else v[k]? := by
  rw [mergeAt, ExtTreeMap.getElem?_alter]
  by_cases h : slot = k
  · subst h
    rw [if_pos ReflCmp.compare_self, if_pos rfl]
  · rw [if_neg fun hc => h (LawfulEqCmp.eq_of_compare hc), if_neg h]

theorem getElem?_merge (v u : LinkValue) (k : Int) :
    (v.merge u)[k]? =
      match u[k]? with
      | none => v[k]?
      | some stat => some ((v[k]?.getD .zero).merge stat) := by
  have h := getElem?_foldl_alter (fun (stat : Stat) old => some ((old.getD .zero).merge stat)) v u k
  change (u.foldl mergeAt v)[k]? = _ at h
  rw [merge, h]
  cases u[k]? with
  | none => rfl
  | some stat => rfl

theorem bounded_empty : Bounded ∅ := by
  intro slot stat h
  rw [ExtTreeMap.getElem?_empty] at h
  cases h

theorem bounded_getD {v : LinkValue} (hv : v.Bounded) (k : Int) : (v[k]?.getD .zero).Bounded := by
  cases h : v[k]? with
  | none => exact Stat.bounded_zero
  | some stat => exact hv k stat h

theorem bounded_merge {v u : LinkValue} (hv : v.Bounded) (hu : u.Bounded) : (v.merge u).Bounded := by
  intro k stat h
  rw [getElem?_merge] at h
  cases hk : u[k]? with
  | none =>
    rw [hk] at h
    exact hv k stat h
  | some t =>
    rw [hk] at h
    cases h
    exact Stat.bounded_merge (bounded_getD hv k) (hu k t hk)

theorem merge_empty (v : LinkValue) : v.merge ∅ = v := by
  apply ExtTreeMap.ext_getElem?
  intro k
  rw [getElem?_merge, ExtTreeMap.getElem?_empty]

theorem merge_comm {v u : LinkValue} (hv : v.Bounded) (hu : u.Bounded) : v.merge u = u.merge v := by
  apply ExtTreeMap.ext_getElem?
  intro k
  rw [getElem?_merge, getElem?_merge]
  cases hk : v[k]? with
  | none =>
    cases hl : u[k]? with
    | none => rfl
    | some t => exact congrArg some (Stat.zero_merge (hu k t hl))
  | some s =>
    cases hl : u[k]? with
    | none => exact congrArg some (Stat.zero_merge (hv k s hk)).symm
    | some t => exact congrArg some (Stat.merge_comm s t)

theorem empty_merge {v : LinkValue} (hv : v.Bounded) : merge ∅ v = v := by
  rw [merge_comm bounded_empty hv, merge_empty]

theorem merge_assoc {v u t : LinkValue} (hv : v.Bounded) (hu : u.Bounded) (ht : t.Bounded) :
    (v.merge u).merge t = v.merge (u.merge t) := by
  apply ExtTreeMap.ext_getElem?
  intro k
  have hvk := bounded_getD hv k
  simp only [getElem?_merge]
  cases hl : t[k]? with
  | none => rfl
  | some c =>
    cases hm : u[k]? with
    | none =>
      simp only [Option.getD_none]
      rw [Stat.zero_merge (ht k c hl)]
    | some b => exact congrArg some (Stat.merge_assoc hvk (hu k b hm) (ht k c hl))

theorem ofObservations_concat (w : Window) (os : List Observation) (o : Observation) :
    ofObservations w (os ++ [o]) = (ofObservations w os).add w o := by
  simp only [ofObservations, List.foldl_append, List.foldl_cons, List.foldl_nil]

theorem getElem?_ofObservations_singleton (w : Window) (o : Observation) (k : Int) :
    (ofObservations w [o])[k]? =
      if w.refine o.time.toInt = k then some (.ofCounters o.counters) else none := by
  change ((∅ : LinkValue).mergeAt _ _)[k]? = _
  rw [getElem?_mergeAt, ExtTreeMap.getElem?_empty, Option.getD_none,
    Stat.zero_merge (Stat.bounded_ofCounters o.counters_nonneg)]

theorem bounded_singleton (w : Window) (o : Observation) : (ofObservations w [o]).Bounded := by
  intro k stat h
  rw [getElem?_ofObservations_singleton] at h
  split at h
  · cases h
    exact Stat.bounded_ofCounters o.counters_nonneg
  · cases h

/-- Adding an observation is merging the value of it alone. -/
theorem add_eq_merge (w : Window) (v : LinkValue) (o : Observation) :
    v.add w o = v.merge (ofObservations w [o]) := by
  apply ExtTreeMap.ext_getElem?
  intro k
  rw [add, getElem?_mergeAt, getElem?_merge, getElem?_ofObservations_singleton]
  by_cases h : w.refine o.time.toInt = k
  · rw [if_pos h, if_pos h]
  · rw [if_neg h, if_neg h]

theorem ofObservations_bounded (w : Window) (os : List Observation) :
    (ofObservations w os).Bounded := by
  induction os using List.reverseRecOn with
  | nil => exact bounded_empty
  | append_singleton os o ih =>
    rw [ofObservations_concat, add_eq_merge]
    exact bounded_merge ih (bounded_singleton w o)

theorem ofObservations_append (w : Window) (os ps : List Observation) :
    ofObservations w (os ++ ps) = (ofObservations w os).merge (ofObservations w ps) := by
  induction ps using List.reverseRecOn with
  | nil => rw [List.append_nil]; exact (merge_empty _).symm
  | append_singleton ps o ih =>
    rw [← List.append_assoc, ofObservations_concat, ofObservations_concat, ih, add_eq_merge,
      add_eq_merge]
    exact merge_assoc (ofObservations_bounded w os) (ofObservations_bounded w ps)
      (bounded_singleton w o)

theorem ofObservations_perm (w : Window) {os ps : List Observation} (h : os.Perm ps) :
    ofObservations w os = ofObservations w ps := by
  induction h with
  | nil => rfl
  | @cons o os ps _ ih =>
    rw [← List.singleton_append, ofObservations_append, ih, ← ofObservations_append,
      List.singleton_append]
  | swap o p os =>
    change ofObservations w ([p] ++ [o] ++ os) = ofObservations w ([o] ++ [p] ++ os)
    rw [ofObservations_append, ofObservations_append w [p] [o],
      merge_comm (bounded_singleton w p) (bounded_singleton w o), ← ofObservations_append,
      ← ofObservations_append]
  | trans _ _ ih ih' => exact ih.trans ih'

end LinkValue

end NetAtlas

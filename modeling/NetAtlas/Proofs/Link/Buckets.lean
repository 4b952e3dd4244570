import NetAtlas.Proofs.Bags
import NetAtlas.Proofs.Link.Posting

set_option autoImplicit false

/-!
# Buckets

The statistic of a link in a slot is that of the observations of the slot, summed up exactly and then cut
off at the ends of the 64-bit range. Exact sums come to the same however the observations are grouped.
-/
namespace NetAtlas

open Std

namespace Stat

/-- Sums that do not stop. -/
def plus (s t : Stat) : Stat where
  sent := s.sent + t.sent
  recv := s.recv + t.recv
  retransmits := s.retransmits + t.retransmits
  maxSent := max s.maxSent t.maxSent
  maxRecv := max s.maxRecv t.maxRecv
  maxRetransmits := max s.maxRetransmits t.maxRetransmits

def sum (stats : List Stat) : Stat := stats.foldr plus .zero

/-- What was added is cut off, the totals are not. -/
def clamped (s : Stat) : Stat :=
  { s with sent := clamp s.sent, recv := clamp s.recv, retransmits := clamp s.retransmits }

/-- No sum is cut off. -/
structure Fits (s : Stat) : Prop where
  sent : s.sent ≤ 0x7FFFFFFFFFFFFFFF
  recv : s.recv ≤ 0x7FFFFFFFFFFFFFFF
  retransmits : s.retransmits ≤ 0x7FFFFFFFFFFFFFFF

/-- The statistic of some observations without any cut. -/
def exact (os : List Observation) : Stat := sum (os.map fun o => ofCounters o.counters)

/-- Nothing is negative. -/
structure Nonneg (s : Stat) : Prop where
  sent : 0 ≤ s.sent
  recv : 0 ≤ s.recv
  retransmits : 0 ≤ s.retransmits
  maxSent : 0 ≤ s.maxSent
  maxRecv : 0 ≤ s.maxRecv
  maxRetransmits : 0 ≤ s.maxRetransmits

theorem Bounded.nonneg {s : Stat} (h : s.Bounded) : s.Nonneg :=
  ⟨h.sent.1, h.recv.1, h.retransmits.1, h.maxSent, h.maxRecv, h.maxRetransmits⟩

theorem nonneg_zero : zero.Nonneg := bounded_zero.nonneg

theorem nonneg_plus {s t : Stat} (hs : s.Nonneg) (ht : t.Nonneg) : (s.plus t).Nonneg where
  sent := Int.add_nonneg hs.sent ht.sent
  recv := Int.add_nonneg hs.recv ht.recv
  retransmits := Int.add_nonneg hs.retransmits ht.retransmits
  maxSent := Int.le_trans hs.maxSent (Int.le_max_left _ _)
  maxRecv := Int.le_trans hs.maxRecv (Int.le_max_left _ _)
  maxRetransmits := Int.le_trans hs.maxRetransmits (Int.le_max_left _ _)

theorem plus_comm (s t : Stat) : s.plus t = t.plus s := by
  simp only [plus, Int.add_comm s.sent, Int.add_comm s.recv, Int.add_comm s.retransmits,
    Int.max_comm s.maxSent, Int.max_comm s.maxRecv, Int.max_comm s.maxRetransmits]

theorem plus_assoc (s t u : Stat) : (s.plus t).plus u = s.plus (t.plus u) := by
  simp only [plus, Int.add_assoc, Int.max_assoc]

theorem zero_plus {s : Stat} (h : s.Nonneg) : zero.plus s = s := by
  apply ext_parts
  · exact Int.zero_add _
  · exact Int.zero_add _
  · exact Int.zero_add _
  · exact Int.max_eq_right h.maxSent
  · exact Int.max_eq_right h.maxRecv
  · exact Int.max_eq_right h.maxRetransmits

theorem clamped_eq {s : Stat} (h : s.Nonneg) (hfits : s.Fits) : s.clamped = s := by
  simp only [clamped, clamp_eq ⟨h.sent, hfits.sent⟩, clamp_eq ⟨h.recv, hfits.recv⟩,
    clamp_eq ⟨h.retransmits, hfits.retransmits⟩]

/-- A sum that has not reached the end was not cut off. -/
theorem fits_of_clamped_lt {s : Stat} (hsent : s.clamped.sent < 0x7FFFFFFFFFFFFFFF)
    (hrecv : s.clamped.recv < 0x7FFFFFFFFFFFFFFF)
    (hretransmits : s.clamped.retransmits < 0x7FFFFFFFFFFFFFFF) : s.Fits := by
  simp only [clamped, clamp] at hsent hrecv hretransmits
  constructor <;> omega

theorem clamp_clamp_add {a b : Int} (ha : 0 ≤ a) (hb : 0 ≤ b) : clamp (clamp a + b) = clamp (a + b) := by
  unfold clamp
  omega

/-- Adding to a sum that has stopped is stopping the exact sum. -/
theorem clamped_merge {s t : Stat} (hs : s.Nonneg) (ht : t.Nonneg) :
    s.clamped.merge t = (s.plus t).clamped := by
  simp only [merge, clamped, plus, clamp_clamp_add hs.sent ht.sent, clamp_clamp_add hs.recv ht.recv,
    clamp_clamp_add hs.retransmits ht.retransmits]

section Sums

variable {α : Type}

theorem nonneg_sum {stats : List Stat} (h : ∀ s ∈ stats, s.Nonneg) : (sum stats).Nonneg := by
  induction stats with
  | nil => exact nonneg_zero
  | cons s stats ih =>
    exact nonneg_plus (h s List.mem_cons_self) (ih fun t ht => h t (List.mem_cons_of_mem _ ht))

theorem sum_append {xs ys : List Stat} (h : ∀ s ∈ ys, s.Nonneg) :
    sum (xs ++ ys) = (sum xs).plus (sum ys) := by
  induction xs with
  | nil => exact (zero_plus (nonneg_sum h)).symm
  | cons s xs ih =>
    change s.plus (sum (xs ++ ys)) = (s.plus (sum xs)).plus (sum ys)
    rw [ih, plus_assoc]

theorem sum_perm {xs ys : List Stat} (h : xs.Perm ys) : sum xs = sum ys := by
  induction h with
  | nil => rfl
  | cons s _ ih => exact congrArg s.plus ih
  | swap s t xs =>
    change t.plus (s.plus (sum xs)) = s.plus (t.plus (sum xs))
    rw [← plus_assoc, plus_comm t s, plus_assoc]
  | trans _ _ ih ih' => exact ih.trans ih'

theorem nonneg_ofCounters (o : Observation) : (ofCounters o.counters).Nonneg :=
  (bounded_ofCounters o.counters_nonneg).nonneg

theorem nonneg_of_mem_map {os : List Observation} {s : Stat}
    (h : s ∈ os.map fun o => ofCounters o.counters) : s.Nonneg := by
  obtain ⟨o, _, rfl⟩ := List.mem_map.mp h
  exact nonneg_ofCounters o

theorem nonneg_exact (os : List Observation) : (exact os).Nonneg := nonneg_sum fun _ => nonneg_of_mem_map

theorem exact_append (os ps : List Observation) : exact (os ++ ps) = (exact os).plus (exact ps) := by
  rw [exact, List.map_append, sum_append fun _ => nonneg_of_mem_map]
  rfl

theorem exact_perm {os ps : List Observation} (h : os.Perm ps) : exact os = exact ps :=
  sum_perm (h.map _)

theorem exact_concat (os : List Observation) (o : Observation) :
    exact (os ++ [o]) = (exact os).plus (ofCounters o.counters) := by
  rw [exact_append]
  congr 1
  exact (plus_comm _ _).trans (zero_plus (nonneg_ofCounters o))

theorem exact_flatMap (f : α → List Observation) (xs : List α) :
    exact (xs.flatMap f) = sum (xs.map fun x => exact (f x)) := by
  induction xs with
  | nil => rfl
  | cons x xs ih =>
    rw [List.flatMap_cons, exact_append, ih]
    rfl

end Sums

/-- No bucket and that of no observations are the same. -/
theorem getD_clamped_exact (os : List Observation) :
    (if os = [] then none else some (exact os).clamped).getD zero = (exact os).clamped := by
  split
  · next hnil => rw [hnil]; rfl
  · rfl

end Stat

namespace LinkValue

variable (w : Window)

/-- The observations of a slot. -/
def inSlot (slot : Int) (os : List Observation) : List Observation :=
  os.filter fun o => w.refine o.time.toInt = slot

theorem inSlot_append (slot : Int) (os ps : List Observation) :
    inSlot w slot (os ++ ps) = inSlot w slot os ++ inSlot w slot ps := List.filter_append ..

/-- A slot has a bucket if anything was observed in it, and the bucket is what was. -/
theorem getElem?_ofObservations (os : List Observation) (slot : Int) :
    (ofObservations w os)[slot]? =
      if inSlot w slot os = [] then none else some (Stat.exact (inSlot w slot os)).clamped := by
  induction os using List.reverseRecOn with
  | nil => exact ExtTreeMap.getElem?_empty
  | append_singleton os o ih =>
    have hold : (ofObservations w os)[slot]?.getD .zero = (Stat.exact (inSlot w slot os)).clamped := by
      rw [ih, Stat.getD_clamped_exact]
    rw [ofObservations_concat, add, getElem?_mergeAt, hold, inSlot_append]
    by_cases ho : w.refine o.time.toInt = slot
    · have hone : inSlot w slot [o] = [o] := by simp [inSlot, ho]
      rw [if_pos ho, hone, if_neg (by simp), Stat.exact_concat,
        Stat.clamped_merge (Stat.nonneg_exact _) (Stat.nonneg_ofCounters o)]
    · have hnone : inSlot w slot [o] = [] := by simp [inSlot, ho]
      rw [if_neg ho, hnone, List.append_nil, ih]

theorem mem_ofObservations {os : List Observation} {slot : Int} :
    slot ∈ ofObservations w os ↔ ∃ o ∈ os, w.refine o.time.toInt = slot := by
  rw [ExtTreeMap.mem_iff_isSome_getElem?, getElem?_ofObservations]
  split <;> simp_all [inSlot]

theorem mem_merge {v u : LinkValue} {slot : Int} : slot ∈ v.merge u ↔ slot ∈ v ∨ slot ∈ u := by
  simp only [ExtTreeMap.mem_iff_isSome_getElem?, getElem?_merge]
  cases u[slot]? <;> simp

/-- What a link has in a slot. -/
def bucket (v : LinkValue) (slot : Int) : Stat := v[slot]?.getD .zero

end LinkValue

/-- Entries of some links are booked under one of these each. -/
theorem Posting.flatMap_booked_perm {ks : List LinkKey} (hd : ks.Nodup)
    {es : List (LinkKey × Observation)} (h : ∀ e ∈ es, e.1 ∈ ks) :
    (ks.flatMap fun k => booked k es).Perm (es.map Prod.snd) := by
  have hpicked := flatMap_filter_perm (fun k (e : LinkKey × Observation) => decide (e.1 = k)) ks es
    (hd.imp fun hne e _ ⟨ha, hb⟩ => hne ((of_decide_eq_true ha).symm.trans (of_decide_eq_true hb)))
  have hall : (es.filter fun e => ks.any fun k => decide (e.1 = k)) = es := by
    apply List.filter_eq_self.mpr
    intro e he
    simpa using h e he
  rw [hall] at hpicked
  simp only [booked, ← List.map_flatMap]
  exact hpicked.map _

namespace LinkMap

/-- The links of a map have the traffic of some entries and no other: what a link has in a slot is what is
booked under it and has a time of the slot. -/
structure Carries (w : Window) (m : LinkMap) (entries : List (LinkKey × Observation)) : Prop where
  keys : ∀ e ∈ entries, e.1 ∈ m
  buckets : ∀ l ∈ m.links, ∀ slot : Int,
    l.value[slot]? =
      if LinkValue.inSlot w slot (Posting.booked l.key entries) = [] then none
      else some (Stat.exact (LinkValue.inSlot w slot (Posting.booked l.key entries))).clamped

variable {w : Window} {m : LinkMap}

theorem map_key_links (m : LinkMap) : m.links.map (·.key) = m.keys := by
  rw [links, List.map_map]
  exact ExtTreeMap.map_fst_toList_eq_keys

theorem carries_ofPostings (w : Window) (ps : List Posting) :
    (ofPostings w ps).Carries w (Posting.owns ps ++ Posting.peers ps) where
  keys e he := by
    rw [mem_ofPostings]
    exact (List.mem_append.mp he).elim Posting.key_mem_of_mem_owns Posting.key_mem_of_mem_peers
  buckets l hl slot := by
    obtain ⟨⟨k, value⟩, hmem, rfl⟩ := List.mem_map.mp hl
    have hvalue := ExtTreeMap.mem_toList_iff_getElem?_eq_some.mp hmem
    rw [getElem?_ofPostings] at hvalue
    split at hvalue <;> cases hvalue
    rw [LinkValue.getElem?_ofObservations, Posting.booked_append]

theorem Carries.bucket_eq {entries : List (LinkKey × Observation)} (h : m.Carries w entries) {l : Link}
    (hl : l ∈ m.links) (slot : Int) : l.value.bucket slot =
      (Stat.exact (LinkValue.inSlot w slot (Posting.booked l.key entries))).clamped := by
  rw [LinkValue.bucket, h.buckets l hl, Stat.getD_clamped_exact]

/-- Where no sum is cut off, the links together have in a slot what all entries have. -/
theorem Carries.sum_eq {entries : List (LinkKey × Observation)} (h : m.Carries w entries) {slot : Int}
    (hfits : ∀ l ∈ m.links,
      (Stat.exact (LinkValue.inSlot w slot (Posting.booked l.key entries))).Fits) :
    Stat.sum (m.links.map fun l => l.value.bucket slot) =
      Stat.exact (LinkValue.inSlot w slot (entries.map Prod.snd)) := by
  have hbucket : ∀ l ∈ m.links, l.value.bucket slot =
      Stat.exact (LinkValue.inSlot w slot (Posting.booked l.key entries)) := by
    intro l hl
    rw [h.bucket_eq hl, Stat.clamped_eq (Stat.nonneg_exact _) (hfits l hl)]
  have hentries := Posting.flatMap_booked_perm ExtTreeMap.nodup_keys
    fun e he => ExtTreeMap.mem_keys.mpr (h.keys e he)
  calc
    Stat.sum (m.links.map fun l => l.value.bucket slot) =
        Stat.sum ((m.links.map (·.key)).map fun k =>
          Stat.exact (LinkValue.inSlot w slot (Posting.booked k entries))) := by
      rw [List.map_map]
      exact congrArg Stat.sum (List.map_congr_left hbucket)
    _ = Stat.exact (LinkValue.inSlot w slot (m.keys.flatMap fun k => Posting.booked k entries)) := by
      rw [map_key_links, ← Stat.exact_flatMap, LinkValue.inSlot, List.filter_flatMap]
      rfl
    _ = Stat.exact (LinkValue.inSlot w slot (entries.map Prod.snd)) :=
      Stat.exact_perm (hentries.filter _)

end LinkMap

end NetAtlas

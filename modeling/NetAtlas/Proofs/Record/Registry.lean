import NetAtlas.Proofs.Bytes.Taken
import NetAtlas.Proofs.Bytes.Written
import NetAtlas.Record.Registry

set_option autoImplicit false

/-!
# As many items as there are

Items that are written one after another are read one after another until nothing is left, and what was
read are the items of those bytes. So a pid set, which is written number by number, is read back as the set.
-/
namespace NetAtlas

open Std

namespace Reader

variable {α : Type} {item : Reader α} {written : α → Bytes}

theorem go_succ (item : Reader α) (fuel : Nat) (c : Cursor) : many.go item (fuel + 1) c =
    if c.rest = [] then (.ok [], c)
    else (item >>= fun a => many.go item fuel >>= fun as => pure (a :: as)) c := by
  change (if c.rest = [] then (pure [] : Reader (List α))
    else item >>= fun a => many.go item fuel >>= fun as => pure (a :: as)) c = _
  split <;> rfl

theorem go_succ_eq_ok {fuel : Nat} {c : Cursor} {as : List α} (h : (many.go item (fuel + 1) c).1 = .ok as) :
    c.rest = [] ∧ as = [] ∨ ∃ a c' later, item c = (.ok a, c') ∧
      (many.go item fuel c').1 = .ok later ∧ as = a :: later := by
  rw [go_succ] at h
  split at h
  · next hrest =>
    cases h
    exact Or.inl ⟨hrest, rfl⟩
  · obtain ⟨last, hrun⟩ := exceptT_exists_run h
    obtain ⟨a, c', ha, hrun⟩ := bind_eq_ok hrun
    obtain ⟨later, c'', hlater, hrun⟩ := bind_eq_ok hrun
    cases hrun
    exact Or.inr ⟨a, c', later, ha, congrArg Prod.fst hlater, rfl⟩

theorem forall_of_go {P : α → Prop} (hitem : ∀ c a c', item c = (.ok a, c') → P a) {fuel : Nat}
    {c : Cursor} {as : List α} (h : (many.go item fuel c).1 = .ok as) : ∀ a ∈ as, P a := by
  induction fuel generalizing c as with
  | zero =>
    cases h
    exact fun a ha => absurd ha List.not_mem_nil
  | succ fuel ih =>
    rcases go_succ_eq_ok h with ⟨_, rfl⟩ | ⟨a, c', later, ha, hlater, rfl⟩
    · exact fun a ha => absurd ha List.not_mem_nil
    · exact List.forall_mem_cons.mpr ⟨hitem c a c' ha, ih hlater⟩

/-- Each item takes a byte at least, so none is left out for want of fuel. -/
theorem flatMap_of_go (hitem : Takes item written) (hne : ∀ a, written a ≠ []) {fuel : Nat} {c : Cursor}
    {as : List α} (hfuel : c.rest.length ≤ fuel) (h : (many.go item fuel c).1 = .ok as) :
    c.rest = as.flatMap written := by
  induction fuel generalizing c as with
  | zero =>
    cases h
    exact List.length_eq_zero_iff.mp (Nat.le_zero.mp hfuel)
  | succ fuel ih =>
    rcases go_succ_eq_ok h with ⟨hrest, rfl⟩ | ⟨a, c', later, ha, hlater, rfl⟩
    · exact hrest
    · have hrest := hitem c a c' ha
      have hpos := List.length_pos_iff.mpr (hne a)
      rw [hrest, List.length_append] at hfuel
      rw [hrest, ih (by omega) hlater, List.flatMap_cons]

/-- Items fail where one of them does. -/
theorem go_eq_error {fuel : Nat} {c : Cursor} {cause : Corruption}
    (h : (many.go item fuel c).1 = .error cause) : ∃ c', (item c').1 = .error cause := by
  induction fuel generalizing c with
  | zero => cases h
  | succ fuel ih =>
    rw [go_succ] at h
    split at h
    · cases h
    · rcases bind_eq_error h with h | ⟨_, _, _, h⟩
      · exact ⟨c, h⟩
      · rcases bind_eq_error h with h | ⟨_, _, _, h⟩
        · exact ih h
        · cases h

/-- Items that are written with a byte at least are read one after another until nothing is left. -/
theorem go_flatMap {as : List α} (hitem : ∀ a ∈ as, Reads item (written a) a)
    (hne : ∀ a, written a ≠ []) {fuel : Nat} (hfuel : as.length ≤ fuel) (offset : Nat) :
    (many.go item fuel ⟨offset, as.flatMap written⟩).1 = .ok as := by
  induction as generalizing fuel offset with
  | nil =>
    cases fuel with
    | zero => rfl
    | succ fuel => rfl
  | cons a as ih =>
    cases fuel with
    | zero => exact absurd hfuel (Nat.not_succ_le_zero _)
    | succ fuel =>
      have hrest : written a ++ as.flatMap written ≠ [] := List.append_ne_nil_of_left_ne_nil (hne a) _
      have htail := ih (fun b hb => hitem b (List.mem_cons_of_mem _ hb))
        (Nat.le_of_succ_le_succ hfuel) (offset + (written a).length)
      rw [List.flatMap_cons, go_succ, if_neg hrest, (hitem a List.mem_cons_self).run_bind]
      exact fst_bind_pure htail _

theorem length_le_flatMap (hne : ∀ a, written a ≠ []) (as : List α) :
    as.length ≤ (as.flatMap written).length := by
  induction as with
  | nil => exact Nat.zero_le _
  | cons a as ih =>
    have hpos := List.length_pos_iff.mpr (hne a)
    rw [List.flatMap_cons, List.length_append, List.length_cons]
    omega

theorem read_many {as : List α} (hitem : ∀ a ∈ as, Reads item (written a) a)
    (hne : ∀ a, written a ≠ []) : (many item).read (as.flatMap written) = .ok as :=
  go_flatMap hitem hne (length_le_flatMap hne as) 0

theorem flatMap_of_read_many (hitem : Takes item written) (hne : ∀ a, written a ≠ []) {bs : Bytes}
    {as : List α} (h : (many item).read bs = .ok as) : bs = as.flatMap written :=
  flatMap_of_go hitem hne (Nat.le_refl bs.length) h

end Reader

theorem Varint.encode32_ne_nil (v : Int32) : encode32 v ≠ [] := groups_ne_nil _

theorem ofList_toList_pids (pids : PidGroup) : ExtTreeSet.ofList pids.toList = pids := by
  apply ExtTreeSet.ext_mem
  intro pid
  rw [ExtTreeSet.mem_ofList, List.contains_iff_mem, ExtTreeSet.mem_toList]

/-- What is stored of a pid set is read back as the set. -/
theorem PidSet.read_encode (pids : PidGroup) : Reader.pids.read (encode pids) = .ok pids := by
  have hmany : (Reader.many Reader.varint32).read (encode pids) = .ok pids.toList :=
    Reader.read_many (fun pid _ => Reader.reads_varint32 pid) Varint.encode32_ne_nil
  have hread := Reader.fst_bind_pure hmany fun pids => (ExtTreeSet.ofList pids : PidGroup)
  rw [ofList_toList_pids] at hread
  exact hread

end NetAtlas

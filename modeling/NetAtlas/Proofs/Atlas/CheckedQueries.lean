import NetAtlas.Proofs.Atlas.OnGrid
import NetAtlas.Proofs.Atlas.Outages
import NetAtlas.Proofs.Link.CheckedSums
import NetAtlas.Proofs.Storage.Scans

set_option autoImplicit false

/-!
# Queries in 64 bits

A question computes the length of its slots, reverses the times of its range for the keys of its scans and
those in the rows that they meet, floors the times of what is read of the rows to slots and sums their
traffic. Whatever is stored, whatever is asked and however far the walk goes, all of this comes out in 64
bits as it does here.
-/
namespace NetAtlas

open Std StoreM

section Calls

variable {P : Call → Prop} {α β : Type}

namespace LookupM

/-- Whatever is remembered, nothing but calls of one kind are made. -/
def Calls (P : Call → Prop) (m : LookupM α) : Prop := ∀ known, StoreM.Calls P (m known)

theorem calls_pure (a : α) : Calls P (pure a : LookupM α) := fun known => StoreM.calls_pure (a, known)

theorem calls_bind {m : LookupM α} {k : α → LookupM β} (hm : Calls P m) (hk : ∀ a, Calls P (k a)) :
    Calls P (m >>= k) := fun known =>
  StoreM.calls_bind (hm known) fun found => hk found.1 found.2

theorem calls_lift {m : StoreM α} (hm : StoreM.Calls P m) : Calls P (liftM m : LookupM α) := fun known =>
  StoreM.calls_map hm fun a => (a, known)

theorem calls_mapM {k : α → LookupM β} (xs : List α) (hk : ∀ a, Calls P (k a)) :
    Calls P (xs.mapM k) := by
  induction xs with
  | nil =>
    rw [List.mapM_nil]
    exact calls_pure []
  | cons x xs ih =>
    rw [List.mapM_cons]
    exact calls_bind (hk x) fun b => calls_bind ih fun bs => calls_pure (b :: bs)

theorem calls_run' {m : LookupM α} (hm : Calls P m) (known : Lookups) :
    StoreM.Calls P (m.run' known) := by
  rw [run'_eq]
  exact StoreM.calls_map (hm known) Prod.fst

theorem calls_addresses (agent : String) (range : TimeRange) :
    Calls (Call.Covers range) (addresses agent range) := by
  intro known
  cases h : known[agent]? with
  | some ips =>
    rw [addresses_known h]
    exact StoreM.calls_pure (ips, known)
  | none =>
    rw [addresses_unknown h]
    exact StoreM.calls_map (AddressRegistry.calls_addresses agent) _

end LookupM

end Calls

section Walk

variable (w : Window)

theorem LocalLinks.calls_select (agent : String) :
    Calls (Call.Covers w.range) (LocalLinks.select w agent) :=
  calls_bind (PidRegistry.calls_pids agent) fun _ =>
    calls_map (calls_mapM _ fun pid => SelfView.calls_query agent pid) _

theorem Binding.calls_bind (v : View) (n : Node) (skip : PidGroup) (ip : Ip) :
    Calls (Call.Covers w.range) (Binding.bind w v n skip ip) :=
  StoreM.calls_bind (v.calls_query ip) fun _ =>
    calls_map (calls_mapM _ fun peer => v.opposite.calls_query peer) _

namespace Side

theorem calls_nodeLinks (v : View) (n : Node) (skip : PidGroup) :
    LookupM.Calls (Call.Covers w.range) (nodeLinks w v n skip) :=
  LookupM.calls_bind (LookupM.calls_addresses n.agent w.range) fun _ =>
    LookupM.calls_lift (calls_map (calls_mapM _ fun ip => Binding.calls_bind w v n skip ip) _)

theorem calls_step (round : Nat) (s : Side) :
    LookupM.Calls (Call.Covers w.range) (s.step w round) := by
  rw [step]
  split
  · rw [explore]
    exact LookupM.calls_bind (LookupM.calls_mapM _ fun e => calls_nodeLinks w s.view e.1 e.2) fun _ =>
      LookupM.calls_pure _
  · exact LookupM.calls_pure _

end Side

namespace Traversal

theorem calls_walk (fuel : Nat) (t : Traversal) :
    LookupM.Calls (Call.Covers w.range) (walk w fuel t) := by
  induction fuel generalizing t with
  | zero => exact LookupM.calls_pure t
  | succ fuel ih =>
    rw [walk]
    split
    · exact LookupM.calls_pure t
    · have hround : LookupM.Calls (Call.Covers w.range) (t.round w) :=
        LookupM.calls_bind (Side.calls_step w t.rounds t.caller) fun _ =>
          LookupM.calls_bind (Side.calls_step w t.rounds t.callee) fun _ => LookupM.calls_pure _
      exact LookupM.calls_bind hround ih

theorem calls_run (callerDepth calleeDepth : Nat) (withLocalLinks : Bool) (agent : String) :
    Calls (Call.Covers w.range) (run w callerDepth calleeDepth withLocalLinks agent) := by
  rw [run_eq]
  refine StoreM.calls_bind ?_ fun internal => LookupM.calls_run' (calls_walk w _ _) ∅
  cases withLocalLinks with
  | false => exact calls_pure _
  | true => exact LocalLinks.calls_select w agent

end Traversal

end Walk

namespace Question

variable {α : Type}

def range : Question α → TimeRange
  | atlas _ _ _ range _ _ => range
  | localLinks _ _ range => range
  | pids _ range => range
  | localAddresses _ range => range

/-- What picks the length of the slots, for an answer that has any. -/
def sampler? : Question α → Option Sampler
  | atlas _ sampler .. => some sampler
  | localLinks sampler _ _ => some sampler
  | _ => none

/-- The traffic in an answer. -/
def values : Question α → α → List LinkValue
  | atlas .., answer => answer.links.map (·.value)
  | localLinks .., answer => answer.map (·.value)
  | pids .., _ => []
  | localAddresses .., _ => []

theorem calls_ask (q : Question α) : Calls (Call.Covers q.range) q.ask := by
  cases q with
  | atlas settings sampler agent range callerDepth calleeDepth =>
    rw [ask, Query.atlas]
    split
    · exact calls_throw _
    · cases hw : sampler.window range with
      | error e => exact calls_throw _
      | ok w =>
        obtain ⟨rfl, _⟩ := Sampler.window_eq_ok hw
        exact calls_map (Traversal.calls_run w callerDepth calleeDepth _ agent) _
  | localLinks sampler agent range =>
    rw [ask, Query.localLinks]
    cases hw : sampler.window range with
    | error e => exact calls_throw _
    | ok w =>
      obtain ⟨rfl, _⟩ := Sampler.window_eq_ok hw
      exact calls_map (LocalLinks.calls_select w agent) _
  | pids agent range => exact calls_map (PidRegistry.calls_pids agent) _
  | localAddresses agent range => exact calls_map (AddressRegistry.calls_addresses agent) _

/-- All that a question computes in 64 bits comes out as it does here: the slot length of its sampler, the
reversed times of its range, which are in the keys of all its scans, and of the rows that such scans meet,
the slots of what is read of these, which has times of the range, and its sums, in whatever order they
are formed. The traffic in its answer is formed so. -/
structure Exact (q : Question α) (s : Storage) (made : List Call) : Prop where
  slot : ∀ sampler, q.sampler? = some sampler →
    sampler.checkedSlot q.range = some (sampler.slot q.range)
  scans : ∀ call ∈ made, call.Covers q.range
  bounds : ∀ time ∈ [q.range.first, q.range.last],
    Key.checkedReverse time = some (Key.reverseTime time).toInt
  rows : ∀ x : Subject, x.Admitted → ∀ row ∈ x.rows q.range s.contents, ∀ stored last,
    x.readStored (Cursor.ofBytes row.key) = (.ok stored, last) →
      Key.checkedReverse stored = some (Key.reverseTime stored).toInt
  observed : ∀ x : Subject, x.Admitted → ∀ row ∈ x.rows q.range s.contents, ∀ cell ∈ row.cells, ∀ o,
    x.Reads ⟨row.key, cell.qualifier, cell.value⟩ o → q.range.covers o.time
  sums : ∀ sampler w, q.sampler? = some sampler → sampler.window q.range = .ok w → ∀ t : Tally,
    (∀ o ∈ t.observations, q.range.covers o.time) → t.checkedValue w = some (t.value w)
  values : ∀ answer, (q.ask s).1 = .ok answer → ∀ v ∈ q.values answer, ∃ sampler w,
    q.sampler? = some sampler ∧ sampler.window q.range = .ok w ∧ v.Tallied w

theorem nonneg_of_covers {range : TimeRange} {time : Int64} (h : range.covers time) : 0 ≤ time := by
  have hpos := range.first_nonneg
  simp only [TimeRange.covers, decide_eq_true_eq, Int64.lt_iff_toInt_lt] at h
  rw [Int64.le_iff_toInt_le] at hpos ⊢
  omega

theorem tallied_values {q : Question α} {s : Storage} {answer : α} (h : (q.ask s).1 = .ok answer)
    {v : LinkValue} (hv : v ∈ q.values answer) :
    ∃ sampler w, q.sampler? = some sampler ∧ sampler.window q.range = .ok w ∧ v.Tallied w := by
  cases q with
  | atlas settings sampler agent range callerDepth calleeDepth =>
    obtain ⟨l, hl, rfl⟩ := List.mem_map.mp hv
    cases hw : sampler.window range with
    | error e =>
      rw [ask, Query.atlas] at h
      split at h
      · cases h
      · rw [hw] at h
        cases h
    | ok w =>
      obtain ⟨t, ht, rfl⟩ := Query.atlas_eq_ok hw h
      exact ⟨sampler, w, rfl, hw, LinkMap.tallied_of_mem_links (Traversal.tallied_links ht)
        (Atlas.mem_of_mem_keepFirst hl)⟩
  | localLinks sampler agent range =>
    obtain ⟨l, hl, rfl⟩ := List.mem_map.mp hv
    cases hw : sampler.window range with
    | error e =>
      rw [ask, Query.localLinks, hw] at h
      cases h
    | ok w =>
      obtain ⟨m, hm, rfl⟩ := Query.localLinks_eq_ok hw h
      exact ⟨sampler, w, rfl, hw, LinkMap.tallied_of_mem_links (LocalLinks.tallied_select hm) hl⟩
  | pids agent range => cases hv
  | localAddresses agent range => cases hv

/-- Whatever is stored, whatever is asked in whatever range and with whatever settings and depths, no
number that is computed leaves the 64-bit range except for sums and products that are cut off at its ends,
and nothing is divided by a number that is not positive. -/
theorem ask_exact (q : Question α) (s : Storage) :
    ∃ made, (q.ask s).2 = s.noting made ∧ q.Exact s made := by
  obtain ⟨made, hmade, hscans⟩ := q.calls_ask s
  refine ⟨made, hmade, fun sampler _ => sampler.checkedSlot_eq q.range, hscans, ?_,
    fun x hx row hrow stored last => x.checkedReverse_of_mem_rows hx hrow,
    fun x hx row hrow cell _ o => x.covers_of_mem_rows hx hrow, ?_, fun answer => tallied_values⟩
  · have hlast : 0 ≤ q.range.last := Int64.le_trans q.range.first_nonneg q.range.first_le_last
    simp only [List.forall_mem_cons]
    exact ⟨Key.checkedReverse_eq q.range.first_nonneg, Key.checkedReverse_eq hlast, by simp⟩
  · intro sampler w _ hw t ht
    exact t.checkedValue_eq w (Sampler.fits64_slot hw) fun o ho => nonneg_of_covers (ht o ho)

end Question

end NetAtlas

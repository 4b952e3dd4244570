import NetAtlas.Atlas.Lookups
import NetAtlas.Proofs.Storage.Registries

set_option autoImplicit false

/-!
# What lookups remember

Remembered addresses are those the contents give. So a computation that looks addresses up only reads,
and what it answers does not depend on what it remembers.
-/
namespace NetAtlas

open Std StoreM

/-- Every remembered answer is the one that asking again would give. -/
def Lookups.Agrees (c : Contents) (range : TimeRange) (known : Lookups) : Prop :=
  ∀ agent ips, known[agent]? = some ips → (AddressRegistry.addresses agent range).answer c = .ok ips

theorem Lookups.agrees_empty (c : Contents) (range : TimeRange) : Agrees c range ∅ := by
  intro agent ips h
  rw [ExtTreeMap.getElem?_empty] at h
  cases h

theorem Lookups.Agrees.insert {c : Contents} {range : TimeRange} {known : Lookups}
    (hknown : known.Agrees c range) {agent : String} {ips : ExtTreeSet Ip}
    (h : (AddressRegistry.addresses agent range).answer c = .ok ips) :
    Agrees c range (known.insert agent ips) := by
  intro b found hb
  rw [ExtTreeMap.getElem?_insert] at hb
  split at hb
  · next heq =>
    cases hb
    rw [← LawfulEqCmp.eq_of_compare heq]
    exact h
  · exact hknown b found hb

namespace LookupM

variable {α β : Type}

/-- Whatever is remembered, the computation only reads. -/
def Reading (m : LookupM α) : Prop := ∀ known, StoreM.Reading (m known)

theorem reading_pure (a : α) : Reading (pure a : LookupM α) := fun known =>
  StoreM.reading_pure (a, known)

theorem reading_bind {m : LookupM α} {k : α → LookupM β} (hm : Reading m) (hk : ∀ a, Reading (k a)) :
    Reading (m >>= k) := fun known =>
  StoreM.reading_bind (hm known) fun found => hk found.1 found.2

theorem reading_lift {m : StoreM α} (hm : StoreM.Reading m) : Reading (liftM m : LookupM α) :=
  fun known => StoreM.reading_map hm fun a => (a, known)

theorem reading_mapM {k : α → LookupM β} (xs : List α) (hk : ∀ a, Reading (k a)) :
    Reading (xs.mapM k) := by
  induction xs with
  | nil =>
    rw [List.mapM_nil]
    exact reading_pure []
  | cons x xs ih =>
    rw [List.mapM_cons]
    exact reading_bind (hk x) fun b => reading_bind ih fun bs => reading_pure (b :: bs)

theorem run'_eq (m : LookupM α) (known : Lookups) :
    m.run' known = m known >>= fun found => pure found.1 := map_eq_pure_bind _ _

theorem run'_run (m : LookupM α) (known : Lookups) (s : Storage) :
    m.run' known s = ((m known s).1.map Prod.fst, (m known s).2) := by
  rw [run'_eq, exceptT_bind_run]
  rcases m known s with ⟨e | found, s'⟩ <;> rfl

theorem reading_run' {m : LookupM α} (hm : Reading m) (known : Lookups) :
    StoreM.Reading (m.run' known) := by
  rw [run'_eq]
  exact StoreM.reading_map (hm known) Prod.fst

theorem get_bind (f : Lookups → LookupM α) (known : Lookups) :
    ((get : LookupM Lookups) >>= f) known = f known known := rfl

theorem addresses_known {agent : String} {range : TimeRange} {known : Lookups} {ips : ExtTreeSet Ip}
    (h : known[agent]? = some ips) : addresses agent range known = pure (ips, known) := by
  rw [addresses, get_bind, h]
  rfl

theorem addresses_unknown {agent : String} {range : TimeRange} {known : Lookups}
    (h : known[agent]? = none) :
    addresses agent range known = AddressRegistry.addresses agent range >>= fun ips =>
      pure (ips, known.insert agent ips) := by
  rw [addresses, get_bind, h]
  exact bind_assoc (AddressRegistry.addresses agent range) (fun ips => pure (ips, known)) _

theorem reading_addresses (agent : String) (range : TimeRange) : Reading (addresses agent range) := by
  intro known
  cases h : known[agent]? with
  | some ips =>
    rw [addresses_known h]
    exact StoreM.reading_pure (ips, known)
  | none =>
    rw [addresses_unknown h]
    exact StoreM.reading_map (NetAtlas.reading_addresses agent range) _

/-- The computation answers `r` on the contents, and still remembers what agrees with them. -/
def Answers (c : Contents) (range : TimeRange) (m : LookupM α) (r : Except Error α) : Prop :=
  ∀ known, Lookups.Agrees c range known → ∃ known', Lookups.Agrees c range known' ∧
    (m known).answer c = r.map fun a => (a, known')

variable {c : Contents} {range : TimeRange}

theorem Answers.of_ok {m : LookupM α} {r : Except Error α} (hm : Answers c range m r)
    {known known' : Lookups} (hknown : known.Agrees c range) {a : α}
    (h : (m known).answer c = .ok (a, known')) : r = .ok a ∧ known'.Agrees c range := by
  obtain ⟨left, hleft, hanswer⟩ := hm known hknown
  rw [h] at hanswer
  cases r with
  | error e => cases hanswer
  | ok b =>
    cases hanswer
    exact ⟨rfl, hleft⟩

theorem answers_pure (a : α) : Answers c range (pure a) (.ok a) := fun known hknown =>
  ⟨known, hknown, rfl⟩

theorem Answers.bind {m : LookupM α} {k : α → LookupM β} {r : Except Error α}
    {f : α → Except Error β} (hm : Answers c range m r) (hread : Reading m)
    (hk : ∀ a, Answers c range (k a) (f a)) (hreads : ∀ a, Reading (k a)) :
    Answers c range (m >>= k) (r >>= f) := by
  intro known hknown
  obtain ⟨left, hleft, hanswer⟩ := hm known hknown
  change ∃ known', _ ∧ (m known >>= fun found => k found.1 found.2).answer c = _
  rw [answer_bind (hread known) fun found => hreads found.1 found.2, hanswer]
  cases r with
  | error e => exact ⟨left, hleft, rfl⟩
  | ok a => exact hk a left hleft

theorem answers_lift {m : StoreM α} (hm : StoreM.Reading m) :
    Answers c range (liftM m) (m.answer c) := by
  intro known hknown
  refine ⟨known, hknown, ?_⟩
  change (m >>= fun a => pure (a, known)).answer c = _
  rw [answer_map hm]

theorem answers_mapM {k : α → LookupM β} {f : α → Except Error β} (xs : List α)
    (hk : ∀ a, Answers c range (k a) (f a)) (hreads : ∀ a, Reading (k a)) :
    Answers c range (xs.mapM k) (xs.mapM f) := by
  induction xs with
  | nil => exact answers_pure []
  | cons x xs ih =>
    rw [List.mapM_cons, List.mapM_cons]
    exact (hk x).bind (hreads x)
      (fun b => ih.bind (reading_mapM xs hreads) (fun bs => answers_pure (b :: bs))
        fun bs => reading_pure (b :: bs))
      fun b => reading_bind (reading_mapM xs hreads) fun bs => reading_pure (b :: bs)

/-- Remembered or not, the addresses are those the registry answers. -/
theorem answers_addresses (agent : String) :
    Answers c range (addresses agent range) ((AddressRegistry.addresses agent range).answer c) := by
  intro known hknown
  cases h : known[agent]? with
  | some ips =>
    refine ⟨known, hknown, ?_⟩
    rw [addresses_known h, hknown agent ips h]
    rfl
  | none =>
    rw [addresses_unknown h, answer_map (NetAtlas.reading_addresses agent range)]
    cases hips : (AddressRegistry.addresses agent range).answer c with
    | error e => exact ⟨known, hknown, rfl⟩
    | ok ips => exact ⟨known.insert agent ips, hknown.insert hips, rfl⟩

theorem Answers.run' {m : LookupM α} {r : Except Error α} (hm : Answers c range m r)
    (hread : Reading m) : (m.run' ∅ : StoreM α).answer c = r := by
  obtain ⟨left, _, hanswer⟩ := hm ∅ (Lookups.agrees_empty c range)
  rw [run'_eq, answer_map (hread ∅), hanswer]
  cases r <;> rfl

end LookupM

end NetAtlas

import NetAtlas.Proofs.Outcomes
import NetAtlas.Store.Storage

set_option autoImplicit false

/-!
# Readings

A reading leaves what is stored as it is. It answers what the contents give, unless a scan goes
unanswered: then it fails as unavailable. So a reading is known by its answers on contents alone.
-/
namespace NetAtlas

/-- No scan fails, whatever was called before. -/
def Storage.AnswersScans (s : Storage) : Prop :=
  ∀ calls table start stop, s.outage calls (.scan table start stop) = false

def Call.isScan : Call → Bool
  | scan .. => true
  | _ => false

/-- A storage after some more calls, the latest first. -/
def Storage.noting (s : Storage) (made : List Call) : Storage := { s with calls := made ++ s.calls }

/-- Calls made one after another, the latest first, all of which are answered. -/
def Storage.Answered (s : Storage) : List Call → Prop
  | [] => True
  | call :: made => s.outage (made ++ s.calls) call = false ∧ s.Answered made

theorem Storage.answered_append {s : Storage} {made later : List Call} :
    s.Answered (later ++ made) ↔ (s.noting made).Answered later ∧ s.Answered made := by
  induction later with
  | nil => exact (and_iff_right trivial).symm
  | cons call later ih =>
    rw [List.cons_append, Answered, Answered, ih, and_assoc, noting, List.append_assoc]

theorem Storage.noting_append (s : Storage) (made later : List Call) :
    s.noting (later ++ made) = (s.noting made).noting later := by
  rw [noting, noting, noting, List.append_assoc]

namespace StoreM

variable {α β : Type}

/-- What a computation answers on contents none of whose calls fail. -/
def answer (m : StoreM α) (c : Contents) : Except Error α := (m { contents := c }).1

/-- The last of the calls made is the first that is not answered, and the computation ends with it. -/
def Breaks (m : StoreM α) (s : Storage) (made : List Call) : Prop :=
  ∃ call before, made = call :: before ∧ s.Answered before ∧
    s.outage (before ++ s.calls) call = true ∧
    m s = (.error (.unavailable call.outageText), s.noting made)

/-- A reading makes scans and nothing else. It answers what the contents give if they are all answered,
and is unavailable only for a scan that is not. -/
structure Reading (m : StoreM α) : Prop where
  available : ∀ c what, m.answer c ≠ .error (.unavailable what)
  runs : ∀ s : Storage, ∃ made, (∀ call ∈ made, call.isScan) ∧
    (s.Answered made ∧ m s = (m.answer s.contents, s.noting made) ∨ m.Breaks s made)

theorem answersScans_of_none (s : Storage) :
    Storage.AnswersScans { s with outage := Outage.none } := fun _ _ _ _ => rfl

theorem answersScans_ofContents (c : Contents) (calls : List Call) :
    Storage.AnswersScans { contents := c, calls } := fun _ _ _ _ => rfl

theorem Reading.of_answersScans {m : StoreM α} (hm : Reading m) {s : Storage}
    (hs : s.AnswersScans) : ∃ calls, m s = (m.answer s.contents, { s with calls }) := by
  obtain ⟨made, hscans, ⟨_, h⟩ | ⟨call, before, rfl, _, hfail, _⟩⟩ := hm.runs s
  · exact ⟨_, h⟩
  · have hscan := hscans call List.mem_cons_self
    cases call with
    | put table => cases hscan
    | scan table start stop =>
      rw [hs] at hfail
      cases hfail
    | flush => cases hscan

theorem Reading.answer_eq {m : StoreM α} (hm : Reading m) {s : Storage} {a : α}
    (h : (m s).1 = .ok a) : m.answer s.contents = .ok a := by
  obtain ⟨made, _, ⟨_, hok⟩ | ⟨call, before, _, _, _, hfail⟩⟩ := hm.runs s
  · rw [hok] at h
    exact h
  · rw [hfail] at h
    cases h

theorem Reading.noting_eq {m : StoreM α} (hm : Reading m) (s : Storage) :
    ∃ made, (m s).2 = s.noting made := by
  obtain ⟨made, _, ⟨_, h⟩ | ⟨call, before, _, _, _, h⟩⟩ := hm.runs s
  · exact ⟨made, congrArg Prod.snd h⟩
  · exact ⟨made, congrArg Prod.snd h⟩

theorem Reading.contents_eq {m : StoreM α} (hm : Reading m) (s : Storage) :
    (m s).2.contents = s.contents := by
  obtain ⟨made, h⟩ := hm.noting_eq s
  rw [h]
  rfl

theorem reading_pure (a : α) : Reading (pure a : StoreM α) where
  available _ _ h := nomatch h
  runs _ := ⟨[], fun _ h => absurd h List.not_mem_nil, Or.inl ⟨trivial, rfl⟩⟩

theorem reading_throw (reason : Rejection) : Reading (throw (.rejected reason) : StoreM α) where
  available _ _ h := nomatch h
  runs _ := ⟨[], fun _ h => absurd h List.not_mem_nil, Or.inl ⟨trivial, rfl⟩⟩

theorem reading_reject (r : Except Rejection α) : Reading (reject r) := by
  cases r with
  | ok a => exact reading_pure a
  | error e => exact reading_throw e

theorem answer_scan (column : Column) (start stop : Bytes) (c : Contents) :
    (scan column start stop).answer c = .ok (c.scan column start stop) := rfl

theorem reading_scan (column : Column) (start stop : Bytes) : Reading (scan column start stop) where
  available c what h := nomatch h
  runs s := by
    refine ⟨[.scan column.table start stop], fun call hcall => ?_, ?_⟩
    · rw [List.mem_singleton.mp hcall]
      rfl
    · cases h : s.outage s.calls (.scan column.table start stop) with
      | false =>
        refine Or.inl ⟨⟨h, trivial⟩, ?_⟩
        rw [answer_scan, scan, exceptT_bind_run, call]
        simp only [h]
        rfl
      | true =>
        refine Or.inr ⟨_, [], rfl, trivial, h, ?_⟩
        rw [scan, exceptT_bind_run, call]
        simp only [h]
        rfl

/-- The second reading finds the contents as the first one found them. -/
theorem answer_bind {m : StoreM α} {k : α → StoreM β} (hm : Reading m) (hk : ∀ a, Reading (k a))
    (c : Contents) : (m >>= k).answer c = m.answer c >>= fun a => (k a).answer c := by
  obtain ⟨calls, h⟩ := hm.of_answersScans (answersScans_ofContents c [])
  change ((m >>= k) { contents := c }).1 = _
  rw [exceptT_bind_run, h]
  cases ha : m.answer c with
  | error e => rfl
  | ok a =>
    obtain ⟨calls', h'⟩ := (hk a).of_answersScans (answersScans_ofContents c calls)
    simp only [h']
    rfl

theorem reading_bind {m : StoreM α} {k : α → StoreM β} (hm : Reading m) (hk : ∀ a, Reading (k a)) :
    Reading (m >>= k) where
  available c what h := by
    rw [answer_bind hm hk] at h
    cases ha : m.answer c with
    | error e =>
      rw [ha] at h
      cases h
      exact hm.available c what ha
    | ok a =>
      rw [ha] at h
      exact (hk a).available c what h
  runs s := by
    obtain ⟨made, hscans, ⟨hmade, h⟩ | ⟨call, before, hlast, hbefore, hfail, h⟩⟩ := hm.runs s
    · cases ha : m.answer s.contents with
      | error e =>
        refine ⟨made, hscans, Or.inl ⟨hmade, ?_⟩⟩
        rw [exceptT_bind_run, h, answer_bind hm hk, ha]
        rfl
      | ok a =>
        -- the second reading starts with the calls of the first one noted
        have hrun : (m >>= k) s = k a (s.noting made) := by rw [exceptT_bind_run, h, ha]
        have hanswer : (m >>= k).answer s.contents = (k a).answer s.contents := by
          rw [answer_bind hm hk, ha]
          rfl
        obtain ⟨later, hscans', hlater⟩ := (hk a).runs (s.noting made)
        refine ⟨later ++ made, List.forall_mem_append.mpr ⟨hscans', hscans⟩, ?_⟩
        rw [Breaks, hrun, hanswer, Storage.answered_append, Storage.noting_append]
        rcases hlater with ⟨hlater, h'⟩ | ⟨call, before, rfl, hbefore, hfail, h'⟩
        · exact Or.inl ⟨⟨hlater, hmade⟩, h'⟩
        · have hanswered := Storage.answered_append.mpr ⟨hbefore, hmade⟩
          refine Or.inr ⟨call, before ++ made, rfl, hanswered, ?_, h'⟩
          rw [List.append_assoc]
          exact hfail
    · exact ⟨made, hscans, Or.inr ⟨call, before, hlast, hbefore, hfail, by rw [exceptT_bind_run, h]⟩⟩

theorem reading_map {m : StoreM α} (hm : Reading m) (f : α → β) : Reading (m >>= fun a => pure (f a)) :=
  reading_bind hm fun a => reading_pure (f a)

theorem answer_map {m : StoreM α} (hm : Reading m) (f : α → β) (c : Contents) :
    (m >>= fun a => pure (f a)).answer c = (m.answer c).map f := by
  rw [answer_bind hm fun a => reading_pure (f a)]
  cases m.answer c <;> rfl

theorem reading_mapM {k : α → StoreM β} (xs : List α) (hk : ∀ a, Reading (k a)) :
    Reading (xs.mapM k) := by
  induction xs with
  | nil =>
    rw [List.mapM_nil]
    exact reading_pure []
  | cons x xs ih =>
    rw [List.mapM_cons]
    exact reading_bind (hk x) fun b => reading_bind ih fun bs => reading_pure (b :: bs)

theorem answer_mapM {k : α → StoreM β} (xs : List α) (hk : ∀ a, Reading (k a)) (c : Contents) :
    (xs.mapM k).answer c = xs.mapM fun a => (k a).answer c := by
  induction xs with
  | nil => rfl
  | cons x xs ih =>
    rw [List.mapM_cons, List.mapM_cons,
      answer_bind (hk x) fun b => reading_bind (reading_mapM xs hk) fun bs => reading_pure (b :: bs)]
    congr 1
    funext b
    rw [answer_bind (reading_mapM xs hk) fun bs => reading_pure (b :: bs), ih]
    rfl

end StoreM

end NetAtlas

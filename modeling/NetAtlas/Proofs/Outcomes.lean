set_option autoImplicit false

/-!
# Steps that may fail

Steps in a row come through exactly if each of them does. The first failure is that of them all, and what
was done before it stays done.
-/
namespace NetAtlas

theorem except_bind_eq_ok {ε α β : Type} {m : Except ε α} {k : α → Except ε β} {b : β}
    (h : m >>= k = .ok b) : ∃ a, m = .ok a ∧ k a = .ok b := by
  cases m with
  | error e => cases h
  | ok a => exact ⟨a, rfl, h⟩

theorem except_mapError_eq_ok {ε ε' α : Type} {f : ε → ε'} {m : Except ε α} {a : α}
    (h : m.mapError f = .ok a) : m = .ok a := by
  cases m with
  | error e => cases h
  | ok b => cases h; rfl

theorem except_map_eq_ok {ε α β : Type} {f : α → β} {m : Except ε α} {b : β}
    (h : m.map f = .ok b) : ∃ a, m = .ok a ∧ b = f a := by
  cases m with
  | error e => cases h
  | ok a => cases h; exact ⟨a, rfl, rfl⟩

theorem except_map_eq_error {ε α β : Type} {f : α → β} {m : Except ε α} {e : ε}
    (h : m.map f = .error e) : m = .error e := by
  cases m with
  | error e' => cases h; rfl
  | ok a => cases h

theorem except_toOption_eq_some {ε α : Type} {m : Except ε α} {a : α} (h : m.toOption = some a) :
    m = .ok a := by
  cases m with
  | error e => cases h
  | ok b => cases h; rfl

theorem except_toOption_map_eq_some {ε α β : Type} {f : α → β} {m : Except ε α} {b : β}
    (h : m.toOption.map f = some b) : ∃ a, m = .ok a ∧ f a = b := by
  cases m with
  | error e => cases h
  | ok a => exact ⟨a, rfl, Option.some.inj h⟩

theorem except_mapM_ok {ε α β : Type} {f : α → Except ε β} {g : α → β} {xs : List α}
    (hf : ∀ a ∈ xs, f a = .ok (g a)) : xs.mapM f = .ok (xs.map g) := by
  induction xs with
  | nil => rfl
  | cons a xs ih =>
    rw [List.mapM_cons, hf a List.mem_cons_self, ih fun b hb => hf b (List.mem_cons_of_mem _ hb)]
    rfl

theorem except_mapM_length {ε α β : Type} {f : α → Except ε β} {xs : List α} {bs : List β}
    (h : xs.mapM f = .ok bs) : bs.length = xs.length := by
  induction xs generalizing bs with
  | nil =>
    cases h
    rfl
  | cons a xs ih =>
    rw [List.mapM_cons] at h
    obtain ⟨b, _, h⟩ := except_bind_eq_ok h
    obtain ⟨rest, hrest, h⟩ := except_bind_eq_ok h
    cases h
    rw [List.length_cons, List.length_cons, ih hrest]

theorem except_mapM_mem {ε α β : Type} {f : α → Except ε β} {xs : List α} {bs : List β} {b : β}
    (h : xs.mapM f = .ok bs) (hb : b ∈ bs) : ∃ a ∈ xs, f a = .ok b := by
  induction xs generalizing bs with
  | nil =>
    cases h
    exact absurd hb List.not_mem_nil
  | cons a xs ih =>
    rw [List.mapM_cons] at h
    obtain ⟨first, hfirst, h⟩ := except_bind_eq_ok h
    obtain ⟨rest, hrest, h⟩ := except_bind_eq_ok h
    cases h
    rcases List.mem_cons.mp hb with rfl | hb
    · exact ⟨a, List.mem_cons_self, hfirst⟩
    · obtain ⟨a', ha', hf⟩ := ih hrest hb
      exact ⟨a', List.mem_cons_of_mem _ ha', hf⟩

/-- Results that do not matter may be put off to the end. -/
theorem except_mapM_const {ε α β γ : Type} (f : α → Except ε β) (g : α → γ) (xs : List α) :
    (xs.mapM fun a => (fun _ => g a) <$> f a) = (fun _ => xs.map g) <$> xs.mapM f := by
  induction xs with
  | nil => rfl
  | cons a xs ih =>
    rw [List.mapM_cons, List.mapM_cons, ih]
    cases f a with
    | error e => rfl
    | ok b => cases xs.mapM f <;> rfl

theorem except_mapM_ok_iff {ε α β : Type} {f : α → Except ε β} {xs : List α} :
    (∃ bs, xs.mapM f = .ok bs) ↔ ∀ a ∈ xs, ∃ b, f a = .ok b := by
  induction xs with
  | nil => exact ⟨fun _ _ ha => absurd ha List.not_mem_nil, fun _ => ⟨[], rfl⟩⟩
  | cons a xs ih =>
    rw [List.mapM_cons, List.forall_mem_cons, ← ih]
    constructor
    · rintro ⟨bs, h⟩
      obtain ⟨b, hb, h⟩ := except_bind_eq_ok h
      obtain ⟨rest, hrest, _⟩ := except_bind_eq_ok h
      exact ⟨⟨b, hb⟩, rest, hrest⟩
    · rintro ⟨⟨b, hb⟩, rest, hrest⟩
      rw [hb, hrest]
      exact ⟨b :: rest, rfl⟩

/-- A step runs on with what the one before it answered and left behind, unless that failed. -/
theorem exceptT_bind_run {ε σ α β : Type} (m : ExceptT ε (StateM σ) α) (k : α → ExceptT ε (StateM σ) β)
    (s : σ) : (m >>= k) s = match m s with
      | (.ok a, s') => k a s'
      | (.error e, s') => (.error e, s') := by
  change ExceptT.bindCont k (m s).1 (m s).2 = _
  rcases m s with ⟨e | a, s'⟩ <;> rfl

/-- The first step fails and the one behind it is not taken, or it answers and the other goes on from there. -/
theorem exceptT_bind_cases {ε σ α β : Type} (m : ExceptT ε (StateM σ) α) (k : α → ExceptT ε (StateM σ) β)
    (s : σ) : (∃ e s', m s = (.error e, s') ∧ (m >>= k) s = (.error e, s')) ∨
      ∃ a s', m s = (.ok a, s') ∧ (m >>= k) s = k a s' := by
  rw [exceptT_bind_run]
  rcases m s with ⟨e | a, s'⟩
  · exact Or.inl ⟨e, s', rfl, rfl⟩
  · exact Or.inr ⟨a, s', rfl, rfl⟩

/-- A run that answers leaves some state behind. -/
theorem exceptT_exists_run {ε σ α : Type} {m : ExceptT ε (StateM σ) α} {s : σ} {answer : Except ε α}
    (h : (m s).1 = answer) : ∃ s', m s = (answer, s') := ⟨(m s).2, Prod.ext h rfl⟩

theorem exceptT_tryCatch_run {ε σ α : Type} (m : ExceptT ε (StateM σ) α)
    (k : ε → ExceptT ε (StateM σ) α) (s : σ) : tryCatch m k s = match m s with
      | (.ok a, s') => (.ok a, s')
      | (.error e, s') => k e s' := by
  change (match (m s).1 with
    | .ok a => (pure (Except.ok a) : StateM σ (Except ε α))
    | .error e => k e) (m s).2 = _
  rcases m s with ⟨e | a, s'⟩ <;> rfl

theorem exceptT_mapM_cons_run {ε σ α β : Type} (f : β → ExceptT ε (StateM σ) α) (x : β) (xs : List β)
    (s : σ) : (x :: xs).mapM f s = match f x s with
      | (.ok a, s') => ((xs.mapM f s').1.map (a :: ·), (xs.mapM f s').2)
      | (.error e, s') => (.error e, s') := by
  rw [List.mapM_cons, exceptT_bind_run]
  rcases f x s with ⟨e | a, s'⟩
  · rfl
  · change (xs.mapM f >>= fun rest => pure (a :: rest)) s' = _
    rw [exceptT_bind_run]
    change _ = ((xs.mapM f s').1.map _, (xs.mapM f s').2)
    rcases xs.mapM f s' with ⟨e | rest, s''⟩ <;> rfl

theorem exceptT_adapt_run {ε ε' σ α : Type} (f : ε → ε') (m : ExceptT ε (StateM σ) α) (s : σ) :
    (m.adapt f) s = ((m s).1.mapError f, (m s).2) := rfl

end NetAtlas

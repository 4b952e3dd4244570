import NetAtlas.Proofs.Bytes.Composed
import NetAtlas.Proofs.Bytes.Written

set_option autoImplicit false

/-!
# Bytes that are missing and bytes left over

A reader decides by the bytes it takes and not by those behind them, unless it runs out of bytes. So no
beginning of what a reader takes to the end can stand for it: of a beginning bytes are found missing, and
of what goes on behind the end the bytes are found left over.
-/
namespace NetAtlas

def Corruption.IsTruncated : Corruption → Prop
  | .truncated _ _ _ => True
  | _ => False

/-- More bytes behind those that are left. -/
def Cursor.followedBy (c : Cursor) (extra : Bytes) : Cursor := ⟨c.offset, c.rest ++ extra⟩

namespace Reader

variable {α β : Type}

def RanOut (answer : Except Corruption α) : Prop := ∃ cause, answer = .error cause ∧ cause.IsTruncated

theorem not_ranOut_ok (a : α) : ¬ RanOut (Except.ok a : Except Corruption α) := by
  rintro ⟨_, h, _⟩
  cases h

/-- What it takes and answers is the same with more bytes behind, unless it ran out of bytes. -/
def Steady (m : Reader α) : Prop :=
  ∀ c extra, RanOut (m c).1 ∨ m (c.followedBy extra) = ((m c).1, (m c).2.followedBy extra)

theorem steady_pure (a : α) : Steady (pure a) := fun _ _ => Or.inr rfl

theorem steady_throw (cause : Corruption) : Steady (throw cause : Reader α) := fun _ _ => Or.inr rfl

/-- A steady step fails alike with more bytes behind, or hands the same on, unless it ran out of bytes. -/
theorem Steady.bind_cases {m : Reader α} (hm : Steady m) (k : α → Reader β) (c : Cursor) (extra : Bytes) :
    RanOut ((m >>= k) c).1 ∨
    (∃ cause c', (m >>= k) c = (.error cause, c') ∧
      (m >>= k) (c.followedBy extra) = (.error cause, c'.followedBy extra)) ∨
    ∃ a c', (m >>= k) c = k a c' ∧ (m >>= k) (c.followedBy extra) = k a (c'.followedBy extra) := by
  have hsteady := hm c extra
  rcases exceptT_bind_cases m k c with ⟨cause, c', hrun, hbind⟩ | ⟨a, c', hrun, hbind⟩
  · rw [hrun] at hsteady
    rcases hsteady with ⟨_, ⟨⟩, hcut⟩ | hsame
    · exact Or.inl ⟨cause, by rw [hbind], hcut⟩
    · exact Or.inr (Or.inl ⟨cause, c', hbind, by rw [exceptT_bind_run, hsame]⟩)
  · rw [hrun] at hsteady
    have hsame := hsteady.resolve_left (not_ranOut_ok a)
    exact Or.inr (Or.inr ⟨a, c', hbind, by rw [exceptT_bind_run, hsame]⟩)

theorem steady_bind {m : Reader α} {k : α → Reader β} (hm : Steady m) (hk : ∀ a, Steady (k a)) :
    Steady (m >>= k) := by
  intro c extra
  rcases hm.bind_cases k c extra with hcut | ⟨cause, c', h, hmore⟩ | ⟨a, c', h, hmore⟩
  · exact Or.inl hcut
  · rw [h, hmore]
    exact Or.inr rfl
  · rw [h, hmore]
    exact hk a c' extra

theorem steady_takeExactly (n : Nat) : Steady (takeExactly n) := by
  rintro ⟨offset, rest⟩ extra
  by_cases h : (rest.take n).length = n
  · right
    have htaken := reads_takeExactly h offset (rest.drop n)
    have hmore := reads_takeExactly h offset (rest.drop n ++ extra)
    rw [List.take_append_drop] at htaken
    rw [← List.append_assoc, List.take_append_drop] at hmore
    rw [htaken]
    exact hmore
  · left
    exact ⟨.truncated n offset rest.length, by rw [takeExactly, dif_neg h], trivial⟩

theorem Composed.steady {m : Reader α} (hm : Composed m) : Steady m := by
  induction hm with
  | answers a => exact steady_pure a
  | refuses cause => exact steady_throw cause
  | takes n => exact steady_takeExactly n
  | steps _ _ first next => exact steady_bind first next

/-- A reader of whole byte strings: with more bytes behind, it refuses all that does not run out of
bytes, and what it would have read it refuses for the bytes left over. -/
def Strict (m : Reader α) : Prop :=
  ∀ c extra, extra ≠ [] → RanOut (m c).1 ∨
    ∃ cause, (m (c.followedBy extra)).1 = .error cause ∧
      ∀ a, (m c).1 = .ok a → cause = .trailing extra.length

theorem finish_run (c : Cursor) :
    finish c = (if c.rest = [] then .ok () else .error (Corruption.trailing c.rest.length), c) := by
  rw [finish, exceptT_bind_run]
  change (if c.rest = [] then (pure () : Reader Unit) else throw (.trailing c.rest.length)) c = _
  split <;> rfl

theorem strict_finish (a : α) : Strict (finish >>= fun _ => pure a) := by
  intro c extra hne
  have hmore : ((c.followedBy extra).rest) ≠ [] := fun h => hne (List.append_eq_nil_iff.mp h).2
  rw [exceptT_bind_run, exceptT_bind_run, finish_run, finish_run, if_neg hmore]
  refine Or.inr ⟨_, rfl, fun b hb => ?_⟩
  by_cases hrest : c.rest = []
  · rw [Cursor.followedBy, hrest, List.nil_append]
  · rw [if_neg hrest] at hb
    cases hb

theorem Composed.bind_strict {m : Reader α} {k : α → Reader β} (hm : Composed m)
    (hk : ∀ a, Strict (k a)) : Strict (m >>= k) := by
  intro c extra hne
  rcases hm.steady.bind_cases k c extra with hcut | ⟨cause, c', h, hmore⟩ | ⟨a, c', h, hmore⟩
  · exact Or.inl hcut
  · rw [h, hmore]
    exact Or.inr ⟨cause, rfl, nofun⟩
  · rw [h, hmore]
    exact hk a c' extra hne

variable {m : Reader α} {bs ds : Bytes} {a : α}

theorem Strict.read_cut (hm : Strict m) (h : m.read bs = .ok a) (hcut : ds <+: bs) (hne : ds ≠ bs) :
    ∃ cause, m.read ds = .error cause ∧ cause.IsTruncated := by
  obtain ⟨extra, rfl⟩ := hcut
  have hextra : extra ≠ [] := by
    rintro rfl
    exact hne (List.append_nil ds).symm
  rcases hm (.ofBytes ds) extra hextra with hcut | ⟨cause, hmore, -⟩
  · exact hcut
  · cases hmore.symm.trans h

theorem Strict.read_extended (hm : Strict m) (h : m.read bs = .ok a) {extra : Bytes} (hne : extra ≠ []) :
    m.read (bs ++ extra) = .error (.trailing extra.length) := by
  rcases hm (.ofBytes bs) extra hne with ⟨cause, hcut, -⟩ | ⟨cause, hmore, htrailing⟩
  · cases hcut.symm.trans h
  · rw [← htrailing a h]
    exact hmore

end Reader

end NetAtlas

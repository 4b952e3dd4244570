import NetAtlas.Time.Range

set_option autoImplicit false

/-!
# Numbers of 64 bits

A sum of 64-bit numbers is the exact one if that fits into 64 bits, and a trap otherwise.
-/
namespace NetAtlas

theorem fits64_toInt (x : Int64) : Fits64 x.toInt := by
  have hlow := x.le_toInt
  have hhigh := x.toInt_lt
  constructor
  · exact hlow
  · omega

theorem fits64_of_between {low n high : Int} (hlow : low ≤ n) (hhigh : n ≤ high) (h : Fits64 low)
    (h' : Fits64 high) : Fits64 n :=
  ⟨Int.le_trans h.1 hlow, Int.le_trans hhigh h'.2⟩

/-- Dividing a number that is not negative makes it no greater. -/
theorem fits64_div {a b : Int} (h : Fits64 a) (ha : 0 ≤ a) (hb : 0 < b) : Fits64 (a / b) :=
  fits64_of_between (Int.ediv_nonneg ha (Int.le_of_lt hb)) (Int.ediv_le_self b ha) (by decide) h

theorem fits64_slotStart {time slot : Int} (h : Fits64 time) (htime : 0 ≤ time) (hslot : 0 < slot) :
    Fits64 (slotStart time slot) :=
  fits64_of_between (slotStart_nonneg hslot htime) (slotStart_le hslot time) (by decide) h

theorem toInt_max (a b : Int64) : (max a b).toInt = max a.toInt b.toInt := by
  change (if a ≤ b then b else a).toInt = _
  split
  · next h => rw [Int.max_eq_right (Int64.le_iff_toInt_le.mp h)]
  · next h => rw [Int.max_eq_left (Int.le_of_lt (Int64.lt_iff_toInt_lt.mp (Int64.not_le.mp h)))]

theorem toInt_add_of_fits {a b : Int64} (h : Fits64 (a.toInt + b.toInt)) :
    (a + b).toInt = a.toInt + b.toInt := by
  rw [Int64.toInt_add]
  obtain ⟨hlow, hhigh⟩ := h
  apply Int.bmod_eq_of_le
  · omega
  · omega

theorem addTrapping_eq_ok {a b c : Int64} : addTrapping a b = .ok c ↔ c.toInt = a.toInt + b.toInt := by
  rw [addTrapping]
  split
  · next h =>
    rw [Except.ok.injEq, ← Int64.toInt_inj, toInt_add_of_fits h]
    exact eq_comm
  · next h => exact iff_of_false (fun hc => nomatch hc) fun hc => h (hc ▸ fits64_toInt c)

theorem addTrapping_of_not_fits {a b : Int64} (h : ¬ Fits64 (a.toInt + b.toInt)) :
    addTrapping a b = .error .overflow := if_neg h

end NetAtlas

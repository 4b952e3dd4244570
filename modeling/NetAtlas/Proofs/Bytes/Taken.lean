import NetAtlas.Bytes.Field
import NetAtlas.Proofs.Bytes.Order
import NetAtlas.Proofs.Outcomes

set_option autoImplicit false

/-!
# What a reader takes

A read of fixed width that comes through took exactly the bytes its value is written with off the
front of what was left.
-/
namespace NetAtlas

open Std

namespace Bytes

theorem eq_of_toNat_eq {xs ys : Bytes} (hl : xs.length = ys.length) (h : toNat xs = toNat ys) :
    xs = ys := by
  have hc : compare xs ys = .eq := by rw [compare_eq_compare_toNat hl, h, Nat.compare_eq_eq]
  exact LawfulEqCmp.eq_of_compare hc

theorem bigEndian_toNat (bs : Bytes) : bigEndian bs.length (toNat bs) = bs := by
  apply eq_of_toNat_eq (bigEndian_length _ _)
  rw [toNat_bigEndian, Nat.mod_eq_of_lt (toNat_lt bs)]

theorem ofInt64_toInt64 {bs : Bytes} (h : bs.length = 8) : ofInt64 (toInt64 bs) = bs := by
  have hlt := toNat_lt bs
  have hn : (UInt64.ofNat bs.toNat).toNat = bs.toNat := by
    rw [h] at hlt
    exact (UInt64.toNat_ofNat' ..).trans (Nat.mod_eq_of_lt hlt)
  have hu : (toInt64 bs).toUInt64.toNat = bs.toNat := by
    rw [toInt64, UInt64.toUInt64_toInt64, hn]
  rw [ofInt64, hu]
  calc
    bigEndian 8 bs.toNat = bigEndian bs.length bs.toNat := by rw [h]
    _ = bs := bigEndian_toNat bs

end Bytes

namespace Utf8

theorem encode_inj {s t : String} (h : encode s = encode t) : s = t := by
  have hs := decode_encode s
  rw [h, decode_encode] at hs
  cases hs
  rfl

/-- Bytes that are text are the text's own. -/
theorem encode_of_decode {bs : Bytes} {s : String} (h : decode bs = .ok s) : encode s = bs := by
  unfold decode at h
  split at h
  · next t ht =>
    cases h
    unfold String.fromUTF8? at ht
    split at ht
    · cases ht
      simp [encode, List.data_toByteArray, String.fromUTF8]
    · cases ht
  · cases h

end Utf8

namespace Reader

variable {α β : Type}

theorem bind_eq_ok {m : Reader α} {k : α → Reader β} {c c'' : Cursor} {b : β}
    (h : (m >>= k) c = (.ok b, c'')) : ∃ a c', m c = (.ok a, c') ∧ k a c' = (.ok b, c'') := by
  rcases exceptT_bind_cases m k c with ⟨cause, c', _, hrun⟩ | ⟨a, c', hm, hrun⟩
  · cases hrun.symm.trans h
  · exact ⟨a, c', hm, hrun.symm.trans h⟩

theorem bind_eq_error {m : Reader α} {k : α → Reader β} {c : Cursor} {cause : Corruption}
    (h : ((m >>= k) c).1 = .error cause) :
    (m c).1 = .error cause ∨ ∃ a c', m c = (.ok a, c') ∧ (k a c').1 = .error cause := by
  rcases exceptT_bind_cases m k c with ⟨fault, c', hm, hrun⟩ | ⟨a, c', hm, hrun⟩
  · rw [hrun] at h
    cases h
    exact Or.inl (by rw [hm])
  · rw [hrun] at h
    exact Or.inr ⟨a, c', hm, h⟩

theorem map_eq_ok {f : α → β} {m : Reader α} {c c' : Cursor} {b : β}
    (h : (f <$> m) c = (.ok b, c')) : ∃ a, m c = (.ok a, c') ∧ f a = b := by
  rw [map_eq_pure_bind] at h
  obtain ⟨a, c₁, hm, hp⟩ := bind_eq_ok h
  cases hp
  exact ⟨a, hm, rfl⟩

theorem read_map_eq_ok {f : α → β} {m : Reader α} {bs : Bytes} {b : β} (h : (f <$> m).read bs = .ok b) :
    ∃ a, m.read bs = .ok a ∧ f a = b := by
  obtain ⟨last, hrun⟩ := exceptT_exists_run h
  obtain ⟨a, hm, hf⟩ := map_eq_ok hrun
  exact ⟨a, by rw [read, hm], hf⟩

/-- A reader that takes exactly the bytes its value is written with. -/
def Takes (m : Reader α) (written : α → Bytes) : Prop :=
  ∀ c a c', m c = (.ok a, c') → c.rest = written a ++ c'.rest

theorem takeExactly_takes (n : Nat) : Takes (takeExactly n) Subtype.val := by
  intro c bs c' h
  unfold takeExactly at h
  split at h
  · cases h
    exact (List.take_append_drop n c.rest).symm
  · cases h

theorem take_eq_ok {n : Nat} {c c' : Cursor} {bs : Bytes} (h : take n c = (.ok bs, c')) :
    bs.length = n ∧ c.rest = bs ++ c'.rest := by
  obtain ⟨taken, ht, rfl⟩ := map_eq_ok h
  exact ⟨taken.2, takeExactly_takes n c taken c' ht⟩

theorem byte_takes : Takes byte fun b => [b] := by
  intro c b c' h
  obtain ⟨bs, c₁, ht, hp⟩ := bind_eq_ok h
  cases hp
  obtain ⟨hl, hr⟩ := take_eq_ok ht
  obtain ⟨b, rfl⟩ := List.length_eq_one_iff.mp hl
  exact hr

theorem int64_takes : Takes int64 Bytes.ofInt64 := by
  intro c v c' h
  obtain ⟨bs, c₁, ht, hp⟩ := bind_eq_ok h
  cases hp
  obtain ⟨hl, hr⟩ := take_eq_ok ht
  rw [Bytes.ofInt64_toInt64 hl]
  exact hr

theorem text_eq_ok {c c' : Cursor} {s : String} (h : text c = (.ok s, c')) :
    s.utf8ByteSize < 65536 ∧ c.rest = Field.textBytes s ++ c'.rest := by
  obtain ⟨size, c₁, hsize, h⟩ := bind_eq_ok h
  obtain ⟨bs, c₂, hbs, h⟩ := bind_eq_ok h
  obtain ⟨hsizeLength, hsize⟩ := take_eq_ok hsize
  obtain ⟨hbsLength, hbs⟩ := take_eq_ok hbs
  cases hdecode : Utf8.decode bs with
  | error fault =>
    rw [hdecode] at h
    cases h
  | ok t =>
    rw [hdecode] at h
    cases h
    have hencode := Utf8.encode_of_decode hdecode
    have hlength : s.utf8ByteSize = Bytes.toNat size := by
      rw [← Utf8.encode_length, hencode, hbsLength]
    have hlt := Bytes.toNat_lt size
    rw [hsizeLength] at hlt
    refine ⟨hlength ▸ hlt, ?_⟩
    rw [Field.textBytes, hlength, hencode, ← hsizeLength, Bytes.bigEndian_toNat, hsize, hbs,
      List.append_assoc]

theorem family_takes : Takes family fun f => [f.code] := by
  intro c f c' h
  obtain ⟨code, c₁, hb, hk⟩ := bind_eq_ok h
  cases hf : Family.ofCode? code with
  | none => rw [hf] at hk; cases hk
  | some g =>
    rw [hf] at hk
    cases hk
    cases Family.eq_of_ofCode? hf
    exact byte_takes c _ c' hb

theorem ip_eq_ok {f : Family} {c c' : Cursor} {i : Ip} (h : ip f c = (.ok i, c')) :
    i.family = f ∧ c.rest = i.octets ++ c'.rest := by
  obtain ⟨octets, c₁, ht, hp⟩ := bind_eq_ok h
  cases hp
  exact ⟨rfl, takeExactly_takes _ _ _ _ ht⟩

theorem finish_eq_ok {c c' : Cursor} {u : Unit} (h : finish c = (.ok u, c')) : c.rest = [] := by
  change (if c.rest = [] then (pure () : Reader Unit) else throw (.trailing c.rest.length)) c = _ at h
  split at h
  · assumption
  · cases h

end Reader

end NetAtlas

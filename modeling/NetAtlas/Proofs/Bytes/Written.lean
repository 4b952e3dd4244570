import NetAtlas.Bytes.Field
import NetAtlas.Proofs.Bytes.Numbers
import NetAtlas.Proofs.Outcomes

set_option autoImplicit false

/-!
# What is written is read back

A reader gives back a value from the bytes it was written with and leaves what follows them. Such
readers compose as the writing does.
-/
namespace NetAtlas

namespace Reader

variable {α β : Type}

/-- From the bytes written at the front of what is left, the reader gets the value. -/
def Reads (m : Reader α) (written : Bytes) (a : α) : Prop :=
  ∀ offset rest, m ⟨offset, written ++ rest⟩ = (.ok a, ⟨offset + written.length, rest⟩)

theorem reads_pure (a : α) : Reads (pure a) [] a := fun _ _ => rfl

theorem fst_bind_pure {m : Reader α} {c : Cursor} {a : α} (h : (m c).1 = .ok a) (f : α → β) :
    ((m >>= fun a => pure (f a)) c).1 = .ok (f a) := by
  change (ExceptT.bindCont (m := StateM Cursor) (fun a => pure (f a)) (m c).1 (m c).2).1 = _
  rw [h]
  rfl

theorem Reads.run_bind {m : Reader α} {bs : Bytes} {a : α} (hm : Reads m bs a) (k : α → Reader β)
    (offset : Nat) (rest : Bytes) :
    (m >>= k) ⟨offset, bs ++ rest⟩ = k a ⟨offset + bs.length, rest⟩ := by
  rw [exceptT_bind_run, hm]

theorem reads_bind {m : Reader α} {k : α → Reader β} {bs cs : Bytes} {a : α} {b : β}
    (hm : Reads m bs a) (hk : Reads (k a) cs b) : Reads (m >>= k) (bs ++ cs) b := by
  intro offset rest
  rw [List.append_assoc, hm.run_bind, hk, List.length_append, Nat.add_assoc]

theorem reads_map {m : Reader α} {f : α → β} {bs : Bytes} {a : α} (hm : Reads m bs a) :
    Reads (f <$> m) bs (f a) := by
  rw [map_eq_pure_bind, ← List.append_nil bs]
  exact reads_bind hm (reads_pure _)

theorem reads_takeExactly {n : Nat} {bs : Bytes} (h : bs.length = n) :
    Reads (takeExactly n) bs ⟨bs, h⟩ := by
  intro offset rest
  have htake : (bs ++ rest).take n = bs := List.take_left' h
  have hdrop : (bs ++ rest).drop n = rest := List.drop_left' h
  simp only [takeExactly, htake, hdrop, h, dite_true]

theorem reads_take {n : Nat} {bs : Bytes} (h : bs.length = n) : Reads (take n) bs bs :=
  reads_map (reads_takeExactly h)

theorem reads_byte (b : UInt8) : Reads byte [b] b := by
  intro offset rest
  have htake : Reads (take 1) [b] [b] := reads_take rfl
  have h := reads_bind (k := fun bs => pure (bs.headD 0)) htake (reads_pure b)
  exact h offset rest

theorem reads_int64 (v : Int64) : Reads int64 (Bytes.ofInt64 v) v := by
  have htake := reads_take (Bytes.bigEndian_length 8 v.toUInt64.toNat)
  have h := reads_bind (k := fun bs => pure (Bytes.toInt64 bs)) htake (reads_pure _)
  rw [List.append_nil, ← Bytes.ofInt64, Bytes.toInt64_ofInt64] at h
  exact h

theorem reads_int32 (v : Int32) : Reads int32 (Bytes.ofInt32 v) v := by
  have htake := reads_take (Bytes.bigEndian_length 4 v.toUInt32.toNat)
  have h := reads_bind (k := fun bs => pure (Bytes.toInt32 bs)) htake (reads_pure _)
  rw [List.append_nil, ← Bytes.ofInt32, Bytes.toInt32_ofInt32] at h
  exact h

theorem reads_family (f : Family) : Reads family [f.code] f := by
  rw [family, ← List.append_nil [_]]
  apply reads_bind (reads_byte _)
  rw [Family.ofCode?_code]
  exact reads_pure f

theorem reads_transport (t : Transport) : Reads transport [t.code] t := by
  rw [transport, ← List.append_nil [_]]
  apply reads_bind (reads_byte _)
  rw [Transport.ofCode?_code]
  exact reads_pure t

theorem reads_ip {f : Family} {i : Ip} (h : i.family = f) : Reads (ip f) i.octets i := by
  subst h
  rw [ip, ← List.append_nil i.octets]
  exact reads_bind (reads_takeExactly i.octets_length) (reads_pure _)

theorem reads_text {s : String} (h : s.utf8ByteSize < 65536) : Reads text (Field.textBytes s) s := by
  apply reads_bind (reads_take (Bytes.bigEndian_length 2 s.utf8ByteSize))
  have hsize : Bytes.toNat (Bytes.bigEndian 2 s.utf8ByteSize) = s.utf8ByteSize := by
    rw [Bytes.toNat_bigEndian, Nat.mod_eq_of_lt]
    exact h
  rw [hsize, ← List.append_nil (Utf8.encode s)]
  apply reads_bind (reads_take (Utf8.encode_length s))
  rw [Utf8.decode_encode]
  exact reads_pure s

theorem reads_number {more : Nat} {number : Bytes} (h : Varint.IsNumber (more + 1) number) :
    Reads (groups more) number (Varint.sum number) := by
  induction more generalizing number with
  | zero =>
    obtain ⟨b, rfl, hb, hbit⟩ := h.eq_singleton
    rw [groups, Varint.sum_singleton hb]
    change Reads _ ([b] ++ []) _
    apply reads_bind (reads_byte b)
    rw [if_neg (UInt8.not_lt.mpr hbit)]
    exact reads_pure _
  | succ more ih =>
    obtain ⟨b, bs, rfl⟩ := List.exists_cons_of_ne_nil h.ne_nil
    rw [groups]
    change Reads _ ([b] ++ bs) _
    apply reads_bind (reads_byte b)
    by_cases hbs : bs = []
    · subst hbs
      obtain ⟨hb, _⟩ := Varint.isNumber_singleton_iff.mp h
      rw [if_pos hb, Varint.sum_singleton hb]
      exact reads_pure _
    · obtain ⟨hb, hrest⟩ := (Varint.isNumber_cons_iff hbs).mp h
      have hbits := reads_bind (k := fun n => pure (b.toNat % 128 + 128 * n)) (ih hrest) (reads_pure _)
      rw [List.append_nil] at hbits
      rw [if_neg (UInt8.not_lt.mpr hb)]
      exact hbits

theorem reads_varint_number {number : Bytes} (h : Varint.IsNumber Varint.maxLength number) :
    Reads varint number (UInt64.ofNat (Varint.sum number)).toInt64 := by
  have hread := reads_bind (k := fun n => pure (UInt64.ofNat n).toInt64) (reads_number h) (reads_pure _)
  rw [List.append_nil] at hread
  exact hread

theorem reads_varint (v : Int64) : Reads varint (Varint.encode v) v := by
  have h := reads_varint_number (Varint.isNumber_encode v)
  rw [Varint.sum_encode, UInt64.ofNat_toNat] at h
  exact h

theorem reads_varint32 (v : Int32) : Reads varint32 (Varint.encode32 v) v := by
  have hsame : v.toInt64.toInt32 = v := Int32.toInt32_toInt64 v
  rw [varint32, Varint.encode32, ← List.append_nil (Varint.encode _)]
  apply reads_bind (reads_varint _)
  rw [hsame, if_pos rfl]
  exact reads_pure v

/-- What a reader reads back is told apart from all else it reads back, whatever follows. -/
theorem Reads.append_inj {m : Reader α} {bs cs rest rest' : Bytes} {a b : α} (ha : Reads m bs a)
    (hb : Reads m cs b) (h : bs ++ rest = cs ++ rest') : a = b ∧ rest = rest' := by
  have hrun := ha 0 rest
  rw [h, hb 0 rest'] at hrun
  obtain ⟨hvalue, hcursor⟩ := Prod.mk.inj hrun
  exact ⟨(Except.ok.inj hvalue).symm, (Cursor.mk.inj hcursor).2.symm⟩

/-- From these bytes and no others the reader gets the value. -/
def ReadsAll (m : Reader α) (written : Bytes) (a : α) : Prop :=
  ∀ offset, (m ⟨offset, written⟩).1 = .ok a

theorem Reads.bind_all {m : Reader α} {k : α → Reader β} {bs cs : Bytes} {a : α} {b : β}
    (hm : Reads m bs a) (hk : ReadsAll (k a) cs b) : ReadsAll (m >>= k) (bs ++ cs) b := by
  intro offset
  rw [hm.run_bind]
  exact hk _

theorem readsAll_finish (a : α) : ReadsAll (finish >>= fun _ => pure a) [] a := fun _ => rfl

theorem ReadsAll.read {m : Reader α} {bs : Bytes} {a : α} (h : ReadsAll m bs a) : m.read bs = .ok a :=
  h 0

end Reader

end NetAtlas

import NetAtlas.Proofs.Bytes.Steady
import NetAtlas.Proofs.Bytes.ZeroBytes

set_option autoImplicit false

/-!
# Fields in a row

Fields of any kinds that are written one after another are read back by their kinds, and what stands behind
them is left. A text that is too long is refused, and all else is written as if it had not been there. No
read passes the end of the bytes, whether it comes through or fails.
-/
namespace NetAtlas

open Reader

namespace Cursor

variable {c c' c'' : Cursor}

/-- Reads lead from the one cursor to the other: what lies between was taken off the front. -/
def Before (c c' : Cursor) : Prop :=
  ∃ taken, c.rest = taken ++ c'.rest ∧ c'.offset = c.offset + taken.length

theorem Before.refl (c : Cursor) : c.Before c := ⟨[], rfl, rfl⟩

theorem Before.trans (h : c.Before c') (h' : c'.Before c'') : c.Before c'' := by
  obtain ⟨taken, hrest, hoffset⟩ := h
  obtain ⟨taken', hrest', hoffset'⟩ := h'
  refine ⟨taken ++ taken', ?_, ?_⟩
  · rw [hrest, hrest', List.append_assoc]
  · rw [hoffset', hoffset, List.length_append, Nat.add_assoc]

theorem Before.within {bs : Bytes} (h : (ofBytes bs).Before c) :
    c.offset ≤ bs.length ∧ c.rest = bs.drop c.offset := by
  obtain ⟨taken, hrest, hoffset⟩ := h
  have hbs : bs = taken ++ c.rest := hrest
  have htaken : c.offset = taken.length := by rw [hoffset, ofBytes, Nat.zero_add]
  rw [htaken, hbs, List.length_append, List.drop_left]
  exact ⟨Nat.le_add_right _ _, rfl⟩

end Cursor

theorem Reader.before_takeExactly (n : Nat) (c : Cursor) : c.Before (takeExactly n c).2 := by
  unfold takeExactly
  split
  · next h => exact ⟨c.rest.take n, (List.take_append_drop n c.rest).symm, by rw [h]⟩
  · exact .refl c

/-- A read that fails has taken what the steps before its fault took. -/
theorem Reader.Composed.before {α : Type} {m : Reader α} (hm : Composed m) (c : Cursor) :
    c.Before (m c).2 := by
  induction hm generalizing c with
  | answers a => exact .refl c
  | refuses cause => exact .refl c
  | takes n => exact before_takeExactly n c
  | @steps _ _ m k _ _ first next =>
    have hfirst := first c
    rcases exceptT_bind_cases m k c with ⟨cause, c', hrun, hbind⟩ | ⟨a, c', hrun, hbind⟩
    · rw [hrun] at hfirst
      rw [hbind]
      exact hfirst
    · rw [hrun] at hfirst
      rw [hbind]
      exact hfirst.trans (next a c')

/-- What a reader is asked for: a field of some kind, the code of a family, or that nothing is left. -/
inductive Ask
  | field (kind : Field.Kind)
  | family
  | finish

namespace Ask

/-- Where a read leaves the cursor, whether it comes through or fails. -/
def after : Ask → Cursor → Cursor
  | field kind, c => (Field.read kind c).2
  | family, c => (Reader.family c).2
  | finish, c => (Reader.finish c).2

/-- The cursors before, between and behind reads in a row. -/
def cursors (asks : List Ask) (c : Cursor) : List Cursor := asks.scanl (fun c' ask => ask.after c') c

theorem before_after (ask : Ask) (c : Cursor) : c.Before (ask.after c) := by
  cases ask with
  | field kind => exact (composed_field kind).before c
  | family => exact composed_family.before c
  | finish =>
    rw [after, finish_run]
    exact .refl c

theorem before_of_mem_cursors {asks : List Ask} {c c' : Cursor} (h : c' ∈ cursors asks c) :
    c.Before c' := by
  induction asks generalizing c with
  | nil =>
    rw [cursors, List.scanl_nil, List.mem_singleton] at h
    rw [h]
    exact .refl c
  | cons ask asks ih =>
    rw [cursors, List.scanl_cons] at h
    rcases List.mem_cons.mp h with rfl | hlater
    · exact .refl c'
    · exact (ask.before_after c).trans (ih hlater)

end Ask

theorem Utf8.size_replicate (n : Nat) : (String.ofList (List.replicate n 'a')).utf8ByteSize = n := by
  rw [← encode_length, encode_eq_flatMap, String.toList_ofList, List.flatMap_replicate,
    List.length_flatten, List.map_replicate, List.sum_replicate_nat]
  exact Nat.mul_one n

namespace Field

variable {f : Field} {fields : List Field} {bs : Bytes}

/-- Writes fields in order. A refused one keeps none of those behind it from being written. -/
def writeEach (fields : List Field) : StateM Bytes (List (Except Rejection Unit)) :=
  fields.mapM fun f => (write f).run

theorem write_of_encode (h : f.encode = .ok bs) (written : Bytes) :
    write f written = (.ok (), written ++ bs) := by
  rw [write, h]
  rfl

theorem write_of_refused {reason : Rejection} (h : f.encode = .error reason) (written : Bytes) :
    write f written = (.error reason, written) := by
  rw [write, h]
  rfl

theorem writeEach_cons (f : Field) (fields : List Field) (written : Bytes) :
    writeEach (f :: fields) written =
      ((write f written).1 :: (writeEach fields (write f written).2).1,
        (writeEach fields (write f written).2).2) := by
  rw [writeEach, List.mapM_cons]
  rfl

theorem encode_of_le {s : String} (h : s.utf8ByteSize ≤ 65535) :
    encode (text s) = .ok (textBytes s) := if_pos (Nat.lt_succ_of_le h)

theorem encode_of_lt {s : String} (h : 65535 < s.utf8ByteSize) :
    encode (text s) = .error (.textTooLong s.utf8ByteSize) := if_neg (Nat.not_lt.mpr h)

/-- A field is read by its kind from the bytes it was written with. -/
theorem exists_reads (f : Field) (h : ∀ s, f = text s → s.utf8ByteSize ≤ 65535) :
    ∃ bs, f.encode = .ok bs ∧ Reads (read f.kind) bs f := by
  cases f with
  | byte v => exact ⟨_, rfl, reads_map (reads_byte v)⟩
  | int32 v => exact ⟨_, rfl, reads_map (reads_int32 v)⟩
  | int64 v => exact ⟨_, rfl, reads_map (reads_int64 v)⟩
  | bytes v => exact ⟨_, rfl, reads_map (reads_take rfl)⟩
  | text s =>
    have hs := h s rfl
    exact ⟨_, encode_of_le hs, reads_map (reads_text (Nat.lt_succ_of_le hs))⟩
  | varint32 v => exact ⟨_, rfl, reads_map (reads_varint32 v)⟩
  | varint v => exact ⟨_, rfl, reads_map (reads_varint v)⟩
  | ip v => exact ⟨_, rfl, reads_map (reads_ip rfl)⟩

theorem exists_written (h : ∀ s, text s ∈ fields → s.utf8ByteSize ≤ 65535) :
    ∃ bs, (∀ written, writeEach fields written = (fields.map fun _ => .ok (), written ++ bs)) ∧
      Reads ((fields.map kind).mapM read) bs fields := by
  induction fields with
  | nil =>
    refine ⟨[], fun written => ?_, reads_pure []⟩
    rw [List.append_nil]
    rfl
  | cons f fields ih =>
    obtain ⟨first, hfirst, hread⟩ := exists_reads f fun s hs => h s (hs ▸ List.mem_cons_self)
    obtain ⟨rest, hrest, hreads⟩ := ih fun s hs => h s (List.mem_cons_of_mem f hs)
    refine ⟨first ++ rest, fun written => ?_, ?_⟩
    · rw [writeEach_cons, write_of_encode hfirst, hrest, List.append_assoc, List.map_cons]
    · have htail := reads_bind (k := fun values => pure (f :: values)) hreads (reads_pure _)
      rw [List.append_nil] at htail
      rw [List.map_cons, List.mapM_cons]
      exact reads_bind hread htail

theorem writeEach_refused {s : String} (h : 65535 < s.utf8ByteSize) (before later : List Field)
    (written : Bytes) : ∃ answers answers' bs, answers.length = before.length ∧
      writeEach (before ++ later) written = (answers ++ answers', bs) ∧
      writeEach (before ++ text s :: later) written =
        (answers ++ .error (.textTooLong s.utf8ByteSize) :: answers', bs) := by
  induction before generalizing written with
  | nil =>
    refine ⟨[], (writeEach later written).1, (writeEach later written).2, rfl, rfl, ?_⟩
    rw [List.nil_append, writeEach_cons, write_of_refused (encode_of_lt h)]
    rfl
  | cons f before ih =>
    obtain ⟨answers, answers', bs, hlength, hwithout, hwith⟩ := ih (write f written).2
    refine ⟨(write f written).1 :: answers, answers', bs, congrArg Nat.succ hlength, ?_, ?_⟩
    · rw [List.cons_append, writeEach_cons, hwithout, List.cons_append]
    · rw [List.cons_append, writeEach_cons, hwith, List.cons_append]

/-- Whatever fields are written one after another, reading them by their kinds gives them back and leaves
what follows. A text that is too long is refused and changes nothing of what else is written and answered.
However reads end, the offset is never beyond the bytes, and what is left are the bytes from it on. -/
theorem fields_read_back :
    (∀ fields : List Field, (∀ s, text s ∈ fields → s.utf8ByteSize ≤ 65535) → ∃ bs,
      (∀ written, writeEach fields written = (fields.map fun _ => .ok (), written ++ bs)) ∧
      ∀ offset suffix, (fields.map kind).mapM read ⟨offset, bs ++ suffix⟩ =
        (.ok fields, ⟨offset + bs.length, suffix⟩)) ∧
    (∀ (s : String) (before later : List Field) (written : Bytes), 65535 < s.utf8ByteSize →
      ∃ answers answers' bs, answers.length = before.length ∧
        writeEach (before ++ later) written = (answers ++ answers', bs) ∧
        writeEach (before ++ text s :: later) written =
          (answers ++ .error (.textTooLong s.utf8ByteSize) :: answers', bs)) ∧
    ∀ (bs : Bytes) (asks : List Ask), ∀ c ∈ Ask.cursors asks (Cursor.ofBytes bs),
      c.offset ≤ bs.length ∧ c.rest = bs.drop c.offset :=
  ⟨fun _ h => exists_written h, fun _ before later written h => writeEach_refused h before later written,
    fun _ _ _ hc => (Ask.before_of_mem_cursors hc).within⟩

/-- A text in Cyrillic, a negative number, no bytes at all and an address, with half a number behind them; a
text that is a byte too long between two bytes; and reads of a text that is cut off. -/
theorem fields_read_back_mixed :
    (∃ bs, writeEach [text "агент-1", varint32 (-7), bytes [], ip ⟨.v4, [10, 0, 0, 1], rfl⟩] [] =
        ([.ok (), .ok (), .ok (), .ok ()], bs) ∧
      [Kind.text, .varint32, .bytes 0, .ip .v4].mapM read (Cursor.ofBytes (bs ++ [0x80])) =
        (.ok [text "агент-1", varint32 (-7), bytes [], ip ⟨.v4, [10, 0, 0, 1], rfl⟩],
          ⟨bs.length, [0x80]⟩)) ∧
    (∃ s : String, 65535 < s.utf8ByteSize ∧ writeEach [byte 1, text s, byte 2] [] =
      ([.ok (), .error (.textTooLong s.utf8ByteSize), .ok ()], [1, 2])) ∧
    ∀ c ∈ Ask.cursors [.field .text, .family, .field .varint, .finish] (Cursor.ofBytes [0, 9, 0x80]),
      c.offset ≤ 3 := by
  obtain ⟨hback, hrefused, hwithin⟩ := fields_read_back
  refine ⟨?_, ?_, fun c hc => (hwithin _ _ c hc).1⟩
  · have hshort : ∀ s, text s ∈ [text "агент-1", varint32 (-7), bytes [],
        ip ⟨.v4, [10, 0, 0, 1], rfl⟩] → s.utf8ByteSize ≤ 65535 := by
      intro s hs
      have h : s = "агент-1" := by simpa using hs
      rw [h]
      decide
    obtain ⟨bs, hwritten, hread⟩ := hback _ hshort
    have h := hread 0 [0x80]
    rw [Nat.zero_add] at h
    exact ⟨bs, by simpa using hwritten [], h⟩
  · obtain ⟨s, hs⟩ : ∃ s : String, s.utf8ByteSize = 65536 := ⟨_, Utf8.size_replicate 65536⟩
    have hlong : 65535 < s.utf8ByteSize := by omega
    obtain ⟨answers, answers', bs, hlength, hwithout, hwith⟩ := hrefused s [byte 1] [byte 2] [] hlong
    obtain ⟨answer, rfl⟩ := List.length_eq_one_iff.mp hlength
    have hboth : ([.ok (), .ok ()], [1, 2]) = (answer :: answers', bs) := hwithout
    cases hboth
    exact ⟨s, hlong, hwith⟩

end Field

end NetAtlas

import NetAtlas.Proofs.Record.Registry
import NetAtlas.Store.Packed

set_option autoImplicit false

/-!
# Packed cells

A row is packed into bytes that give back its cells, if their lengths fit into four bytes, and bytes that
give cells are those the cells are packed into. So a cell ends at one place only: no bytes are those of two
rows, and a row that is cut between its cells is the row of the cells before the cut.
-/
namespace NetAtlas

namespace Reader

variable {α : Type} {m : Reader α} {f : Corruption → Corruption} {c c' : Cursor} {a : α}

theorem reads_adapt {bs : Bytes} (f : Corruption → Corruption) (h : Reads m bs a) :
    Reads (ExceptT.adapt f m) bs a := by
  intro offset rest
  change (Except.mapError f (m ⟨offset, bs ++ rest⟩).1, (m ⟨offset, bs ++ rest⟩).2) = _
  rw [h]
  rfl

theorem adapt_eq_ok (h : (ExceptT.adapt f m : Reader α) c = (.ok a, c')) : m c = (.ok a, c') := by
  change (Except.mapError f (m c).1, (m c).2) = _ at h
  rcases hm : m c with ⟨e | b, c₁⟩
  · rw [hm] at h
    cases h
  · rw [hm] at h
    cases h
    rfl

theorem adapt_eq_error {fault cause : Corruption}
    (h : ((ExceptT.adapt (fun _ => fault) m : Reader α) c).1 = .error cause) : cause = fault := by
  change Except.mapError (fun _ => fault) (m c).1 = _ at h
  rcases hm : m c with ⟨e | b, c₁⟩
  · rw [hm] at h
    cases h
    rfl
  · rw [hm] at h
    cases h

end Reader

namespace Row

open Reader

theorem reads_part {part : Bytes} (h : part.length < Bytes.room 4) :
    Reads readPart (packPart part) part := by
  have hsize : Bytes.toNat (Bytes.bigEndian 4 part.length) = part.length := by
    rw [Bytes.toNat_bigEndian, Nat.mod_eq_of_lt]
    exact h
  apply reads_bind (reads_adapt _ (reads_take (Bytes.bigEndian_length 4 _)))
  rw [hsize]
  exact reads_adapt _ (reads_take rfl)

/-- A part that is read had its own length in front of it, in four bytes. -/
theorem readPart_eq_ok {c c' : Cursor} {part : Bytes} (h : readPart c = (.ok part, c')) :
    part.length < Bytes.room 4 ∧ c.rest = packPart part ++ c'.rest := by
  obtain ⟨size, c₁, hsize, hpart⟩ := bind_eq_ok h
  obtain ⟨hfour, hsize⟩ := take_eq_ok (adapt_eq_ok hsize)
  obtain ⟨hlength, hpart⟩ := take_eq_ok (adapt_eq_ok hpart)
  have hlt := Bytes.toNat_lt size
  rw [hfour, ← hlength] at hlt
  refine ⟨hlt, ?_⟩
  rw [packPart, hlength, ← hfour, Bytes.bigEndian_toNat, hsize, hpart, List.append_assoc]

theorem readPart_eq_error {c : Cursor} {cause : Corruption} (h : (readPart c).1 = .error cause) :
    cause = .cellLength ∨ cause = .cellPayload := by
  rcases bind_eq_error h with h | ⟨_, _, _, h⟩
  · exact Or.inl (adapt_eq_error h)
  · exact Or.inr (adapt_eq_error h)

def packCell (c : Cell) : Bytes := packPart c.qualifier ++ packPart c.value

theorem packCell_ne_nil (c : Cell) : packCell c ≠ [] := by
  apply List.ne_nil_of_length_pos
  rw [packCell, packPart, List.length_append, List.length_append, Bytes.bigEndian_length]
  omega

def readCell : Reader Cell := do return ⟨← readPart, ← readPart⟩

theorem reads_cell {c : Cell} (hq : c.qualifier.length < Bytes.room 4)
    (hv : c.value.length < Bytes.room 4) : Reads readCell (packCell c) c := by
  apply reads_bind (reads_part hq)
  rw [← List.append_nil (packPart c.value)]
  exact reads_bind (reads_part hv) (reads_pure c)

theorem readCell_eq_ok {c c' : Cursor} {cell : Cell} (h : readCell c = (.ok cell, c')) :
    (cell.qualifier.length < Bytes.room 4 ∧ cell.value.length < Bytes.room 4) ∧
      c.rest = packCell cell ++ c'.rest := by
  obtain ⟨q, c₁, hq, h⟩ := bind_eq_ok h
  obtain ⟨v, c₂, hv, h⟩ := bind_eq_ok h
  cases h
  obtain ⟨hqfits, hqrest⟩ := readPart_eq_ok hq
  obtain ⟨hvfits, hvrest⟩ := readPart_eq_ok hv
  refine ⟨⟨hqfits, hvfits⟩, ?_⟩
  rw [hqrest, hvrest, packCell, List.append_assoc]

theorem readCell_eq_error {c : Cursor} {cause : Corruption} (h : (readCell c).1 = .error cause) :
    cause = .cellLength ∨ cause = .cellPayload := by
  rcases bind_eq_error h with h | ⟨_, _, _, h⟩
  · exact readPart_eq_error h
  · rcases bind_eq_error h with h | ⟨_, _, _, h⟩
    · exact readPart_eq_error h
    · cases h

variable {cells : List Cell}

theorem unpack_pack
    (h : ∀ c ∈ cells, c.qualifier.length < Bytes.room 4 ∧ c.value.length < Bytes.room 4) :
    unpack (pack cells) = .ok cells :=
  read_many (fun c hc => reads_cell (h c hc).1 (h c hc).2) packCell_ne_nil

theorem fits_of_unpack {bs : Bytes} (h : unpack bs = .ok cells) :
    ∀ c ∈ cells, c.qualifier.length < Bytes.room 4 ∧ c.value.length < Bytes.room 4 :=
  forall_of_go (fun _ _ _ hcell => (readCell_eq_ok hcell).1) h

theorem pack_of_unpack {bs : Bytes} (h : unpack bs = .ok cells) : pack cells = bs :=
  (flatMap_of_read_many (fun _ _ _ hcell => (readCell_eq_ok hcell).2) packCell_ne_nil h).symm

theorem unpack_eq_error {bs : Bytes} {cause : Corruption} (h : unpack bs = .error cause) :
    cause = .cellLength ∨ cause = .cellPayload := by
  obtain ⟨_, hcell⟩ := go_eq_error h
  exact readCell_eq_error hcell

theorem pack_cons (c : Cell) (cells : List Cell) : pack (c :: cells) = packCell c ++ pack cells := rfl

/-- Cells whose lengths can be written with four bytes, which are those below 2 to the power of 32. -/
def Packable (cells : List Cell) : Prop :=
  ∀ c ∈ cells, c.qualifier.length < 4294967296 ∧ c.value.length < 4294967296

/-- What begins with the bytes of a row begins with its cells. -/
theorem prefix_of_pack {found : List Cell} (hfound : Packable found) (hcells : Packable cells)
    (h : pack found <+: pack cells) : found <+: cells := by
  induction found generalizing cells with
  | nil => exact List.nil_prefix
  | cons d found ih =>
    obtain ⟨hd, hfound⟩ := List.forall_mem_cons.mp hfound
    obtain ⟨behind, h⟩ := h
    rw [pack_cons, List.append_assoc] at h
    cases cells with
    | nil => exact absurd (List.append_eq_nil_iff.mp h).1 (packCell_ne_nil d)
    | cons c cells =>
      obtain ⟨hc, hlater⟩ := List.forall_mem_cons.mp hcells
      obtain ⟨rfl, hrest⟩ := (reads_cell hd.1 hd.2).append_inj (reads_cell hc.1 hc.2) h
      exact List.cons_prefix_cons.mpr ⟨rfl, ih hfound hlater ⟨behind, hrest⟩⟩

/-- A length that is one too large for four bytes is written as 0. -/
theorem pack_of_room {value : Bytes} (hlength : value.length = Bytes.room 4) :
    pack [⟨[], value⟩] = pack [⟨[], []⟩] ++ value := by
  have hzero : Bytes.bigEndian 4 (Bytes.room 4) = Bytes.bigEndian 4 0 := by decide
  simp [pack, packPart, hlength, hzero]

/-- The bytes of such a value are then read as further cells. If they begin with the largest length that
can be written, they are none. -/
theorem unpack_pack_of_room {value : Bytes} (hlength : value.length = Bytes.room 4)
    (hbegins : value.take 4 = [255, 255, 255, 255]) (cells : List Cell) :
    unpack (pack [⟨[], value⟩]) ≠ .ok cells := by
  intro h
  have hfits := fits_of_unpack h
  have hpack := pack_of_unpack h
  have hempty : Packable [⟨[], []⟩] := by
    unfold Packable
    decide
  rw [pack_of_room hlength] at hpack
  obtain ⟨rest, rfl⟩ := prefix_of_pack hempty hfits ⟨value, hpack.symm⟩
  have hrest : pack rest = value := List.append_cancel_left (hpack : pack [⟨[], []⟩] ++ pack rest = _)
  cases rest with
  | nil =>
    rw [← hrest] at hlength
    cases hlength
  | cons c rest =>
    rw [pack_cons, packCell, packPart] at hrest
    have hsize : Bytes.bigEndian 4 c.qualifier.length = [255, 255, 255, 255] := by
      rw [← hbegins, ← hrest]
      simp [Bytes.bigEndian_length]
    have hlong : c.qualifier.length = 4294967295 := by
      have hlt := (hfits c (by simp)).1
      have hread := congrArg Bytes.toNat hsize
      rw [Bytes.toNat_bigEndian, Nat.mod_eq_of_lt hlt] at hread
      exact hread
    have htotal := congrArg List.length hrest
    rw [hlength] at htotal
    simp only [List.length_append, Bytes.bigEndian_length, hlong, Bytes.room] at htotal
    omega

/-- A part of a row's bytes is a row just when it ends behind one of the cells. -/
theorem unpack_prefix_iff (hcells : Packable cells) {part : Bytes} (hpart : part <+: pack cells)
    (hne : part ≠ pack cells) :
    (∃ found, unpack part = .ok found) ↔ ∃ n < cells.length, part = pack (cells.take n) := by
  constructor
  · rintro ⟨found, hfound⟩
    have hpack := pack_of_unpack hfound
    have hbegins : found <+: cells := prefix_of_pack (fits_of_unpack hfound) hcells (hpack ▸ hpart)
    have htake := List.prefix_iff_eq_take.mp hbegins
    refine ⟨found.length, ?_, by rw [← htake, hpack]⟩
    refine Nat.lt_of_le_of_ne hbegins.length_le fun hall => hne ?_
    rw [← hpack, hbegins.eq_of_length hall]
  · rintro ⟨n, _, rfl⟩
    exact ⟨cells.take n, unpack_pack fun c hc => hcells c (List.mem_of_mem_take hc)⟩

theorem pack_inj {others : List Cell} (hcells : Packable cells) (hothers : Packable others)
    (h : pack cells = pack others) : cells = others := by
  have hread := unpack_pack hcells
  rw [h, unpack_pack hothers] at hread
  exact (Except.ok.inj hread).symm

/-- Packing and unpacking are inverse to each other. Cells whose lengths can be written are found in the bytes
they are packed into; all bytes are either such bytes or corrupt. Bytes of a row that is cut are a row
just when no cell is cut, and no two rows have the same bytes. -/
theorem packs_one_to_one :
    (∀ cells, Packable cells → unpack (pack cells) = .ok cells) ∧
    (∀ bs, (∃ cells, unpack bs = .ok cells ∧ pack cells = bs ∧ Packable cells) ∨
      unpack bs = .error .cellLength ∨ unpack bs = .error .cellPayload) ∧
    (∀ cells part, Packable cells → part <+: pack cells → part ≠ pack cells →
      ((∃ found, unpack part = .ok found) ↔ ∃ n < cells.length, part = pack (cells.take n))) ∧
    ∀ cells others, Packable cells → Packable others → pack cells = pack others → cells = others := by
  refine ⟨fun _ => unpack_pack, fun bs => ?_, fun _ _ hcells => unpack_prefix_iff hcells,
    fun _ _ => pack_inj⟩
  cases hread : unpack bs with
  | ok cells => exact Or.inl ⟨cells, rfl, pack_of_unpack hread, fits_of_unpack hread⟩
  | error cause =>
    rcases unpack_eq_error hread with rfl | rfl
    · exact Or.inr (Or.inl rfl)
    · exact Or.inr (Or.inr rfl)

/-- Two cells, the second without a qualifier: the bytes of the first alone are a row, and with the first
byte of the second they are none. -/
theorem packs_one_to_one_cut :
    Packable [⟨[97], [1, 2]⟩, ⟨[], [7]⟩] ∧
    unpack (pack [⟨[97], [1, 2]⟩, ⟨[], [7]⟩]) = .ok [⟨[97], [1, 2]⟩, ⟨[], [7]⟩] ∧
    (∃ found, unpack [0, 0, 0, 1, 97, 0, 0, 0, 2, 1, 2] = .ok found) ∧
    ¬ ∃ found, unpack [0, 0, 0, 1, 97, 0, 0, 0, 2, 1, 2, 0] = .ok found := by
  obtain ⟨hread, _, hcut, _⟩ := packs_one_to_one
  have hcells : Packable [⟨[97], [1, 2]⟩, ⟨[], [7]⟩] := by
    unfold Packable
    decide
  refine ⟨hcells, hread _ hcells, ?_, ?_⟩
  · exact (hcut _ _ hcells (by decide) (by decide)).mpr ⟨1, by decide, rfl⟩
  · rw [hcut _ _ hcells (by decide) (by decide)]
    decide

end Row

end NetAtlas

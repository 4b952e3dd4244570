import NetAtlas.Proofs.Bytes.Taken
import NetAtlas.Service.Delivery

set_option autoImplicit false

/-!
# Frames on a stream

A stream is the frames of some payloads and a tail that begins with no frame, and it is so in one way
only. Reading it off pieces finds these payloads, wherever it was cut.
-/
namespace NetAtlas

namespace Frame

/-- What is left of a stream when no frame can be read. -/
inductive Stops : Bytes → Stop → Prop
  | ended {tail : Bytes} (hlength : tail.length < 4) : Stops tail .ended
  | cut {announced part : Bytes} (hannounced : announced.length = 4)
      (hsize : announced.toNat ≤ maxPayload) (hpart : part.length < announced.toNat) :
      Stops (announced ++ part) .cut
  | oversized {announced behind : Bytes} (hannounced : announced.length = 4)
      (hsize : maxPayload < announced.toNat) : Stops (announced ++ behind) .oversized

/-- A stream of frames with some payloads and a tail that begins with no frame. -/
structure Framing (stream : Bytes) (payloads : List Bytes) (tail : Bytes) : Prop where
  stream_eq : stream = payloads.flatMap encode ++ tail
  length_le : ∀ payload ∈ payloads, payload.length ≤ maxPayload
  tail_ne : ∀ payload rest, payload.length ≤ maxPayload → tail ≠ encode payload ++ rest

section Front

variable {stream tail payload rest : Bytes} {stop : Stop}

theorem front_cases (stream : Bytes) :
    (∃ payload rest, front stream = .frame payload rest ∧ payload.length ≤ maxPayload ∧
      stream = encode payload ++ rest) ∨
    ∃ stop, front stream = .stopped stop ∧ Stops stream stop := by
  have hstream : stream = stream.take 4 ++ stream.drop 4 := (List.take_append_drop 4 stream).symm
  have hlength : (stream.take 4).length = min 4 stream.length := List.length_take
  simp only [front]
  by_cases hshort : (stream.take 4).length < 4
  · rw [if_pos hshort]
    exact .inr ⟨_, rfl, .ended (by omega)⟩
  rw [if_neg hshort]
  have hannounced : (stream.take 4).length = 4 := by omega
  generalize stream.take 4 = announced at hstream hannounced ⊢
  generalize stream.drop 4 = behind at hstream ⊢
  subst hstream
  by_cases hsize : maxPayload < Bytes.toNat announced
  · rw [if_pos hsize]
    exact .inr ⟨_, rfl, .oversized hannounced hsize⟩
  rw [if_neg hsize, List.length_take]
  by_cases hcut : min (Bytes.toNat announced) behind.length < Bytes.toNat announced
  · rw [if_pos hcut]
    exact .inr ⟨_, rfl, .cut hannounced (Nat.le_of_not_lt hsize) (by omega)⟩
  rw [if_neg hcut]
  have hwhole : (behind.take (Bytes.toNat announced)).length = Bytes.toNat announced :=
    List.length_take_of_le (by omega)
  refine .inl ⟨_, _, rfl, by omega, ?_⟩
  rw [encode, hwhole, ← hannounced, Bytes.bigEndian_toNat, List.append_assoc, List.take_append_drop]

theorem front_eq_frame :
    front stream = .frame payload rest ↔
      payload.length ≤ maxPayload ∧ stream = encode payload ++ rest := by
  constructor
  · intro h
    obtain ⟨payload', rest', hfront, hframe⟩ | ⟨stop, hfront, _⟩ := front_cases stream
    · rw [h] at hfront
      cases hfront
      exact hframe
    · rw [h] at hfront
      cases hfront
  · rintro ⟨hlength, rfl⟩
    exact front_encode hlength rest

theorem stops_of_front (h : front stream = .stopped stop) : Stops stream stop := by
  obtain ⟨_, _, hfront, _⟩ | ⟨stop', hfront, hstops⟩ := front_cases stream
  · rw [h] at hfront
    cases hfront
  · rw [h] at hfront
    cases hfront
    exact hstops

theorem exists_front_stopped
    (h : ∀ payload rest, payload.length ≤ maxPayload → tail ≠ encode payload ++ rest) :
    ∃ stop, front tail = .stopped stop := by
  obtain ⟨payload, rest, _, hlength, hframe⟩ | ⟨stop, hstop, _⟩ := front_cases tail
  · exact absurd hframe (h payload rest hlength)
  · exact ⟨stop, hstop⟩

end Front

namespace Framing

variable {stream tail tail' payload : Bytes} {payloads payloads' : List Bytes}

theorem nil (h : ∀ payload rest, payload.length ≤ maxPayload → tail ≠ encode payload ++ rest) :
    Framing tail [] tail :=
  ⟨rfl, fun _ hmem => absurd hmem List.not_mem_nil, h⟩

theorem cons (hlength : payload.length ≤ maxPayload) (h : Framing stream payloads tail) :
    Framing (encode payload ++ stream) (payload :: payloads) tail where
  stream_eq := by rw [h.stream_eq, List.flatMap_cons, List.append_assoc]
  length_le := List.forall_mem_cons.mpr ⟨hlength, h.length_le⟩
  tail_ne := h.tail_ne

theorem uncons (h : Framing stream (payload :: payloads) tail) :
    ∃ rest, front stream = .frame payload rest ∧ Framing rest payloads tail := by
  obtain ⟨hlength, hlengths⟩ := List.forall_mem_cons.mp h.length_le
  refine ⟨payloads.flatMap encode ++ tail, ?_, rfl, hlengths, h.tail_ne⟩
  exact front_eq_frame.mpr ⟨hlength, by rw [h.stream_eq, List.flatMap_cons, List.append_assoc]⟩

theorem exists_stopped (h : Framing stream [] tail) : stream = tail ∧ ∃ stop, front stream = .stopped stop := by
  have hstream : stream = tail := h.stream_eq
  rw [hstream]
  exact ⟨rfl, exists_front_stopped h.tail_ne⟩

theorem unique (h : Framing stream payloads tail) (h' : Framing stream payloads' tail') :
    payloads' = payloads ∧ tail' = tail := by
  induction payloads generalizing stream payloads' with
  | nil =>
    obtain ⟨hstream, stop, hfront⟩ := h.exists_stopped
    cases payloads' with
    | nil => exact ⟨rfl, h'.exists_stopped.1.symm.trans hstream⟩
    | cons payload payloads' =>
      obtain ⟨rest, hframe, _⟩ := h'.uncons
      rw [hfront] at hframe
      cases hframe
  | cons payload payloads ih =>
    obtain ⟨rest, hframe, hrest⟩ := h.uncons
    cases payloads' with
    | nil =>
      obtain ⟨_, stop, hfront⟩ := h'.exists_stopped
      rw [hfront] at hframe
      cases hframe
    | cons payload' payloads' =>
      obtain ⟨rest', hframe', hrest'⟩ := h'.uncons
      rw [hframe] at hframe'
      cases hframe'
      obtain ⟨rfl, rfl⟩ := ih hrest hrest'
      exact ⟨rfl, rfl⟩

end Framing

theorem exists_framing (stream : Bytes) : ∃ tail, Framing stream (payloads stream) tail := by
  induction stream using payloads.induct with
  | case1 stream payload rest hfront ih =>
    obtain ⟨hlength, hstream⟩ := front_eq_frame.mp hfront
    obtain ⟨tail, hrest⟩ := ih
    rw [payloads, hfront]
    subst hstream
    exact ⟨tail, hrest.cons hlength⟩
  | case2 stream hnone =>
    have hpayloads : payloads stream = [] := by
      rw [payloads]
      split
      · next hfront => exact absurd hfront (hnone _ _)
      · rfl
    rw [hpayloads]
    exact ⟨stream, .nil fun payload rest hlength hstream =>
      hnone payload rest (front_eq_frame.mpr ⟨hlength, hstream⟩)⟩

end Frame

namespace Delivery

open NetAtlas.Frame

variable {pieces : Delivery} {payload tail : Bytes} {payloads : List Bytes} {stop : Stop}

theorem read_cons (h : Framing pieces.flatten (payload :: payloads) tail) :
    ∃ rest, read pieces = .frame payload rest ∧ Framing rest.flatten payloads tail := by
  obtain ⟨behind, hfront, hbehind⟩ := h.uncons
  cases hread : read pieces with
  | frame payload' rest =>
    rw [front_of_read hread] at hfront
    cases hfront
    exact ⟨rest, rfl, hbehind⟩
  | stopped stop =>
    rw [front_of_stopped hread] at hfront
    cases hfront

theorem read_nil (h : Framing pieces.flatten [] tail) (htail : front tail = .stopped stop) :
    read pieces = .stopped stop := by
  rw [← h.exists_stopped.1] at htail
  cases hread : read pieces with
  | frame payload rest =>
    rw [front_of_read hread] at htail
    cases htail
  | stopped stop' =>
    rw [front_of_stopped hread] at htail
    cases htail
    rfl

-- An empty payload and one of a byte, both cut inside their lengths; the stream ends inside a third.
example : messages [[0, 0], [0, 0, 0, 0], [0, 1, 7, 0]] = ([[], [7]], .ended) := by cbv

end Delivery

end NetAtlas

import NetAtlas.Service.Frame

set_option autoImplicit false

/-!
# Deliveries

A stream comes in pieces that are cut anywhere. A frame is read off their front: the four bytes of its
length, then as many bytes as they announce, each gathered from as many pieces as it takes.
-/
namespace NetAtlas

/-- A stream in the pieces it comes in. -/
abbrev Delivery := List Bytes

namespace Delivery

/-- So many bytes off the front and what is left behind them, if the stream does not end before. -/
def take? (size : Nat) : Delivery → Option (Bytes × Delivery)
  | [] => if size = 0 then some ([], []) else none
  | piece :: pieces =>
    let taken := piece.take size
    if taken.length = size then some (taken, piece.drop size :: pieces)
    else (take? (size - taken.length) pieces).map fun (more, rest) => (taken ++ more, rest)

/-- What is taken is the front of the whole stream, however it is cut. -/
theorem take?_flatten (size : Nat) (pieces : Delivery) :
    (take? size pieces).map (fun (taken, rest) => (taken, rest.flatten)) =
      if pieces.flatten.length < size then none
      else some (pieces.flatten.take size, pieces.flatten.drop size) := by
  induction pieces generalizing size with
  | nil =>
    by_cases h : size = 0
    · simp [take?, h]
    · simp [take?, h, Nat.pos_of_ne_zero h]
  | cons piece pieces ih =>
    rw [take?, List.flatten_cons, List.length_append, List.take_append, List.drop_append]
    by_cases h : size ≤ piece.length
    · have htaken : (piece.take size).length = size := List.length_take_of_le h
      rw [if_pos htaken, if_neg (by omega), Nat.sub_eq_zero_of_le h]
      simp
    · have htaken : piece.take size = piece := List.take_of_length_le (by omega)
      simp only [htaken]
      rw [if_neg (by omega), Option.map_map]
      have hmore := congrArg (Option.map fun (more, rest) => (piece ++ more, rest))
        (ih (size - piece.length))
      rw [Option.map_map] at hmore
      refine hmore.trans ?_
      by_cases hshort : pieces.flatten.length < size - piece.length
      · rw [if_pos hshort, if_pos (by omega)]
        rfl
      · rw [if_neg hshort, if_neg (by omega), List.drop_of_length_le (Nat.le_of_not_le h)]
        rfl

section Take

variable {size : Nat} {pieces rest : Delivery} {taken : Bytes}

theorem length_of_take?_none (h : take? size pieces = none) : pieces.flatten.length < size := by
  have hflatten := take?_flatten size pieces
  rw [h] at hflatten
  split at hflatten
  · assumption
  · cases hflatten

theorem flatten_of_take?_some (h : take? size pieces = some (taken, rest)) :
    size ≤ pieces.flatten.length ∧ pieces.flatten.take size = taken ∧
      pieces.flatten.drop size = rest.flatten := by
  have hflatten := take?_flatten size pieces
  rw [h] at hflatten
  split at hflatten
  · cases hflatten
  · next hlong =>
    simp only [Option.map_some, Option.some.injEq, Prod.mk.injEq] at hflatten
    exact ⟨Nat.le_of_not_lt hlong, hflatten.1.symm, hflatten.2.symm⟩

end Take

def read (pieces : Delivery) : Frame.Front Delivery :=
  match take? 4 pieces with
  | none => .stopped .ended
  | some (announced, rest) =>
    let size := Bytes.toNat announced
    if Frame.maxPayload < size then .stopped .oversized
    else
      match take? size rest with
      | none => .stopped .cut
      | some (payload, rest) => .frame payload rest

section Read

variable {pieces rest : Delivery} {payload : Bytes} {stop : Frame.Stop}

/-- What is read stands at the front of the whole stream. -/
theorem read_flatten (pieces : Delivery) :
    (read pieces).map List.flatten = Frame.front pieces.flatten := by
  rw [read, Frame.front]
  cases hlength : take? 4 pieces with
  | none =>
    have hshort := length_of_take?_none hlength
    rw [List.length_take, if_pos (by omega)]
    rfl
  | some front =>
    obtain ⟨announced, rest⟩ := front
    obtain ⟨hlong, htake, hdrop⟩ := flatten_of_take?_some hlength
    have hannounced : ¬ announced.length < 4 := by
      rw [← htake, List.length_take]
      omega
    simp only [htake, hdrop]
    rw [if_neg hannounced]
    by_cases hsize : Frame.maxPayload < announced.toNat
    · rw [if_pos hsize, if_pos hsize]
      rfl
    rw [if_neg hsize, if_neg hsize]
    cases hpayload : take? announced.toNat rest with
    | none =>
      have hcut := length_of_take?_none hpayload
      rw [List.length_take, if_pos (by omega)]
      rfl
    | some front =>
      obtain ⟨payload, behind⟩ := front
      obtain ⟨hwhole, htaken, hbehind⟩ := flatten_of_take?_some hpayload
      rw [List.length_take, if_neg (by omega), htaken, hbehind]
      rfl

theorem front_of_read (h : read pieces = .frame payload rest) :
    Frame.front pieces.flatten = .frame payload rest.flatten := by
  rw [← read_flatten, h]
  rfl

theorem front_of_stopped (h : read pieces = .stopped stop) :
    Frame.front pieces.flatten = .stopped stop := by
  rw [← read_flatten, h]
  rfl

theorem length_rest_lt (h : read pieces = .frame payload rest) :
    rest.flatten.length < pieces.flatten.length :=
  Frame.length_rest_lt (front_of_read h)

end Read

/-- The payloads of the frames that are read until none can be, and why none can. -/
def messages (pieces : Delivery) : List Bytes × Frame.Stop :=
  match _h : read pieces with
  | .frame payload rest =>
    let (payloads, stop) := messages rest
    (payload :: payloads, stop)
  | .stopped stop => ([], stop)
termination_by pieces.flatten.length
decreasing_by exact length_rest_lt _h

end Delivery

end NetAtlas

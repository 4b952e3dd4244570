import NetAtlas.Bytes.Basic

set_option autoImplicit false

/-!
# Frames

A stream is cut into frames: a payload behind the four bytes of its length. A stream may end between
two frames or inside a length; one that ends inside a payload is broken off, and so is one that
announces a payload that is too long.
-/
namespace NetAtlas

namespace Frame

/-- The longest payload. -/
def maxPayload : Nat := 104857600

def encode (payload : Bytes) : Bytes := Bytes.bigEndian 4 payload.length ++ payload

/-- Why no frame stands at the front of a stream. -/
inductive Stop
  | ended
  | cut
  | oversized
  deriving DecidableEq, Repr

/-- What stands at the front of a stream. -/
inductive Front (Rest : Type)
  | frame (payload : Bytes) (rest : Rest)
  | stopped (stop : Stop)
  deriving DecidableEq, Repr

def Front.map {α β : Type} (f : α → β) : Front α → Front β
  | frame payload rest => frame payload (f rest)
  | stopped stop => stopped stop

def front (stream : Bytes) : Front Bytes :=
  let announced := stream.take 4
  if announced.length < 4 then .stopped .ended
  else
    let size := Bytes.toNat announced
    let rest := stream.drop 4
    if maxPayload < size then .stopped .oversized
    else
      let payload := rest.take size
      if payload.length < size then .stopped .cut else .frame payload (rest.drop size)

theorem front_encode {payload : Bytes} (h : payload.length ≤ maxPayload) (rest : Bytes) :
    front (encode payload ++ rest) = .frame payload rest := by
  have hlength : (Bytes.bigEndian 4 payload.length).length = 4 := Bytes.bigEndian_length _ _
  have hsize : Bytes.toNat (Bytes.bigEndian 4 payload.length) = payload.length := by
    rw [Bytes.toNat_bigEndian]
    exact Nat.mod_eq_of_lt (Nat.lt_of_le_of_lt h (by decide))
  have htake : (encode payload ++ rest).take 4 = Bytes.bigEndian 4 payload.length := by
    rw [encode, List.append_assoc, List.take_left' hlength]
  have hdrop : (encode payload ++ rest).drop 4 = payload ++ rest := by
    rw [encode, List.append_assoc, List.drop_left' hlength]
  simp only [front, htake, hdrop, hsize, hlength, List.take_left, List.drop_left, Nat.lt_irrefl,
    if_false]
  rw [if_neg (Nat.not_lt.mpr h)]

theorem length_rest_lt {stream payload rest : Bytes} (h : front stream = .frame payload rest) :
    rest.length < stream.length := by
  unfold front at h
  simp only [List.length_take] at h
  split at h
  · cases h
  next hlong =>
  split at h
  · cases h
  split at h
  · cases h
  cases h
  simp only [List.length_drop]
  omega

/-- The payloads of the complete frames, in order. -/
def payloads (stream : Bytes) : List Bytes :=
  match _h : front stream with
  | .frame payload rest => payload :: payloads rest
  | _ => []
termination_by stream.length
decreasing_by exact length_rest_lt _h

end Frame

end NetAtlas

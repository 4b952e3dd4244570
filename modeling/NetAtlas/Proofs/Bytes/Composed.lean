import NetAtlas.Bytes.Field
import NetAtlas.Proofs.Outcomes

set_option autoImplicit false

/-!
# How readers are put together

A reader takes bytes, answers or refuses, one after another, and does nothing else. What is true of these
three and carries over from one step to the next is true of every reader.
-/
namespace NetAtlas

namespace Reader

variable {α β : Type}

inductive Composed : {α : Type} → Reader α → Prop
  | answers {α : Type} (a : α) : Composed (pure a : Reader α)
  | refuses {α : Type} (cause : Corruption) : Composed (throw cause : Reader α)
  | takes (n : Nat) : Composed (takeExactly n)
  | steps {α β : Type} {m : Reader α} {k : α → Reader β} (first : Composed m)
      (next : ∀ a, Composed (k a)) : Composed (m >>= k)

open Composed

theorem composed_map {m : Reader α} (hm : Composed m) (f : α → β) : Composed (f <$> m) := by
  rw [map_eq_pure_bind]
  exact steps hm fun a => answers (f a)

theorem composed_take (n : Nat) : Composed (take n) := composed_map (takes n) _

theorem composed_byte : Composed byte := steps (composed_take 1) fun _ => answers _

theorem composed_int32 : Composed int32 := steps (composed_take 4) fun _ => answers _

theorem composed_int64 : Composed int64 := steps (composed_take 8) fun _ => answers _

theorem composed_text : Composed text := by
  refine steps (composed_take 2) fun size => steps (composed_take _) fun bs => ?_
  split
  · exact answers _
  · exact refuses _

theorem composed_groups (more : Nat) : Composed (groups more) := by
  induction more with
  | zero =>
    refine steps composed_byte fun b => ?_
    split
    · exact refuses _
    · exact answers _
  | succ more ih =>
    refine steps composed_byte fun b => ?_
    split
    · exact answers _
    · exact steps ih fun _ => answers _

theorem composed_varint : Composed varint := steps (composed_groups _) fun _ => answers _

theorem composed_varint32 : Composed varint32 := by
  refine steps composed_varint fun v => ?_
  split
  · exact answers _
  · exact refuses _

theorem composed_family : Composed family := by
  refine steps composed_byte fun code => ?_
  split
  · exact answers _
  · exact refuses _

theorem composed_transport : Composed transport := by
  refine steps composed_byte fun code => ?_
  split
  · exact answers _
  · exact refuses _

theorem composed_ip (f : Family) : Composed (ip f) := steps (takes _) fun _ => answers _

theorem composed_field (kind : Field.Kind) : Composed (Field.read kind) := by
  cases kind with
  | byte => exact composed_map composed_byte _
  | int32 => exact composed_map composed_int32 _
  | int64 => exact composed_map composed_int64 _
  | bytes length => exact composed_map (composed_take length) _
  | text => exact composed_map composed_text _
  | varint32 => exact composed_map composed_varint32 _
  | varint => exact composed_map composed_varint _
  | ip family => exact composed_map (composed_ip family) _

end Reader

end NetAtlas

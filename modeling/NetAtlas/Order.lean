import Std.Data.ExtTreeMap
import Std.Data.ExtTreeSet

set_option autoImplicit false

/-!
# Orders by a key

Records are ordered by one of their parts, or by one part first and another second. Such an order
tells two records apart exactly when the parts do.
-/
namespace NetAtlas

open Std

theorem lawfulEqCmp_compareOn {α β : Type} [Ord β] [TransOrd β] [LawfulEqOrd β] {f : α → β}
    (hf : ∀ a b, f a = f b → a = b) : LawfulEqCmp (compareOn f) where
  compare_self := ReflCmp.compare_self
  eq_of_compare {a b} h := hf a b (LawfulEqCmp.eq_of_compare h)

theorem lawfulEqCmp_compareLex {α : Type} {c d : α → α → Ordering} [ReflCmp c] [ReflCmp d]
    (h : ∀ a b, c a b = .eq → d a b = .eq → a = b) : LawfulEqCmp (compareLex c d) where
  compare_self := ReflCmp.compare_self
  eq_of_compare {a b} hab := by
    rw [compareLex_eq_eq] at hab
    exact h a b hab.1 hab.2

end NetAtlas

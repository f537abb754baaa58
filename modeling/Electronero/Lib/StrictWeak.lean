import Mathlib.Order.RelClasses
import Mathlib.Data.Set.Function
/-!
# Strict weak orders on a set

What an ordered container asks of its comparison, for the elements in it.
-/

/-- `r` is a strict weak order of the elements of `s`, and only an element and itself are incomparable. -/
structure StrictWeakOn {α : Type*} (r : α → α → Prop) (s : Set α) : Prop where
  irrefl : ∀ a ∈ s, ¬r a a
  asymm : ∀ a ∈ s, ∀ b ∈ s, r a b → ¬r b a
  trans : ∀ a ∈ s, ∀ b ∈ s, ∀ c ∈ s, r a b → r b c → r a c
  incomparable_trans : ∀ a ∈ s, ∀ b ∈ s, ∀ c ∈ s, ¬r a b → ¬r b a → ¬r b c → ¬r c b → ¬r a c ∧ ¬r c a
  incomparable_eq : ∀ a ∈ s, ∀ b ∈ s, ¬r a b → ¬r b a → a = b

theorem StrictWeakOn.of_rank {α β : Type*} [LinearOrder β] {r : α → α → Prop} {s : Set α} {rank : α → β}
    (hrank : ∀ a ∈ s, ∀ b ∈ s, r a b ↔ rank a < rank b) (hinj : Set.InjOn rank s) : StrictWeakOn r s := by
  have hequal : ∀ a ∈ s, ∀ b ∈ s, ¬r a b → ¬r b a → a = b := by
    intro a ha b hb hab hba
    rw [hrank a ha b hb, not_lt] at hab
    rw [hrank b hb a ha, not_lt] at hba
    exact hinj ha hb (le_antisymm hba hab)
  refine ⟨?_, ?_, ?_, ?_, hequal⟩
  · grind
  · grind
  · grind
  · grind

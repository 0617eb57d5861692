/-
How many values of a function have a property.

When the value at one point changes, the number of points goes up by one if the new value
has the property, and down by one if the old one had it.
-/
import Mathlib.Data.Finset.Card
import Mathlib.Data.Fintype.Basic
import Mathlib.Tactic.Common

variable {α β : Type} [Fintype α] {p : β → Prop} [DecidablePred p]

/-- How many values have the property. -/
def count (p : β → Prop) [DecidablePred p] (f : α → β) : Nat :=
  (Finset.univ.filter fun a => p (f a)).card

theorem count_update [DecidableEq α] (f : α → β) (a : α) (b : β) :
    (count p (Function.update f a b) : Int) =
      count p f + (if p b then 1 else 0) - (if p (f a) then 1 else 0) := by
  have hrest : (Finset.univ.filter fun x => p (Function.update f a b x)).erase a =
      (Finset.univ.filter fun x => p (f x)).erase a := by
    ext x
    by_cases hx : x = a
    · simp [hx]
    · simp [hx]
  -- the points other than `a`, and `a`
  have hsplit : ∀ g : α → β, count p g =
      ((Finset.univ.filter fun x => p (g x)).erase a).card + if p (g a) then 1 else 0 := by
    intro g
    unfold count
    by_cases hg : p (g a)
    · have hmem : a ∈ Finset.univ.filter fun x => p (g x) := by simp [hg]
      rw [if_pos hg, Finset.card_erase_add_one hmem]
    · have hmem : a ∉ Finset.univ.filter fun x => p (g x) := by simp [hg]
      rw [if_neg hg, Finset.erase_eq_of_notMem hmem, Nat.add_zero]
  have hnew := hsplit (Function.update f a b)
  have hold := hsplit f
  rw [hrest, Function.update_self] at hnew
  rw [hnew, hold]
  split <;> split <;> omega

/-- Nothing is counted where no value has it. -/
theorem count_eq_zero {f : α → β} (h : ∀ a, ¬ p (f a)) : count p f = 0 := by
  unfold count
  rw [Finset.card_eq_zero, Finset.filter_eq_empty_iff]
  exact fun a _ => h a

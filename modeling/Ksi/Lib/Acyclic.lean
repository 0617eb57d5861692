/-
Relations without cycles.

`Acyclic r` says that no element reaches itself.  A cycle needs an edge that
closes it, so a relation stays acyclic when edges are dropped and when an edge is
added whose target does not lead back to its source.  On a finite set of sources
an acyclic relation is well founded, which gives induction along the edges.
-/
import Mathlib.Data.Finset.Basic
import Mathlib.Data.Set.Finite.Basic
import Mathlib.Order.WellFoundedSet

namespace Rel

open Relation

variable {α : Type}

/-- No element leads to itself. -/
def Acyclic (r : α → α → Prop) : Prop := ∀ a, ¬ TransGen r a a

variable {r r' : α → α → Prop}

/-- Dropping edges closes no cycle. -/
theorem Acyclic.mono (h : Acyclic r) (hsub : ∀ a b, r' a b → r a b) : Acyclic r' :=
  fun a hc => h a (TransGen.mono hsub _ _ hc)

/-- A rank that grows along every edge rules cycles out. -/
theorem Acyclic.of_rank (rank : α → Nat) (h : ∀ a b, r a b → rank a < rank b) : Acyclic r := by
  have hlt : ∀ a b, TransGen r a b → rank a < rank b := by
    intro a b hab
    induction hab with
    | single hab => exact h _ _ hab
    | tail _ hbc ih => exact Nat.lt_trans ih (h _ _ hbc)
  exact fun a hc => Nat.lt_irrefl _ (hlt a a hc)

/-- A path that uses the new edge passes through its source and its target. -/
theorem transGen_insert {x y a b : α} (h : TransGen (fun p q => r p q ∨ (p = x ∧ q = y)) a b) :
    TransGen r a b ∨ (ReflTransGen r a x ∧ ReflTransGen r y b) := by
  induction h with
  | single hab =>
      rcases hab with hab | ⟨rfl, rfl⟩
      · exact .inl (.single hab)
      · exact .inr ⟨.refl, .refl⟩
  | tail _ hbc ih =>
      rcases hbc with hbc | ⟨rfl, rfl⟩
      · rcases ih with ih | ⟨hax, hyb⟩
        · exact .inl (.tail ih hbc)
        · exact .inr ⟨hax, .tail hyb hbc⟩
      · rcases ih with ih | ⟨hax, -⟩
        · exact .inr ⟨ih.to_reflTransGen, .refl⟩
        · exact .inr ⟨hax, .refl⟩

/-- **An edge from `x` to `y` closes no cycle when `y` does not lead to `x`.** -/
theorem Acyclic.insert {x y : α} (h : Acyclic r) (hyx : ¬ ReflTransGen r y x) :
    Acyclic (fun p q => r p q ∨ (p = x ∧ q = y)) := by
  intro a hc
  rcases transGen_insert hc with hc | ⟨hax, hya⟩
  · exact h a hc
  · exact hyx (hya.trans hax)

/-- **Induction along the edges**: on finitely many sources an acyclic relation is
well founded. -/
theorem Acyclic.wellFounded (h : Acyclic r) (sources : List α)
    (hsrc : ∀ a b, r a b → a ∈ sources) : WellFounded r := by
  let S : Set α := {a | a ∈ sources}
  have hfin : S.Finite := List.finite_toSet sources
  have : IsStrictOrder α (TransGen r) :=
    { irrefl := h, trans := fun _ _ _ => TransGen.trans }
  have hwf : S.WellFoundedOn (TransGen r) := hfin.wellFoundedOn
  have hacc : ∀ a ∈ S, Acc r a := by
    intro a ha
    refine hwf.induction ha ?_
    intro b _ ih
    exact ⟨b, fun c hcb => ih c (hsrc c b hcb) (.single hcb)⟩
  exact ⟨fun a => ⟨a, fun b hba => hacc b (hsrc b a hba)⟩⟩

end Rel

/-
Resources that are given out once and given back once.

Resources are numbered in the order in which they are given out.  `holds a b` says that
the place `a` has the resource `b`, `back` lists what has been given back.  A ledger is
in order when every resource given out is either in exactly one place or has been given
back once.
-/
import Mathlib.Data.List.Nodup
import Mathlib.Tactic.Common

variable {α : Type} {holds holds' : α → Nat → Prop} {back : List Nat} {next b : Nat} {a : α}

/-- Of the resources below `next` each is in one place or in `back` once. -/
structure Ledger (holds : α → Nat → Prop) (back : List Nat) (next : Nat) : Prop where
  /-- no resource in two places -/
  place : ∀ a a' b, holds a b → holds a' b → a = a'
  /-- none in a place and given back -/
  apart : ∀ a b, holds a b → b ∉ back
  /-- none given back twice -/
  once : back.Nodup
  /-- none lost, and none that was not given out -/
  all : ∀ b, b < next ↔ b ∈ back ∨ ∃ a, holds a b

namespace Ledger

theorem empty (h : ∀ a b, ¬ holds a b) : Ledger holds [] 0 where
  place := fun a _ b hb => absurd hb (h a b)
  apart := fun a b hb => absurd hb (h a b)
  once := .nil
  all := fun b => ⟨fun hb => absurd hb (Nat.not_lt_zero b),
    fun hb => hb.elim (fun hb => absurd hb List.not_mem_nil) fun ⟨a, hb⟩ => absurd hb (h a b)⟩

/-- The same places have the same resources. -/
theorem congr (h : Ledger holds back next) (heq : ∀ a b, holds' a b ↔ holds a b) :
    Ledger holds' back next := by
  obtain rfl : holds' = holds := funext fun a => funext fun b => propext (heq a b)
  exact h

/-- A place gives its resource back. -/
theorem give (h : Ledger holds back next) (hb : holds a b)
    (hholds' : ∀ a' b', holds' a' b' ↔ holds a' b' ∧ b' ≠ b) :
    Ledger holds' (back ++ [b]) next where
  place := fun a a' b' h₁ h₂ => h.place a a' b' ((hholds' a b').mp h₁).1 ((hholds' a' b').mp h₂).1
  apart := by
    intro a' b' hb'
    obtain ⟨hold, hne⟩ := (hholds' a' b').mp hb'
    simp [h.apart a' b' hold, hne]
  once := by
    refine List.nodup_append.mpr ⟨h.once, List.nodup_singleton b, fun x hx y hy => ?_⟩
    obtain rfl := List.mem_singleton.mp hy
    rintro rfl
    exact h.apart a x hb hx
  all := by
    intro b'
    rw [h.all]
    simp only [List.mem_append, List.mem_singleton, hholds']
    by_cases hne : b' = b
    · subst hne
      simp only [or_true, true_or, iff_true]
      exact .inr ⟨a, hb⟩
    · simp [hne]

/-- A place gets a new resource. -/
theorem take (h : Ledger holds back next)
    (hholds' : ∀ a' b', holds' a' b' ↔ holds a' b' ∨ (a' = a ∧ b' = next)) :
    Ledger holds' back (next + 1) := by
  have hnew : ∀ a' b', holds a' b' → b' < next := fun a' b' hb' => (h.all b').mpr (.inr ⟨a', hb'⟩)
  constructor
  case place =>
    intro a₁ a₂ b' h₁ h₂
    rcases (hholds' a₁ b').mp h₁ with h₁ | ⟨rfl, rfl⟩
    · rcases (hholds' a₂ b').mp h₂ with h₂ | ⟨rfl, rfl⟩
      · exact h.place a₁ a₂ b' h₁ h₂
      · exact absurd (hnew _ _ h₁) (Nat.lt_irrefl _)
    · rcases (hholds' a₂ _).mp h₂ with h₂ | ⟨rfl, -⟩
      · exact absurd (hnew _ _ h₂) (Nat.lt_irrefl _)
      · rfl
  case apart =>
    intro a' b' hb' hback
    rcases (hholds' a' b').mp hb' with hb' | ⟨rfl, rfl⟩
    · exact h.apart a' b' hb' hback
    · exact absurd ((h.all _).mpr (.inl hback)) (Nat.lt_irrefl _)
  case once => exact h.once
  case all =>
    intro b'
    have hold := h.all b'
    constructor
    · intro hlt
      rcases Nat.lt_succ_iff_lt_or_eq.mp hlt with hlt | rfl
      · rcases hold.mp hlt with hback | ⟨a', ha'⟩
        · exact .inl hback
        · exact .inr ⟨a', (hholds' a' b').mpr (.inl ha')⟩
      · exact .inr ⟨a, (hholds' a _).mpr (.inr ⟨rfl, rfl⟩)⟩
    · rintro (hback | ⟨a', ha'⟩)
      · exact Nat.lt_succ_of_lt (hold.mpr (.inl hback))
      · rcases (hholds' a' b').mp ha' with ha' | ⟨-, rfl⟩
        · exact Nat.lt_succ_of_lt (hnew a' b' ha')
        · exact Nat.lt_succ_self _

/-- The resources have moved to other places. -/
theorem relabel {β : Type} {held : β → Nat → Prop} {ρ : α → β → Prop} (h : Ledger holds back next)
    (hρ : ∀ a b b', ρ a b → ρ a b' → b = b') (hto : ∀ a r, holds a r → ∃ b, ρ a b ∧ held b r)
    (hfrom : ∀ b r, held b r → ∃ a, ρ a b ∧ holds a r) : Ledger held back next where
  place := by
    intro b b' r hb hb'
    obtain ⟨a, hab, ha⟩ := hfrom b r hb
    obtain ⟨a', hab', ha'⟩ := hfrom b' r hb'
    obtain rfl := h.place a a' r ha ha'
    exact hρ a b b' hab hab'
  apart := by
    intro b r hb
    obtain ⟨a, -, ha⟩ := hfrom b r hb
    exact h.apart a r ha
  once := h.once
  all := by
    intro r
    rw [h.all]
    refine or_congr_right ⟨fun ⟨a, ha⟩ => ?_, fun ⟨b, hb⟩ => ?_⟩
    · obtain ⟨b, -, hb⟩ := hto a r ha
      exact ⟨b, hb⟩
    · obtain ⟨a, -, ha⟩ := hfrom b r hb
      exact ⟨a, ha⟩

/-- New resources are given out and go to no place. -/
theorem extend (h : Ledger holds back next) (k : Nat) :
    Ledger holds (back ++ List.range' next k) (next + k) where
  place := h.place
  apart := by
    intro a r hr hback
    have hlt := (h.all r).mpr (.inr ⟨a, hr⟩)
    rcases List.mem_append.mp hback with hback | hnew
    · exact h.apart a r hr hback
    · have := List.mem_range'_1.mp hnew
      omega
  once := by
    refine List.nodup_append.mpr ⟨h.once, List.nodup_range', fun r hr r' hr' heq => ?_⟩
    have hlt := (h.all r).mpr (.inl hr)
    have := List.mem_range'_1.mp hr'
    omega
  all := by
    intro r
    rw [List.mem_append, List.mem_range'_1, or_right_comm, ← h.all]
    omega

end Ledger

/-
What a program does not look at.

`Commutes φ x` says that `x` does not notice the change `φ` of the state and does not undo
it: done before `x` it comes to the same as done after it.  What a program leaves alone can
then be set to anything that suits a proof.
-/
import Ksi.Lib.Prog

namespace Prog

variable {σ ε α β : Type} {φ : σ → σ} {s s' : σ}

/-- `φ` may be done before `x` or after it. -/
def Commutes (φ : σ → σ) (x : Prog σ ε α) : Prop := ∀ s, x (φ s) = (x s).map fun r => (r.1, φ r.2)

theorem Commutes.pure (a : α) : Commutes φ (pure a : Prog σ ε α) := fun _ => rfl

theorem Commutes.error (e : ε) : Commutes φ (error e : Prog σ ε α) := fun _ => rfl

theorem Commutes.bind {x : Prog σ ε α} {f : α → Prog σ ε β} (hx : Commutes φ x)
    (hf : ∀ a, Commutes φ (f a)) : Commutes φ (x >>= f) := by
  intro s
  have hxs := hx s
  cases hres : x s with
  | none =>
      rw [hres] at hxs
      rw [bind_of_none hres, bind_of_none hxs]
      rfl
  | some r =>
      obtain ⟨e | a, s'⟩ := r
      · rw [hres] at hxs
        rw [bind_of_error hres, bind_of_error hxs]
        rfl
      · rw [hres] at hxs
        rw [bind_of_ok hres, bind_of_ok hxs]
        exact hf a s'

theorem Commutes.read {f : σ → Option α} (hf : ∀ s, f (φ s) = f s) :
    Commutes φ (read f : Prog σ ε α) := by
  intro s
  unfold Prog.read
  rw [hf, Option.map_map]
  rfl

theorem Commutes.assert {c : σ → Prop} [DecidablePred c] (hc : ∀ s, c (φ s) ↔ c s) :
    Commutes φ (assert c : Prog σ ε Unit) := by
  intro s
  unfold Prog.assert
  by_cases h : c s
  · rw [if_pos h, if_pos ((hc s).mpr h)]
    rfl
  · rw [if_neg h, if_neg (h ∘ (hc s).mp)]
    rfl

theorem Commutes.modify {f : σ → σ} (hf : ∀ s, f (φ s) = φ (f s)) :
    Commutes φ (modify f : Prog σ ε Unit) := by
  intro s
  unfold Prog.modify
  rw [hf]
  rfl

/-- The run after the change. -/
theorem Commutes.run {x : Prog σ ε α} (hx : Commutes φ x) {r : Except ε α}
    (hr : x s = some (r, s')) : x (φ s) = some (r, φ s') := by
  rw [hx s, hr, Option.map_some]

/-- An invariant of the changed states. -/
theorem Commutes.keeps {x : Prog σ ε α} {Inv : σ → Prop} (hx : Commutes φ x) (h : Keeps Inv x) :
    Keeps (fun s => Inv (φ s)) x := by
  intro s hs
  unfold wp
  split
  · trivial
  · rename_i a s' hres
    exact h.result hs (hx.run hres)
  · rename_i e s' hres
    exact h.result hs (hx.run hres)

end Prog

/-
Replaying a program from its log.

One program makes choices and logs them in its state; another one, over states of its
own, is fed the log and is to do the same again.  `Replays x y s t S` says that `y` can
follow: where `x` returns from `s`, `y` returns from `t` when it is fed what `x` has
logged, has then used up just that, and `S` relates the results and the states.  An error
return of `x` and a fault are excused.

The log is an element of a monoid, so it can be of several parts.  What is still to come
after `x` stands behind its log, and `y` leaves it alone: this is what the quantifier over
`rest` says, and it is what lets two replays follow each other.
-/
import Ksi.Lib.Prog
import Mathlib.Algebra.Group.Defs
import Mathlib.Data.List.Forall2

namespace Prog

/-- How states of one kind log, and how those of another are fed. -/
structure Journal (σ τ L : Type) [Monoid L] where
  /-- the second state has logged `l` since the first -/
  logged : L → σ → σ → Prop
  /-- the state with `l` to be fed, in place of what it had -/
  feed : L → τ → τ
  logged_one : ∀ s, logged 1 s s
  logged_mul : ∀ {l l' s s' s''}, logged l s s' → logged l' s' s'' → logged (l * l') s s''

section Replays

variable {σ τ L ε α β α' β' γ γ' : Type} [Monoid L] (J : Journal σ τ L)

/-- Where `x` returns, `y` does so too, from what `x` has logged. -/
def Replays (x : Prog σ ε α) (y : Prog τ ε β) (s : σ) (t : τ) (S : α → β → σ → τ → Prop) : Prop :=
  ∀ a s', x s = some (.ok a, s') → ∃ l b t', J.logged l s s' ∧
    (∀ rest, y (J.feed (l * rest) t) = some (.ok b, J.feed rest t')) ∧ S a b s' t'

variable {J} {s : σ} {t : τ}

theorem Replays.mono {x : Prog σ ε α} {y : Prog τ ε β} {S S' : α → β → σ → τ → Prop}
    (h : Replays J x y s t S) (hS : ∀ a b s' t', S a b s' t' → S' a b s' t') :
    Replays J x y s t S' := by
  intro a s' hx
  obtain ⟨l, b, t', hl, hy, hs⟩ := h a s' hx
  exact ⟨l, b, t', hl, hy, hS a b s' t' hs⟩

/-- What is known of `x` by itself. -/
theorem Replays.and_wp {x : Prog σ ε α} {y : Prog τ ε β} {S : α → β → σ → τ → Prop}
    {Q : α → σ → Prop} {E : ε → σ → Prop} (h : Replays J x y s t S) (hx : wp True x s Q E) :
    Replays J x y s t fun a b s' t' => S a b s' t' ∧ Q a s' := by
  intro a s' hres
  obtain ⟨l, b, t', hl, hy, hs⟩ := h a s' hres
  exact ⟨l, b, t', hl, hy, hs, of_wp_ok hx hres⟩

/-- What logs nothing and is fed nothing. -/
theorem Replays.of_silent {x : Prog σ ε α} {y : Prog τ ε β} {S : α → β → σ → τ → Prop}
    (h : ∀ a s', x s = some (.ok a, s') → ∃ b t', J.logged 1 s s' ∧
      (∀ rest, y (J.feed rest t) = some (.ok b, J.feed rest t')) ∧ S a b s' t') :
    Replays J x y s t S := by
  intro a s' hx
  obtain ⟨b, t', hl, hy, hs⟩ := h a s' hx
  refine ⟨1, b, t', hl, fun rest => ?_, hs⟩
  rw [one_mul]
  exact hy rest

theorem Replays.pure {a : α} {b : β} {S : α → β → σ → τ → Prop} (h : S a b s t) :
    Replays J (pure a : Prog σ ε α) (pure b : Prog τ ε β) s t S := by
  refine .of_silent fun a' s' hx => ?_
  cases hx
  exact ⟨b, t, J.logged_one s, fun _ => rfl, h⟩

/-- **One after the other**: the second is fed what the first has left. -/
theorem Replays.bind {x : Prog σ ε α} {y : Prog τ ε β} {f : α → Prog σ ε α'} {g : β → Prog τ ε β'}
    {S : α' → β' → σ → τ → Prop}
    (h : Replays J x y s t fun a b s' t' => Replays J (f a) (g b) s' t' S) :
    Replays J (x >>= f) (y >>= g) s t S := by
  intro a' s'' hx
  have hbind : Prog.bind x f s = some (.ok a', s'') := hx
  unfold Prog.bind at hbind
  cases hres : x s with
  | none =>
      rw [hres] at hbind
      cases hbind
  | some r =>
      obtain ⟨e | a, s'⟩ := r
      · rw [hres] at hbind
        cases hbind
      · rw [hres] at hbind
        obtain ⟨l, b, t', hl, hy, hrest⟩ := h a s' hres
        obtain ⟨l', b', t'', hl', hy', hS⟩ := hrest a' s'' hbind
        refine ⟨l * l', b', t'', J.logged_mul hl hl', fun rest => ?_, hS⟩
        rw [mul_assoc, bind_of_ok (hy (l' * rest))]
        exact hy' rest

/-- A fault is excused. -/
theorem Replays.of_none {x : Prog σ ε α} {y : Prog τ ε β} {S : α → β → σ → τ → Prop}
    (hx : x s = none) : Replays J x y s t S := by
  intro a s' hres
  rw [hx] at hres
  cases hres

/-- An error return is excused. -/
theorem Replays.error {e : ε} {y : Prog τ ε β} {S : α → β → σ → τ → Prop} :
    Replays J (error e) y s t S := by
  intro a s' hx
  cases hx

theorem Replays.ite {c c' : Prop} [Decidable c] [Decidable c'] {x x' : Prog σ ε α}
    {y y' : Prog τ ε β} {S : α → β → σ → τ → Prop} (hc : c ↔ c') (h : c → Replays J x y s t S)
    (h' : ¬ c → Replays J x' y' s t S) :
    Replays J (if c then x else x') (if c' then y else y') s t S := by
  by_cases hif : c
  · rw [if_pos hif, if_pos (hc.mp hif)]
    exact h hif
  · rw [if_neg hif, if_neg (hif ∘ hc.mpr)]
    exact h' hif

theorem Replays.require {c c' : Prop} [Decidable c] [Decidable c'] {e e' : ε}
    {S : Unit → Unit → σ → τ → Prop} (hc : c → c') (h : c → S () () s t) :
    Replays J (require c e : Prog σ ε Unit) (require c' e' : Prog τ ε Unit) s t S := by
  unfold Prog.require
  by_cases hif : c
  · rw [if_pos hif, if_pos (hc hif)]
    exact .pure (h hif)
  · rw [if_neg hif]
    exact .error

theorem Replays.orError {o : Option α} {o' : Option β} {e e' : ε} {S : α → β → σ → τ → Prop}
    (h : ∀ a, o = some a → ∃ b, o' = some b ∧ S a b s t) :
    Replays J (orError o e) (orError o' e') s t S := by
  cases o with
  | none => exact .error
  | some a =>
      obtain ⟨b, rfl, hS⟩ := h a rfl
      exact .pure hS

theorem Replays.read {f : σ → Option α} {g : τ → Option β} {S : α → β → σ → τ → Prop}
    (h : ∀ a, f s = some a → ∃ b, (∀ l, g (J.feed l t) = some b) ∧ S a b s t) :
    Replays J (read f : Prog σ ε α) (read g : Prog τ ε β) s t S := by
  refine .of_silent fun a s' hx => ?_
  obtain ⟨a', ha, heq⟩ := Option.map_eq_some_iff.mp hx
  cases heq
  obtain ⟨b, hb, hS⟩ := h _ ha
  refine ⟨b, t, J.logged_one s, fun rest => ?_, hS⟩
  unfold Prog.read
  rw [hb rest, Option.map_some]

theorem Replays.assert {c : σ → Prop} {c' : τ → Prop} [DecidablePred c] [DecidablePred c']
    {S : Unit → Unit → σ → τ → Prop} (h : c s → (∀ l, c' (J.feed l t)) ∧ S () () s t) :
    Replays J (assert c : Prog σ ε Unit) (assert c' : Prog τ ε Unit) s t S := by
  refine .of_silent fun a s' hx => ?_
  unfold Prog.assert at hx
  split at hx
  · rename_i hc
    cases hx
    obtain ⟨hc', hS⟩ := h hc
    refine ⟨(), t, J.logged_one s, fun rest => ?_, hS⟩
    unfold Prog.assert
    rw [if_pos (hc' rest)]
  · cases hx

theorem Replays.modify {f : σ → σ} {g : τ → τ} {S : Unit → Unit → σ → τ → Prop}
    (hlog : J.logged 1 s (f s)) (hfeed : ∀ l, g (J.feed l t) = J.feed l (g t))
    (h : S () () (f s) (g t)) :
    Replays J (modify f : Prog σ ε Unit) (modify g : Prog τ ε Unit) s t S := by
  refine .of_silent fun a s' hx => ?_
  cases hx
  refine ⟨(), g t, hlog, fun rest => ?_, h⟩
  rw [← hfeed]
  rfl

end Replays

/-! ### Programs in step

Here the relation between the states is the same before and after, and the values alone
are what changes. -/

section InStep

variable {σ τ L ε α β α' β' : Type} [Monoid L] (J : Journal σ τ L)

/-- From related states `y` replays `x` to related states, and the values are related. -/
def InStep (R : σ → τ → Prop) (V : α → β → Prop) (x : Prog σ ε α) (y : Prog τ ε β) : Prop :=
  ∀ s t, R s t → Replays J x y s t fun a b s' t' => R s' t' ∧ V a b

/-- Nothing is said of the values. -/
abbrev Whatever (_ : α) (_ : β) : Prop := True

variable {J} {R : σ → τ → Prop}

theorem InStep.pure {V : α → β → Prop} {a : α} {b : β} (h : V a b) :
    InStep J R V (pure a : Prog σ ε α) (pure b : Prog τ ε β) := fun _ _ hR => .pure ⟨hR, h⟩

theorem InStep.bind {V : α → β → Prop} {W : α' → β' → Prop} {x : Prog σ ε α} {y : Prog τ ε β}
    {f : α → Prog σ ε α'} {g : β → Prog τ ε β'} (h : InStep J R V x y)
    (hfg : ∀ a b, V a b → InStep J R W (f a) (g b)) : InStep J R W (x >>= f) (y >>= g) :=
  fun s t hR => .bind ((h s t hR).mono fun a b s' t' h' => hfg a b h'.2 s' t' h'.1)

/-- An invariant of `x` goes along. -/
theorem InStep.keeps {V : α → β → Prop} {P : σ → Prop} {x : Prog σ ε α} {y : Prog τ ε β}
    (h : InStep J R V x y) (hx : Keeps P x) : InStep J (fun s t => R s t ∧ P s) V x y :=
  fun s t ⟨hR, hP⟩ => ((h s t hR).and_wp (hx s hP)).mono fun _ _ _ _ ⟨⟨hR', hV⟩, hP'⟩ =>
    ⟨⟨hR', hP'⟩, hV⟩

theorem InStep.error {V : α → β → Prop} {e : ε} {y : Prog τ ε β} : InStep J R V (error e) y :=
  fun _ _ _ => .error

theorem InStep.ite {V : α → β → Prop} {c c' : Prop} [Decidable c] [Decidable c'] {x x' : Prog σ ε α}
    {y y' : Prog τ ε β} (hc : c ↔ c') (h : InStep J R V x y) (h' : InStep J R V x' y') :
    InStep J R V (if c then x else x') (if c' then y else y') :=
  fun s t hR => .ite hc (fun _ => h s t hR) fun _ => h' s t hR

theorem InStep.when {c c' : Prop} [Decidable c] [Decidable c'] {x : Prog σ ε Unit}
    {y : Prog τ ε Unit} (hc : c ↔ c') (h : InStep J R Whatever x y) :
    InStep J R Whatever (when c x) (when c' y) :=
  .ite hc h (.pure trivial)

theorem InStep.require {c c' : Prop} [Decidable c] [Decidable c'] {e e' : ε} (hc : c ↔ c') :
    InStep J R Whatever (require c e : Prog σ ε Unit) (require c' e' : Prog τ ε Unit) :=
  fun _ _ hR => .require hc.mp fun _ => ⟨hR, trivial⟩

theorem InStep.orError {V : α → β → Prop} {o : Option α} {o' : Option β} {e e' : ε}
    (h : ∀ a, o = some a → ∃ b, o' = some b ∧ V a b) : InStep J R V (orError o e) (orError o' e') :=
  fun _ _ hR => .orError fun a ha => (h a ha).imp fun _ hb => ⟨hb.1, hR, hb.2⟩

theorem InStep.read {V : α → β → Prop} {f : σ → Option α} {g : τ → Option β}
    (h : ∀ s t, R s t → ∀ a, f s = some a → ∃ b, (∀ l, g (J.feed l t) = some b) ∧ V a b) :
    InStep J R V (read f : Prog σ ε α) (read g : Prog τ ε β) :=
  fun s t hR => .read fun a ha => (h s t hR a ha).imp fun _ hb => ⟨hb.1, hR, hb.2⟩

/-- The loops over two lists whose elements are related. -/
theorem InStep.forEach {V : α → β → Prop} {f : α → Prog σ ε Unit} {g : β → Prog τ ε Unit}
    (h : ∀ a b, V a b → InStep J R Whatever (f a) (g b)) {l : List α} {l' : List β}
    (hl : List.Forall₂ V l l') : InStep J R Whatever (forEach l f) (forEach l' g) := by
  induction hl with
  | nil => exact .pure trivial
  | cons hab _ ih => exact (h _ _ hab).bind fun _ _ _ => ih

end InStep

end Prog

/-
Threads over one memory, and the rely rule.

Each thread has a state of its own and sees of the others only what they do to the
memory.  A step of a thread is a function of the memory, of its own state and of a
choice; the surroundings may change the memory too.  Runs are those of `Runs`.

The rule proves an invariant of the memory together with what each thread knows: an
assertion about the memory and the thread's own state.  What a thread knows has to
survive the steps of the others, and for that it relies on a relation between the memory
before and after such a step.  So three things are shown, and none of them speaks of two
threads' own states at once: a step keeps the invariant and its own thread's knowledge; it
stays within what every other thread relies on; knowledge is stable under what is relied
on.
-/
import Ksi.Lib.Runs
import Mathlib.Logic.Function.Basic

namespace Threads

/-- The memory, and what each thread keeps to itself. -/
structure State (M L T : Type) where
  mem : M
  thread : T → L

/-- A step of a thread, with the choice it makes, or a step of the surroundings. -/
inductive Label (T A E : Type)
  | thread (t : T) (a : A)
  | env (e : E)

/-- What threads and surroundings do; `none` says that they cannot move. -/
structure System (M L T A E : Type) where
  act : T → M → L → A → Option (M × L)
  env : M → E → Option M

variable {M L T A E : Type} [DecidableEq T]

/-- One step. -/
def System.step (S : System M L T A E) (s : State M L T) : Label T A E → Option (State M L T)
  | .thread t a => (S.act t s.mem (s.thread t) a).map fun r =>
      { mem := r.1, thread := Function.update s.thread t r.2 }
  | .env e => (S.env s.mem e).map fun m => { s with mem := m }

/-- The condition on runs that a thread steps only where `guard` lets it. -/
def Guarded (guard : T → M → L → A → Prop) (s : State M L T) : Label T A E → Prop
  | .thread t a => guard t s.mem (s.thread t) a
  | .env _ => True

instance decidableGuarded (guard : T → M → L → A → Prop)
    [∀ t m l a, Decidable (guard t m l a)] :
    DecidableRel (Guarded guard : State M L T → Label T A E → Prop)
  | s, .thread t a => inferInstanceAs (Decidable (guard t s.mem (s.thread t) a))
  | _, .env _ => isTrue trivial

variable {S : System M L T A E}

/-- What a thread's step does to the state. -/
theorem System.step_thread {s s' : State M L T} {t : T} {a : A}
    (h : S.step s (.thread t a) = some s') :
    ∃ l', S.act t s.mem (s.thread t) a = some (s'.mem, l') ∧
      s'.thread = Function.update s.thread t l' := by
  obtain ⟨⟨m', l'⟩, hact, rfl⟩ := Option.map_eq_some_iff.mp h
  exact ⟨l', hact, rfl⟩

/-- What a step of the surroundings does to the state. -/
theorem System.step_env {s s' : State M L T} {e : E} (h : S.step s (.env e) = some s') :
    S.env s.mem e = some s'.mem ∧ s'.thread = s.thread := by
  obtain ⟨m', henv, rfl⟩ := Option.map_eq_some_iff.mp h
  exact ⟨henv, rfl⟩

/-- An invariant of the memory, what the threads know, and what they rely on. -/
structure Relies (S : System M L T A E) (guard : T → M → L → A → Prop) (Inv : M → Prop)
    (Knows : T → M → L → Prop) (Rely : T → M → M → Prop) : Prop where
  act : ∀ {t m l a m' l'}, guard t m l a → Inv m → Knows t m l →
    S.act t m l a = some (m', l') → Inv m' ∧ Knows t m' l' ∧ ∀ u, u ≠ t → Rely u m m'
  env : ∀ {m e m'}, Inv m → S.env m e = some m' → Inv m' ∧ ∀ t, Rely t m m'
  stable : ∀ {t m m' l}, Inv m → Rely t m m' → Knows t m l → Knows t m' l

/-- The invariant holds, and every thread knows what it should. -/
structure Holds (Inv : M → Prop) (Knows : T → M → L → Prop) (s : State M L T) : Prop where
  inv : Inv s.mem
  knows : ∀ t, Knows t s.mem (s.thread t)

variable {guard : T → M → L → A → Prop} {Inv : M → Prop} {Knows : T → M → L → Prop}
  {Rely : T → M → M → Prop}

/-- One step keeps the invariant and all knowledge. -/
theorem Relies.step (h : Relies S guard Inv Knows Rely) {s s' : State M L T} {a : Label T A E}
    (hs : Holds Inv Knows s) (hg : Guarded guard s a) (hstep : S.step s a = some s') :
    Holds Inv Knows s' := by
  cases a with
  | thread t a =>
      obtain ⟨l', hact, hthread⟩ := System.step_thread hstep
      obtain ⟨hinv, hown, hothers⟩ := h.act hg hs.inv (hs.knows t) hact
      refine ⟨hinv, fun u => ?_⟩
      by_cases hu : u = t
      · rw [hthread, hu, Function.update_self]
        exact hown
      · rw [hthread, Function.update_of_ne hu]
        exact h.stable hs.inv (hothers u hu) (hs.knows u)
  | env e =>
      obtain ⟨henv, hthread⟩ := System.step_env hstep
      obtain ⟨hinv, hall⟩ := h.env hs.inv henv
      refine ⟨hinv, fun u => ?_⟩
      rw [hthread]
      exact h.stable hs.inv (hall u) (hs.knows u)

/-- **The rely rule.**  What the threads know at the start they know at the end of every
run, and the invariant is kept. -/
theorem Relies.holds (h : Relies S guard Inv Knows Rely) {s₀ s : State M L T}
    (hs₀ : Holds Inv Knows s₀) (hr : Runs.Reaches S.step (Guarded guard) s₀ s) :
    Holds Inv Knows s :=
  hr.invariant (Holds Inv Knows) hs₀ fun _ _ _ hs hg hstep => h.step hs hg hstep

end Threads

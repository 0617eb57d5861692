/-
Runs of a transition system given by a step function.

A system is a function `step : σ → α → Option σ`: the label says which thread
moves and how a choice it makes is resolved, `none` says that the label is not
enabled.  All nondeterminism is in the labels, so a run is a list of labels and
can be executed.

Two notions are kept apart.  `Reaches step cond s₀ s` is the proposition that
some run leads from `s₀` to `s` with every step meeting `cond`, read in the state
before the step; invariants are proved about it.  `runChecked` executes a list of
labels and checks the condition on the way; concrete runs are evaluated with it.
`reaches_of_runChecked` is the bridge.
-/
import Mathlib.Algebra.GroupWithZero.Nat
import Mathlib.Logic.Relation
import Mathlib.Tactic.Common

namespace Runs

/-! Threads and epochs are elements of `Fin n`: they are written as literals in small
systems, and lists of them are searched. -/

instance neZeroOne : NeZero 1 := ⟨by decide⟩

instance neZeroTwo : NeZero 2 := ⟨by decide⟩

instance neZeroThree : NeZero 3 := ⟨by decide⟩

instance lawfulBEqFin (n : Nat) : LawfulBEq (Fin n) := inferInstance

variable {σ α : Type}

/-- No condition on the steps of a run. -/
def Free (_ : σ) (_ : α) : Prop := True

instance : DecidableRel (@Free σ α) := fun _ _ => isTrue trivial

/-- `s` ends a run from `s₀` all of whose steps meet `cond`. -/
inductive Reaches (step : σ → α → Option σ) (cond : σ → α → Prop) (s₀ : σ) : σ → Prop
  | refl : Reaches step cond s₀ s₀
  | tail {s s' : σ} (a : α) : Reaches step cond s₀ s → cond s a → step s a = some s' →
      Reaches step cond s₀ s'

variable {step : σ → α → Option σ} {cond : σ → α → Prop}

/-- **The invariant rule.**  What holds at the start and survives every step that
meets the condition holds at the end of every such run. -/
theorem Reaches.invariant {s₀ s : σ} (h : Reaches step cond s₀ s) (Inv : σ → Prop)
    (hinit : Inv s₀)
    (hstep : ∀ s a s', Inv s → cond s a → step s a = some s' → Inv s') : Inv s := by
  induction h with
  | refl => exact hinit
  | tail a _ hc hs ih => exact hstep _ a _ ih hc hs

/-- A run may be continued by another one. -/
theorem Reaches.trans {s₀ s₁ s₂ : σ} (h₁ : Reaches step cond s₀ s₁)
    (h₂ : Reaches step cond s₁ s₂) : Reaches step cond s₀ s₂ := by
  induction h₂ with
  | refl => exact h₁
  | tail a _ hc hs ih => exact .tail a ih hc hs

/-- A weaker condition admits more runs. -/
theorem Reaches.mono {cond' : σ → α → Prop} {s₀ s : σ} (h : Reaches step cond s₀ s)
    (hc : ∀ s a, cond s a → cond' s a) : Reaches step cond' s₀ s := by
  induction h with
  | refl => exact .refl
  | tail a _ hca hs ih => exact .tail a ih (hc _ _ hca) hs

/-- Execute a list of labels, stopping where one is not enabled or the condition
fails. -/
def runChecked (step : σ → α → Option σ) (cond : σ → α → Prop) [DecidableRel cond] :
    σ → List α → Option σ
  | s, [] => some s
  | s, a :: rest =>
      if cond s a then (step s a).bind fun s' => runChecked step cond s' rest else none

/-- Execute a list of labels. -/
def run (step : σ → α → Option σ) (s : σ) (labels : List α) : Option σ :=
  runChecked step Free s labels

/-- What an executed run ends in is reached. -/
theorem reaches_of_runChecked [DecidableRel cond] :
    ∀ (labels : List α) {s s' : σ}, runChecked step cond s labels = some s' →
      Reaches step cond s s' := by
  intro labels
  induction labels with
  | nil =>
      intro s s' h
      cases h
      exact .refl
  | cons a rest ih =>
      intro s s' h
      simp only [runChecked] at h
      split at h
      · rename_i hc
        obtain ⟨mid, hmid, hrest⟩ := Option.bind_eq_some_iff.mp h
        exact Reaches.trans (.tail a .refl hc hmid) (ih hrest)
      · simp at h

/-- What an executed run without conditions ends in is reached. -/
theorem reaches_of_run (labels : List α) {s s' : σ} (h : run step s labels = some s') :
    Reaches step Free s s' :=
  reaches_of_runChecked labels h

/-- One more step, without condition. -/
theorem Reaches.snoc {s₀ s s' : σ} (h : Reaches step Free s₀ s) (a : α)
    (hs : step s a = some s') : Reaches step Free s₀ s' :=
  .tail a h trivial hs

/-- **The termination rule.**  `Inv n` is kept by the run while the bound `n` falls with
each step, and a step is possible until `Done`. -/
theorem reaches_done (Inv : Nat → σ → Prop) (Done : σ → Prop)
    (hstep : ∀ n s, Inv n s → Done s ∨
      ∃ a s' k, cond s a ∧ step s a = some s' ∧ k < n ∧ Inv k s') :
    ∀ {n : Nat} {s : σ}, Inv n s → ∃ s' k, Reaches step cond s s' ∧ Done s' ∧ Inv k s' := by
  intro n
  induction n using Nat.strongRecOn with
  | ind n ih =>
      intro s h
      rcases hstep n s h with hdone | ⟨a, s₁, k, hc, hs, hk, h₁⟩
      · exact ⟨s, n, .refl, hdone, h⟩
      · obtain ⟨s', k', hr, hdone, h'⟩ := ih k hk h₁
        exact ⟨s', k', Reaches.trans (.tail a .refl hc hs) hr, hdone, h'⟩

/-- **Runs end** when a measure falls with each step: none is longer than the measure. -/
theorem length_le_of_measure [DecidableRel cond] (Inv : σ → Prop) (measure : σ → Nat)
    (hstep : ∀ s a s', Inv s → cond s a → step s a = some s' → Inv s' ∧ measure s' < measure s) :
    ∀ (labels : List α) {s s' : σ}, Inv s → runChecked step cond s labels = some s' →
      labels.length + measure s' ≤ measure s := by
  intro labels
  induction labels with
  | nil =>
      intro s s' _ h
      cases h
      exact Nat.le_of_eq (Nat.zero_add _)
  | cons a rest ih =>
      intro s s' hinv h
      unfold runChecked at h
      split at h
      · rename_i hc
        obtain ⟨mid, hmid, hrest⟩ := Option.bind_eq_some_iff.mp h
        obtain ⟨hinv', hlt⟩ := hstep s a mid hinv hc hmid
        have := ih hinv' hrest
        rw [List.length_cons]
        omega
      · cases h

/-- Every step of the run over a list of labels meets `P`, read before the step. -/
def Throughout (step : σ → α → Option σ) (P : σ → α → Prop) : σ → List α → Prop
  | _, [] => True
  | s, a :: rest => P s a ∧ ∀ s', step s a = some s' → Throughout step P s' rest

/-- A part of a run from its start. -/
theorem Throughout.left {P : σ → α → Prop} {rest : List α} :
    ∀ {labels : List α} {s : σ}, Throughout step P s (labels ++ rest) →
      Throughout step P s labels := by
  intro labels
  induction labels with
  | nil => exact fun _ => trivial
  | cons a labels ih => exact fun h => ⟨h.1, fun s' hs => ih (h.2 s' hs)⟩

/-- The first step of an executed run. -/
theorem run_cons {s s' : σ} {a : α} {rest : List α} (h : run step s (a :: rest) = some s') :
    ∃ s₁, step s a = some s₁ ∧ run step s₁ rest = some s' := by
  unfold run runChecked at h
  exact Option.bind_eq_some_iff.mp ((if_pos (show Free s a from trivial)).symm.trans h)

/-- **A property that each step either keeps or breaks** holds after every step of an
executed run exactly if no step breaks it. -/
theorem throughout_iff {Q : σ → α → Prop} (Inv : σ → Prop)
    (hstep : ∀ s a s', Inv s → step s a = some s' → (Inv s' ↔ Q s a)) :
    ∀ (labels : List α) {s s' : σ}, Inv s → run step s labels = some s' →
      (Throughout step (fun s a => ∀ s', step s a = some s' → Inv s') s labels ↔
        Throughout step Q s labels) := by
  intro labels
  induction labels with
  | nil => exact fun _ _ => Iff.rfl
  | cons a rest ih =>
      intro s s' hinv hrun
      obtain ⟨s₁, hs, hrest⟩ := run_cons hrun
      have hiff := hstep s a s₁ hinv hs
      constructor
      · intro h
        have hnext := h.1 s₁ hs
        refine ⟨hiff.mp hnext, fun s₂ hs₂ => ?_⟩
        cases hs.symm.trans hs₂
        exact (ih hnext hrest).mp (h.2 s₁ hs)
      · intro h
        have hnext := hiff.mpr h.1
        constructor
        · intro s₂ hs₂
          cases hs.symm.trans hs₂
          exact hnext
        · intro s₂ hs₂
          cases hs.symm.trans hs₂
          exact (ih hnext hrest).mpr (h.2 s₁ hs)

/-- A weaker property of the steps. -/
theorem Throughout.mono {P Q : σ → α → Prop} (h : ∀ s a, P s a → Q s a) :
    ∀ {labels : List α} {s : σ}, Throughout step P s labels → Throughout step Q s labels := by
  intro labels
  induction labels with
  | nil => exact fun _ => trivial
  | cons a rest ih => exact fun hP => ⟨h _ a hP.1, fun s' hs => ih (hP.2 s' hs)⟩

/-- Two properties of the steps agree along a run, as in `along_congr`, where a step may
have no result. -/
theorem throughout_congr {G P Q : σ → α → Prop} (Inv : σ → Prop)
    (hiff : ∀ s a, Inv s → P s a → (G s a ↔ Q s a))
    (hkeep : ∀ s a s', Inv s → P s a → Q s a → step s a = some s' → Inv s') :
    ∀ (labels : List α) {s : σ}, Inv s → Throughout step P s labels →
      (Throughout step G s labels ↔ Throughout step Q s labels) := by
  intro labels
  induction labels with
  | nil => exact fun _ _ => Iff.rfl
  | cons a rest ih =>
      intro s hinv hP
      have hstep := hiff s a hinv hP.1
      constructor
      · intro h
        have hQ := hstep.mp h.1
        exact ⟨hQ, fun s' hs => (ih (hkeep s a s' hinv hP.1 hQ hs) (hP.2 s' hs)).mp (h.2 s' hs)⟩
      · intro h
        exact ⟨hstep.mpr h.1, fun s' hs =>
          (ih (hkeep s a s' hinv hP.1 h.1 hs) (hP.2 s' hs)).mpr (h.2 s' hs)⟩

/-- A run over labels that meet the condition in every state. -/
theorem reaches_of_forall : ∀ (labels : List α) {s s' : σ}, (∀ a ∈ labels, ∀ s, cond s a) →
    run step s labels = some s' → Reaches step cond s s' := by
  intro labels
  induction labels with
  | nil =>
      intro s s' _ h
      cases h
      exact .refl
  | cons a rest ih =>
      intro s s' hc h
      obtain ⟨s₁, hs, hrest⟩ := run_cons h
      rw [List.forall_mem_cons] at hc
      exact Reaches.trans (.tail a .refl (hc.1 s) hs) (ih hc.2 hrest)

/-! ### Steps that are always enabled -/

section Along

variable {next : σ → α → σ} {P Q : σ → α → Prop}

/-- Every step of the run over a list of labels meets `P`, read before the step. -/
def Along (next : σ → α → σ) (P : σ → α → Prop) : σ → List α → Prop
  | _, [] => True
  | s, a :: rest => P s a ∧ Along next P (next s a) rest

instance decidableAlong [DecidableRel P] : ∀ (labels : List α) (s : σ),
    Decidable (Along next P s labels)
  | [], _ => isTrue trivial
  | a :: rest, s =>
      have := decidableAlong rest (next s a)
      inferInstanceAs (Decidable (P s a ∧ Along next P (next s a) rest))

/-- Two properties of the steps agree along a run if they agree on each step from a state
where the invariant holds, and the steps that have them keep it. -/
theorem along_congr (Inv : σ → Prop) {G : σ → α → Prop}
    (hiff : ∀ s a, Inv s → P s a → (G s a ↔ Q s a))
    (hkeep : ∀ s a, Inv s → P s a → Q s a → Inv (next s a)) :
    ∀ (labels : List α) {s : σ}, Inv s → Along next P s labels →
      (Along next G s labels ↔ Along next Q s labels) := by
  intro labels
  induction labels with
  | nil => exact fun _ _ => Iff.rfl
  | cons a rest ih =>
      intro s hinv hP
      have hstep := hiff s a hinv hP.1
      constructor
      · intro h
        have hQ := hstep.mp h.1
        exact ⟨hQ, (ih (hkeep s a hinv hP.1 hQ) hP.2).mp h.2⟩
      · intro h
        exact ⟨hstep.mpr h.1, (ih (hkeep s a hinv hP.1 h.1) hP.2).mpr h.2⟩

/-- **A property that each step either keeps or breaks** holds after every step exactly
if no step breaks it. -/
theorem along_iff (Inv : σ → Prop) (hstep : ∀ s a, Inv s → P s a → (Inv (next s a) ↔ Q s a))
    (labels : List α) {s : σ} (hinv : Inv s) (hP : Along next P s labels) :
    Along next (fun s a => Inv (next s a)) s labels ↔ Along next Q s labels :=
  along_congr Inv hstep (fun s a hs ha hQ => (hstep s a hs ha).mpr hQ) labels hinv hP

/-- No condition holds along every run. -/
theorem along_free : ∀ (labels : List α) (s : σ), Along next Free s labels := by
  intro labels
  induction labels with
  | nil => exact fun _ => trivial
  | cons a rest ih => exact fun s => ⟨trivial, ih (next s a)⟩

end Along

end Runs

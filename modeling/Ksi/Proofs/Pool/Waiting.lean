/-
Whether `waitingCount` counts.

An addition goes with a wait that begins, and so keeps the count right.  A subtraction
does not look at the count again, and a wait that ends takes nothing off: the first goes
wrong when the last one has been taken off since the load, and the second when the wait
that ends has not been taken off.

Without timeouts the second cannot happen, because each wait that ends has been posted for,
and so has been taken off before.
-/
import Ksi.Pool.Waiting
import Ksi.Lib.Counting

namespace Ksi.Pool.Waiting

open Runs

variable {T : Type} [Fintype T] [DecidableEq T] {s s' : State T} {a : Label T} {w : T}

/-- The workers between their addition and the end of their wait. -/
def State.waiting (s : State T) : Nat := count (· = Pc.wait) s.worker

/-- The waiter count is a count. -/
def Counted (s : State T) : Prop := 0 ≤ s.waitingCount ∧ s.waitingCount ≤ s.waiting

/-- One is taken off a positive count only, and a wait ends only while more workers wait than
are counted. -/
def KeepsCount (s : State T) : Label T → Prop
  | .sub _ => 0 < s.waitingCount
  | .wake _ => s.waitingCount < s.waiting
  | .timeout _ => s.waitingCount < s.waiting
  | _ => True

instance : DecidableRel (@KeepsCount T _) := fun s a => by
  unfold KeepsCount
  cases a <;> infer_instance

/-! ### One step -/

/-- The workers between a subtraction and the post that it is for. -/
def State.posting (s : State T) : Nat := count (· = Pc.post) s.worker

/-- What a step adds to `waitingCount`. -/
def Label.counts : Label T → Int
  | .add _ => 1
  | .sub _ => -1
  | _ => 0

/-- How many waits begin in a step, less those that end. -/
def Label.waits : Label T → Int
  | .add _ => 1
  | .wake _ => -1
  | .timeout _ => -1
  | _ => 0

/-- How many posts a step makes due, less those that it uses up. -/
def Label.grants : Label T → Int
  | .sub _ => 1
  | .wake _ => -1
  | _ => 0

/-- What a step does to the three counts. -/
structure Accounts (s : State T) (a : Label T) (s' : State T) : Prop where
  waitingCount : s'.waitingCount = s.waitingCount + a.counts
  waiting : (s'.waiting : Int) = s.waiting + a.waits
  granted : (s'.waitingSem + s'.posting : Int) = s.waitingSem + s.posting + a.grants

/-- One worker moves on to `pc`. -/
theorem Accounts.of_move {w : T} {pc : Pc} (hworker : s'.worker = Function.update s.worker w pc)
    (hcount : s'.waitingCount = s.waitingCount + a.counts)
    (hwaits : a.waits = (if pc = .wait then 1 else 0) - (if s.worker w = .wait then 1 else 0))
    (hgrants : a.grants = (s'.waitingSem - s.waitingSem : Int) +
      (if pc = .post then 1 else 0) - (if s.worker w = .post then 1 else 0)) : Accounts s a s' := by
  have hwaiting := count_update (p := (· = Pc.wait)) s.worker w pc
  have hposting := count_update (p := (· = Pc.post)) s.worker w pc
  rw [← hworker] at hwaiting hposting
  refine ⟨hcount, ?_, ?_⟩
  · rw [hwaits]
    show (count (· = Pc.wait) s'.worker : Int) = count (· = Pc.wait) s.worker + _
    omega
  · rw [hgrants]
    show (s'.waitingSem + count (· = Pc.post) s'.worker : Int) =
      s.waitingSem + count (· = Pc.post) s.worker + _
    omega

theorem step_accounts (hs : step s a = some s') : Accounts s a s' := by
  cases a with
  | add w =>
      simp only [step, Option.ite_none_right_eq_some, Option.some.injEq] at hs
      obtain ⟨hpc, rfl⟩ := hs
      exact .of_move rfl rfl (by simp [hpc, Label.waits]) (by simp [hpc, Label.grants, State.move])
  | wake w =>
      simp only [step, Option.ite_none_right_eq_some, Option.some.injEq] at hs
      obtain ⟨⟨hpc, hsem⟩, rfl⟩ := hs
      refine .of_move rfl (Int.add_zero _).symm (by simp [hpc, Label.waits]) ?_
      simp only [hpc, Label.grants, reduceCtorEq, if_false]
      omega
  | timeout w =>
      simp only [step, Option.ite_none_right_eq_some, Option.some.injEq] at hs
      obtain ⟨hpc, rfl⟩ := hs
      exact .of_move rfl (Int.add_zero _).symm (by simp [hpc, Label.waits])
        (by simp [hpc, Label.grants, State.move])
  | load w =>
      simp only [step, Option.ite_none_right_eq_some, Option.some.injEq] at hs
      obtain ⟨hpc, rfl⟩ := hs
      exact .of_move rfl (Int.add_zero _).symm (by simp [hpc, Label.waits])
        (by simp [hpc, Label.grants, State.move])
  | test w =>
      simp only [step] at hs
      split at hs
      · rename_i i hpc
        cases hs
        have hnext : ∀ q : Pc, q = .wait ∨ q = .post →
          (if 0 < i then Pc.sub else .running) ≠ q := by
          rintro q (rfl | rfl) <;> split <;> simp
        exact .of_move rfl (Int.add_zero _).symm
          (by simp [hpc, Label.waits, hnext])
          (by simp [hpc, Label.grants, State.move, hnext])
      · cases hs
  | sub w =>
      simp only [step, Option.ite_none_right_eq_some, Option.some.injEq] at hs
      obtain ⟨hpc, rfl⟩ := hs
      exact .of_move rfl rfl (by simp [hpc, Label.waits]) (by simp [hpc, Label.grants, State.move])
  | post w =>
      simp only [step, Option.ite_none_right_eq_some, Option.some.injEq] at hs
      obtain ⟨hpc, rfl⟩ := hs
      refine .of_move rfl (Int.add_zero _).symm (by simp [hpc, Label.waits]) ?_
      simp only [hpc, Label.grants, reduceCtorEq, if_false, if_true]
      omega

/-- **One step** keeps the count right exactly if it is of this kind. -/
theorem Counted.step (h : Counted s) (hs : step s a = some s') : Counted s' ↔ KeepsCount s a := by
  obtain ⟨hlow, hhigh⟩ := h
  obtain ⟨hcount, hwait, -⟩ := step_accounts hs
  unfold Counted
  rw [hcount, hwait]
  cases a with
  | sub w =>
      show 0 ≤ s.waitingCount + -1 ∧ s.waitingCount + -1 ≤ s.waiting + 0 ↔ 0 < s.waitingCount
      omega
  | wake w =>
      show 0 ≤ s.waitingCount + 0 ∧ s.waitingCount + 0 ≤ s.waiting + -1 ↔
        s.waitingCount < s.waiting
      omega
  | timeout w =>
      show 0 ≤ s.waitingCount + 0 ∧ s.waitingCount + 0 ≤ s.waiting + -1 ↔
        s.waitingCount < s.waiting
      omega
  | add w =>
      refine iff_of_true ?_ trivial
      show 0 ≤ s.waitingCount + 1 ∧ s.waitingCount + 1 ≤ s.waiting + 1
      omega
  | load w =>
      exact iff_of_true (by simpa [Label.counts, Label.waits] using And.intro hlow hhigh) trivial
  | test w =>
      exact iff_of_true (by simpa [Label.counts, Label.waits] using And.intro hlow hhigh) trivial
  | post w =>
      exact iff_of_true (by simpa [Label.counts, Label.waits] using And.intro hlow hhigh) trivial

/-! ### Runs -/

omit [DecidableEq T] in
theorem waiting_init : (init T).waiting = 0 :=
  count_eq_zero fun _ => by simp [init]

omit [DecidableEq T] in
theorem counted_init : Counted (init T) :=
  ⟨Int.le_refl 0, by rw [waiting_init]; exact Int.le_refl 0⟩

/-- **The waiter count is a count** after every step of a run exactly if each subtraction finds
it positive and each wait that ends finds more workers waiting than it counts. -/
theorem waitersCounted_iff (labels : List (Label T)) {s : State T}
    (hrun : run step (init T) labels = some s) :
    Throughout step (fun s a => ∀ s', step s a = some s' → Counted s') (init T) labels ↔
      Throughout step KeepsCount (init T) labels :=
  throughout_iff Counted (fun _ _ _ h hs => h.step hs) labels counted_init hrun

/-- A worker waits, is seen and is woken. -/
def handshake : List (Label (Fin 2)) := [.add 0, .load 1, .test 1, .sub 1, .post 1, .wake 0]

theorem waitersCounted_iff_handshake : ∃ s, run step (init (Fin 2)) handshake = some s ∧
    (Throughout step (fun s a => ∀ s', step s a = some s' → Counted s') (init (Fin 2)) handshake ↔
      Throughout step KeepsCount (init (Fin 2)) handshake) :=
  ⟨_, rfl, waitersCounted_iff handshake rfl⟩

/-- Two workers see the one that waits before either of them takes it off. -/
def seenTwice : List (Label (Fin 3)) :=
  [.add 0, .load 1, .load 2, .test 1, .test 2, .sub 1, .sub 2]

/-- A worker waits until its time is up. -/
def timedOut : List (Label (Fin 3)) := [.add 0, .timeout 0]

/-- The count can become negative, and it can count a worker that no longer waits. -/
theorem not_waitersCounted :
    ¬ (∀ s, Reaches step Free (init (Fin 3)) s → 0 ≤ s.waitingCount) ∧
      ¬ ∀ s, Reaches step Free (init (Fin 3)) s → s.waitingCount ≤ s.waiting := by
  have htwice : ∃ s, run step (init (Fin 3)) seenTwice = some s ∧ s.waitingCount = -1 :=
    ⟨_, rfl, rfl⟩
  have htimed : ∃ s, run step (init (Fin 3)) timedOut = some s ∧ s.waitingCount = 1 ∧
      s.waiting = 0 := ⟨_, rfl, rfl, by decide⟩
  constructor
  · intro h
    obtain ⟨s, hrun, hcount⟩ := htwice
    have hnonneg := h s (reaches_of_run _ hrun)
    omega
  · intro h
    obtain ⟨s, hrun, hcount, hwaiting⟩ := htimed
    have hle := h s (reaches_of_run _ hrun)
    rw [hcount, hwaiting] at hle
    omega

/-! ### Waits that end by a post -/

/-- No wait ends by its time, and one is taken off a positive count only. -/
def Untimed (s : State T) : Label T → Prop
  | .sub _ => 0 < s.waitingCount
  | .timeout _ => False
  | _ => True

/-- Those that wait are counted, or a post for them is there or due. -/
structure Covered (s : State T) : Prop where
  nonneg : 0 ≤ s.waitingCount
  waiting : (s.waiting : Int) = s.waitingCount + s.waitingSem + s.posting

theorem Covered.step (h : Covered s) (ha : Untimed s a) (hs : step s a = some s') :
    Covered s' := by
  obtain ⟨hcount, hwait, hgranted⟩ := step_accounts hs
  have hnonneg := h.nonneg
  have hwaiting := h.waiting
  cases a with
  | timeout w => exact ha.elim
  | sub w =>
      have hpos : 0 < s.waitingCount := ha
      simp only [Label.counts, Label.waits, Label.grants] at hcount hwait hgranted
      exact ⟨by omega, by omega⟩
  | _ =>
      simp only [Label.counts, Label.waits, Label.grants] at hcount hwait hgranted
      exact ⟨by omega, by omega⟩

/-- **Without timeouts** the second half cannot go wrong: each wait that ends has been posted
for. -/
theorem covered_of_reaches (h : Reaches step Untimed (init T) s) : Covered s :=
  h.invariant Covered ⟨Int.le_refl 0, by
    rw [waiting_init]
    have hposting : (init T).posting = 0 := count_eq_zero fun _ => by simp [init]
    rw [hposting]
    rfl⟩ fun _ _ _ hc ha hs => hc.step ha hs

omit [DecidableEq T] in
theorem Covered.counted (h : Covered s) : Counted s :=
  ⟨h.nonneg, by have := h.waiting; omega⟩

/-! ### The posts of the shutdown -/

/-- The loop posts once for each that is counted. -/
theorem destroyPosts_natCast (n : Nat) : destroyPosts (n + 1) n = some n := by
  induction n with
  | zero => rfl
  | succ n ih =>
      have hne : ((n + 1 : Nat) : Int) ≠ 0 := by omega
      have hpred : ((n + 1 : Nat) : Int) - 1 = n := by omega
      rw [destroyPosts, if_neg hne, hpred, ih]
      rfl

/-- From a negative count it does not end. -/
theorem destroyPosts_neg (fuel : Nat) : ∀ {i : Int}, i < 0 → destroyPosts fuel i = none := by
  induction fuel with
  | zero => exact fun _ => rfl
  | succ fuel ih =>
      intro i hi
      rw [destroyPosts, if_neg (Int.ne_of_lt hi), ih (by omega)]
      rfl

omit [DecidableEq T] in
/-- Where the count is right, the shutdown posts at most once for each that waits. -/
theorem Counted.destroyPosts (h : Counted s) :
    ∃ fuel posts, destroyPosts fuel s.waitingCount = some posts ∧ posts ≤ s.waiting := by
  obtain ⟨hlow, hhigh⟩ := h
  refine ⟨s.waitingCount.toNat + 1, s.waitingCount.toNat, ?_, by omega⟩
  conv_lhs => rw [← Int.toNat_of_nonneg hlow]
  exact destroyPosts_natCast _

end Ksi.Pool.Waiting

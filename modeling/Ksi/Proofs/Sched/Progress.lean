/-
A cycle ends.

Nothing in the scheduler waits for ever: each step takes something off what is left to
do, so no run of a cycle is longer than `Graph.work`, and as long as the callback has not
returned, or a task is queued, or a worker is busy, some thread can move.  The measure is
read off the state.  A node that has not been run counts for its run and for the
successors it has to count off, a queued one for the steps until its run begins.
-/
import Ksi.Proofs.Sched.Overlap
import Mathlib.Algebra.BigOperators.Group.Finset.Basic

namespace Ksi.Sched

open Runs Relation

variable {W : Type} [DecidableEq W] {G : Graph} {k : Nat} {st : Nat → Stage W} {src : W → Nat}
  {s s' : State W} {w : W}

/-! ### What is left to do -/

def CallbackPc.work : CallbackPc → Nat
  | .dispatch rest => 4 * rest.length + 1
  | .wait => 1
  | .idle | .returned => 0

/-- A node in hand counts for two steps, a successor for six. -/
def WorkerPc.work : WorkerPc → Nat
  | .idle => 0
  | .ready _ => 2
  | .running _ => 1
  | .walk _ sn found => 6 * sn.length + if found then 2 else 0
  | .reset _ _ sn found => 6 * sn.length + 5 + if found then 2 else 0
  | .enqueue _ _ sn => 6 * sn.length + 6
  | .post => 1

/-- What a node's run, and the end of it, still takes. -/
def Graph.runWork (G : Graph) (finished : Nat → Nat) (n : Nat) : Nat :=
  if finished n = 0 then 6 * (G.successors n).length + 1 else 0

def Graph.left (G : Graph) [Fintype W] (callback : CallbackPc) (queue : List Nat)
    (worker : W → WorkerPc) (finished : Nat → Nat) : Nat :=
  callback.work + 3 * queue.length + ∑ w, (worker w).work + ∑ n ∈ G.nodes.toFinset,
    G.runWork finished n

/-- What is left to do in a state. -/
def State.left (G : Graph) [Fintype W] (s : State W) : Nat :=
  G.left s.callback s.queue s.worker s.finished

theorem CallbackPc.work_continue (rest : List Nat) :
    (CallbackPc.continue rest).work = 4 * rest.length + 1 := by
  cases rest <;> rfl

theorem WorkerPc.work_continue (n : Nat) (sn : List Nat) (found : Bool) :
    (WorkerPc.continue n sn found).work = 6 * sn.length + if found then 2 else 0 := by
  cases sn with
  | nil => cases found <;> rfl
  | cons v rest => rfl

/-- One summand changes. -/
theorem sum_update {ι : Type} [DecidableEq ι] {A : Finset ι} {i : ι} {f g : ι → Nat} (hi : i ∈ A)
    (h : ∀ j ∈ A, j ≠ i → g j = f j) : ∑ j ∈ A, g j + f i = ∑ j ∈ A, f j + g i := by
  have herase : ∑ j ∈ A.erase i, g j = ∑ j ∈ A.erase i, f j :=
    Finset.sum_congr rfl fun j hj => h j (Finset.mem_of_mem_erase hj) (Finset.ne_of_mem_erase hj)
  rw [← Finset.add_sum_erase A g hi, ← Finset.add_sum_erase A f hi, herase]
  omega

section Left

variable [Fintype W] (callback : CallbackPc) (queue : List Nat) (worker : W → WorkerPc)
  (finished : Nat → Nat) {n : Nat}

/-- A worker moves on. -/
theorem Graph.left_move (w : W) (pc : WorkerPc) :
    G.left callback queue (Function.update worker w pc) finished + (worker w).work =
    G.left callback queue worker finished + pc.work := by
  have hsum := sum_update (f := fun w' => (worker w').work)
    (g := fun w' => (Function.update worker w pc w').work)
    (Finset.mem_univ w) fun w' _ hne => by rw [Function.update_of_ne hne]
  rw [Function.update_self] at hsum
  unfold Graph.left
  omega

omit [DecidableEq W] in
theorem Graph.left_push (n : Nat) :
    G.left callback (queue ++ [n]) worker finished = G.left callback queue worker finished + 3 := by
  unfold Graph.left
  rw [List.length_append, List.length_singleton]
  omega

omit [DecidableEq W] in
theorem Graph.left_pop (hn : n ∈ queue) :
    G.left callback (queue.erase n) worker finished + 3 =
      G.left callback queue worker finished := by
  have hpos := List.length_pos_of_mem hn
  unfold Graph.left
  rw [List.length_erase_of_mem hn]
  omega

omit [DecidableEq W] in
theorem Graph.left_callback (callback' : CallbackPc) :
    G.left callback' queue worker finished + callback.work =
    G.left callback queue worker finished + callback'.work := by
  unfold Graph.left
  omega

omit [DecidableEq W] in
/-- A run that ends has done its part. -/
theorem Graph.left_finish (hn : n ∈ G.nodes) (hzero : finished n = 0) :
    G.left callback queue worker (Function.update finished n (finished n + 1)) +
      (6 * (G.successors n).length + 1) =
      G.left callback queue worker finished := by
  have hsum := sum_update (f := G.runWork finished)
    (g := G.runWork (Function.update finished n (finished n + 1))) (List.mem_toFinset.mpr hn)
      fun m _ hne => by
      unfold Graph.runWork
      rw [Function.update_of_ne hne]
  have hold : G.runWork finished n = 6 * (G.successors n).length + 1 := if_pos hzero
  have hnew : G.runWork (Function.update finished n (finished n + 1)) n = 0 := by
    unfold Graph.runWork
    rw [Function.update_self, if_neg (Nat.succ_ne_zero _)]
  rw [hold, hnew] at hsum
  unfold Graph.left
  omega

end Left

/-! ### Each step takes something off -/

theorem CycleInv.left_lt_worker [Fintype W] (h : CycleInv G 0 st src s)
    (hs : Sched.stepWorker G s w = some s') : s'.left G < s.left G := by
  -- what the step does to the worker comes on top of what it does to the queue and the counts
  have hmove : ∀ queue finished pc, G.left s.callback queue
    (Function.update s.worker w pc) finished +
      (s.worker w).work = G.left s.callback queue s.worker finished + pc.work :=
        fun _ _ pc => G.left_move _ _ _ _ w pc
  unfold Sched.stepWorker at hs
  split at hs
  · cases hs
  · rename_i n hpc
    cases hs
    have hnext := hmove s.queue s.finished (.running n)
    rw [hpc] at hnext
    simp only [State.left, State.move, WorkerPc.work] at hnext ⊢
    omega
  · rename_i n hpc
    have hst : st n = .owned w .running := (h.owned n w .running).mpr (by simp [hpc])
    have hnG : n ∈ G.nodes := h.live n (by simp [hst])
    have hzero : s.finished n = 0 := by
      rw [(h.node n hnG).finished, hst]
      rfl
    have hfinish := G.left_finish s.callback s.queue s.worker s.finished hnG hzero
    have hnext := hmove s.queue (Function.update s.finished n (s.finished n + 1))
    rw [hpc] at hnext
    split at hs
    · cases hs
      have hwalk := hnext (.continue n (G.successors n) false)
      rw [WorkerPc.work_continue, if_neg Bool.false_ne_true] at hwalk
      simp only [State.left, State.move, WorkerPc.work] at hwalk ⊢
      omega
    · cases hs
      have hpost := hnext .post
      simp only [State.left, State.move, WorkerPc.work] at hpost ⊢
      omega
  · rename_i n v rest found hpc
    have hnext := hmove s.queue s.finished
    rw [hpc] at hnext
    dsimp only at hs
    split at hs
    · cases hs
      have hreset := hnext (.reset n v rest found)
      simp only [State.left, State.move, WorkerPc.work, List.length_cons] at hreset ⊢
      omega
    · cases hs
      have hwalk := hnext (.continue n rest found)
      rw [WorkerPc.work_continue] at hwalk
      simp only [State.left, State.move, WorkerPc.work, List.length_cons] at hwalk ⊢
      omega
  · cases hs
  · rename_i n v rest found hpc
    have hnext := hmove s.queue s.finished
    rw [hpc] at hnext
    split at hs
    · rename_i hfound
      cases hs
      have henqueue := hnext (.enqueue n v rest)
      simp only [State.left, State.move, WorkerPc.work, hfound, if_true] at henqueue ⊢
      omega
    · rename_i hfound
      cases hs
      have hwalk := hnext (.continue v rest true)
      rw [WorkerPc.work_continue, if_pos rfl] at hwalk
      simp only [State.left, State.move, WorkerPc.work] at hwalk ⊢
      omega
  · rename_i n v rest hpc
    cases hs
    have hpush := G.left_push s.callback s.queue s.worker s.finished v
    have hnext := hmove (s.queue ++ [v]) s.finished (.continue n rest true)
    rw [hpc, WorkerPc.work_continue, if_pos rfl] at hnext
    simp only [State.left, State.move, WorkerPc.work] at hnext ⊢
    omega
  · rename_i hpc
    cases hs
    have hnext := hmove s.queue s.finished .idle
    rw [hpc] at hnext
    simp only [State.left, State.move, WorkerPc.work] at hnext ⊢
    omega

/-- **Each step takes something off what is left to do.** -/
theorem CycleInv.left_lt [Fintype W] (h : CycleInv G 0 st src s) {l : Label W} (hl : l ≠ .call)
    (hs : Sched.step G s l = some s') : s'.left G < s.left G := by
  cases l with
  | call => exact absurd rfl hl
  | worker w => exact h.left_lt_worker hs
  | dequeue w n =>
      simp only [Sched.step, stepDequeue] at hs
      split at hs
      · rename_i hpc
        split at hs
        · rename_i hn
          cases hs
          have hpop := G.left_pop s.callback s.queue s.worker s.finished hn
          have hmove := G.left_move s.callback (s.queue.erase n) s.worker s.finished w (.ready n)
          rw [hpc] at hmove
          simp only [State.left, State.move, WorkerPc.work] at hmove ⊢
          omega
        · cases hs
      · cases hs
  | callback =>
      have hnext : ∀ callback, G.left callback s.queue s.worker s.finished + s.callback.work =
          G.left s.callback s.queue s.worker s.finished + callback.work :=
            fun _ => G.left_callback _ _ _ _ _
      simp only [Sched.step, stepCallback] at hs
      split at hs
      · rename_i n rest hpc
        have hcontinue := hnext (.continue rest)
        rw [CallbackPc.work_continue, hpc] at hcontinue
        split at hs
        · cases hs
          have hpush := G.left_push (.continue rest) s.queue s.worker s.finished n
          simp only [State.left, CallbackPc.work, List.length_cons, hpc] at hcontinue ⊢
          omega
        · cases hs
          simp only [State.left, CallbackPc.work, List.length_cons, hpc] at hcontinue ⊢
          omega
      · rename_i hpc
        split at hs
        · cases hs
          have hreturned := hnext .returned
          simp only [State.left, CallbackPc.work, hpc] at hreturned ⊢
          omega
        · cases hs
      · cases hs

/-! ### Some thread can move -/

/-- A worker that is not idle is not stuck. -/
theorem worker_enabled (hwalk : NoEmptyWalk s) (hbusy : s.worker w ≠ .idle) :
    (Sched.stepWorker G s w).isSome := by
  unfold Sched.stepWorker
  cases hpc : s.worker w with
  | idle => exact absurd hpc hbusy
  | ready n => rfl
  | running n =>
      simp only
      split <;> rfl
  | walk n sn found =>
      cases sn with
      | nil => exact absurd hpc (hwalk w n found)
      | cons v rest =>
          simp only
          split <;> rfl
  | reset n v sn found =>
      simp only
      split <;> rfl
  | enqueue n v sn => rfl
  | post => rfl

/-- The cycle is over: every node has run once, and the state is as before it. -/
structure CycleOver (G : Graph) (s : State W) : Prop where
  returned : s.callback = .returned
  queue : s.queue = []
  idle : ∀ w, s.worker w = .idle
  nodes : ∀ n ∈ G.nodes, s.started n = 1 ∧ s.finished n = 1 ∧ s.depCounter n = 0

/-- **Until the cycle is over some thread can move.** -/
theorem CycleInv.enabled [Nonempty W] (hG : G.Coherent) (hac : Rel.Acyclic G.Edge)
    (hfinal : G.finalNode ≠ none) (h : CycleInv G 0 st src s) (hwalk : NoEmptyWalk s)
    (hcalled : s.callback ≠ .idle) (hdispatch : s.callback ≠ .dispatch []) :
    (∃ l, l ≠ .call ∧ (Sched.step G s l).isSome) ∨ CycleOver G s := by
  by_cases hbusy : ∃ w, s.worker w ≠ .idle
  · obtain ⟨w, hw⟩ := hbusy
    exact .inl ⟨.worker w, by simp, worker_enabled hwalk hw⟩
  · have hidle : ∀ w, s.worker w = .idle := fun w => of_not_not fun hne => hbusy ⟨w, hne⟩
    cases hqueue : s.queue with
    | cons n rest =>
        refine .inl ⟨.dequeue (Classical.arbitrary W) n, by simp, ?_⟩
        simp [Sched.step, stepDequeue, hidle, hqueue]
    | nil =>
        cases hcallback : s.callback with
        | idle => exact absurd hcallback hcalled
        | dispatch rest =>
            cases rest with
            | nil => exact absurd hcallback hdispatch
            | cons n rest =>
                refine .inl ⟨.callback, by simp, ?_⟩
                simp only [Sched.step, stepCallback, hcallback]
                split <;> rfl
        | wait =>
            -- all nodes are done, and the final node has posted
            have hdone := h.quiet_done hG hac hqueue hidle (by rw [hcallback]; rfl)
            obtain ⟨f, hf⟩ := Option.ne_none_iff_exists'.mp hfinal
            have hfG := hG.finalNode f hf
            have hsem := ((h.node f hfG).final hf).2
            rw [hdone f hfG, hcallback] at hsem
            refine .inl ⟨.callback, by simp, ?_⟩
            have hpos : 0 < s.masterSem := by
              simp only [CallbackPc.isReturned, Stage.isDone_done, Bool.false_eq_true, if_false,
                if_true] at hsem
              omega
            simp [Sched.step, stepCallback, hcallback, hpos]
        | returned =>
            have hdone := (h.correct hG hac).complete hqueue hidle (by rw [hcallback]; rfl)
            exact .inr ⟨hcallback, hqueue, hidle, hdone.1⟩

/-! ### The result -/

/-- The steps that a cycle can take at most. -/
def Graph.work (G : Graph) : Nat :=
  4 * G.nodes.length + 1 + ∑ n ∈ G.nodes.toFinset, (6 * (G.successors n).length + 1)

omit [DecidableEq W] in
theorem left_dispatching [Fintype W] : (dispatching G W).left G = G.work := by
  have hidle : ∑ w, ((dispatching G W).worker w).work = 0 := Finset.sum_eq_zero fun _ _ => rfl
  unfold State.left Graph.left Graph.work
  rw [hidle]
  show (CallbackPc.continue G.nodes).work + 3 * 0 + 0 + _ = _
  rw [CallbackPc.work_continue]
  rfl

theorem CallbackPc.continue_ne_dispatch (rest : List Nat) :
    CallbackPc.continue rest ≠ .dispatch [] := by
  cases rest <;> simp [CallbackPc.continue]

/-- The loop that is over is left. -/
theorem step_dispatch {l : Label W} (hl : l ≠ .call) (h : s.callback ≠ .dispatch [])
    (hs : Sched.step G s l = some s') : s'.callback ≠ .dispatch [] := by
  cases l with
  | call => exact absurd rfl hl
  | callback =>
      simp only [Sched.step, stepCallback] at hs
      split at hs
      · split at hs <;> cases hs <;> exact CallbackPc.continue_ne_dispatch _
      · split at hs <;> cases hs
        simp
      · cases hs
  | dequeue w n =>
      simp only [Sched.step, stepDequeue] at hs
      split at hs
      · split at hs <;> cases hs
        exact h
      · cases hs
  | worker w =>
      simp only [Sched.step, Sched.stepWorker] at hs
      split at hs
      · cases hs
      · cases hs
        exact h
      · split at hs <;> cases hs <;> exact h
      · split at hs <;> cases hs <;> exact h
      · cases hs
      · split at hs <;> cases hs <;> exact h
      · cases hs
        exact h
      · cases hs
        exact h

/-- **A cycle ends**: no run of it has more than `G.work` steps, and as long as it is not over
some thread can move. -/
theorem cycleEnds [Fintype W] [Nonempty W] (hG : G.Coherent) (hac : Rel.Acyclic G.Edge)
    (hsink : G.FinalIsSink) (hfinal : G.finalNode ≠ none) {labels : List (Label W)}
    (h : runChecked (Sched.step G) OneCycle (dispatching G W) labels = some s) :
    labels.length ≤ G.work ∧ ((∃ l, l ≠ .call ∧ (Sched.step G s l).isSome) ∨ CycleOver G s) := by
  let Inv : State W → Prop := fun s => (∃ st src, CycleInv G 0 st src s) ∧ NoEmptyWalk s ∧
    s.callback ≠ .idle ∧ s.callback ≠ .dispatch []
  have hinit : Inv (dispatching G W) :=
    ⟨⟨_, _, .begin (fun _ => 0) rfl rfl (fun _ => rfl) rfl (fun _ _ => ⟨rfl, rfl, rfl⟩) rfl⟩,
      by simp [NoEmptyWalk, dispatching, init],
      CallbackPc.continue_ne _, CallbackPc.continue_ne_dispatch _⟩
  have hstep : ∀ s l s', Inv s → OneCycle s l → Sched.step G s l = some s' →
    Inv s' ∧ s'.left G < s.left G := by
    rintro s l s' ⟨⟨st, src, hinv⟩, hwalk, hcalled, hdispatch⟩ hl hs
    exact ⟨⟨hinv.step hG hsink hl hs, hwalk.step hl hs, (step_frame hl hs).2.1 hcalled,
      step_dispatch hl hdispatch hs⟩, hinv.left_lt hl hs⟩
  have hlength := length_le_of_measure Inv (State.left G) hstep labels hinit h
  obtain ⟨⟨st, src, hinv⟩, hwalk, hcalled, hdispatch⟩ :=
    (reaches_of_runChecked labels h).invariant Inv hinit
    fun s l s' hs hl hs' => (hstep s l s' hs hl hs').1
  rw [left_dispatching] at hlength
  exact ⟨by omega, hinv.enabled hG hac hfinal hwalk hcalled hdispatch⟩

theorem cycleEnds_diamond :
    ∃ s, runChecked (Sched.step diamond) OneCycle (dispatching diamond (Fin 2)) diamondRun =
    some s ∧ s.callback = .returned ∧ diamondRun.length ≤ diamond.work ∧
    ((∃ l, l ≠ .call ∧ (Sched.step diamond s l).isSome) ∨ CycleOver diamond s) := by
  have hrun : ∃ s, runChecked (Sched.step diamond) OneCycle
    (dispatching diamond (Fin 2)) diamondRun = some s ∧
      s.callback = .returned := ⟨_, rfl, rfl⟩
  obtain ⟨s, hs, hcallback⟩ := hrun
  exact ⟨s, hs, hcallback, cycleEnds diamond_coherent diamond_acyclic diamond_finalIsSink
    (by decide) hs⟩

end Ksi.Sched

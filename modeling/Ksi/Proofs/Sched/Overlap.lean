/-
Consecutive cycles.

The callback waits for one post of the final node and takes it for the end of the
cycle.  That is right when every node leads to the final node: the final node can
only run after all of them, so at its post nobody is queued, running or counting.
A node that does not lead to the final node is nobody's business at that point; it
may still be queued when the next call of the callback queues it again.
-/
import Ksi.Proofs.Sched.Cycle

namespace Ksi.Sched

open Runs Relation

variable {W : Type} [DecidableEq W] {G : Graph} {k : Nat} {st : Nat → Stage W} {src : W → Nat}
  {s : State W}

/-- Every node leads to the final node. -/
def Graph.LeadsToFinal (G : Graph) : Prop :=
  ∃ f, G.finalNode = some f ∧ ∀ n ∈ G.nodes, ReflTransGen G.Edge n f

/-- The cycles do not overlap, as far as the run has got in `s`. -/
structure CyclesApart (G : Graph) (s : State W) : Prop where
  /-- when the callback returns, the cycle is over -/
  returned : s.callback = .returned → ∀ n ∈ G.nodes, s.finished n = s.cycle ∧ s.depCounter n = 0
  /-- a run that has begun belongs to the current cycle, the earlier ones have ended -/
  started : ∀ n ∈ G.nodes, s.finished n ≤ s.started n ∧ s.started n ≤ s.cycle ∧
    s.cycle ≤ s.finished n + 1
  /-- a task in a queue or in hand is for a run of the current cycle, and it is the
  only one -/
  queued : ∀ n ∈ G.nodes, n ∈ s.queue ∨ (∃ w, s.worker w = .ready n) →
    s.started n + 1 = s.cycle ∧ s.queue.count n ≤ 1

/-- A final node every node leads to has no successors. -/
theorem Graph.LeadsToFinal.finalIsSink (hG : G.Coherent) (hac : Rel.Acyclic G.Edge)
    (hlead : G.LeadsToFinal) : G.FinalIsSink := by
  obtain ⟨f, hf, hpath⟩ := hlead
  intro f' hf'
  obtain rfl : f = f' := by simpa [hf] using hf'
  refine List.eq_nil_iff_forall_not_mem.mpr fun d hd => ?_
  have hfG := hG.finalNode f hf
  exact hac f (.head' ⟨hfG, hd⟩ (hpath d (hG.closed f hfG d hd)))

/-! ### No worker at the empty end of a list -/

/-- A worker in front of a counter has a successor to look at. -/
def NoEmptyWalk (s : State W) : Prop := ∀ w n found, s.worker w ≠ .walk n [] found

theorem CallbackPc.continue_ne (rest : List Nat) : CallbackPc.continue rest ≠ .idle := by
  cases rest <;> simp [CallbackPc.continue]

theorem WorkerPc.continue_ne (n : Nat) (sn : List Nat) (found : Bool) (m : Nat) (found' : Bool) :
    WorkerPc.continue n sn found ≠ .walk m [] found' := by
  unfold WorkerPc.continue
  split
  · split <;> simp
  · simp

/-- What no step of a cycle touches: the number of the cycle, and all workers but
one; nor does the callback become as if never called. -/
theorem step_frame {l : Label W} {s' : State W} (hl : l ≠ .call) (hs : step G s l = some s') :
    s'.cycle = s.cycle ∧ (s.callback ≠ .idle → s'.callback ≠ .idle) ∧
    (s'.worker = s.worker ∨ ∃ w pc, (∀ n found, pc ≠ .walk n [] found) ∧
      s'.worker = Function.update s.worker w pc) := by
  cases l with
  | call => exact absurd rfl hl
  | callback =>
      simp only [step, stepCallback] at hs
      split at hs
      · split at hs <;> cases hs <;> exact ⟨rfl, fun _ => CallbackPc.continue_ne _, .inl rfl⟩
      · split at hs <;> cases hs
        exact ⟨rfl, by simp, .inl rfl⟩
      · cases hs
  | dequeue w n =>
      simp only [step, stepDequeue] at hs
      split at hs
      · split at hs <;> cases hs
        exact ⟨rfl, id, .inr ⟨w, _, by simp, rfl⟩⟩
      · cases hs
  | worker w =>
      simp only [step, stepWorker] at hs
      have hgoOn := WorkerPc.continue_ne
      split at hs
      · cases hs
      · cases hs
        exact ⟨rfl, id, .inr ⟨w, _, by simp, rfl⟩⟩
      · split at hs <;> cases hs <;> exact ⟨rfl, id, .inr ⟨w, _, by simp [hgoOn], rfl⟩⟩
      · split at hs <;> cases hs <;> exact ⟨rfl, id, .inr ⟨w, _, by simp [hgoOn], rfl⟩⟩
      · cases hs
      · split at hs <;> cases hs <;> exact ⟨rfl, id, .inr ⟨w, _, by simp [hgoOn], rfl⟩⟩
      · cases hs
        exact ⟨rfl, id, .inr ⟨w, _, by simp [hgoOn], rfl⟩⟩
      · cases hs
        exact ⟨rfl, id, .inr ⟨w, _, by simp, rfl⟩⟩

theorem NoEmptyWalk.step (h : NoEmptyWalk s) {l : Label W} {s' : State W} (hl : l ≠ .call)
    (hs : step G s l = some s') : NoEmptyWalk s' := by
  obtain ⟨-, -, hworker | ⟨w, pc, hpc, hworker⟩⟩ := step_frame hl hs
  · intro w n found
    rw [hworker]
    exact h w n found
  · intro w' n found
    rw [hworker, Function.update_apply]
    split
    · exact hpc n found
    · exact h w' n found

/-! ### The end of a cycle -/

/-- When `ksiSemWait` has returned, every node is done. -/
theorem CycleInv.returned_done (hG : G.Coherent) (hlead : G.LeadsToFinal)
    (h : CycleInv G k st src s) (hwalk : NoEmptyWalk s) (hret : s.callback = .returned) :
    (∀ n ∈ G.nodes, st n = .done) ∧ ∀ w, s.worker w = .idle := by
  obtain ⟨f, hf, hpath⟩ := hlead
  have hfG := hG.finalNode f hf
  have hfdone : st f = .done := by
    have hsem := ((h.node f hfG).final hf).2
    rw [hret] at hsem
    cases hst : st f <;> simp_all [Stage.isDone, CallbackPc.isReturned]
  have hpast : ∀ n ∈ G.nodes, (st n).past = true := by
    intro n hn
    rcases (hpath n hn).cases_head with rfl | ⟨b, hnb, hbf⟩
    · simp [hfdone]
    · exact h.ancestor_past (TransGen.head' hnb hbf) (by simp [hfdone])
  -- a worker in the loop or with a task has a node in hand that is not past its run
  have hidle : ∀ w, s.worker w = .idle := by
    intro w
    have howned : ∀ n r, Plays (src w) (s.worker w) n r → (st n).past = true ∧
        st n = .owned w r := by
      intro n r hplays
      have hst := (h.owned n w r).mpr hplays
      exact ⟨hpast n (h.live n (by simp [hst])), hst⟩
    cases hpc : s.worker w with
    | idle => rfl
    | ready n => have := howned n .held; grind
    | running n => have := howned n .running; grind
    | reset n v sn found => have := howned v .resetting; grind
    | enqueue n v sn => have := howned v .pushing; grind
    | post =>
        have hpost := howned (src w) .posting (by simp [hpc])
        have := (h.node _ (h.live _ (by simp [hpost.2]))).posting w hpost.2
        grind
    | walk n sn found =>
        cases sn with
        | nil => exact absurd hpc (hwalk w n found)
        | cons v rest =>
            obtain ⟨-, -, hvG, hwait, -, -⟩ := h.head hG hpc
            have := hpast v hvG
            simp [hwait] at this
  refine ⟨fun n hn => ?_, hidle⟩
  have hn' := hpast n hn
  cases hst : st n with
  | done => rfl
  | waiting => simp [hst] at hn'
  | queued => rw [hst] at hn'; cases hn'
  | owned w r =>
      have := (h.owned n w r).mp hst
      cases r <;> simp [hidle] at this

/-- Then the engine is as before the first cycle, but for the counts. -/
theorem CycleInv.returned_clean (hG : G.Coherent) (hlead : G.LeadsToFinal)
    (h : CycleInv G k st src s) (hwalk : NoEmptyWalk s) (hret : s.callback = .returned) :
    s.queue = [] ∧ s.masterSem = 0 ∧ s.posted = k + 1 ∧
      ∀ n ∈ G.nodes, s.depCounter n = 0 ∧ s.started n = k + 1 ∧ s.finished n = k + 1 := by
  obtain ⟨hdone, -⟩ := h.returned_done hG hlead hwalk hret
  obtain ⟨f, hf, -⟩ := hlead
  have hfG := hG.finalNode f hf
  obtain ⟨hposted, hsem⟩ := (h.node f hfG).final hf
  rw [hdone f hfG] at hposted hsem
  refine ⟨?_, ?_, by simpa using hposted, fun n hn => ?_⟩
  · refine List.eq_nil_iff_forall_not_mem.mpr fun n hn => ?_
    have hcount := h.queued n
    have hpos := List.count_pos_iff.mpr hn
    have hst : st n = .queued := by grind
    have hnG := h.live n (by simp [hst])
    simp [hdone n hnG] at hst
  · simpa [hret, CallbackPc.isReturned] using hsem
  · obtain ⟨-, hcounter, -, -, hstarted, hfinished, -⟩ := h.node n hn
    simp_all

/-! ### All cycles -/

/-- The invariant of a run over any number of calls: nothing has been called yet,
or the state is within a cycle. -/
def OverlapInv (G : Graph) (s : State W) : Prop :=
  NoEmptyWalk s ∧
    (s = init W ∨
      s.callback ≠ .idle ∧ ∃ k st src, s.cycle = k + 1 ∧ CycleInv G k st src s)

/-- Before the first call nothing can move. -/
theorem step_init {l : Label W} {s' : State W} (hs : step G (init W) l = some s') : l = .call := by
  cases l <;> simp_all [step, stepCallback, stepDequeue, stepWorker, init]

/-- A call begins the next cycle. -/
theorem OverlapInv.call (hG : G.Coherent) (hlead : G.LeadsToFinal) (h : OverlapInv G s)
    {s' : State W} (hs : stepCall G s = some s') : OverlapInv G s' := by
  obtain ⟨hwalk, hin⟩ := h
  obtain ⟨f, hf, hpath⟩ := id hlead
  unfold stepCall at hs
  rw [hf] at hs
  rcases hin with rfl | ⟨hne, k, st, src, hcycle, hinv⟩
  · cases hs
    refine ⟨hwalk, .inr ⟨CallbackPc.continue_ne _, 0, fun _ => .waiting, fun _ => 0, rfl, ?_⟩⟩
    exact .begin _ rfl rfl (fun _ => rfl) rfl (fun _ _ => ⟨rfl, rfl, rfl⟩) rfl
  · have hret : s.callback = .returned := by
      split at hs <;> simp_all
    rw [hret] at hs
    cases hs
    obtain ⟨hqueue, hsem, hposted, hnode⟩ := hinv.returned_clean hG hlead hwalk hret
    obtain ⟨-, hidle⟩ := hinv.returned_done hG hlead hwalk hret
    refine ⟨hwalk, .inr ⟨CallbackPc.continue_ne _, k + 1, fun _ => .waiting, fun _ => 0,
      by simp [hcycle], ?_⟩⟩
    exact .begin _ rfl hqueue hidle hsem hnode hposted

theorem OverlapInv.step (hG : G.Coherent) (hac : Rel.Acyclic G.Edge) (hlead : G.LeadsToFinal)
    (h : OverlapInv G s) {l : Label W} {s' : State W} (hs : step G s l = some s') :
    OverlapInv G s' := by
  by_cases hl : l = .call
  · subst hl
    exact h.call hG hlead hs
  · obtain ⟨hwalk, rfl | ⟨hne, k, st, src, hcycle, hinv⟩⟩ := h
    · exact absurd (step_init hs) hl
    · obtain ⟨hcycle', hne', -⟩ := step_frame hl hs
      obtain ⟨st', src', hinv'⟩ := hinv.step hG (hlead.finalIsSink hG hac) hl hs
      exact ⟨hwalk.step hl hs, .inr ⟨hne' hne, k, st', src', hcycle'.trans hcycle, hinv'⟩⟩

/-! ### The result -/

theorem OverlapInv.apart (hG : G.Coherent) (hlead : G.LeadsToFinal) (h : OverlapInv G s) :
    CyclesApart G s := by
  obtain ⟨hwalk, rfl | ⟨hne, k, st, src, hcycle, hinv⟩⟩ := h
  · constructor <;> simp [init]
  · constructor
    case returned =>
      intro hret n hn
      obtain ⟨-, -, -, hnode⟩ := hinv.returned_clean hG hlead hwalk hret
      exact ⟨by rw [(hnode n hn).2.2, hcycle], (hnode n hn).1⟩
    case started =>
      intro n hn
      have hnode := hinv.node n hn
      rw [hnode.started, hnode.finished, hcycle]
      cases st n with
      | waiting => simp
      | queued => simp [Stage.begun, Stage.past]
      | done => simp
      | owned w r => cases r <;> simp [Stage.begun, Stage.past]
    case queued =>
      intro n hn htask
      have hcount := hinv.queued n
      have hst : st n = .queued ∨ ∃ w, st n = .owned w .held := by
        rcases htask with hq | ⟨w, hw⟩
        · have := List.count_pos_iff.mpr hq
          grind
        · exact .inr ⟨w, (hinv.owned n w .held).mpr (by simp [hw])⟩
      have hstarted := (hinv.node n hn).started
      rcases hst with hst | ⟨w, hst⟩ <;> simp_all [Stage.begun]

/-- **When every node leads to the final node, cycles do not overlap**, over any
number of calls, with any number of workers in any order. -/
theorem cyclesApart (hG : G.Coherent) (hac : Rel.Acyclic G.Edge) (hlead : G.LeadsToFinal)
    (h : Reaches (step G) Free (init W) s) : CyclesApart G s := by
  have hinv : OverlapInv G s :=
    h.invariant (OverlapInv G) ⟨by intro w n found; simp [init], .inl rfl⟩
      fun _ _ _ hi _ hs => hi.step hG hac hlead hs
  exact hinv.apart hG hlead

theorem diamond_leadsToFinal : diamond.LeadsToFinal := by
  refine ⟨3, rfl, ?_⟩
  have h1 : diamond.Edge 0 1 := by decide
  have h2 : diamond.Edge 1 3 := by decide
  have h3 : diamond.Edge 2 3 := by decide
  have hall : ∀ n ∈ [0, 1, 2, 3], ReflTransGen diamond.Edge n 3 := by
    simp only [List.forall_mem_cons]
    exact ⟨.head h1 (.single h2), .single h2, .single h3, .refl, by simp⟩
  exact hall

theorem cyclesApart_diamond : ∃ s, Reaches (step diamond) Free (init (Fin 2)) s ∧
    s.callback = .returned ∧ s.cycle = 2 ∧ CyclesApart diamond s := by
  have hrun : ∃ s, run (step diamond) (init (Fin 2))
      (.call :: diamondRun ++ .call :: diamondRun) = some s ∧
      s.callback = .returned ∧ s.cycle = 2 :=
    ⟨_, rfl, rfl, rfl⟩
  obtain ⟨s, hs, hret, hcycle⟩ := hrun
  have hreach := reaches_of_run _ hs
  exact ⟨s, hreach, hret, hcycle,
    cyclesApart diamond_coherent diamond_acyclic diamond_leadsToFinal hreach⟩

/-! ### A node that does not lead to the final node -/

/-- A final node and a node without successors. -/
def stray : Graph where
  nodes := [0, 1]
  successors := fun _ => []
  depNum := fun _ => 0
  output := fun n => if n = 0 then .final else .normal
  finalNode := some 0

theorem stray_coherent : stray.Coherent where
  nodup := by decide
  closed := by decide
  successors_nodup := by decide
  depNum := by decide
  final := by decide
  finalNode := by
    intro f hf
    cases hf
    decide

theorem stray_acyclic : Rel.Acyclic stray.Edge :=
  .of_rank id fun _ _ hab => absurd hab.2 (by simp [stray])

/-- One cycle in which only the final node runs. -/
def strayRun : List (Label (Fin 2)) :=
  [.call, .callback, .callback, .dequeue 0 0, .worker 0, .worker 0, .worker 0, .callback]

/-- The callback returns while node 1 is still queued. -/
theorem stray_overlaps : ∃ s, Reaches (step stray) Free (init (Fin 2)) s ∧
    s.callback = .returned ∧ 1 ∈ s.queue ∧ s.finished 1 < s.cycle := by
  have hrun : ∃ s, run (step stray) (init (Fin 2)) strayRun = some s ∧ s.callback = .returned ∧
      1 ∈ s.queue ∧ s.finished 1 < s.cycle :=
    ⟨_, rfl, rfl, by decide, by decide⟩
  obtain ⟨s, hs, hret, hqueue, hfinished⟩ := hrun
  exact ⟨s, reaches_of_run strayRun hs, hret, hqueue, hfinished⟩

/-- The next cycle has both workers run node 1 at the same time. -/
theorem stray_runs_twice : ∃ s, Reaches (step stray) Free (init (Fin 2)) s ∧
    s.worker 0 = .running 1 ∧ s.worker 1 = .running 1 := by
  have hrun : ∃ s, run (step stray) (init (Fin 2)) (strayRun ++ [.call, .callback, .callback,
      .dequeue 0 1, .worker 0, .dequeue 1 1, .worker 1]) = some s ∧
      s.worker 0 = .running 1 ∧ s.worker 1 = .running 1 :=
    ⟨_, rfl, rfl, rfl⟩
  obtain ⟨s, hs, h0, h1⟩ := hrun
  exact ⟨s, reaches_of_run _ hs, h0, h1⟩

end Ksi.Sched

/-
Workers that leave and workers that oversleep.

A worker without a task looks at `enginesAlive` twice: in `dequeue_blocked`, which gives up
at zero, and then again, to choose between sleeping and leaving its loop.  A launch that
comes between the two makes it leave a pool that runs.  And between its second look and its
wait a launch can post `hanging` and raise the count, which wakes nobody; then the worker
sleeps while an engine plays.

Two conditions on the calls exclude the two orders, each read in the state before the step
of the call, and each is sharp: where it fails, the worker's own next steps end in the state
that it is there to exclude.
-/
import Ksi.Pool.Workers
import Mathlib.Data.Fintype.Card

namespace Ksi.Pool.Workers

open Runs PoolState

variable {ι T : Type} {s s' : State ι T} {w v : T} {e : ι}

/-! ### What a step does -/

/-- A worker past a look at `enginesAlive` that has found it zero, and not woken since. -/
@[grind =]
def WorkerPc.asleep : WorkerPc → Bool
  | .state | .wait | .hanging false => true
  | _ => false

/-- A launch is in progress. -/
@[grind =]
def CallPc.launching : CallPc → Bool
  | .load | .post | .add => true
  | _ => false

theorem WorkerPc.signal_left {pc : WorkerPc} : pc.signal = .left ↔ pc = .left := by
  cases pc <;> simp [signal]

theorem WorkerPc.signal_check {pc : WorkerPc} : pc.signal = .check ↔ pc = .check := by
  cases pc <;> simp [signal]

theorem WorkerPc.asleep_of_signal {pc : WorkerPc} (h : pc.signal.asleep) : pc.asleep := by
  cases pc <;> simp_all [signal, asleep]

variable [DecidableEq T]

theorem State.worker_move (s : State ι T) (pc : WorkerPc) :
    (s.move w pc).worker v = if v = w then pc else s.worker v := Function.update_apply ..

/-- Where a worker goes to. -/
theorem stepWorker_cases {more : Bool} (hs : stepWorker s w more = some s') :
    ∃ pc, s' = s.move w pc ∧
      (pc = .left → s.state = ksiEngineWorkerPoolStateFinalizing ∨
        (s.worker w = .check ∧ s.enginesAlive ≠ 0)) ∧
      (pc = .check → s.enginesAlive = 0) ∧
      (pc.asleep → s.enginesAlive = 0 ∨ (s.worker w).asleep) := by
  unfold stepWorker at hs
  split at hs
  case h_1 | h_3 | h_4 =>
    cases hs
    refine ⟨_, rfl, ?_⟩
    cases more <;> simp [WorkerPc.asleep]
  case h_2 | h_5 =>
    cases hs
    refine ⟨_, rfl, ?_⟩
    by_cases halive : s.enginesAlive = 0 <;> simp_all [WorkerPc.asleep]
  case h_6 hpc =>
    split at hs
    · cases hs
      exact ⟨.wait, rfl, nofun, nofun, fun _ => .inr (by rw [hpc]; rfl)⟩
    · rename_i hfin
      cases hs
      exact ⟨.left, rfl, fun _ => .inl hfin, nofun, nofun⟩
  case h_7 hpc =>
    cases hs
    exact ⟨.hanging false, rfl, nofun, nofun, fun _ => .inr (by rw [hpc]; rfl)⟩
  case h_8 => cases hs
  case h_9 => cases hs

variable [DecidableEq ι]

/-- Beginning a call moves no worker and leaves `enginesAlive` alone, and the only calls it
adds to those in progress are launches. -/
structure Began (s s' : State ι T) : Prop where
  worker : s'.worker = s.worker
  enginesAlive : s'.enginesAlive = s.enginesAlive
  state : s'.state = s.state
  call : ∀ e, (s.call e).launching → (s'.call e).launching

omit [DecidableEq T] in
theorem Began.begin (hidle : s.call e = .idle) (playing : Playing) (pc : CallPc) :
    Began s (s.begin e playing pc) := by
  refine ⟨rfl, rfl, rfl, fun e' he' => ?_⟩
  have hne : e' ≠ e := by
    rintro rfl
    rw [hidle] at he'
    cases he'
  show (Function.update s.call e pc e').launching
  rwa [Function.update_of_ne hne]

/-- Every step, as far as the workers and the count are concerned. -/
theorem step_cases {a : Label ι T} (hs : step s a = some s') :
    Began s s' ∨ (∃ e, a = .call e ∧ stepCall s e = some s') ∨
      (∃ w more, a = .worker w more ∧ stepWorker s w more = some s') ∨
      (∃ w woken, a = .wake w ∧ s.worker w = .hanging woken ∧ s' = s.move w .get) ∨
      (s'.worker = s.worker ∧ s'.enginesAlive = s.enginesAlive ∧ s'.call = s.call ∧
        (s'.state = s.state ∨ s'.state = ksiEngineWorkerPoolStateFinalizing)) ∨
      s' = { s.post with destroy := .join } := by
  have hrefl : Began s s := ⟨rfl, rfl, rfl, fun _ => id⟩
  cases a with
  | call e => exact .inr (.inl ⟨e, rfl, hs⟩)
  | worker w more => exact .inr (.inr (.inl ⟨w, more, rfl, hs⟩))
  | wake w =>
      simp only [step] at hs
      split at hs
      · rename_i woken hpc
        cases hs
        exact .inr (.inr (.inr (.inl ⟨w, woken, rfl, hpc, rfl⟩)))
      · cases hs
  | destroy =>
      simp only [step] at hs
      split at hs
      · cases hs
        exact .inr (.inr (.inr (.inr (.inl ⟨rfl, rfl, rfl, .inr rfl⟩))))
      · cases hs
  | destroyer =>
      simp only [step] at hs
      split at hs
      · cases hs
        exact .inr (.inr (.inr (.inr (.inl ⟨rfl, rfl, rfl, .inl rfl⟩))))
      · cases hs
        exact .inr (.inr (.inr (.inr (.inr rfl))))
      · cases hs
      · cases hs
  | stop e =>
      simp only [step] at hs
      split at hs
      · rename_i hidle
        cases hs
        exact .inl (.begin hidle _ _)
      · cases hs
  | launch e | pause e | resume e =>
      simp only [step] at hs
      split at hs
      · rename_i hidle
        cases hs
        split
        · exact .inl hrefl
        · exact .inl (.begin hidle _ _)
      · cases hs

/-! ### Leaving the loop -/

/-- The workers leave their loop after the pool has been told to end, and until then all
of them are there. -/
def Survives [Fintype T] (s : State ι T) : Prop :=
  (∀ w, s.worker w = .left → s.state = ksiEngineWorkerPoolStateFinalizing) ∧
    (s.state = ksiEngineWorkerPoolStateRunning →
      (Finset.univ.filter fun w => s.worker w ≠ .left).card = Fintype.card T)

/-- A call that takes `enginesAlive` away from zero finds no worker that has given up at
zero and is about to look at the count again. -/
def Unseen (s : State ι T) : Label ι T → Prop
  | .call e => s.enginesAlive = 0 → s.call e = .add ∨ s.call e = .sub → ∀ w, s.worker w ≠ .check
  | _ => True

instance [Fintype T] : DecidableRel (@Unseen ι T) := fun s a => by
  unfold Unseen
  cases a <;> infer_instance

/-- What a worker has seen still holds when it looks again. -/
structure Steady (s : State ι T) : Prop where
  left : ∀ w, s.worker w = .left → s.state = ksiEngineWorkerPoolStateFinalizing
  check : ∀ w, s.worker w = .check → s.enginesAlive = 0

omit [DecidableEq ι] [DecidableEq T] in
theorem Steady.survives [Fintype T] (h : Steady s) : Survives s := by
  refine ⟨h.left, fun hrun => ?_⟩
  rw [Finset.filter_true_of_mem, Finset.card_univ]
  intro w _ hleft
  rw [h.left w hleft] at hrun
  cases hrun

omit [DecidableEq ι] [DecidableEq T] in
/-- A step that moves no worker to either place, and keeps what they have seen. -/
theorem Steady.of_workers (h : Steady s) (halive : s'.enginesAlive = s.enginesAlive)
    (hstate : s.state = ksiEngineWorkerPoolStateFinalizing →
      s'.state = ksiEngineWorkerPoolStateFinalizing)
    (hleft : ∀ w, s'.worker w = .left → s.worker w = .left)
    (hcheck : ∀ w, s'.worker w = .check → s.worker w = .check) : Steady s' :=
  ⟨fun w hw => hstate (h.left w (hleft w hw)), fun w hw => halive.trans (h.check w (hcheck w hw))⟩

omit [DecidableEq ι] in
theorem Steady.stepWorker {more : Bool} (h : Steady s) (hs : stepWorker s w more = some s') :
    Steady s' := by
  obtain ⟨pc, rfl, hleft, hcheck, -⟩ := stepWorker_cases hs
  constructor
  case left =>
    intro v hv
    rw [State.worker_move] at hv
    split at hv
    · rcases hleft hv with hfin | ⟨hw, hne⟩
      · exact hfin
      · exact absurd (h.check w hw) hne
    · exact h.left v hv
  case check =>
    intro v hv
    rw [State.worker_move] at hv
    split at hv
    · exact hcheck hv
    · exact h.check v hv

omit [DecidableEq T] in
theorem Steady.stepCall (h : Steady s) (hc : Unseen s (.call e)) (hs : stepCall s e = some s') :
    Steady s' := by
  unfold Workers.stepCall at hs
  split at hs
  case h_1 => cases hs
  case h_2 =>
    cases hs
    exact h.of_workers rfl id (fun _ => id) fun _ => id
  case h_3 =>
    cases hs
    exact h.of_workers rfl id (fun _ => WorkerPc.signal_left.mp) fun _ => WorkerPc.signal_check.mp
  case h_4 hadd =>
    cases hs
    exact ⟨h.left, fun w hw => absurd hw (hc (h.check w hw) (.inl hadd) w)⟩
  case h_5 hsub =>
    cases hs
    exact ⟨h.left, fun w hw => absurd hw (hc (h.check w hw) (.inr hsub) w)⟩

theorem Steady.step {a : Label ι T} (h : Steady s) (hc : Unseen s a) (hs : step s a = some s') :
    Steady s' := by
  rcases step_cases hs with hb | ⟨e, rfl, hs⟩ | ⟨w, more, rfl, hs⟩ | ⟨w, woken, rfl, hw, rfl⟩ |
    ⟨hworker, halive, -, hstate⟩ | rfl
  · exact h.of_workers hb.enginesAlive hb.state.trans (fun w => by rw [hb.worker]; exact id)
      fun w => by rw [hb.worker]; exact id
  · exact h.stepCall hc hs
  · exact h.stepWorker hs
  · refine h.of_workers rfl id (fun v hv => ?_) fun v hv => ?_
    · rw [State.worker_move] at hv
      split at hv
      · cases hv
      · exact hv
    · rw [State.worker_move] at hv
      split at hv
      · cases hv
      · exact hv
  · refine h.of_workers halive (fun hfin => ?_) (fun w => by rw [hworker]; exact id)
      fun w => by rw [hworker]; exact id
    rcases hstate with heq | heq
    · exact heq.trans hfin
    · exact heq
  · exact h.of_workers rfl id (fun _ => WorkerPc.signal_left.mp) fun _ => WorkerPc.signal_check.mp

omit [DecidableEq T] in
/-- The count that leaves zero is no longer zero. -/
theorem stepCall_leaves_zero (halive : s.enginesAlive = 0)
    (hcall : s.call e = .add ∨ s.call e = .sub) (hs : stepCall s e = some s') :
    s'.worker = s.worker ∧ s'.enginesAlive ≠ 0 ∧ s'.state = s.state := by
  unfold Workers.stepCall at hs
  rcases hcall with hcall | hcall <;> rw [hcall] at hs <;> cases hs
  · exact ⟨rfl, by show s.enginesAlive + 1 ≠ 0; omega, rfl⟩
  · exact ⟨rfl, by show s.enginesAlive - 1 ≠ 0; omega, rfl⟩

/-- **Workers survive stop and relaunch** in every run in which no call takes
`enginesAlive` away from zero while a worker that has given up at zero is about to look
again.  And where a call does, that worker's next step takes it out of its loop. -/
theorem survives_of_unseen [Fintype T] (h : Reaches step Unseen (init ι T) s) :
    Survives s ∧ ∀ a s', ¬ Unseen s a → step s a = some s' →
      s.state = ksiEngineWorkerPoolStateRunning →
        ∃ w s'', step s' (.worker w false) = some s'' ∧ ¬ Survives s'' := by
  have hsteady : Steady s := h.invariant Steady ⟨nofun, nofun⟩ fun _ _ _ h hc hs => h.step hc hs
  refine ⟨hsteady.survives, fun a s' hseen hs hrun => ?_⟩
  cases a with
  | call e =>
      simp only [Unseen] at hseen
      push Not at hseen
      obtain ⟨halive, hcall, w, hw⟩ := hseen
      obtain ⟨hworker, hne, hstate⟩ := stepCall_leaves_zero halive hcall hs
      have hcheck : s'.worker w = .check := by rw [hworker, hw]
      refine ⟨w, s'.move w .left, by simp only [step, stepWorker, hcheck, if_neg hne], ?_⟩
      intro hsurvives
      have hfin := hsurvives.1 w (by rw [State.worker_move, if_pos rfl])
      rw [show (s'.move w .left).state = s.state from hstate, hrun] at hfin
      cases hfin
  | _ => exact absurd trivial hseen

/-- A worker goes to sleep, is woken by a launch, and goes to sleep again when the engine
has been stopped. -/
theorem survives_of_unseen_relaunch : ∃ s : State (Fin 1) (Fin 1),
    Reaches step Unseen (init (Fin 1) (Fin 1)) s ∧ s.worker 0 = .hanging false ∧ Survives s := by
  have hrun : (runChecked step Unseen (init (Fin 1) (Fin 1))
      [.worker 0 false, .worker 0 false, .worker 0 false, .worker 0 false, .worker 0 false,
        .launch 0, .call 0, .call 0, .call 0, .wake 0, .worker 0 false, .stop 0, .call 0,
        .worker 0 false, .worker 0 false, .worker 0 false, .worker 0 false]).map
      (fun s => s.worker 0) = some (.hanging false) := by decide
  obtain ⟨s, hs, hw⟩ := Option.map_eq_some_iff.mp hrun
  have hreach := reaches_of_runChecked _ hs
  exact ⟨s, hreach, hw, (survives_of_unseen hreach).1⟩

/-- **A launch between the two looks makes a worker leave a pool that runs.** -/
theorem not_survives : ¬ ∀ s : State (Fin 1) (Fin 1), Reaches step Free (init (Fin 1) (Fin 1)) s →
    Survives s := by
  intro h
  have hrun : (run step (init (Fin 1) (Fin 1))
      [.worker 0 false, .worker 0 false, .launch 0, .call 0, .call 0, .call 0, .worker 0 false]).map
      (fun s => (s.worker 0, s.state)) = some (.left, ksiEngineWorkerPoolStateRunning) := by decide
  obtain ⟨s, hs, hw⟩ := Option.map_eq_some_iff.mp hrun
  rw [Prod.mk.injEq] at hw
  have hfin := (h s (reaches_of_run _ hs)).1 0 hw.1
  rw [hw.2] at hfin
  cases hfin

/-! ### Sleeping through a launch -/

/-- While an engine is alive and no launch is in progress no worker is blocked in
`ksiBSemWait(&wp->hanging)`. -/
def Awake (s : State ι T) : Prop :=
  0 < s.enginesAlive → (∀ e, ¬ (s.call e).launching) → ∀ w, s.worker w ≠ .hanging false

/-- The raise that ends the last launch in progress, and leaves an engine alive, finds
every worker that has seen no engine alive woken by a post. -/
def Woken (s : State ι T) : Label ι T → Prop
  | .call e => s.call e = .add → 0 ≤ s.enginesAlive →
      (∀ e', e' ≠ e → ¬ (s.call e').launching) → ∀ w, ¬ (s.worker w).asleep
  | _ => True

instance [Fintype ι] [Fintype T] : DecidableRel (@Woken ι T) := fun s a => by
  unfold Woken
  cases a <;> infer_instance

/-- No worker is asleep or on its way to sleep while an engine is alive. -/
def Rested (s : State ι T) : Prop :=
  0 < s.enginesAlive → (∀ e, ¬ (s.call e).launching) → ∀ w, ¬ (s.worker w).asleep

omit [DecidableEq ι] [DecidableEq T] in
theorem Rested.awake (h : Rested s) : Awake s :=
  fun halive hcall w hw => h halive hcall w (by rw [hw]; rfl)

omit [DecidableEq T] in
theorem Rested.stepCall (h : Rested s) (hc : Woken s (.call e)) (hs : stepCall s e = some s') :
    Rested s' := by
  unfold Workers.stepCall at hs
  split at hs
  case h_1 => cases hs
  case h_2 =>
    cases hs
    intro _ hcall
    refine absurd ?_ (hcall e)
    show (Function.update s.call e _ e).launching
    rw [Function.update_self]
    split <;> rfl
  case h_3 =>
    cases hs
    intro _ hcall
    refine absurd ?_ (hcall e)
    show (Function.update s.call e _ e).launching
    rw [Function.update_self]
    rfl
  case h_4 hadd =>
    cases hs
    intro halive hcall
    refine hc hadd (by have : 0 < s.enginesAlive + 1 := halive; omega) fun e' he' => ?_
    have hcall' := hcall e'
    rwa [show (s.goto e .idle).call e' = s.call e' from Function.update_of_ne he' _ _] at hcall'
  case h_5 hsub =>
    cases hs
    intro halive hcall
    have hpos : 0 < s.enginesAlive := by have : 0 < s.enginesAlive - 1 := halive; omega
    refine h hpos fun e' => ?_
    by_cases he' : e' = e
    · rw [he', hsub]
      nofun
    · have hcall' := hcall e'
      rwa [show (s.goto e .idle).call e' = s.call e' from Function.update_of_ne he' _ _] at hcall'

theorem Rested.step {a : Label ι T} (h : Rested s) (hc : Woken s a) (hs : step s a = some s') :
    Rested s' := by
  rcases step_cases hs with hb | ⟨e, rfl, hs⟩ | ⟨w, more, rfl, hs⟩ | ⟨w, woken, rfl, hw, rfl⟩ |
    ⟨hworker, halive, hcall, -⟩ | rfl
  · intro halive hcall
    rw [hb.worker]
    exact h (hb.enginesAlive ▸ halive) fun e he => hcall e (hb.call e he)
  · exact h.stepCall hc hs
  · obtain ⟨pc, rfl, -, -, hasleep⟩ := stepWorker_cases hs
    intro halive hcall v hv
    have hrested := h halive hcall
    rw [State.worker_move] at hv
    split at hv
    · rcases hasleep hv with hzero | hw
      · have hpos : 0 < s.enginesAlive := halive
        omega
      · exact hrested w hw
    · exact hrested v hv
  · intro halive hcall v hv
    rw [State.worker_move] at hv
    split at hv
    · cases hv
    · exact h halive hcall v hv
  · intro hpos hidle
    rw [hworker]
    exact h (halive ▸ hpos) (hcall ▸ hidle)
  · exact fun halive hcall w hw => h halive hcall w (WorkerPc.asleep_of_signal hw)

/-- A worker on its way to sleep gets there. -/
theorem reaches_hanging (hrun : s.state = ksiEngineWorkerPoolStateRunning)
    (hw : (s.worker w).asleep) :
    ∃ s', Reaches step (fun _ a => ∃ w more, a = .worker w more) s s' ∧
      s'.worker w = .hanging false ∧ s'.enginesAlive = s.enginesAlive ∧ s'.call = s.call := by
  have hwait : ∀ s : State ι T, s.worker w = .wait →
      step s (.worker w false) = some (s.move w (.hanging false)) := by
    intro s hpc
    simp only [step, stepWorker, hpc]
  cases hpc : s.worker w with
  | state =>
      have hs : step s (.worker w false) = some (s.move w .wait) := by
        simp only [step, stepWorker, hpc, hrun]
      have hnext := hwait (s.move w .wait) (by rw [State.worker_move, if_pos rfl])
      refine ⟨_, .tail _ (.tail _ .refl ⟨w, false, rfl⟩ hs) ⟨w, false, rfl⟩ hnext, ?_, rfl, rfl⟩
      rw [State.worker_move, if_pos rfl]
  | wait =>
      refine ⟨_, .tail _ .refl ⟨w, false, rfl⟩ (hwait s hpc), ?_, rfl, rfl⟩
      rw [State.worker_move, if_pos rfl]
  | hanging woken =>
      rw [hpc] at hw
      cases woken with
      | false => exact ⟨s, .refl, hpc, rfl, rfl⟩
      | true => cases hw
  | _ => rw [hpc] at hw; cases hw

/-- **No worker sleeps through a launch** in every run in which the raise that ends the
last launch in progress finds no worker asleep, or past its look at the count and on the way.
And where it does, that worker's own steps leave it asleep while an engine is alive and no
launch is in progress. -/
theorem awake_of_woken (h : Reaches step Woken (init ι T) s) :
    Awake s ∧ ∀ a s', ¬ Woken s a → step s a = some s' →
      s.state = ksiEngineWorkerPoolStateRunning →
        ∃ s'', Reaches step (fun _ a => ∃ w more, a = .worker w more) s' s'' ∧ ¬ Awake s'' := by
  have hrested : Rested s := h.invariant Rested (fun hpos => absurd hpos (Int.lt_irrefl 0))
    fun _ _ _ h hc hs => h.step hc hs
  refine ⟨hrested.awake, fun a s' hwoken hs hrun => ?_⟩
  cases a with
  | call e =>
      simp only [Woken] at hwoken
      push Not at hwoken
      obtain ⟨hadd, hpos, hothers, w, hw⟩ := hwoken
      simp only [step, stepCall, hadd, Option.some.injEq] at hs
      subst hs
      obtain ⟨s'', hreach, hhanging, halive, hcall⟩ := reaches_hanging
        (s := { s.goto e .idle with enginesAlive := s.enginesAlive + 1 }) (w := w) hrun hw
      refine ⟨s'', hreach, fun hawake => hawake ?_ (fun e' => ?_) w hhanging⟩
      · rw [halive]
        show 0 < s.enginesAlive + 1
        omega
      · rw [hcall]
        show ¬ (Function.update s.call e .idle e').launching
        by_cases he' : e' = e
        · rw [he', Function.update_self]
          nofun
        · rw [Function.update_of_ne he']
          simpa using hothers e' he'
  | _ => exact absurd trivial hwoken

/-- A sleeping worker is woken by a launch. -/
theorem awake_of_woken_launch : ∃ s : State (Fin 1) (Fin 1),
    Reaches step Woken (init (Fin 1) (Fin 1)) s ∧ s.enginesAlive = 1 ∧ s.worker 0 = .hanging true ∧
      Awake s := by
  have hrun : (runChecked step Woken (init (Fin 1) (Fin 1))
      [.worker 0 false, .worker 0 false, .worker 0 false, .worker 0 false, .worker 0 false,
        .launch 0, .call 0, .call 0, .call 0]).map
      (fun s => (s.enginesAlive, s.worker 0)) = some (1, .hanging true) := by decide
  obtain ⟨s, hs, hw⟩ := Option.map_eq_some_iff.mp hrun
  rw [Prod.mk.injEq] at hw
  have hreach := reaches_of_runChecked _ hs
  exact ⟨s, hreach, hw.1, hw.2, (awake_of_woken hreach).1⟩

/-- **A launch between a worker's look and its wait wakes nobody.** -/
theorem not_awake : ¬ ∀ s : State (Fin 1) (Fin 1), Reaches step Free (init (Fin 1) (Fin 1)) s →
    Awake s := by
  intro h
  have hrun : (run step (init (Fin 1) (Fin 1))
      [.worker 0 false, .worker 0 false, .worker 0 false, .launch 0, .call 0, .call 0, .call 0,
        .worker 0 false, .worker 0 false]).map
      (fun s => ([s.worker 0], s.enginesAlive, s.call 0)) =
        some ([.hanging false], 1, .idle) := by decide
  obtain ⟨s, hs, hw⟩ := Option.map_eq_some_iff.mp hrun
  simp only [Prod.mk.injEq, List.cons.injEq, and_true] at hw
  obtain ⟨hw, halive, hcall⟩ := hw
  refine h s (reaches_of_run _ hs) (by omega) (fun e => ?_) 0 hw
  obtain rfl : e = 0 := Subsingleton.elim e 0
  rw [hcall]
  nofun

end Ksi.Pool.Workers

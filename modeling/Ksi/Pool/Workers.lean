/-
The workers of a pool and the calls that launch and stop its engines.

A worker of `ksiEngineAudioWorker` that gets no task because no engine is alive goes to
sleep on `hanging`; a launch that finds no engine alive posts it.  Every load and store of
`enginesAlive` and of `wp->state`, the post and the wait are steps of their own.  A call on
an engine holds its playing lock, so there is one at a time for each engine; the calls on
different engines interleave.

What a dequeue yields is a choice of the step.  The rounds that a worker spends asleep in
`ksiSemTryWait` end by themselves and are left out, with the commit and the reset of a
launch, and with what `ksiEngineWorkerPoolDestroy` frees.

A post wakes the workers that wait on `hanging` at that moment.  `ksiBSemWait` returns by the
step `wake`: with `semaphore_signal_all` only to a worker that has been woken, with the
barrier of the other systems whenever enough threads have come.
-/
import Ksi.Pool.Lifecycle
import Mathlib.Logic.Function.Basic

namespace Ksi.Pool.Workers

open Playing

/-- `wp->state`. -/
inductive PoolState
  | ksiEngineWorkerPoolStateRunning
  | ksiEngineWorkerPoolStateFinalizing
  deriving DecidableEq, Repr

open PoolState

/-- Where a worker is. -/
inductive WorkerPc
  /-- in `dequeue_blocked`, about to get a task of its own or of the master queue -/
  | get
  /-- in its loop, about to load `enginesAlive` -/
  | poll
  /-- in its loop, about to take a task from another worker -/
  | take
  /-- about to run a node and to count off its successors -/
  | node
  /-- no task: about to load `enginesAlive` -/
  | check
  /-- no engine alive: about to read `wp->state` -/
  | state
  /-- about to wait on `hanging` -/
  | wait
  /-- in `ksiBSemWait(&wp->hanging)` -/
  | hanging (woken : Bool)
  /-- out of the loop -/
  | left
  deriving DecidableEq, Repr

/-- Where the call on an engine is that holds its playing lock. -/
inductive CallPc
  | idle
  /-- a launch in `ksiEngineWorkerPoolOnlineIncrease`, about to load `enginesAlive` -/
  | load
  /-- about to post `hanging` -/
  | post
  /-- about to add one to `enginesAlive` -/
  | add
  /-- a stop or a pause in `ksiEngineWorkerPoolOnlineDecrease` -/
  | sub
  deriving DecidableEq, Repr

/-- Where `ksiEngineWorkerPoolDestroy` is. -/
inductive DestroyPc
  | idle
  /-- `wp->state` is set: about to load `enginesAlive` -/
  | load
  /-- about to post `hanging` -/
  | post
  /-- about to join the workers -/
  | join
  deriving DecidableEq, Repr

/-- A pool with its workers `T` and its engines `ι`. -/
structure State (ι T : Type) where
  enginesAlive : Int
  state : PoolState
  playing : ι → Playing
  call : ι → CallPc
  worker : T → WorkerPc
  destroy : DestroyPc

/-- A pool whose workers have been started, and no engine launched. -/
def init (ι T : Type) : State ι T where
  enginesAlive := 0
  state := ksiEngineWorkerPoolStateRunning
  playing := fun _ => ksiEngineStopped
  call := fun _ => .idle
  worker := fun _ => .get
  destroy := .idle

/-- A call on an engine begins, or it takes its next step; a worker takes its next step,
where `more` says that there is a task, or it returns from `ksiBSemWait`; the pool is
destroyed, or that takes its next step. -/
inductive Label (ι T : Type)
  | launch (e : ι)
  | stop (e : ι)
  | pause (e : ι)
  | resume (e : ι)
  | call (e : ι)
  | worker (w : T) (more : Bool)
  | wake (w : T)
  | destroy
  | destroyer
  deriving DecidableEq, Repr

variable {ι T : Type} [DecidableEq ι] [DecidableEq T]

/-- Worker `w` moves on to `pc`. -/
def State.move (s : State ι T) (w : T) (pc : WorkerPc) : State ι T :=
  { s with worker := Function.update s.worker w pc }

/-- The call on `e` sets `playing` and moves on to `pc`. -/
def State.begin (s : State ι T) (e : ι) (playing : Playing) (pc : CallPc) : State ι T :=
  { s with playing := Function.update s.playing e playing, call := Function.update s.call e pc }

/-- The call on `e` moves on to `pc`. -/
def State.goto (s : State ι T) (e : ι) (pc : CallPc) : State ι T :=
  { s with call := Function.update s.call e pc }

/-- `semaphore_signal_all`: what it makes of a worker at `pc`. -/
def WorkerPc.signal : WorkerPc → WorkerPc
  | .hanging _ => .hanging true
  | pc => pc

/-- `ksiBSemPost(&wp->hanging)`. -/
def State.post (s : State ι T) : State ι T := { s with worker := fun w => (s.worker w).signal }

/-- The worker's step in `ksiEngineAudioWorker` and `dequeue_blocked`. -/
def stepWorker (s : State ι T) (w : T) (more : Bool) : Option (State ι T) :=
  match s.worker w with
  | .get => some (s.move w (if more then .node else .poll))
  | .poll => some (s.move w (if s.enginesAlive = 0 then .check else .take))
  | .take => some (s.move w (if more then .node else .poll))
  -- a node that makes a successor ready is followed by it
  | .node => some (s.move w (if more then .node else .get))
  | .check => some (s.move w (if s.enginesAlive = 0 then .state else .left))
  | .state =>
      match s.state with
      | ksiEngineWorkerPoolStateRunning => some (s.move w .wait)
      | ksiEngineWorkerPoolStateFinalizing => some (s.move w .left)
  | .wait => some (s.move w (.hanging false))
  | .hanging _ => none
  | .left => none

/-- The step of the call on `e` in `ksiEngineWorkerPoolOnlineIncrease` and
`ksiEngineWorkerPoolOnlineDecrease`. -/
def stepCall (s : State ι T) (e : ι) : Option (State ι T) :=
  match s.call e with
  | .idle => none
  | .load => some (s.goto e (if s.enginesAlive = 0 then .post else .add))
  | .post => some (s.post.goto e .add)
  | .add => some { s.goto e .idle with enginesAlive := s.enginesAlive + 1 }
  | .sub => some { s.goto e .idle with enginesAlive := s.enginesAlive - 1 }

/-- One step of the machine. -/
def step (s : State ι T) : Label ι T → Option (State ι T)
  | .launch e =>
      if s.call e = .idle then
        some (if 0 < (s.playing e).toInt then s else s.begin e ksiEnginePlaying .load)
      else none
  | .stop e => if s.call e = .idle then some (s.begin e ksiEngineStopped .sub) else none
  | .pause e =>
      if s.call e = .idle then
        some (if pauseErr (s.playing e) ≠ .ksiErrorNone then s else s.begin e ksiEnginePaused .sub)
      else none
  | .resume e =>
      if s.call e = .idle then
        some (if resumeErr (s.playing e) ≠ .ksiErrorNone then s
          else s.begin e ksiEnginePlaying .idle)
      else none
  | .call e => stepCall s e
  | .worker w more => stepWorker s w more
  | .wake w =>
      match s.worker w with
      | .hanging _ => some (s.move w .get)
      | _ => none
  | .destroy =>
      match s.destroy with
      | .idle => some { s with state := ksiEngineWorkerPoolStateFinalizing, destroy := .load }
      | _ => none
  | .destroyer =>
      match s.destroy with
      | .load => some { s with destroy := if s.enginesAlive = 0 then .post else .join }
      | .post => some { s.post with destroy := .join }
      | .idle => none
      | .join => none

end Ksi.Pool.Workers

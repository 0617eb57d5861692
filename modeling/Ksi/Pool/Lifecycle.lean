/-
The engines of a worker pool.

The workers look at `enginesAlive` of their pool to know whether there is anything to
wait for.  Each engine says in `playing` what it does, and launching, pausing, resuming,
stopping and destroying it change both.  Every function here runs under the engine's
playing lock.

Left out are the commit and the reset of the plugins at a launch, and what `destroy`
frees; none of them reads or writes the two variables.
-/
import Ksi.Dag.Data
import Ksi.Lib.Runs
import Mathlib.Data.Fintype.Card

namespace Ksi.Pool

open Dag (KsiError)

/-- The values of `e->playing`. -/
inductive Playing
  | ksiEngineStopped
  | ksiEnginePlaying
  | ksiEnginePaused
  | ksiEngineFinalizing
  | ksiEngineUninitialized
  deriving DecidableEq, Repr

open Playing

/-- The numbers that engine.h gives them. -/
def Playing.toInt : Playing → Int
  | ksiEngineStopped => 0
  | ksiEnginePlaying => 1
  | ksiEnginePaused => 2
  | ksiEngineFinalizing => -1
  | ksiEngineUninitialized => -2

/-- What a pool keeps of its engines: `enginesAlive`, and how often `hanging` has been
posted. -/
structure WorkerPool where
  enginesAlive : Int
  hangingPosts : Nat
  deriving DecidableEq, Repr

def ksiEngineWorkerPoolOnlineIncrease (wp : WorkerPool) : WorkerPool where
  hangingPosts := if wp.enginesAlive = 0 then wp.hangingPosts + 1 else wp.hangingPosts
  enginesAlive := wp.enginesAlive + 1

def ksiEngineWorkerPoolOnlineDecrease (wp : WorkerPool) : WorkerPool :=
  { wp with enginesAlive := wp.enginesAlive - 1 }

/-! ### One engine

Each function takes `e->playing` and the pool, and returns its error code, `playing` and
the pool. -/

def ksiEngineLaunch (playing : Playing) (wp : WorkerPool) : KsiError × Playing × WorkerPool :=
  if 0 < playing.toInt then (.ksiErrorIdempotent, playing, wp)
  else (.ksiErrorNone, ksiEnginePlaying, ksiEngineWorkerPoolOnlineIncrease wp)

def impl_ksiEngineStop (state : Playing) (wp : WorkerPool) : KsiError × Playing × WorkerPool :=
  (.ksiErrorNone, state, ksiEngineWorkerPoolOnlineDecrease wp)

def ksiEngineStop (wp : WorkerPool) : KsiError × Playing × WorkerPool :=
  impl_ksiEngineStop ksiEngineStopped wp

def ksiEngineDestroy (playing : Playing) (wp : WorkerPool) : Playing × WorkerPool :=
  if playing.toInt ≠ 0 then (impl_ksiEngineStop ksiEngineFinalizing wp).2
  else (ksiEngineFinalizing, wp)

/-- The error that `ksiEnginePause` finds and keeps in `err`. -/
def pauseErr (playing : Playing) : KsiError :=
  if ¬ 0 < playing.toInt then .ksiErrorAudioNotStarted
  else if playing = ksiEnginePaused then .ksiErrorIdempotent
  else .ksiErrorNone

/-- `ksiEnginePause`; it returns `ksiErrorNone`, whatever `err` is. -/
def ksiEnginePause (playing : Playing) (wp : WorkerPool) : KsiError × Playing × WorkerPool :=
  if pauseErr playing ≠ .ksiErrorNone then (.ksiErrorNone, playing, wp)
  else (.ksiErrorNone, ksiEnginePaused, ksiEngineWorkerPoolOnlineDecrease wp)

/-- The error that `ksiEngineResume` finds and keeps in `err`. -/
def resumeErr (playing : Playing) : KsiError :=
  if ¬ 0 < playing.toInt then .ksiErrorAudioNotStarted
  else if playing.toInt = 1 then .ksiErrorIdempotent
  else .ksiErrorNone

/-- `ksiEngineResume`; it returns `ksiErrorNone`, whatever `err` is. -/
def ksiEngineResume (playing : Playing) (wp : WorkerPool) : KsiError × Playing × WorkerPool :=
  if resumeErr playing ≠ .ksiErrorNone then (.ksiErrorNone, playing, wp)
  else (.ksiErrorNone, ksiEnginePlaying, wp)

/-! ### A pool and its engines -/

/-- A pool, and `playing` of each engine attached to it. -/
structure State (ι : Type) where
  wp : WorkerPool
  playing : ι → Playing

/-- Engines that have been initialised, and none launched. -/
def init (ι : Type) : State ι where
  wp := { enginesAlive := 0, hangingPosts := 0 }
  playing := fun _ => ksiEngineStopped

/-- A call of one of the functions on one of the engines. -/
inductive Call (ι : Type)
  | launch (e : ι)
  | pause (e : ι)
  | resume (e : ι)
  | stop (e : ι)
  | destroy (e : ι)
  deriving DecidableEq, Repr

variable {ι : Type} [DecidableEq ι]

/-- What a function leaves of `playing` and of the pool. -/
def State.put (s : State ι) (e : ι) (r : Playing × WorkerPool) : State ι where
  wp := r.2
  playing := Function.update s.playing e r.1

def next (s : State ι) : Call ι → State ι
  | .launch e => s.put e (ksiEngineLaunch (s.playing e) s.wp).2
  | .pause e => s.put e (ksiEnginePause (s.playing e) s.wp).2
  | .resume e => s.put e (ksiEngineResume (s.playing e) s.wp).2
  | .stop e => s.put e (ksiEngineStop s.wp).2
  | .destroy e => s.put e (ksiEngineDestroy (s.playing e) s.wp)

end Ksi.Pool

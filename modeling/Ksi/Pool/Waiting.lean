/-
Workers that wait for work, and those that signal it.

A worker that has found nothing to take for a while adds itself to `waitingCount` and waits
on `waitingSem`, which ends when it is woken or when its time is up.  A worker that has
enqueued a node looks at `waitingCount` and, if it is positive, takes one off and posts the
semaphore.  The addition, the load, the test, the subtraction, the post and the two ends of
a wait are steps of their own, in any order of the workers.

The work itself is left out: a worker that is in neither of the two functions may enter one
at any time.
-/
import Ksi.Lib.Runs
import Mathlib.Logic.Function.Basic

namespace Ksi.Pool.Waiting

/-- Where a worker is. -/
inductive Pc
  /-- in neither of the two functions -/
  | running
  /-- in `ksiSemTryWait(&wp->waitingSem, ..)` -/
  | wait
  /-- it has loaded `i` from `waitingCount`: about to test it -/
  | test (i : Int)
  /-- about to take one off `waitingCount` -/
  | sub
  /-- about to post `waitingSem` -/
  | post
  deriving DecidableEq, Repr

/-- A pool with the workers `T`. -/
structure State (T : Type) where
  waitingCount : Int
  waitingSem : Nat
  worker : T → Pc

def init (T : Type) : State T where
  waitingCount := 0
  waitingSem := 0
  worker := fun _ => .running

/-- The next step of a worker in `dequeue_blocked` or in `enqueue_signaled`. -/
inductive Label (T : Type)
  | add (w : T)
  | wake (w : T)
  | timeout (w : T)
  | load (w : T)
  | test (w : T)
  | sub (w : T)
  | post (w : T)
  deriving DecidableEq, Repr

variable {T : Type} [DecidableEq T]

/-- Worker `w` moves on to `pc`. -/
def State.move (s : State T) (w : T) (pc : Pc) : State T :=
  { s with worker := Function.update s.worker w pc }

/-- One step of the machine. -/
def step (s : State T) : Label T → Option (State T)
  | .add w =>
      if s.worker w = .running then
        some { s.move w .wait with waitingCount := s.waitingCount + 1 }
      else none
  | .wake w =>
      if s.worker w = .wait ∧ 0 < s.waitingSem then
        some { s.move w .running with waitingSem := s.waitingSem - 1 }
      else none
  | .timeout w => if s.worker w = .wait then some (s.move w .running) else none
  | .load w => if s.worker w = .running then some (s.move w (.test s.waitingCount)) else none
  | .test w =>
      match s.worker w with
      | .test i => some (s.move w (if 0 < i then .sub else .running))
      | _ => none
  | .sub w =>
      if s.worker w = .sub then some { s.move w .post with waitingCount := s.waitingCount - 1 }
      else none
  | .post w =>
      if s.worker w = .post then some { s.move w .running with waitingSem := s.waitingSem + 1 }
      else none

/-- `while(i--) ksiSemPost(&wp->waitingSem)` in `ksiEngineWorkerPoolDestroy`: how many posts
there are. -/
def destroyPosts : Nat → Int → Option Nat
  | 0, _ => none
  | fuel + 1, i => if i = 0 then some 0 else (destroyPosts fuel (i - 1)).map (· + 1)

end Ksi.Pool.Waiting

/-
How many engines are playing.

`enginesAlive` is counted up at a launch and down at a pause, a stop and the end of an
engine.  It agrees with the number of engines that play as long as only playing engines
are counted down; resuming a paused engine counts nothing up.
-/
import Ksi.Pool.Lifecycle
import Ksi.Lib.Counting

namespace Ksi.Pool

open Runs Playing

variable {ι : Type} [Fintype ι] [DecidableEq ι] {s : State ι} {c : Call ι} {e : ι}

/-- The engines that play. -/
def State.alive (s : State ι) : Finset ι :=
  Finset.univ.filter fun e => s.playing e = ksiEnginePlaying

/-- The pool knows how many engines play. -/
def Counted (s : State ι) : Prop := s.wp.enginesAlive = s.alive.card ∧ 0 ≤ s.wp.enginesAlive

/-- Stop is called on an engine whose `playing` is not zero. -/
def Allowed (s : State ι) : Call ι → Prop
  | .stop e => s.playing e ≠ ksiEngineStopped
  | _ => True

instance : DecidableRel (@Allowed ι) := fun s c => by
  unfold Allowed
  cases c <;> infer_instance

/-- A paused engine is not resumed, and an engine that is stopped or destroyed plays, or
is destroyed after it has stopped. -/
def CountsRight (s : State ι) : Call ι → Prop
  | .resume e => s.playing e ≠ ksiEnginePaused
  | .stop e => s.playing e = ksiEnginePlaying
  | .destroy e => s.playing e = ksiEnginePlaying ∨ s.playing e = ksiEngineStopped
  | _ => True

instance : DecidableRel (@CountsRight ι) := fun s c => by
  unfold CountsRight
  cases c <;> infer_instance

/-! ### The engines that play after a call -/

/-- What is counted after `playing` of one engine has been set. -/
theorem State.card_alive_put (r : Playing × WorkerPool) :
    ((s.put e r).alive.card : Int) = s.alive.card
      + (if r.1 = ksiEnginePlaying then 1 else 0)
      - (if s.playing e = ksiEnginePlaying then 1 else 0) :=
  count_update (p := (· = ksiEnginePlaying)) s.playing e r.1

/-- A call counts right if it changes `enginesAlive` as it changes `playing`. -/
theorem Counted.put (h : Counted s) (r : Playing × WorkerPool) :
    Counted (s.put e r) ↔ r.2.enginesAlive = s.wp.enginesAlive
      + (if r.1 = ksiEnginePlaying then 1 else 0)
      - (if s.playing e = ksiEnginePlaying then 1 else 0) := by
  have hcard := State.card_alive_put (s := s) (e := e) r
  have hwp : (s.put e r).wp = r.2 := rfl
  unfold Counted at *
  rw [hwp]
  constructor
  · intro hnew
    omega
  · intro hnew
    omega

/-- **One call**: the count stays right exactly if the call counts right. -/
theorem Counted.next (h : Counted s) (hallowed : Allowed s c) :
    Counted (next s c) ↔ CountsRight s c := by
  cases c with
  | launch e =>
      refine (h.put _).trans (iff_of_true ?_ trivial)
      cases he : s.playing e <;>
        simp [ksiEngineLaunch, ksiEngineWorkerPoolOnlineIncrease, Playing.toInt]
  | pause e =>
      refine (h.put _).trans (iff_of_true ?_ trivial)
      cases he : s.playing e <;>
        simp [ksiEnginePause, pauseErr, ksiEngineWorkerPoolOnlineDecrease, Playing.toInt]
  | resume e =>
      refine (h.put _).trans ?_
      have hne : ¬ s.wp.enginesAlive = s.wp.enginesAlive + 1 := by omega
      cases he : s.playing e <;>
        simp [ksiEngineResume, resumeErr, Playing.toInt, CountsRight, he, hne]
  | stop e =>
      have hnot : s.playing e ≠ ksiEngineStopped := hallowed
      have hne : ¬ s.wp.enginesAlive - 1 = s.wp.enginesAlive := by omega
      refine (h.put _).trans ?_
      unfold ksiEngineStop impl_ksiEngineStop ksiEngineWorkerPoolOnlineDecrease CountsRight
      cases he : s.playing e with
      | ksiEngineStopped => exact absurd he hnot
      | _ => simp [he, hne]
  | destroy e =>
      have hne : ¬ s.wp.enginesAlive - 1 = s.wp.enginesAlive := by omega
      refine (h.put _).trans ?_
      unfold ksiEngineDestroy impl_ksiEngineStop ksiEngineWorkerPoolOnlineDecrease CountsRight
      cases he : s.playing e <;> simp [Playing.toInt, he, hne]

omit [DecidableEq ι] in
theorem Counted.init : Counted (init ι) := by
  have halive : (Pool.init ι).alive = ∅ := by
    ext e
    simp [State.alive, Pool.init]
  unfold Counted
  rw [halive]
  exact ⟨rfl, Int.le_refl 0⟩

/-- **The pool knows how many engines play** after each of a sequence of calls exactly
if no call resumes a paused engine, or stops or destroys one that is paused already or at
its end. -/
theorem counted_iff {calls : List (Call ι)} (hallowed : Along next Allowed (init ι) calls) :
    Along next (fun s c => Counted (next s c)) (init ι) calls ↔
      Along next CountsRight (init ι) calls :=
  along_iff Counted (fun _ _ h hc => h.next hc) calls .init hallowed

/-- Two engines, launched and stopped in turn. -/
theorem counted_twoEngines :
    Along next (fun s c => Counted (next s c)) (init (Fin 2))
      [.launch 0, .launch 1, .pause 0, .stop 1, .launch 1, .destroy 1] :=
  (counted_iff (by decide)).mpr (by decide)

/-- **Stopping a paused engine counts it down twice.** -/
theorem not_counted : ¬ ∀ calls : List (Call (Fin 1)), Along next Allowed (init (Fin 1)) calls →
    Along next (fun s c => Counted (next s c)) (init (Fin 1)) calls := by
  intro h
  have hcounted := (h [.launch 0, .pause 0, .stop 0] (by decide)).2.2.1.2
  have hneg : (next (next (next (init (Fin 1)) (.launch 0)) (.pause 0)) (.stop 0)).wp.enginesAlive =
      -1 := by decide
  omega

end Ksi.Pool

/-
The two-version protocol between editor, committer and audio callback.

Three threads share `epoch`, `audioEpoch`, `playing`, the playing lock, two
semaphores and the one-shot flag of `KsiCond`.  The editor runs `ksiEngineCommit`
and the wrappers of dagedit.c (`ksiEngineMakeWire` and its siblings all have one
shape: wait for the flag, take the lock, run the kernel with flag 0, queue the
command, release).  The committer runs `ksiMVCCCommitter`, the audio thread runs
`ksiEngineAudioCallback`, whose work on the nodes is one program point.

Every shared access is a step of its own.  A critical section on
`committedMutex` is one step, since it contains no other shared access.  The
graph itself is left out: each version is the list of commands its kernels have
run, and whether a flag 0 kernel refuses its command is a choice of the step.

`batch`, `replayed`, `pending` and `commits` are history variables.  No branch reads
them.
-/
import Ksi.Lib.Runs
import Ksi.Pool.Lifecycle
import Mathlib.Data.Fin.Basic

namespace Ksi.Mvcc

open Pool (Playing)

/-- Who holds `playingMutex`. -/
inductive Holder
  | editor | committer
  deriving DecidableEq, Repr

/-- What the editor does behind `ksiCondWait`: an editing wrapper or a commit. -/
inductive EditorOp (Cmd : Type)
  | edit (c : Cmd)
  | commit
  deriving DecidableEq, Repr

/-- Where the editor thread is. -/
inductive EditorPc (Cmd : Type)
  | idle
  /-- about to call `ksiCondWait` -/
  | condWait (op : EditorOp Cmd)
  /-- inside `pthread_cond_wait` -/
  | blocked (op : EditorOp Cmd)
  /-- about to take the playing lock -/
  | lock (op : EditorOp Cmd)
  /-- about to run the kernel with flag 0 -/
  | kernel (c : Cmd)
  /-- the kernel succeeded, about to queue the command -/
  | enqueue (c : Cmd)
  /-- `ksiEngineCommit` before `ksiCondSetWait` -/
  | setWait
  /-- `ksiEngineCommit` before the store to `epoch` -/
  | flip
  /-- `ksiEngineCommit` before `ksiSemPost(&e->committingSem)` -/
  | post
  | unlock
  deriving DecidableEq, Repr

/-- Where the committer thread is. -/
inductive CommitterPc (Cmd : Type)
  /-- in `ksiSemWait(&e->committingSem)` -/
  | semWait
  | lock
  /-- about to look at `playing`, `epoch`, `audioEpoch` and `driver_env` -/
  | check
  /-- in `ksiSemWait(&e->migratedSem)` -/
  | migrate
  /-- about to call `ksiCondSignal` -/
  | signal
  /-- about to dequeue from `syncCmds` -/
  | dequeue
  /-- about to run the kernel of `c` with flag 1 -/
  | apply (c : Cmd)
  | unlock
  /-- about to compare `playing` with `ksiEngineFinalizing` -/
  | test
  | finished
  deriving DecidableEq, Repr

/-- Where the audio callback is; `e` is its local variable `epoch`. -/
inductive AudioPc
  | idle
  | loadEpoch
  | loadAudio (e : Fin 2)
  | store (e : Fin 2)
  | post (e : Fin 2)
  /-- about to compare `playing` with `ksiEnginePaused` -/
  | check (e : Fin 2)
  /-- at work on `nodes[e]`, up to the return -/
  | body (e : Fin 2)
  deriving DecidableEq, Repr

/-- The part of `KsiEngine` the three threads share, and their program counters. -/
structure State (Cmd : Type) where
  epoch : Fin 2
  audioEpoch : Fin 2
  playing : Playing
  driver_env : Bool
  playingMutex : Option Holder
  committingSem : Nat
  migratedSem : Nat
  committedFlag : Bool
  /-- `pthread_cond_signal` has chosen the blocked editor -/
  woken : Bool
  syncCmds : List Cmd
  /-- the commands run on each version, in order -/
  version : Fin 2 → List Cmd
  editor : EditorPc Cmd
  committer : CommitterPc Cmd
  audio : AudioPc
  /-- history: the queue at the latest flip of `epoch` -/
  batch : List Cmd
  /-- history: what has been replayed since that flip -/
  replayed : List Cmd
  /-- history: `epoch` has been flipped and the replay has not ended -/
  pending : Bool
  /-- history: the queue at each flip of `epoch`, in order -/
  commits : List (List Cmd)

/-- The state after `ksiEngineInit`. -/
def init (Cmd : Type) : State Cmd where
  epoch := 0
  audioEpoch := 0
  playing := .ksiEngineStopped
  driver_env := false
  playingMutex := none
  committingSem := 0
  migratedSem := 0
  committedFlag := false
  woken := false
  syncCmds := []
  version := fun _ => []
  editor := .idle
  committer := .semWait
  audio := .idle
  batch := []
  replayed := []
  pending := false
  commits := []

/-- What the editor thread does to `playing` and `driver_env` under the lock:
the bodies of `ksiEngineLaunch` (after its commit), `ksiEngineStop`,
`ksiEnginePause`, `ksiEngineResume`, `paIOInit` and `paIODestroy`. -/
inductive Control
  | launch | stop | pause | resume | paIOInit | paIODestroy
  deriving DecidableEq, Repr

/-- The steps.  `call` is a call by the editor, `spurious` is a return of
`pthread_cond_wait` that nobody signalled, `kernel ok` is the flag 0 kernel with
its outcome. -/
inductive Label (Cmd : Type)
  | call (op : EditorOp Cmd)
  | editor
  | kernel (ok : Bool)
  | spurious
  | control (op : Control)
  | committer
  | audio
  deriving DecidableEq, Repr

variable {Cmd : Type}

/-- A command run on one version is recorded there. -/
def State.ranOn (s : State Cmd) (v : Fin 2) (c : Cmd) : Fin 2 → List Cmd :=
  Function.update s.version v (s.version v ++ [c])

/-- The step of the editor thread from each of its program points, the kernel
apart. -/
def stepEditor (s : State Cmd) : Option (State Cmd) :=
  match s.editor with
  | .idle => none
  | .condWait op =>
      if s.committedFlag then some { s with editor := .blocked op, woken := false }
      else some { s with editor := .lock op }
  | .blocked op =>
      if s.woken then some { s with committedFlag := false, editor := .lock op } else none
  | .lock op =>
      if s.playingMutex = none then
        match op with
        | .edit c => some { s with playingMutex := some .editor, editor := .kernel c }
        | .commit => some { s with playingMutex := some .editor, editor := .setWait }
      else none
  | .kernel _ => none
  | .enqueue c => some { s with syncCmds := s.syncCmds ++ [c], editor := .unlock }
  | .setWait => some { s with committedFlag := true, editor := .flip }
  | .flip =>
      some { s with epoch := s.epoch + 1, batch := s.syncCmds, replayed := [], pending := true,
                    commits := s.commits ++ [s.syncCmds], editor := .post }
  | .post => some { s with committingSem := s.committingSem + 1, editor := .unlock }
  | .unlock => some { s with playingMutex := none, editor := .idle }

/-- The kernel of the command, flag 0, on `nodes[(epoch+1)%2]`. -/
def stepKernel (s : State Cmd) (ok : Bool) : Option (State Cmd) :=
  match s.editor with
  | .kernel c =>
      if ok then some { s with version := s.ranOn (s.epoch + 1) c, editor := .enqueue c }
      else some { s with editor := .unlock }
  | _ => none

/-- `pthread_cond_wait` returns although nobody signalled; `ksiCondWait` clears
the flag and goes on. -/
def stepSpurious (s : State Cmd) : Option (State Cmd) :=
  match s.editor with
  | .blocked op => some { s with committedFlag := false, editor := .lock op }
  | _ => none

/-- The operations on `playing` and `driver_env`, each one critical section. -/
def stepControl (s : State Cmd) (op : Control) : Option (State Cmd) :=
  match s.editor, s.playingMutex with
  | .idle, none =>
      match op with
      | .launch =>
          some { s with playing := if 0 < s.playing.toInt then s.playing else .ksiEnginePlaying }
      | .stop => some { s with playing := .ksiEngineStopped }
      | .pause =>
          some { s with playing :=
            if s.playing = .ksiEnginePlaying then .ksiEnginePaused else s.playing }
      | .resume =>
          some { s with playing :=
            if s.playing = .ksiEnginePaused then .ksiEnginePlaying else s.playing }
      | .paIOInit => some { s with driver_env := true }
      | .paIODestroy => some { s with driver_env := false }
  | _, _ => none

/-- The loop of `ksiMVCCCommitter`. -/
def stepCommitter (s : State Cmd) : Option (State Cmd) :=
  match s.committer with
  | .semWait =>
      if 0 < s.committingSem then
        some { s with committingSem := s.committingSem - 1, committer := .lock }
      else none
  | .lock =>
      if s.playingMutex = none then
        some { s with playingMutex := some .committer, committer := .check }
      else none
  | .check =>
      if s.playing = .ksiEnginePlaying then
        if s.epoch ≠ s.audioEpoch ∧ s.driver_env then some { s with committer := .migrate }
        else some { s with committer := .signal }
      else some { s with audioEpoch := s.epoch + 1, committer := .signal }
  | .migrate =>
      if 0 < s.migratedSem then
        some { s with migratedSem := s.migratedSem - 1, committer := .signal }
      else none
  | .signal => some { s with committedFlag := false, woken := true, committer := .dequeue }
  | .dequeue =>
      match s.syncCmds with
      | [] => some { s with pending := false, committer := .unlock }
      | c :: rest => some { s with syncCmds := rest, committer := .apply c }
  | .apply c =>
      some { s with version := s.ranOn (s.epoch + 1) c, replayed := s.replayed ++ [c],
                    committer := .dequeue }
  | .unlock => some { s with playingMutex := none, committer := .test }
  | .test =>
      if s.playing = .ksiEngineFinalizing then some { s with committer := .finished }
      else some { s with committer := .semWait }
  | .finished => none

/-- `ksiEngineAudioCallback`: which version it plays, if any. -/
def stepAudio (s : State Cmd) : Option (State Cmd) :=
  match s.audio with
  | .idle => if 0 < s.playing.toInt then some { s with audio := .loadEpoch } else some s
  | .loadEpoch => some { s with audio := .loadAudio s.epoch }
  | .loadAudio e =>
      if e ≠ s.audioEpoch then some { s with audio := .store e }
      else some { s with audio := .check e }
  | .store e => some { s with audioEpoch := e, audio := .post e }
  | .post e => some { s with migratedSem := s.migratedSem + 1, audio := .check e }
  | .check e => some { s with audio := if s.playing = .ksiEnginePaused then .idle else .body e }
  | .body _ => some { s with audio := .idle }

/-- The editor calls an editing wrapper, or `ksiEngineCommit`. -/
def stepCall (s : State Cmd) (op : EditorOp Cmd) : Option (State Cmd) :=
  match s.editor with
  | .idle =>
      match op with
      | .edit c => some { s with editor := .condWait (.edit c) }
      | .commit =>
          -- `CHECK_INITIALIED`, then the early return when nothing is queued
          if s.playing = .ksiEngineUninitialized ∨ s.syncCmds.isEmpty then some s
          else some { s with editor := .condWait .commit }
  | _ => none

/-- One step of the three threads. -/
def step (s : State Cmd) : Label Cmd → Option (State Cmd)
  | .call op => stepCall s op
  | .editor => stepEditor s
  | .kernel ok => stepKernel s ok
  | .spurious => stepSpurious s
  | .control op => stepControl s op
  | .committer => stepCommitter s
  | .audio => stepAudio s

end Ksi.Mvcc

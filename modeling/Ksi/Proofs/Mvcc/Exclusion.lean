/-
No edit runs between a commit and the end of its replay.

Exclusion is built from two things: the one-shot flag of `KsiCond`, which keeps
the editor out from the commit until the committer signals, and the playing lock,
which the committer holds from before its signal until the replay is over.
`ksiCondWait` waits once, without looking at the flag again.  A return of
`pthread_cond_wait` that nobody signalled therefore opens the first gate, and if
the committer has not reached the second one the editor walks in.

`WakeGuarded` is the condition that this does not happen: a spurious return finds
the committer already inside the lock.  Under it `Exclusion` holds along every
run, and with it the bookkeeping of the replay: the queue holds exactly what the
version the committer works on lacks.
-/
import Ksi.Proofs.Mvcc.Lock

namespace Ksi.Mvcc

open Runs

variable {Cmd : Type}

/-- The command the committer has dequeued and not yet run. -/
def CommitterPc.inHand : CommitterPc Cmd → List Cmd
  | .apply c => [c]
  | _ => []

/-- The command the editor has run and not yet queued. -/
def EditorPc.unqueued : EditorPc Cmd → List Cmd
  | .enqueue c => [c]
  | _ => []

/-- From the flip of `epoch` to the end of the replay no flag 0 kernel runs, and
the replay runs the commands of the commit, once each and in order, on the version
that lacks them. -/
structure Exclusion (s : State Cmd) : Prop where
  /-- no editor-side kernel runs while a commit is pending -/
  excluded : s.pending = true → ∀ c, s.editor ≠ .kernel c
  /-- what has been replayed is what was queued at the commit, up to where the
  committer has got -/
  inOrder : s.pending = true → s.replayed ++ s.committer.inHand ++ s.syncCmds = s.batch
  /-- what is still to be replayed is what the committer's version lacks -/
  lacking : s.pending = true →
    s.version s.epoch = s.version (s.epoch + 1) ++ s.committer.inHand ++ s.syncCmds
  /-- at the end everything has been replayed -/
  complete : s.pending = false → s.replayed = s.batch
  /-- between commits the queue holds what was edited since the last one -/
  queued : s.pending = false →
    s.version (s.epoch + 1) = s.version s.epoch ++ s.syncCmds ++ s.editor.unqueued

/-- The return of `pthread_cond_wait` that nobody signalled. -/
def Label.isSpurious : Label Cmd → Bool
  | .spurious => true
  | _ => false

/-- A spurious return of `pthread_cond_wait` finds the committer inside the
playing lock. -/
def WakeGuarded (s : State Cmd) (l : Label Cmd) : Prop :=
  l.isSpurious = true → s.playingMutex = some .committer

instance : DecidableRel (@WakeGuarded Cmd) := fun s l =>
  inferInstanceAs (Decidable (l.isSpurious = true → s.playingMutex = some .committer))

/-! ### The invariant -/

/-- The committer has taken a post of `committingSem` and has not finished the
replay it stands for. -/
def CommitterPc.active : CommitterPc Cmd → Bool
  | .lock | .check | .migrate | .signal | .dequeue | .apply _ => true
  | _ => false

/-- The editor has flipped `epoch` and not yet posted. -/
def EditorPc.isPost : EditorPc Cmd → Bool
  | .post => true
  | _ => false

/-- The editor is inside the lock and has not flipped `epoch` there. -/
def EditorPc.editing : EditorPc Cmd → Bool
  | .kernel _ | .enqueue _ | .setWait | .flip => true
  | _ => false

/-- The editor is past `ksiCondWait`, or has been signalled there. -/
def State.admitted (s : State Cmd) : Bool :=
  match s.editor with
  | .lock _ => true
  | .blocked _ => s.woken
  | _ => false

/-- How a commit in progress is passed from the editor to the committer, and what
keeps the editor out meanwhile. -/
structure HandoverInv (s : State Cmd) : Prop where
  lock : LockInv s
  /-- a pending commit is in exactly one place -/
  token : s.editor.isPost.toNat + s.committingSem + s.committer.active.toNat = s.pending.toNat
  /-- the flag is up until the committer is inside the lock -/
  flag : s.pending = true → s.committedFlag = false → s.committer.locked = true
  /-- an editor past the flag still has the lock before it -/
  admitted : s.pending = true → s.admitted = true → s.committer.locked = true
  editing : s.editor.editing = true → s.pending = false
  flip : s.editor = .flip → s.committedFlag = true
  released : s.committer = .unlock → s.pending = false

theorem HandoverInv.init : HandoverInv (init Cmd) := by
  refine ⟨LockInv.init, ?_, ?_, ?_, ?_, ?_, ?_⟩ <;>
    simp [Mvcc.init, EditorPc.isPost, CommitterPc.active, EditorPc.editing]

/-- While a commit is pending and the editor has posted it, the committer's lock
keeps the editor from entering. -/
theorem HandoverInv.free {s : State Cmd} (h : HandoverInv s) (hm : s.playingMutex = none)
    (ha : s.admitted = true) : s.pending = false := by
  by_contra hp
  have hlocked := h.admitted (by simpa using hp) ha
  rw [h.lock.committer.mp hlocked] at hm
  cases hm

/-- A step of the editor that leaves the commit in progress where it is. -/
theorem HandoverInv.pass {s s' : State Cmd} (h : HandoverInv s) (hlock : LockInv s')
    (hcommitter : s'.committer = s.committer) (hsem : s'.committingSem = s.committingSem)
    (hpending : s'.pending = s.pending) (hpost : s'.editor.isPost = s.editor.isPost)
    (hflag : s.pending = true → s'.committedFlag = false → s.committer.locked = true)
    (hadmitted : s.pending = true → s'.admitted = true → s.committer.locked = true)
    (hediting : s'.editor.editing = true → s.pending = false)
    (hflip : s'.editor = .flip → s'.committedFlag = true) : HandoverInv s' := by
  refine ⟨hlock, ?_, ?_, ?_, ?_, hflip, ?_⟩
  · rw [hpost, hsem, hcommitter, hpending]
    exact h.token
  · rw [hpending, hcommitter]
    exact hflag
  · rw [hpending, hcommitter]
    exact hadmitted
  · rw [hpending]
    exact hediting
  · rw [hpending, hcommitter]
    exact h.released

theorem HandoverInv.stepEditor {s s' : State Cmd} (h : HandoverInv s)
    (hs : stepEditor s = some s') : HandoverInv s' := by
  have hlock := h.lock.stepEditor hs
  cases EditorStep.of_step hs with
  | block op hpc =>
      refine h.pass hlock rfl rfl rfl (by rw [hpc]; rfl) h.flag ?_ nofun nofun
      exact fun _ hadmitted => absurd hadmitted Bool.false_ne_true
  | pass op hpc hdown =>
      refine h.pass hlock rfl rfl rfl (by rw [hpc]; rfl) h.flag ?_ nofun nofun
      exact fun hpending _ => h.flag hpending hdown
  | wake op hpc hwoken =>
      have hin : s.admitted = true := by
        unfold State.admitted
        rw [hpc]
        exact hwoken
      exact h.pass hlock rfl rfl rfl (by rw [hpc]; rfl) (fun hpending _ => h.admitted hpending hin)
        (fun hpending _ => h.admitted hpending hin) nofun nofun
  | lockEdit c hpc hfree =>
      -- the editor finds the lock free, so no commit is pending
      have hno : s.pending = false := h.free hfree (by unfold State.admitted; rw [hpc])
      exact h.pass hlock rfl rfl rfl (by rw [hpc]; rfl) h.flag (fun _ => nofun) (fun _ => hno) nofun
  | lockCommit hpc hfree =>
      have hno : s.pending = false := h.free hfree (by unfold State.admitted; rw [hpc])
      exact h.pass hlock rfl rfl rfl (by rw [hpc]; rfl) h.flag (fun _ => nofun) (fun _ => hno) nofun
  | enqueue c hpc =>
      exact h.pass hlock rfl rfl rfl (by rw [hpc]; rfl) h.flag (fun _ => nofun) nofun nofun
  | setWait hpc =>
      have hno : s.pending = false := h.editing (by rw [hpc]; rfl)
      exact h.pass hlock rfl rfl rfl (by rw [hpc]; rfl) (fun _ => nofun) (fun _ => nofun)
        (fun _ => hno) fun _ => rfl
  | flip hpc =>
      have hno : s.pending = false := h.editing (by rw [hpc]; rfl)
      have hup : s.committedFlag = true := h.flip hpc
      have htoken := h.token
      rw [hpc, hno] at htoken
      refine ⟨hlock, ?_, fun _ hdown => ?_, fun _ => nofun, nofun, nofun, fun hunlock => ?_⟩
      · -- the commit begins, in the hands of the editor
        show 1 + s.committingSem + s.committer.active.toNat = 1
        simp only [EditorPc.isPost, Bool.toNat_false] at htoken
        omega
      · cases hup.symm.trans hdown
      · have hm : s.playingMutex = some .editor := h.lock.editor.mp (by rw [hpc]; rfl)
        have hm' := h.lock.committer.mp (show s.committer.locked = true by rw [hunlock]; rfl)
        cases hm.symm.trans hm'
  | post hpc =>
      -- the post passes the commit on to the committer
      have htoken := h.token
      rw [hpc] at htoken
      refine ⟨hlock, ?_, h.flag, fun _ => nofun, nofun, nofun, h.released⟩
      show 0 + (s.committingSem + 1) + s.committer.active.toNat = s.pending.toNat
      simp only [EditorPc.isPost, Bool.toNat_true] at htoken
      omega
  | unlock hpc =>
      exact h.pass hlock rfl rfl rfl (by rw [hpc]; rfl) h.flag (fun _ => nofun) nofun nofun

/-- A step of the committer inside the lock that leaves it there. -/
theorem HandoverInv.inside {s s' : State Cmd} (h : HandoverInv s) (hlock : LockInv s')
    (heditor : s'.editor = s.editor) (hsem : s'.committingSem = s.committingSem)
    (hpending : s'.pending = s.pending) (hflag : s'.committedFlag = s.committedFlag)
    (hactive : s'.committer.active = s.committer.active) (hin : s'.committer.locked = true)
    (hon : s'.committer ≠ .unlock) : HandoverInv s' := by
  refine ⟨hlock, ?_, fun _ _ => hin, fun _ _ => hin, ?_, ?_, fun hunlock => absurd hunlock hon⟩
  · rw [heditor, hsem, hactive, hpending]
    exact h.token
  · rw [heditor, hpending]
    exact h.editing
  · rw [heditor, hflag]
    exact h.flip

theorem HandoverInv.stepCommitter {s s' : State Cmd} (h : HandoverInv s)
    (hs : stepCommitter s = some s') : HandoverInv s' := by
  have hlock := h.lock.stepCommitter hs
  cases CommitterStep.of_step hs with
  | wake hpc hsem =>
      have htoken := h.token
      have hflag := h.flag
      have hadmitted := h.admitted
      rw [hpc] at htoken hflag hadmitted
      refine ⟨hlock, ?_, hflag, hadmitted, h.editing, h.flip, nofun⟩
      show s.editor.isPost.toNat + (s.committingSem - 1) + 1 = s.pending.toNat
      simp only [CommitterPc.active, Bool.toNat_false] at htoken
      omega
  | signal hpc =>
      -- the flag is taken down, by a committer inside the lock
      have hm : s.playingMutex = some .committer := h.lock.committer.mp (by rw [hpc]; rfl)
      have htoken := h.token
      rw [hpc] at htoken
      refine ⟨hlock, htoken, fun _ _ => rfl, fun _ _ => rfl, h.editing, fun hflip => ?_, nofun⟩
      have hm' := h.lock.editor.mp (show s.editor.locked = true by rw [hflip]; rfl)
      cases hm.symm.trans hm'
  | finish hpc hq =>
      -- the replay ends: the token is spent
      have htoken := h.token
      have hle : s.pending.toNat ≤ 1 := Bool.toNat_le s.pending
      rw [hpc] at htoken
      simp only [CommitterPc.active, Bool.toNat_true] at htoken
      refine ⟨hlock, ?_, nofun, nofun, fun _ => rfl, h.flip, fun _ => rfl⟩
      show s.editor.isPost.toNat + s.committingSem + 0 = 0
      omega
  | unlock hpc =>
      have hno : s.pending = false := h.released hpc
      have htoken := h.token
      rw [hpc] at htoken
      refine ⟨hlock, htoken, fun hpending => ?_, fun hpending => ?_, h.editing, h.flip, nofun⟩
      · cases hno.symm.trans hpending
      · cases hno.symm.trans hpending
  | exit hpc | loop hpc =>
      have htoken := h.token
      have hflag := h.flag
      have hadmitted := h.admitted
      rw [hpc] at htoken hflag hadmitted
      exact ⟨hlock, htoken, hflag, hadmitted, h.editing, h.flip, nofun⟩
  | lock hpc | await hpc | goOn hpc | offline hpc | migrated hpc
  | dequeue c rest hpc | apply c hpc =>
      exact h.inside hlock rfl rfl rfl rfl (by rw [hpc]; rfl) rfl nofun

theorem HandoverInv.step {s s' : State Cmd} {l : Label Cmd} (h : HandoverInv s)
    (hw : WakeGuarded s l) (hs : step s l = some s') : HandoverInv s' := by
  have hlock := h.lock.step hs
  cases l with
  | editor => exact h.stepEditor hs
  | committer => exact h.stepCommitter hs
  | audio =>
      obtain ⟨-, htoken, hflag, hadmitted, hediting, hflip, hreleased⟩ := h
      simp only [Mvcc.step, stepAudio] at hs
      split at hs <;> (try split at hs) <;> cases hs <;>
        exact ⟨hlock, htoken, hflag, hadmitted, hediting, hflip, hreleased⟩
  | call op =>
      rcases stepCall_cases hs with rfl | ⟨hpc, rfl⟩
      · exact h
      · exact h.pass hlock rfl rfl rfl (by rw [hpc]; rfl) h.flag (fun _ => nofun) nofun nofun
  | kernel ok =>
      obtain ⟨c, hpc, rfl | rfl⟩ := stepKernel_cases hs
      · have hno : s.pending = false := h.editing (by rw [hpc]; rfl)
        exact h.pass hlock rfl rfl rfl (by rw [hpc]; rfl) h.flag (fun _ => nofun)
          (fun _ => hno) nofun
      · exact h.pass hlock rfl rfl rfl (by rw [hpc]; rfl) h.flag (fun _ => nofun) nofun nofun
  | spurious =>
      -- the committer is inside the lock already, so the flag is not needed
      have hin := h.lock.committer.mpr (hw rfl)
      obtain ⟨op, hpc, rfl⟩ := stepSpurious_cases hs
      exact h.pass hlock rfl rfl rfl (by rw [hpc]; rfl) (fun _ _ => hin)
        (fun _ _ => hin) nofun nofun
  | control op =>
      obtain ⟨hpc, hfree, playing, driver_env, rfl⟩ := stepControl_cases hs
      exact h.pass hlock rfl rfl rfl rfl h.flag h.admitted h.editing h.flip

/-- Whoever works on the hot version inside the lock, the other is not there. -/
theorem HandoverInv.active_pending {s : State Cmd} (h : HandoverInv s)
    (ha : s.committer.active = true) : s.pending = true := by
  have htok := h.token
  rw [ha] at htok
  cases hp : s.pending
  · rw [hp] at htok; simp at htok
  · rfl

/-! ### The replay -/

theorem Exclusion.init : Exclusion (init Cmd) := by
  constructor <;> simp [Mvcc.init, EditorPc.unqueued]

theorem State.ranOn_self (s : State Cmd) (v : Fin 2) (c : Cmd) :
    s.ranOn v c v = s.version v ++ [c] := by
  simp [State.ranOn]

theorem State.ranOn_other (s : State Cmd) (c : Cmd) :
    s.ranOn (s.epoch + 1) c s.epoch = s.version s.epoch := by
  rw [State.ranOn, Function.update_of_ne (flip_ne _)]

/-- A step that runs no kernel, queues nothing and dequeues nothing. -/
theorem Exclusion.congr {s s' : State Cmd} (h : Exclusion s) (hversion : s'.version = s.version)
    (hepoch : s'.epoch = s.epoch) (hpending : s'.pending = s.pending)
    (hreplayed : s'.replayed = s.replayed) (hbatch : s'.batch = s.batch)
    (hsync : s'.syncCmds = s.syncCmds) (hinHand : s'.committer.inHand = s.committer.inHand)
    (hunqueued : s'.editor.unqueued = s.editor.unqueued)
    (hkernel : s.pending = true → ∀ c, s'.editor ≠ .kernel c) : Exclusion s' := by
  constructor
  case excluded =>
    rw [hpending]
    exact hkernel
  case inOrder =>
    rw [hpending, hreplayed, hinHand, hsync, hbatch]
    exact h.inOrder
  case lacking =>
    rw [hpending, hversion, hepoch, hinHand, hsync]
    exact h.lacking
  case complete =>
    rw [hpending, hreplayed, hbatch]
    exact h.complete
  case queued =>
    rw [hpending, hversion, hepoch, hsync, hunqueued]
    exact h.queued

/-- Without a commit in progress the editor may be at its kernel. -/
theorem Exclusion.of_not_pending {s : State Cmd} (hno : s.pending = false)
    (hcomplete : s.replayed = s.batch)
    (hqueued : s.version (s.epoch + 1) = s.version s.epoch ++ s.syncCmds ++ s.editor.unqueued) :
    Exclusion s := by
  have hnever : ¬ s.pending = true := by
    rw [hno]
    nofun
  exact ⟨fun hp => absurd hp hnever, fun hp => absurd hp hnever, fun hp => absurd hp hnever,
    fun _ => hcomplete, fun _ => hqueued⟩

/-- Between commits the committer has nothing in hand. -/
theorem HandoverInv.inHand_eq_nil {s : State Cmd} (h : HandoverInv s) (hno : s.pending = false) :
    s.committer.inHand = [] := by
  cases hc : s.committer with
  | apply c =>
      have hpending := h.active_pending (by rw [hc]; rfl)
      cases hno.symm.trans hpending
  | _ => rfl

/-- In a replay there is nothing that the editor has not queued. -/
theorem HandoverInv.unqueued_eq_nil {s : State Cmd} (h : HandoverInv s) (hp : s.pending = true) :
    s.editor.unqueued = [] := by
  cases he : s.editor with
  | enqueue c =>
      have hno := h.editing (by rw [he]; rfl)
      cases hno.symm.trans hp
  | _ => rfl

theorem Exclusion.stepEditor {s s' : State Cmd} (h : Exclusion s) (hh : HandoverInv s)
    (hs : Mvcc.stepEditor s = some s') : Exclusion s' := by
  cases EditorStep.of_step hs with
  | block op hpc | pass op hpc | wake op hpc | lockCommit hpc | setWait hpc
  | post hpc | unlock hpc =>
      exact h.congr rfl rfl rfl rfl rfl rfl rfl (by rw [hpc]; rfl) fun _ _ => nofun
  | lockEdit c hpc hfree =>
      have hno : s.pending = false := hh.free hfree (by unfold State.admitted; rw [hpc])
      refine h.congr rfl rfl rfl rfl rfl rfl rfl (by rw [hpc]; rfl) fun hp => ?_
      cases hno.symm.trans hp
  | enqueue c hpc =>
      have hno : s.pending = false := hh.editing (by rw [hpc]; rfl)
      have hqueued := h.queued hno
      rw [hpc] at hqueued
      refine .of_not_pending hno (h.complete hno) (hqueued.trans ?_)
      show s.version s.epoch ++ s.syncCmds ++ [c] = s.version s.epoch ++ (s.syncCmds ++ [c]) ++ []
      rw [List.append_nil, List.append_assoc]
  | flip hpc =>
      -- what the editing version is ahead by is the batch
      have hno : s.pending = false := hh.editing (by rw [hpc]; rfl)
      have hahead := h.queued hno
      rw [hpc] at hahead
      constructor
      case excluded => exact fun _ c => nofun
      case inOrder =>
        intro _
        show [] ++ s.committer.inHand ++ s.syncCmds = s.syncCmds
        rw [hh.inHand_eq_nil hno]
        rfl
      case lacking =>
        intro _
        show s.version (s.epoch + 1) =
          s.version (s.epoch + 1 + 1) ++ s.committer.inHand ++ s.syncCmds
        rw [flip_flip, hh.inHand_eq_nil hno, List.append_nil, hahead]
        exact List.append_nil _
      case complete => nofun
      case queued => nofun

theorem Exclusion.stepCommitter {s s' : State Cmd} (h : Exclusion s) (hh : HandoverInv s)
    (hs : Mvcc.stepCommitter s = some s') : Exclusion s' := by
  cases CommitterStep.of_step hs with
  | finish hpc hq =>
      have hp := hh.active_pending (by rw [hpc]; rfl)
      have hlacking := h.lacking hp
      have hdone := h.inOrder hp
      rw [hpc, hq] at hlacking hdone
      simp only [CommitterPc.inHand, List.append_nil] at hlacking hdone
      refine .of_not_pending rfl hdone ?_
      show s.version (s.epoch + 1) = s.version s.epoch ++ s.syncCmds ++ s.editor.unqueued
      rw [hq, hh.unqueued_eq_nil hp, List.append_nil, List.append_nil, hlacking]
  | dequeue c rest hpc hq =>
      have hp := hh.active_pending (by rw [hpc]; rfl)
      have hlacking := h.lacking hp
      have horder := h.inOrder hp
      rw [hpc, hq] at hlacking horder
      refine ⟨h.excluded, fun _ => ?_, fun _ => ?_, fun hno => ?_, fun hno => ?_⟩
      · show s.replayed ++ [c] ++ rest = s.batch
        rw [List.append_assoc]
        simpa [CommitterPc.inHand] using horder
      · show s.version s.epoch = s.version (s.epoch + 1) ++ [c] ++ rest
        rw [List.append_assoc]
        simpa [CommitterPc.inHand] using hlacking
      · cases hp.symm.trans hno
      · cases hp.symm.trans hno
  | apply c hpc =>
      have hp := hh.active_pending (by rw [hpc]; rfl)
      have hlacking := h.lacking hp
      have horder := h.inOrder hp
      rw [hpc] at hlacking horder
      refine ⟨h.excluded, fun _ => ?_, fun _ => ?_, fun hno => ?_, fun hno => ?_⟩
      · show s.replayed ++ [c] ++ [] ++ s.syncCmds = s.batch
        rw [List.append_nil]
        exact horder
      · show s.ranOn (s.epoch + 1) c s.epoch =
          s.ranOn (s.epoch + 1) c (s.epoch + 1) ++ [] ++ s.syncCmds
        rw [State.ranOn_self, State.ranOn_other, List.append_nil]
        exact hlacking
      · cases hp.symm.trans hno
      · cases hp.symm.trans hno
  | wake hpc | lock hpc | await hpc | goOn hpc | offline hpc | migrated hpc
  | signal hpc | unlock hpc
  | exit hpc | loop hpc =>
      exact h.congr rfl rfl rfl rfl rfl rfl (by rw [hpc]; rfl) rfl h.excluded

theorem Exclusion.step {s s' : State Cmd} {l : Label Cmd} (h : Exclusion s)
    (hh : HandoverInv s) (hs : step s l = some s') : Exclusion s' := by
  cases l with
  | editor => exact h.stepEditor hh hs
  | committer => exact h.stepCommitter hh hs
  | audio =>
      obtain ⟨hex, hin, hlack, hcomp, hq⟩ := h
      simp only [Mvcc.step, stepAudio] at hs
      split at hs <;> (try split at hs) <;> cases hs <;> exact ⟨hex, hin, hlack, hcomp, hq⟩
  | call op =>
      rcases stepCall_cases hs with rfl | ⟨hpc, rfl⟩
      · exact h
      · exact h.congr rfl rfl rfl rfl rfl rfl rfl (by rw [hpc]; rfl) fun _ _ => nofun
  | kernel ok =>
      obtain ⟨c, hpc, rfl | rfl⟩ := stepKernel_cases hs
      · have hno : s.pending = false := hh.editing (by rw [hpc]; rfl)
        have hqueued := h.queued hno
        rw [hpc] at hqueued
        refine .of_not_pending hno (h.complete hno) ?_
        show s.ranOn (s.epoch + 1) c (s.epoch + 1) =
          s.ranOn (s.epoch + 1) c s.epoch ++ s.syncCmds ++ [c]
        rw [State.ranOn_self, State.ranOn_other, hqueued]
        exact congrArg (· ++ [c]) (List.append_nil _)
      · exact h.congr rfl rfl rfl rfl rfl rfl rfl (by rw [hpc]; rfl) fun _ _ => nofun
  | spurious =>
      obtain ⟨op, hpc, rfl⟩ := stepSpurious_cases hs
      exact h.congr rfl rfl rfl rfl rfl rfl rfl (by rw [hpc]; rfl) fun _ _ => nofun
  | control op =>
      obtain ⟨-, -, playing, driver_env, rfl⟩ := stepControl_cases hs
      exact h.congr rfl rfl rfl rfl rfl rfl rfl rfl h.excluded

/-! ### Runs -/

/-- **In a run whose spurious wake-ups find the committer inside the lock, no edit
runs between a commit and the end of its replay.** -/
theorem exclusion_of_wakeGuarded {s : State Cmd}
    (h : Reaches step WakeGuarded (init Cmd) s) : Exclusion s := by
  have hinv := h.invariant (fun s => HandoverInv s ∧ Exclusion s)
    ⟨HandoverInv.init, Exclusion.init⟩
    fun _ _ _ hi hw hs => ⟨hi.1.step hw hs, hi.2.step hi.1 hs⟩
  exact hinv.2

/-! ### Runs that satisfy the condition, and runs that do not -/

/-- The labels that take the editor, idle, through one edit of `c`. -/
def editRun (c : Cmd) : List (Label Cmd) :=
  [.call (.edit c), .editor, .editor, .kernel true, .editor, .editor]

/-- The labels that take the editor, idle, through a commit. -/
def commitRun : List (Label Cmd) :=
  [.call .commit, .editor, .editor, .editor, .editor, .editor, .editor]

/-- An edit, its commit, and a second edit that waits for the committer; the wait
returns for no reason while the committer holds the lock, and the second edit runs
after the replay. -/
def guardedRun : List (Label Nat) :=
  editRun 7 ++ commitRun ++ [.call (.edit 8), .editor, .committer, .committer, .spurious] ++
    List.replicate 6 .committer ++ [.editor, .kernel true, .editor]

/-- The same wait returns for no reason before the committer has moved. -/
def earlyWakeRun : List (Label Nat) :=
  editRun 7 ++ commitRun ++ [.call (.edit 8), .editor, .spurious, .editor]

theorem exclusion_guardedRun :
    ∃ s : State Nat, Reaches step WakeGuarded (init Nat) s ∧ s.syncCmds = [8] ∧
      s.version s.epoch = [7] ∧ s.version (s.epoch + 1) = [7, 8] ∧ Exclusion s := by
  have hrun : ∃ s, runChecked step WakeGuarded (init Nat) guardedRun = some s ∧
      s.syncCmds = [8] ∧ s.version s.epoch = [7] ∧ s.version (s.epoch + 1) = [7, 8] :=
    ⟨_, rfl, rfl, by decide, by decide⟩
  obtain ⟨s, hs, hq, hold, hnew⟩ := hrun
  have hreach := reaches_of_runChecked guardedRun hs
  exact ⟨s, hreach, hq, hold, hnew, exclusion_of_wakeGuarded hreach⟩

/-- **Exclusion fails**: after a spurious wake-up the editor runs its kernel on the
version that lacks the commit. -/
theorem not_exclusion :
    ¬ ∀ s : State Nat, Reaches step Free (init Nat) s → Exclusion s := by
  intro h
  have hrun : ∃ s, run step (init Nat) earlyWakeRun = some s ∧ s.pending = true ∧
      s.editor = .kernel 8 :=
    ⟨_, rfl, rfl, rfl⟩
  obtain ⟨s, hs, hp, he⟩ := hrun
  exact (h s (reaches_of_run earlyWakeRun hs)).excluded hp 8 he

/-- **The condition is exact**: where an edit waits for a pending commit and the
committer is not inside the lock, a spurious wake-up lets the kernel run. -/
theorem wakeGuarded_sharp {s : State Cmd} {c : Cmd} (hpend : s.pending = true)
    (hpc : s.editor = .blocked (.edit c)) (hm : s.playingMutex = none) :
    ∃ s', Reaches step Free s s' ∧ ¬ Exclusion s' := by
  let s₁ : State Cmd := { s with committedFlag := false, editor := .lock (.edit c) }
  have h₁ : step s .spurious = some s₁ := by simp [step, stepSpurious, hpc, s₁]
  have h₂ : step s₁ .editor
      = some { s₁ with playingMutex := some .editor, editor := .kernel c } := by
    simp [step, stepEditor, s₁, hm]
  exact ⟨_, (Reaches.refl.snoc _ h₁).snoc _ h₂, fun hex => hex.excluded hpend c rfl⟩

end Ksi.Mvcc

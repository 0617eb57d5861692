/-
Who is inside the playing lock, and what the editor thread can touch meanwhile.

`playingMutex` is what keeps editor and committer apart: `epoch`, `playing` and
`driver_env` are only written by the editor inside the lock.  `editor_frame` says
it once, for every step that is not the committer's or the callback's, and the
proofs about the protocol never look at the editor's steps again.
-/
import Ksi.Mvcc.Protocol

namespace Ksi.Mvcc

variable {Cmd : Type}

/-! ### The two versions -/

/-- Flipping twice gives the version back. -/
theorem flip_flip : ∀ e : Fin 2, e + 1 + 1 = e := by decide

theorem flip_ne : ∀ e : Fin 2, e ≠ e + 1 := by decide

/-- What is not the one version is the other. -/
theorem eq_flip : ∀ {e epoch : Fin 2}, e ≠ epoch → e = epoch + 1 := by decide

/-! ### What a step can do -/

/-- The steps of the editor, the kernel apart. -/
inductive EditorStep (s : State Cmd) : State Cmd → Prop
  | block (op : EditorOp Cmd) (hpc : s.editor = .condWait op) (hflag : s.committedFlag = true) :
      EditorStep s { s with editor := .blocked op, woken := false }
  | pass (op : EditorOp Cmd) (hpc : s.editor = .condWait op) (hflag : s.committedFlag = false) :
      EditorStep s { s with editor := .lock op }
  | wake (op : EditorOp Cmd) (hpc : s.editor = .blocked op) (hwoken : s.woken = true) :
      EditorStep s { s with committedFlag := false, editor := .lock op }
  | lockEdit (c : Cmd) (hpc : s.editor = .lock (.edit c)) (hfree : s.playingMutex = none) :
      EditorStep s { s with playingMutex := some .editor, editor := .kernel c }
  | lockCommit (hpc : s.editor = .lock .commit) (hfree : s.playingMutex = none) :
      EditorStep s { s with playingMutex := some .editor, editor := .setWait }
  | enqueue (c : Cmd) (hpc : s.editor = .enqueue c) :
      EditorStep s { s with syncCmds := s.syncCmds ++ [c], editor := .unlock }
  | setWait (hpc : s.editor = .setWait) :
      EditorStep s { s with committedFlag := true, editor := .flip }
  | flip (hpc : s.editor = .flip) :
      EditorStep s { s with epoch := s.epoch + 1, batch := s.syncCmds, replayed := [],
                            pending := true, commits := s.commits ++ [s.syncCmds], editor := .post }
  | post (hpc : s.editor = .post) :
      EditorStep s { s with committingSem := s.committingSem + 1, editor := .unlock }
  | unlock (hpc : s.editor = .unlock) :
      EditorStep s { s with playingMutex := none, editor := .idle }

theorem EditorStep.of_step {s s' : State Cmd} (hs : stepEditor s = some s') : EditorStep s s' := by
  unfold stepEditor at hs
  split at hs <;> rename_i hpc
  · cases hs
  · split at hs <;> rename_i hflag <;> cases hs
    · exact .block _ hpc hflag
    · exact .pass _ hpc (Bool.not_eq_true _ ▸ hflag)
  · split at hs <;> rename_i hwoken <;> cases hs
    exact .wake _ hpc hwoken
  · split at hs <;> rename_i hfree
    · split at hs <;> cases hs
      · exact .lockEdit _ hpc hfree
      · exact .lockCommit hpc hfree
    · cases hs
  · cases hs
  · cases hs
    exact .enqueue _ hpc
  · cases hs
    exact .setWait hpc
  · cases hs
    exact .flip hpc
  · cases hs
    exact .post hpc
  · cases hs
    exact .unlock hpc

/-- A call finds the editor idle, and is not made if there is nothing to commit. -/
theorem stepCall_cases {s s' : State Cmd} {op : EditorOp Cmd} (hs : stepCall s op = some s') :
    s' = s ∨ s.editor = .idle ∧ s' = { s with editor := .condWait op } := by
  unfold stepCall at hs
  split at hs
  · rename_i hpc
    split at hs
    · cases hs
      exact .inr ⟨hpc, rfl⟩
    · split at hs <;> cases hs
      · exact .inl rfl
      · exact .inr ⟨hpc, rfl⟩
  · cases hs

theorem stepKernel_cases {s s' : State Cmd} {ok : Bool} (hs : stepKernel s ok = some s') :
    ∃ c, s.editor = .kernel c ∧
      (s' = { s with version := s.ranOn (s.epoch + 1) c, editor := .enqueue c } ∨
        s' = { s with editor := .unlock }) := by
  unfold stepKernel at hs
  split at hs
  · rename_i c hpc
    split at hs <;> cases hs
    · exact ⟨c, hpc, .inl rfl⟩
    · exact ⟨c, hpc, .inr rfl⟩
  · cases hs

theorem stepSpurious_cases {s s' : State Cmd} (hs : stepSpurious s = some s') :
    ∃ op, s.editor = .blocked op ∧ s' = { s with committedFlag := false, editor := .lock op } := by
  unfold stepSpurious at hs
  split at hs <;> cases hs
  rename_i op hpc
  exact ⟨op, hpc, rfl⟩

theorem stepControl_cases {s s' : State Cmd} {op : Control} (hs : stepControl s op = some s') :
    s.editor = .idle ∧ s.playingMutex = none ∧
      ∃ playing driver_env, s' = { s with playing := playing, driver_env := driver_env } := by
  unfold stepControl at hs
  split at hs
  · rename_i hpc hfree
    split at hs <;> cases hs <;> exact ⟨hpc, hfree, _, _, rfl⟩
  · cases hs

/-- The steps of the committer. -/
inductive CommitterStep (s : State Cmd) : State Cmd → Prop
  | wake (hpc : s.committer = .semWait) (hsem : 0 < s.committingSem) :
      CommitterStep s { s with committingSem := s.committingSem - 1, committer := .lock }
  | lock (hpc : s.committer = .lock) (hfree : s.playingMutex = none) :
      CommitterStep s { s with playingMutex := some .committer, committer := .check }
  | await (hpc : s.committer = .check) (hplay : s.playing = .ksiEnginePlaying)
      (hne : s.epoch ≠ s.audioEpoch) (hdrv : s.driver_env = true) :
      CommitterStep s { s with committer := .migrate }
  | goOn (hpc : s.committer = .check) (hplay : s.playing = .ksiEnginePlaying)
      (hmigrated : ¬ (s.epoch ≠ s.audioEpoch ∧ s.driver_env = true)) :
      CommitterStep s { s with committer := .signal }
  | offline (hpc : s.committer = .check) (hoff : s.playing ≠ .ksiEnginePlaying) :
      CommitterStep s { s with audioEpoch := s.epoch + 1, committer := .signal }
  | migrated (hpc : s.committer = .migrate) (hsem : 0 < s.migratedSem) :
      CommitterStep s { s with migratedSem := s.migratedSem - 1, committer := .signal }
  | signal (hpc : s.committer = .signal) :
      CommitterStep s { s with committedFlag := false, woken := true, committer := .dequeue }
  | finish (hpc : s.committer = .dequeue) (hq : s.syncCmds = []) :
      CommitterStep s { s with pending := false, committer := .unlock }
  | dequeue (c : Cmd) (rest : List Cmd) (hpc : s.committer = .dequeue)
      (hq : s.syncCmds = c :: rest) :
      CommitterStep s { s with syncCmds := rest, committer := .apply c }
  | apply (c : Cmd) (hpc : s.committer = .apply c) :
      CommitterStep s { s with version := s.ranOn (s.epoch + 1) c, replayed := s.replayed ++ [c],
                               committer := .dequeue }
  | unlock (hpc : s.committer = .unlock) :
      CommitterStep s { s with playingMutex := none, committer := .test }
  | exit (hpc : s.committer = .test) : CommitterStep s { s with committer := .finished }
  | loop (hpc : s.committer = .test) : CommitterStep s { s with committer := .semWait }

theorem CommitterStep.of_step {s s' : State Cmd} (hs : stepCommitter s = some s') :
    CommitterStep s s' := by
  unfold stepCommitter at hs
  split at hs <;> rename_i hpc
  · split at hs <;> rename_i hsem <;> cases hs
    exact .wake hpc hsem
  · split at hs <;> rename_i hfree <;> cases hs
    exact .lock hpc hfree
  · split at hs <;> rename_i hplay
    · split at hs <;> rename_i hwait <;> cases hs
      · exact .await hpc hplay hwait.1 hwait.2
      · exact .goOn hpc hplay hwait
    · cases hs
      exact .offline hpc hplay
  · split at hs <;> rename_i hsem <;> cases hs
    exact .migrated hpc hsem
  · cases hs
    exact .signal hpc
  · split at hs <;> rename_i hq <;> cases hs
    · exact .finish hpc hq
    · exact .dequeue _ _ hpc hq
  · cases hs
    exact .apply _ hpc
  · cases hs
    exact .unlock hpc
  · split at hs <;> cases hs
    · exact .exit hpc
    · exact .loop hpc
  · cases hs

/-! ### The lock -/

/-- The program points of the editor between lock and unlock. -/
def EditorPc.locked : EditorPc Cmd → Bool
  | .kernel _ | .enqueue _ | .setWait | .flip | .post | .unlock => true
  | _ => false

/-- The program points of the committer between lock and unlock. -/
def CommitterPc.locked : CommitterPc Cmd → Bool
  | .check | .migrate | .signal | .dequeue | .apply _ | .unlock => true
  | _ => false

/-- The lock is held by the thread that is inside it. -/
structure LockInv (s : State Cmd) : Prop where
  editor : s.editor.locked = true ↔ s.playingMutex = some .editor
  committer : s.committer.locked = true ↔ s.playingMutex = some .committer

/-- A step that is neither the committer's nor the callback's. -/
def Label.isEditor : Label Cmd → Bool
  | .committer | .audio => false
  | _ => true

theorem LockInv.init : LockInv (init Cmd) := by
  constructor <;> simp [Mvcc.init, EditorPc.locked, CommitterPc.locked]

/-- A step that neither takes nor gives back the lock. -/
theorem LockInv.congr {s s' : State Cmd} (h : LockInv s) (hm : s'.playingMutex = s.playingMutex)
    (he : s'.editor.locked = s.editor.locked) (hc : s'.committer.locked = s.committer.locked) :
    LockInv s' :=
  ⟨by rw [he, hm]; exact h.editor, by rw [hc, hm]; exact h.committer⟩

/-- The editor takes the lock. -/
theorem LockInv.editorIn {s s' : State Cmd} (h : LockInv s) (hfree : s.playingMutex = none)
    (hm : s'.playingMutex = some .editor) (he : s'.editor.locked = true)
    (hc : s'.committer = s.committer) : LockInv s' := by
  have hout : s.committer.locked ≠ true := by
    rw [Ne, h.committer, hfree]
    nofun
  refine ⟨iff_of_true he hm, iff_of_false ?_ ?_⟩
  · rwa [hc]
  · rw [hm]
    nofun

/-- The committer takes the lock. -/
theorem LockInv.committerIn {s s' : State Cmd} (h : LockInv s) (hfree : s.playingMutex = none)
    (hm : s'.playingMutex = some .committer) (hc : s'.committer.locked = true)
    (he : s'.editor = s.editor) : LockInv s' := by
  have hout : s.editor.locked ≠ true := by
    rw [Ne, h.editor, hfree]
    nofun
  refine ⟨iff_of_false ?_ ?_, iff_of_true hc hm⟩
  · rwa [he]
  · rw [hm]
    nofun

/-- The editor gives the lock back. -/
theorem LockInv.editorOut {s s' : State Cmd} (h : LockInv s) (hin : s.editor.locked = true)
    (hm : s'.playingMutex = none) (he : s'.editor.locked = false)
    (hc : s'.committer = s.committer) : LockInv s' := by
  have hout : s.committer.locked ≠ true := by
    rw [Ne, h.committer, h.editor.mp hin]
    nofun
  refine ⟨iff_of_false ?_ ?_, iff_of_false ?_ ?_⟩
  · rw [he]
    nofun
  · rw [hm]
    nofun
  · rwa [hc]
  · rw [hm]
    nofun

/-- The committer gives the lock back. -/
theorem LockInv.committerOut {s s' : State Cmd} (h : LockInv s) (hin : s.committer.locked = true)
    (hm : s'.playingMutex = none) (hc : s'.committer.locked = false) (he : s'.editor = s.editor) :
    LockInv s' := by
  have hout : s.editor.locked ≠ true := by
    rw [Ne, h.editor, h.committer.mp hin]
    nofun
  refine ⟨iff_of_false ?_ ?_, iff_of_false ?_ ?_⟩
  · rwa [he]
  · rw [hm]
    nofun
  · rw [hc]
    nofun
  · rw [hm]
    nofun

theorem LockInv.stepEditor {s s' : State Cmd} (h : LockInv s) (hs : stepEditor s = some s') :
    LockInv s' := by
  cases EditorStep.of_step hs with
  | lockEdit c hpc hfree => exact h.editorIn hfree rfl rfl rfl
  | lockCommit hpc hfree => exact h.editorIn hfree rfl rfl rfl
  | unlock hpc => exact h.editorOut (by rw [hpc]; rfl) rfl rfl rfl
  | block op hpc | pass op hpc | wake op hpc | enqueue c hpc | setWait hpc | flip hpc | post hpc =>
      exact h.congr rfl (by rw [hpc]; rfl) rfl

theorem LockInv.stepCommitter {s s' : State Cmd} (h : LockInv s)
    (hs : stepCommitter s = some s') : LockInv s' := by
  cases CommitterStep.of_step hs with
  | lock hpc hfree => exact h.committerIn hfree rfl rfl rfl
  | unlock hpc => exact h.committerOut (by rw [hpc]; rfl) rfl rfl rfl
  | wake hpc | await hpc | goOn hpc | offline hpc | migrated hpc | signal hpc | finish hpc
  | dequeue c rest hpc | apply c hpc | exit hpc | loop hpc =>
      exact h.congr rfl rfl (by rw [hpc]; rfl)

/-- The callback neither takes the lock nor moves the other threads. -/
theorem stepAudio_frame {s s' : State Cmd} (hs : stepAudio s = some s') :
    s'.editor = s.editor ∧ s'.committer = s.committer ∧ s'.playingMutex = s.playingMutex ∧
      s'.epoch = s.epoch ∧ s'.playing = s.playing ∧ s'.driver_env = s.driver_env := by
  unfold stepAudio at hs
  split at hs <;> (try split at hs) <;> cases hs <;> simp

theorem LockInv.step {s s' : State Cmd} {l : Label Cmd} (h : LockInv s)
    (hs : step s l = some s') : LockInv s' := by
  cases l with
  | editor => exact h.stepEditor hs
  | committer => exact h.stepCommitter hs
  | audio =>
      obtain ⟨he, hc, hm, -, -, -⟩ := stepAudio_frame hs
      exact h.congr hm (by rw [he]) (by rw [hc])
  | call op =>
      rcases stepCall_cases hs with rfl | ⟨hpc, rfl⟩
      · exact h
      · exact h.congr rfl (by rw [hpc]; rfl) rfl
  | kernel ok =>
      obtain ⟨c, hpc, rfl | rfl⟩ := stepKernel_cases hs
      · exact h.congr rfl (by rw [hpc]; rfl) rfl
      · exact h.congr rfl (by rw [hpc]; rfl) rfl
  | spurious =>
      obtain ⟨op, hpc, rfl⟩ := stepSpurious_cases hs
      exact h.congr rfl (by rw [hpc]; rfl) rfl
  | control op =>
      obtain ⟨-, -, playing, driver_env, rfl⟩ := stepControl_cases hs
      exact h.congr rfl rfl rfl

/-- What a step of the editor thread leaves alone. -/
structure EditorFrame (s s' : State Cmd) : Prop where
  committer : s'.committer = s.committer
  audio : s'.audio = s.audio
  audioEpoch : s'.audioEpoch = s.audioEpoch
  migratedSem : s'.migratedSem = s.migratedSem
  /-- inside the lock of the committer the editor writes none of these -/
  held : s.playingMutex = some .committer →
    s'.epoch = s.epoch ∧ s'.playing = s.playing ∧ s'.driver_env = s.driver_env

theorem editor_frame {s s' : State Cmd} {l : Label Cmd} (h : LockInv s) (hl : l.isEditor = true)
    (hs : step s l = some s') : EditorFrame s s' := by
  cases l with
  | committer => cases hl
  | audio => cases hl
  | editor =>
      cases EditorStep.of_step hs with
      | flip hpc =>
          -- the flip is inside the editor's own lock
          have hm : s.playingMutex = some .editor := h.editor.mp (by rw [hpc]; rfl)
          refine ⟨rfl, rfl, rfl, rfl, fun hheld => ?_⟩
          cases hm.symm.trans hheld
      | _ => exact ⟨rfl, rfl, rfl, rfl, fun _ => ⟨rfl, rfl, rfl⟩⟩
  | call op =>
      rcases stepCall_cases hs with rfl | ⟨-, rfl⟩ <;>
        exact ⟨rfl, rfl, rfl, rfl, fun _ => ⟨rfl, rfl, rfl⟩⟩
  | kernel ok =>
      obtain ⟨c, -, rfl | rfl⟩ := stepKernel_cases hs <;>
        exact ⟨rfl, rfl, rfl, rfl, fun _ => ⟨rfl, rfl, rfl⟩⟩
  | spurious =>
      obtain ⟨op, -, rfl⟩ := stepSpurious_cases hs
      exact ⟨rfl, rfl, rfl, rfl, fun _ => ⟨rfl, rfl, rfl⟩⟩
  | control op =>
      obtain ⟨-, hfree, playing, driver_env, rfl⟩ := stepControl_cases hs
      refine ⟨rfl, rfl, rfl, rfl, fun hheld => ?_⟩
      cases hfree.symm.trans hheld

end Ksi.Mvcc

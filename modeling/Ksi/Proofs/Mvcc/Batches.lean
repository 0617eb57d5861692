/-
A callback never plays part of a commit.

What is edited between two commits is seen by the audio threads all at once: the
editor works on the version that `epoch` does not select, and the flip shows it.
But then the committer makes the same edits, one by one, to the version that the
audio threads have come from.  It waits for them to leave; `Awaited` is the
condition that it does, and speaks of the state in which the wait is over.  As in
the bookkeeping of the replay, a spurious wake-up has to find the committer inside
the lock.

Under both conditions the version that a callback plays holds the commands of all
commits up to some commit, and no others.
-/
import Ksi.Proofs.Mvcc.Exclusion
import Ksi.Proofs.Mvcc.Isolation
import Mathlib.Data.List.Infix

namespace Ksi.Mvcc

open Runs

variable {Cmd : Type}

/-- What a callback plays are whole commits. -/
def PlaysWhole (s : State Cmd) : Prop :=
  ∀ e, s.audio = .body e → ∃ k, s.version e = (s.commits.take k).flatten

/-- The committer is about to let the editor go on, and to begin the replay. -/
def CommitterPc.isSignal : CommitterPc Cmd → Bool
  | .signal => true
  | _ => false

/-- When the committer begins a replay, the callbacks have left the version that it
rewrites. -/
def Awaited (s : State Cmd) (l : Label Cmd) : Prop :=
  l.isCommitter = true → s.committer.isSignal = true → NotOvertaken s

instance : DecidableRel (@Awaited Cmd) := fun s l =>
  inferInstanceAs (Decidable (l.isCommitter = true → s.committer.isSignal = true → NotOvertaken s))

/-- The committer waits for the callbacks, and a spurious wake-up of the editor finds
it inside the lock. -/
def Attended (s : State Cmd) (l : Label Cmd) : Prop := WakeGuarded s l ∧ Awaited s l

instance : DecidableRel (@Attended Cmd) := fun s l =>
  inferInstanceAs (Decidable (WakeGuarded s l ∧ Awaited s l))

/-! ### The invariant -/

/-- The committer is in its loop over the queue. -/
def CommitterPc.replaying : CommitterPc Cmd → Bool
  | .dequeue | .apply _ => true
  | _ => false

/-- What the two versions hold, in whole commits, and when a callback may still play
the other one. -/
structure CommitInv (s : State Cmd) : Prop where
  /-- the version that `epoch` selects holds every commit -/
  whole : s.version s.epoch = s.commits.flatten
  /-- the other one lacks the last, but for what has been replayed -/
  before : s.pending = true → s.version (s.epoch + 1) = s.commits.dropLast.flatten ++ s.replayed
  unplayed : s.pending = true → s.committer.replaying = false → s.replayed = []
  /-- a callback plays the other version only between a flip and the replay -/
  attended : s.committer.replaying = true ∨ s.pending = false → NotOvertaken s

theorem CommitInv.init : CommitInv (init Cmd) where
  whole := rfl
  before := nofun
  unplayed := nofun
  attended _ := nofun

/-- A step that runs no kernel, and neither begins nor ends a commit or a replay. -/
theorem CommitInv.congr {s s' : State Cmd} (h : CommitInv s) (hversion : s'.version = s.version)
    (hepoch : s'.epoch = s.epoch) (hpending : s'.pending = s.pending)
    (hreplayed : s'.replayed = s.replayed) (hcommits : s'.commits = s.commits)
    (haudio : s'.audio = s.audio)
    (hreplaying : s'.committer.replaying = s.committer.replaying) : CommitInv s' := by
  constructor
  case whole =>
    rw [hversion, hepoch, hcommits]
    exact h.whole
  case before =>
    rw [hpending, hversion, hepoch, hcommits, hreplayed]
    exact h.before
  case unplayed =>
    rw [hpending, hreplaying, hreplayed]
    exact h.unplayed
  case attended =>
    unfold NotOvertaken
    rw [hreplaying, hpending, haudio, hepoch]
    exact h.attended

theorem CommitInv.stepEditor {s s' : State Cmd} (h : CommitInv s) (hh : HandoverInv s)
    (hex : Exclusion s) (hs : Mvcc.stepEditor s = some s') : CommitInv s' := by
  cases EditorStep.of_step hs with
  | flip hpc =>
      -- the edits since the last commit are shown all at once
      have hno : s.pending = false := hh.editing (by rw [hpc]; rfl)
      have hahead := hex.queued hno
      rw [hpc] at hahead
      constructor
      case whole =>
        show s.version (s.epoch + 1) = (s.commits ++ [s.syncCmds]).flatten
        rw [hahead, h.whole, List.flatten_concat]
        exact List.append_nil _
      case before =>
        intro _
        show s.version (s.epoch + 1 + 1) = (s.commits ++ [s.syncCmds]).dropLast.flatten ++ []
        rw [flip_flip, List.dropLast_concat, List.append_nil]
        exact h.whole
      case unplayed => exact fun _ _ => rfl
      case attended =>
        rintro (hreplaying | hover)
        · have hp : s.pending = true := hh.active_pending (replaying_active hreplaying)
          cases hno.symm.trans hp
        · cases hover
  | _ => exact h.congr rfl rfl rfl rfl rfl rfl rfl
where
  replaying_active {pc : CommitterPc Cmd} (h : pc.replaying = true) : pc.active = true := by
    cases pc <;> first | rfl | cases h

theorem CommitInv.stepCommitter {s s' : State Cmd} (h : CommitInv s) (hw : Awaited s .committer)
    (hs : Mvcc.stepCommitter s = some s') : CommitInv s' := by
  cases CommitterStep.of_step hs with
  | signal hpc =>
      have hno : NotOvertaken s := hw rfl (by rw [hpc]; rfl)
      exact ⟨h.whole, h.before, fun _ => nofun, fun _ => hno⟩
  | finish hpc hq =>
      have hno : NotOvertaken s := h.attended (.inl (by rw [hpc]; rfl))
      exact ⟨h.whole, nofun, nofun, fun _ => hno⟩
  | dequeue c rest hpc hq =>
      have hno : NotOvertaken s := h.attended (.inl (by rw [hpc]; rfl))
      exact ⟨h.whole, h.before, fun _ => nofun, fun _ => hno⟩
  | apply c hpc =>
      have hno : NotOvertaken s := h.attended (.inl (by rw [hpc]; rfl))
      refine ⟨?_, fun hp => ?_, fun _ => nofun, fun _ => hno⟩
      · show s.ranOn (s.epoch + 1) c s.epoch = s.commits.flatten
        rw [State.ranOn_other]
        exact h.whole
      · show s.ranOn (s.epoch + 1) c (s.epoch + 1) =
          s.commits.dropLast.flatten ++ (s.replayed ++ [c])
        rw [State.ranOn_self, h.before hp, List.append_assoc]
  | wake hpc | lock hpc | await hpc | goOn hpc | offline hpc | migrated hpc | unlock hpc | exit hpc
  | loop hpc => exact h.congr rfl rfl rfl rfl rfl rfl (by rw [hpc]; rfl)

theorem CommitInv.audio {s s' : State Cmd} (h : CommitInv s) (hs : stepAudio s = some s') :
    CommitInv s' := by
  have hattended : s.committer.replaying = true ∨ s.pending = false → NotOvertaken s' :=
    fun hstill => (h.attended hstill).audio hs
  obtain ⟨hwhole, hbefore, hunplayed, -⟩ := h
  unfold stepAudio at hs
  split at hs <;> (try split at hs) <;> cases hs <;>
    exact ⟨hwhole, hbefore, hunplayed, hattended⟩

theorem CommitInv.step {s s' : State Cmd} {l : Label Cmd} (h : CommitInv s) (hh : HandoverInv s)
    (hex : Exclusion s) (hw : Awaited s l) (hs : step s l = some s') : CommitInv s' := by
  cases l with
  | editor => exact h.stepEditor hh hex hs
  | committer => exact h.stepCommitter hw hs
  | audio => exact h.audio hs
  | call op =>
      rcases stepCall_cases hs with rfl | ⟨-, rfl⟩
      · exact h
      · exact h.congr rfl rfl rfl rfl rfl rfl rfl
  | kernel ok =>
      obtain ⟨c, hpc, rfl | rfl⟩ := stepKernel_cases hs
      · have hno : s.pending = false := hh.editing (by rw [hpc]; rfl)
        have hnever : ¬ s.pending = true := by
          rw [hno]
          nofun
        refine ⟨?_, fun hp => absurd hp hnever, fun hp => absurd hp hnever, h.attended⟩
        show s.ranOn (s.epoch + 1) c s.epoch = s.commits.flatten
        rw [State.ranOn_other]
        exact h.whole
      · exact h.congr rfl rfl rfl rfl rfl rfl rfl
  | spurious =>
      obtain ⟨op, -, rfl⟩ := stepSpurious_cases hs
      exact h.congr rfl rfl rfl rfl rfl rfl rfl
  | control op =>
      obtain ⟨-, -, playing, driver_env, rfl⟩ := stepControl_cases hs
      exact h.congr rfl rfl rfl rfl rfl rfl rfl

theorem commitInv_of_attended {s : State Cmd} (h : Reaches step Attended (init Cmd) s) :
    HandoverInv s ∧ Exclusion s ∧ CommitInv s :=
  h.invariant (fun s => HandoverInv s ∧ Exclusion s ∧ CommitInv s)
    ⟨HandoverInv.init, Exclusion.init, CommitInv.init⟩ fun _ _ _ hi hw hs =>
      ⟨hi.1.step hw.1 hs, hi.2.1.step hi.1 hs, hi.2.2.step hi.1 hi.2.1 hw.2 hs⟩

/-- **The wait is needed**: if a callback is at work on the other version when the
replay of two commands begins, it comes to play the first without the second. -/
theorem awaited_sharp {s : State Cmd} {c d : Cmd} {rest : List Cmd}
    (h : Reaches step Attended (init Cmd) s) (hpc : s.committer = .signal)
    (ha : s.audio = .body (s.epoch + 1)) (hq : s.syncCmds = c :: d :: rest) :
    ∃ s', Reaches step Free s s' ∧ ¬ PlaysWhole s' := by
  obtain ⟨hh, hex, hc⟩ := commitInv_of_attended h
  have hp : s.pending = true := hh.active_pending (by rw [hpc]; rfl)
  have hbefore := hc.before hp
  rw [hc.unplayed hp (by rw [hpc]; rfl), List.append_nil] at hbefore
  have hlength : s.commits.flatten.length = s.commits.dropLast.flatten.length +
    rest.length + 2 := by
    have hlacking := hex.lacking hp
    rw [hc.whole, hbefore, hpc, hq] at hlacking
    rw [hlacking]
    simp [CommitterPc.inHand]
    omega
  let s₁ : State Cmd := { s with committedFlag := false, woken := true, committer := .dequeue }
  let s₂ : State Cmd := { s₁ with syncCmds := d :: rest, committer := .apply c }
  let s₃ : State Cmd := { s₂ with version := s.ranOn (s.epoch + 1) c
                                  replayed := s.replayed ++ [c]
                                  committer := .dequeue }
  have h₁ : step s .committer = some s₁ := by simp [step, stepCommitter, hpc, s₁]
  have h₂ : step s₁ .committer = some s₂ := by simp [step, stepCommitter, hq, s₁, s₂]
  have h₃ : step s₂ .committer = some s₃ := rfl
  refine ⟨s₃, ((Reaches.refl.snoc _ h₁).snoc _ h₂).snoc _ h₃, fun hplays => ?_⟩
  obtain ⟨k, hk⟩ := hplays (s.epoch + 1) ha
  have hone : ((s.commits.take k).flatten).length = s.commits.dropLast.flatten.length + 1 := by
    rw [← show s₃.version (s.epoch + 1) = _ from hk]
    show (s.ranOn (s.epoch + 1) c (s.epoch + 1)).length = _
    rw [State.ranOn_self, hbefore, List.length_append, List.length_singleton]
  rcases Nat.lt_or_ge k s.commits.length with hlt | hge
  · have hprefix : s.commits.take k <+: s.commits.dropLast := by
      rw [List.dropLast_eq_take]
      exact List.take_prefix_take_left (by omega)
    have hle := hprefix.flatten.length_le
    omega
  · rw [List.take_of_length_le hge, hlength] at hone
    omega

end Ksi.Mvcc

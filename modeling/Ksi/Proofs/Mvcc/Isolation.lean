/-
Audio isolation of the two-version scheme.

The committer rewrites `nodes[(epoch+1)%2]` after it has made sure, or believes
it has made sure, that the audio callback plays `nodes[epoch]`.  What it relies on
is `ksiSemWait(&e->migratedSem)`: one post is expected for one flip of `epoch`.
The callback posts on every migration, but the committer takes a post only when
it looks before the callback has migrated.  A post it did not take stays in the
semaphore and lets a later commit through before the callback has moved.

`MigrationClean` is the condition under which the handshake works.  It speaks of
the state in which the committer looks at `audioEpoch`: nothing left over from an
earlier migration, and, where it does not wait, no callback under way that goes by
an `epoch` that has been overtaken.  Such a callback is there also without a
migration of its own, when two commits pass while the engine is paused.
-/
import Ksi.Proofs.Mvcc.Lock

namespace Ksi.Mvcc

open Runs

variable {Cmd : Type}

/-- While the committer rewrites the other version under a running driver, the
audio threads are on `epoch`: `audioEpoch` says so, and no callback is at work on
the other version. -/
def AudioIsolated (s : State Cmd) : Prop :=
  ∀ c, s.committer = .apply c → s.playing = .ksiEnginePlaying → s.driver_env = true →
    s.audioEpoch = s.epoch ∧ s.audio ≠ .body (s.epoch + 1)

/-- The local variable `epoch` of the callback. -/
def AudioPc.local? : AudioPc → Option (Fin 2)
  | .idle | .loadEpoch => none
  | .loadAudio e | .store e | .post e | .check e | .body e => some e

/-- A callback under way has not read an `epoch` that was flipped since. -/
def NotOvertaken (s : State Cmd) : Prop :=
  ∀ e, s.audio.local? = some e → e = s.epoch

/-- No post is in `migratedSem` or owed to it, and a migration under way is one to
`epoch`. -/
def NothingLeft (s : State Cmd) : Prop :=
  s.migratedSem = 0 ∧ ∀ e, s.audio ≠ .post e ∧ (s.audio = .store e → e = s.epoch)

/-- A step of the committer. -/
def Label.isCommitter : Label Cmd → Bool
  | .committer => true
  | _ => false

/-- The committer is about to look at `audioEpoch`. -/
def CommitterPc.isCheck : CommitterPc Cmd → Bool
  | .check => true
  | _ => false

/-- When the committer looks at `audioEpoch` with a driver playing, it does not
meet the remains of an earlier migration. -/
def MigrationClean (s : State Cmd) (l : Label Cmd) : Prop :=
  l.isCommitter = true → s.committer.isCheck = true →
    s.playing = .ksiEnginePlaying → s.driver_env = true →
      (s.epoch = s.audioEpoch → NotOvertaken s) ∧ (s.epoch ≠ s.audioEpoch → NothingLeft s)

instance : DecidablePred (@NotOvertaken Cmd) := fun s =>
  inferInstanceAs (Decidable (∀ e, s.audio.local? = some e → e = s.epoch))

instance : DecidablePred (@NothingLeft Cmd) := fun s =>
  inferInstanceAs (Decidable (s.migratedSem = 0 ∧
    ∀ e, s.audio ≠ .post e ∧ (s.audio = .store e → e = s.epoch)))

instance : DecidableRel (@MigrationClean Cmd) := fun s l =>
  inferInstanceAs (Decidable (l.isCommitter = true → s.committer.isCheck = true →
    s.playing = .ksiEnginePlaying → s.driver_env = true →
      (s.epoch = s.audioEpoch → NotOvertaken s) ∧ (s.epoch ≠ s.audioEpoch → NothingLeft s)))

/-- The callback plays `epoch` and will not leave it before the next flip. -/
def Arrived (s : State Cmd) : Prop :=
  s.audioEpoch = s.epoch ∧ NotOvertaken s

/-- What the committer knows from the moment it has looked at `audioEpoch` until
it gives the lock back. -/
structure IsolationInv (s : State Cmd) : Prop where
  lock : LockInv s
  migrate : s.committer = .migrate →
    s.playing = .ksiEnginePlaying ∧ s.driver_env = true ∧
      (Arrived s ∨ s.audioEpoch ≠ s.epoch ∧ NothingLeft s)
  replay : (s.committer = .signal ∨ s.committer = .dequeue ∨ ∃ c, s.committer = .apply c) →
    s.playing = .ksiEnginePlaying → s.driver_env = true → Arrived s

theorem IsolationInv.init : IsolationInv (init Cmd) :=
  ⟨LockInv.init, by simp [Mvcc.init], by simp [Mvcc.init]⟩

/-! ### One step -/

/-- The editor cannot disturb the committer inside its lock. -/
theorem IsolationInv.editor {s s' : State Cmd} {l : Label Cmd} (h : IsolationInv s)
    (hl : l.isEditor = true) (hs : step s l = some s') : IsolationInv s' := by
  have hf := editor_frame h.lock hl hs
  have hstill : s.committer.locked = true →
      s'.epoch = s.epoch ∧ s'.playing = s.playing ∧ s'.driver_env = s.driver_env :=
    fun hc => hf.held (h.lock.committer.mp hc)
  have harr : s.committer.locked = true → Arrived s → Arrived s' := by
    intro hc ⟨heq, hno⟩
    refine ⟨by rw [hf.audioEpoch, (hstill hc).1]; exact heq, ?_⟩
    intro e he
    rw [hf.audio] at he
    rw [(hstill hc).1]
    exact hno e he
  refine ⟨h.lock.step hs, ?_, ?_⟩
  · intro hc
    rw [hf.committer] at hc
    have hlocked : s.committer.locked = true := by rw [hc]; rfl
    obtain ⟨hep, hpl, hdr⟩ := hstill hlocked
    obtain ⟨h1, h2, h3⟩ := h.migrate hc
    refine ⟨by rw [hpl]; exact h1, by rw [hdr]; exact h2, ?_⟩
    rcases h3 with h3 | ⟨hne, hsem, hpost⟩
    · exact Or.inl (harr hlocked h3)
    · refine Or.inr ⟨by rw [hf.audioEpoch, hep]; exact hne, by rw [hf.migratedSem]; exact hsem, ?_⟩
      rw [hf.audio, hep]
      exact hpost
  · intro hc hpl hdr
    rw [hf.committer] at hc
    have hlocked : s.committer.locked = true := by
      rcases hc with hc | hc | ⟨c, hc⟩ <;> rw [hc] <;> rfl
    rw [(hstill hlocked).2.1] at hpl
    rw [(hstill hlocked).2.2] at hdr
    exact harr hlocked (h.replay hc hpl hdr)

/-- A callback that starts now goes by the `epoch` of now. -/
theorem NotOvertaken.audio {s s' : State Cmd} (h : NotOvertaken s) (hs : stepAudio s = some s') :
    NotOvertaken s' := by
  obtain ⟨-, -, -, hepoch, -, -⟩ := stepAudio_frame hs
  intro e he
  rw [hepoch]
  unfold stepAudio at hs
  split at hs <;> rename_i hpc
  case h_1 =>
      split at hs <;> cases hs
      · cases he
      · exact h e he
  case h_2 =>
      cases hs
      exact (Option.some.inj he).symm
  case h_3 e' =>
      have hlocal : e' = s.epoch := h e' (by rw [hpc]; rfl)
      split at hs <;> cases hs <;> exact (Option.some.inj he).symm.trans hlocal
  case h_6 e' =>
      have hlocal : e' = s.epoch := h e' (by rw [hpc]; rfl)
      cases hs
      dsimp only at he
      split at he
      · cases he
      · exact (Option.some.inj he).symm.trans hlocal
  case h_7 =>
      cases hs
      cases he
  all_goals
    cases hs
    exact h e (hpc ▸ he)

/-- A step of the callback keeps an arrived callback arrived. -/
theorem Arrived.audio {s s' : State Cmd} (h : Arrived s) (hs : stepAudio s = some s') :
    Arrived s' := by
  obtain ⟨heq, hno⟩ := h
  refine ⟨?_, hno.audio hs⟩
  unfold stepAudio at hs
  split at hs <;> rename_i hpc
  case h_4 e =>
      cases hs
      exact hno e (by rw [hpc]; rfl)
  all_goals
    (try split at hs) <;> cases hs <;> exact heq

/-- A callback that migrates with nothing left over arrives. -/
theorem NothingLeft.audio {s s' : State Cmd} (hne : s.audioEpoch ≠ s.epoch) (h : NothingLeft s)
    (hs : stepAudio s = some s') : Arrived s' ∨ s'.audioEpoch ≠ s'.epoch ∧ NothingLeft s' := by
  obtain ⟨hsem, hpost⟩ := h
  unfold stepAudio at hs
  split at hs <;> rename_i hpc
  case h_1 =>
      split at hs <;> cases hs
      · exact .inr ⟨hne, hsem, fun e' => by simp⟩
      · exact .inr ⟨hne, hsem, hpost⟩
  case h_3 e =>
      -- a callback that read the old `epoch` finds `audioEpoch` equal and stays
      split at hs <;> rename_i hcmp <;> cases hs
      · refine .inr ⟨hne, hsem, fun e' => ⟨by simp, fun he => ?_⟩⟩
        cases he
        by_contra hover
        exact hcmp ((eq_flip hover).trans (eq_flip hne).symm)
      · exact .inr ⟨hne, hsem, fun e' => by simp⟩
  case h_4 e =>
      cases hs
      have he : e = s.epoch := (hpost e).2 hpc
      exact .inl ⟨he, fun e' he' => (Option.some.inj he').symm.trans he⟩
  case h_5 e => exact absurd hpc (hpost e).1
  case h_6 e =>
      cases hs
      refine .inr ⟨hne, hsem, fun e' => ?_⟩
      dsimp only
      split <;> simp
  all_goals
    cases hs
    exact .inr ⟨hne, hsem, fun e' => by simp⟩

theorem IsolationInv.audio {s s' : State Cmd} (h : IsolationInv s)
    (hs : stepAudio s = some s') : IsolationInv s' := by
  obtain ⟨-, hc, -, -, hpl, hdr⟩ := stepAudio_frame hs
  refine ⟨h.lock.step (l := .audio) hs, ?_, ?_⟩
  · intro hmig
    rw [hc] at hmig
    obtain ⟨h1, h2, h3⟩ := h.migrate hmig
    refine ⟨by rw [hpl]; exact h1, by rw [hdr]; exact h2, ?_⟩
    rcases h3 with h3 | ⟨hne, hleft⟩
    · exact Or.inl (h3.audio hs)
    · exact hleft.audio hne hs
  · intro hrep hplay hdrv
    rw [hc] at hrep
    rw [hpl] at hplay
    rw [hdr] at hdrv
    exact (h.replay hrep hplay hdrv).audio hs

theorem IsolationInv.committer {s s' : State Cmd} (h : IsolationInv s)
    (hclean : MigrationClean s .committer) (hs : stepCommitter s = some s') :
    IsolationInv s' := by
  refine ⟨h.lock.step (l := .committer) hs, ?_, ?_⟩
  · intro hmig
    unfold stepCommitter at hs
    split at hs <;> rename_i hpc <;> (try split at hs) <;> (try split at hs) <;> cases hs <;>
      simp at hmig
    rename_i hplay hwait
    have hcl := (hclean rfl (by rw [hpc]; rfl) hplay hwait.2).2 hwait.1
    exact ⟨hplay, hwait.2, Or.inr ⟨fun hc => hwait.1 hc.symm, hcl⟩⟩
  · intro hrep hplay hdrv
    unfold stepCommitter at hs
    split at hs <;> rename_i hpc
    case h_3 =>
        have hcl := hclean rfl (by rw [hpc]; rfl)
        split at hs
        · split at hs <;> rename_i hon hwait <;> cases hs
          · simp at hrep
          · have heq : s.epoch = s.audioEpoch := by
              by_contra hne
              exact hwait ⟨hne, hdrv⟩
            exact ⟨heq.symm, (hcl hplay hdrv).1 heq⟩
        · rename_i hoff
          cases hs
          exact absurd hplay hoff
    case h_4 =>
        split at hs <;> cases hs
        -- the post that lets the committer through was made after this flip
        rename_i hpos
        obtain ⟨-, -, harr | ⟨-, hleft⟩⟩ := h.migrate hpc
        · exact harr
        · exact absurd hpos (by rw [hleft.1]; simp)
    case h_5 => cases hs; exact h.replay (Or.inl hpc) hplay hdrv
    case h_6 =>
        split at hs <;> cases hs
        · simp at hrep
        · exact h.replay (Or.inr (Or.inl hpc)) hplay hdrv
    case h_7 c => cases hs; exact h.replay (Or.inr (Or.inr ⟨c, hpc⟩)) hplay hdrv
    all_goals (try split at hs) <;> cases hs <;> simp at hrep

theorem IsolationInv.step {s s' : State Cmd} {l : Label Cmd} (h : IsolationInv s)
    (hclean : MigrationClean s l) (hs : step s l = some s') : IsolationInv s' := by
  cases l with
  | committer => exact h.committer hclean hs
  | audio => exact h.audio hs
  | _ => exact h.editor rfl hs

/-! ### Runs -/

/-- The labels of one edit and the commit after it, up to the release of the
lock. -/
def editAndCommit (c : Cmd) : List (Label Cmd) :=
  [.call (.edit c), .editor, .editor, .kernel true, .editor, .editor,
   .call .commit, .editor, .editor, .editor, .editor, .editor, .editor]

/-- A driver is opened and the engine launched. -/
def launch : List (Label Cmd) := [.control .paIOInit, .control .launch]

/-- The committer waits before the callback migrates. -/
def waitingRun : List (Label Nat) :=
  launch ++ editAndCommit 7 ++ List.replicate 3 .committer ++ List.replicate 6 .audio ++
    List.replicate 3 .committer

/-- Once past its waits, the committer gets to its first kernel. -/
theorem reaches_apply {s : State Cmd} {c : Cmd} {rest : List Cmd} (hc : s.committer = .signal)
    (hq : s.syncCmds = c :: rest) :
    ∃ s', Reaches step Free s s' ∧ s'.committer = .apply c ∧ s'.epoch = s.epoch ∧
      s'.audioEpoch = s.audioEpoch ∧ s'.playing = s.playing ∧ s'.driver_env = s.driver_env ∧
      s'.audio = s.audio := by
  let s₁ : State Cmd := { s with committedFlag := false, woken := true, committer := .dequeue }
  have h₁ : step s .committer = some s₁ := by simp [step, stepCommitter, hc, s₁]
  have h₂ : step s₁ .committer = some { s₁ with syncCmds := rest, committer := .apply c } := by
    simp [step, stepCommitter, hq, s₁]
  exact ⟨_, (Reaches.refl.snoc _ h₁).snoc _ h₂, rfl, rfl, rfl, rfl, rfl, rfl⟩

section Overtaken

variable {t : State Cmd} {c : Cmd} {e : Fin 2} (hc : t.committer = .apply c)
  (hplay : t.playing = .ksiEnginePlaying) (hdrv : t.driver_env = true) (hne : e ≠ t.epoch)
include hc hplay hdrv hne

theorem reaches_of_body (ha : t.audio = .body e) :
    ∃ u, Reaches step Free t u ∧ ¬ AudioIsolated u :=
  ⟨t, .refl, fun hiso => (hiso c hc hplay hdrv).2 (eq_flip hne ▸ ha)⟩

theorem reaches_of_check (ha : t.audio = .check e) :
    ∃ u, Reaches step Free t u ∧ ¬ AudioIsolated u := by
  let t₁ : State Cmd := { t with audio := .body e }
  have h₁ : step t .audio = some t₁ := by simp [step, stepAudio, ha, hplay, t₁]
  obtain ⟨u, hu, hnot⟩ := reaches_of_body (t := t₁) hc hplay hdrv hne rfl
  exact ⟨u, (Reaches.refl.snoc _ h₁).trans hu, hnot⟩

theorem reaches_of_store (ha : t.audio = .store e) :
    ∃ u, Reaches step Free t u ∧ ¬ AudioIsolated u := by
  let t₁ : State Cmd := { t with audioEpoch := e, audio := .post e }
  have h₁ : step t .audio = some t₁ := by simp [step, stepAudio, ha, t₁]
  exact ⟨t₁, Reaches.refl.snoc _ h₁, fun hiso => hne (hiso c hc hplay hdrv).1⟩

/-- A callback that goes by the other version gets to work on it, or says so, while the
committer rewrites it. -/
theorem reaches_of_overtaken (heq : t.epoch = t.audioEpoch) (hlocal : t.audio.local? = some e) :
    ∃ u, Reaches step Free t u ∧ ¬ AudioIsolated u := by
  cases ha : t.audio with
  | idle => rw [ha] at hlocal; cases hlocal
  | loadEpoch => rw [ha] at hlocal; cases hlocal
  | loadAudio e' =>
      rw [ha] at hlocal
      obtain rfl : e' = e := Option.some.inj hlocal
      let t₁ : State Cmd := { t with audio := .store e' }
      have hdiff : e' ≠ t.audioEpoch := heq ▸ hne
      have h₁ : step t .audio = some t₁ := by simp [step, stepAudio, ha, hdiff, t₁]
      obtain ⟨u, hu, hnot⟩ := reaches_of_store (t := t₁) hc hplay hdrv hne rfl
      exact ⟨u, (Reaches.refl.snoc _ h₁).trans hu, hnot⟩
  | store e' =>
      rw [ha] at hlocal
      obtain rfl : e' = e := Option.some.inj hlocal
      exact reaches_of_store hc hplay hdrv hne ha
  | post e' =>
      rw [ha] at hlocal
      obtain rfl : e' = e := Option.some.inj hlocal
      let t₁ : State Cmd := { t with migratedSem := t.migratedSem + 1, audio := .check e' }
      have h₁ : step t .audio = some t₁ := by simp [step, stepAudio, ha, t₁]
      obtain ⟨u, hu, hnot⟩ := reaches_of_check (t := t₁) hc hplay hdrv hne rfl
      exact ⟨u, (Reaches.refl.snoc _ h₁).trans hu, hnot⟩
  | check e' =>
      rw [ha] at hlocal
      obtain rfl : e' = e := Option.some.inj hlocal
      exact reaches_of_check hc hplay hdrv hne ha
  | body e' =>
      rw [ha] at hlocal
      obtain rfl : e' = e := Option.some.inj hlocal
      exact reaches_of_body hc hplay hdrv hne ha

end Overtaken

/-- **The condition is exact**: a state in which the committer looks at
`audioEpoch` and meets the remains of an earlier migration, with a command to
replay, can be continued into one where it rewrites the version being played. -/
theorem migrationClean_sharp {s : State Cmd} {c : Cmd} {rest : List Cmd}
    (hcheck : s.committer = .check) (hplay : s.playing = .ksiEnginePlaying)
    (hdrv : s.driver_env = true) (hq : s.syncCmds = c :: rest)
    (hclean : ¬ MigrationClean s .committer) :
    ∃ s', Reaches step Free s s' ∧ ¬ AudioIsolated s' := by
  by_cases heq : s.epoch = s.audioEpoch
  · -- the committer does not wait, with a callback under way on the other version
    have hover : ∃ e, s.audio.local? = some e ∧ e ≠ s.epoch := by
      by_contra hno
      push Not at hno
      exact hclean fun _ _ _ _ => ⟨fun _ => hno, fun hne => absurd heq hne⟩
    obtain ⟨e, hlocal, hne⟩ := hover
    have h₁ : step s .committer = some { s with committer := .signal } := by
      simp [step, stepCommitter, hcheck, hplay, heq]
    obtain ⟨t, ht, htc, hte, hta, htp, htd, htau⟩ :=
      reaches_apply (s := { s with committer := .signal }) rfl hq
    obtain ⟨u, hu, hnot⟩ := reaches_of_overtaken htc (htp.trans hplay) (htd.trans hdrv)
      (hte ▸ hne) (hte.trans (heq.trans hta.symm)) (htau ▸ hlocal)
    exact ⟨u, ((Reaches.refl.snoc _ h₁).trans ht).trans hu, hnot⟩
  · -- the committer waits, and takes a post that is not for this flip
    have hleft : ¬ NothingLeft s := by
      intro hl
      exact hclean fun _ _ _ _ => ⟨fun h => absurd h heq, fun _ => hl⟩
    let m : State Cmd := { s with committer := .migrate }
    have h₁ : step s .committer = some m := by
      simp [step, stepCommitter, hcheck, hplay, heq, hdrv, m]
    have hmig : Reaches step Free s m := Reaches.refl.snoc _ h₁
    have hpost : ∃ u, Reaches step Free s u ∧ u.committer = .migrate ∧ u.epoch = s.epoch ∧
        u.audioEpoch ≠ s.epoch ∧ u.playing = s.playing ∧ u.driver_env = s.driver_env ∧
        u.syncCmds = s.syncCmds ∧ 0 < u.migratedSem := by
      by_cases hsem : s.migratedSem = 0
      · have hcase : ∃ e, s.audio = .post e ∨ s.audio = .store e ∧ e ≠ s.epoch := by
          by_contra hno
          push Not at hno
          refine hleft ⟨hsem, fun e => ⟨(hno e).1, fun he => ?_⟩⟩
          exact (hno e).2 he
        obtain ⟨e, hpc | ⟨hpc, hne⟩⟩ := hcase
        · refine ⟨{ m with migratedSem := m.migratedSem + 1, audio := .check e },
            hmig.snoc .audio ?_, rfl, rfl, fun h => heq h.symm, rfl, rfl, rfl, by simp⟩
          simp [step, stepAudio, m, hpc]
        · let u : State Cmd := { m with audioEpoch := e, audio := .post e }
          have hu : step m .audio = some u := by simp [step, stepAudio, m, u, hpc]
          refine ⟨{ u with migratedSem := u.migratedSem + 1, audio := .check e },
            (hmig.snoc .audio hu).snoc .audio ?_, rfl, rfl, hne, rfl, rfl, rfl, by simp⟩
          simp [step, stepAudio, u]
      · exact ⟨m, hmig, rfl, rfl, fun h => heq h.symm, rfl, rfl, rfl, Nat.pos_of_ne_zero hsem⟩
    obtain ⟨u, hu, huc, hue, hua, hup, hud, huq, husem⟩ := hpost
    have h₂ : step u .committer
        = some { u with migratedSem := u.migratedSem - 1, committer := .signal } := by
      simp [step, stepCommitter, huc, husem]
    obtain ⟨t, ht, htc, hte, hta, htp, htd, -⟩ :=
      reaches_apply (s := { u with migratedSem := u.migratedSem - 1, committer := .signal })
        rfl (huq.trans hq)
    refine ⟨t, (hu.snoc _ h₂).trans ht, fun hiso => ?_⟩
    have hsame := (hiso c htc (htp.trans (hup.trans hplay)) (htd.trans (hud.trans hdrv))).1
    exact hua (by rw [← hue, ← hte, ← hsame, hta])

end Ksi.Mvcc

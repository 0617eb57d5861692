/-
Batches of edits, and what breaks them.

Between a brace that opens a batch and the one that closes it `fifo_handler` does not
commit, so that the edits of the batch stay in the queue and the closing brace commits them
all.  But a line can commit or empty the queue by itself: the one that starts the audio,
through `ksiEngineLaunch`, and the one that makes a new engine.  Command files bring such
lines into a batch as well, however deep.

A part of a session is read as three lists: the edits it has queued, the edits that have
left the queue, and the values it has stored in `e->epoch`.  The lists of consecutive parts
are appended, which carries the claim about one line to files and to batches.

What the audio threads hear of a batch is not up to the lines alone: the committer makes the
edits again, one by one, to the version that the callbacks have left.  So the last part of
the claim is about a state of the three threads that has committed what the session has.
-/
import Ksi.Proofs.Cmd
import Ksi.Proofs.Mvcc.Batches

namespace Ksi.Cmd

open Dag Pool Prog Runs KsiError

variable {w : World} {fuel : Nat} {err : KsiError} {h h' h₁ h₂ h₃ : Handler}

/-! ### Parts of a session -/

/-- From `h` to `h'` the edits `new` have been queued, `gone` have left the queue, and the
values `stored` have been stored in `e->epoch`. -/
structure Passes (h h' : Handler) (gone new : List Call) (stored : List Nat) : Prop where
  queued : h'.queued = h.queued ++ new
  queue : h.session.syncCmds ++ new = gone ++ h'.session.syncCmds
  epochs : h'.epochs = h.epochs ++ stored
  epoch : h'.epoch = stored.getLast?.getD h.epoch
  scope : h'.current_in_scope = h.current_in_scope
  /-- without a store the version that `e->epoch` selects is what it was -/
  kept : stored = [] → h'.other = h.other ∧ h'.commits = h.commits

/-- The version that `e->epoch` selects is what it was, or that of a new engine. -/
def Hidden (h h' : Handler) : Prop :=
  h'.other = h.other ∧ h'.commits = h.commits ∨ h'.other = Version.empty ∧ h'.commits = []

/-- From `h` to `h'` nothing has left the queue and `e->epoch` has kept its value, exactly
if `P`, and then nothing has been shown. -/
def Accords (P : Prop) (h h' : Handler) : Prop :=
  ∃ gone new stored, Passes h h' gone new stored ∧
    ((gone = [] ∧ ∀ v ∈ stored, v = h.epoch) ↔ P) ∧ (P → Hidden h h')

/-- From `h` to `h'` edits have been queued, and that is all. -/
def Quiet (h h' : Handler) : Prop := ∃ new, Passes h h' [] new []

theorem Passes.trans {gone gone' new new' : List Call} {stored stored' : List Nat}
    (h₁₂ : Passes h₁ h₂ gone new stored) (h₂₃ : Passes h₂ h₃ gone' new' stored') :
    Passes h₁ h₃ (gone ++ gone') (new ++ new') (stored ++ stored') := by
  constructor
  case queued => rw [h₂₃.queued, h₁₂.queued, List.append_assoc]
  case queue =>
    rw [← List.append_assoc, h₁₂.queue, List.append_assoc, h₂₃.queue, List.append_assoc]
  case epochs => rw [h₂₃.epochs, h₁₂.epochs, List.append_assoc]
  case epoch =>
    rw [h₂₃.epoch, h₁₂.epoch, List.getLast?_append]
    cases stored'.getLast? <;> rfl
  case scope => rw [h₂₃.scope, h₁₂.scope]
  case kept =>
    intro hnil
    rw [List.append_eq_nil_iff] at hnil
    obtain ⟨hother, hcommits⟩ := h₁₂.kept hnil.1
    rw [← hother, ← hcommits]
    exact h₂₃.kept hnil.2

theorem Hidden.trans (h₁₂ : Hidden h₁ h₂) (h₂₃ : Hidden h₂ h₃) : Hidden h₁ h₃ := by
  unfold Hidden
  rcases h₂₃ with ⟨hother, hcommits⟩ | hnew
  · rw [hother, hcommits]
    exact h₁₂
  · exact .inr hnew

/-- The queue and `e->epoch` are what they were. -/
theorem Passes.still (hsync : h'.session.syncCmds = h.session.syncCmds)
    (hqueued : h'.queued = h.queued) (hepochs : h'.epochs = h.epochs) (hepoch : h'.epoch = h.epoch)
    (hscope : h'.current_in_scope = h.current_in_scope) (hother : h'.other = h.other)
    (hcommits : h'.commits = h.commits) : Passes h h' [] [] [] where
  queued := hqueued.trans (List.append_nil _).symm
  queue := (List.append_nil _).trans hsync.symm
  epochs := hepochs.trans (List.append_nil _).symm
  epoch := hepoch
  scope := hscope
  kept _ := ⟨hother, hcommits⟩

theorem Quiet.refl (h : Handler) : Quiet h h := ⟨[], .still rfl rfl rfl rfl rfl rfl rfl⟩

theorem Quiet.trans (h₁₂ : Quiet h₁ h₂) (h₂₃ : Quiet h₂ h₃) : Quiet h₁ h₃ := by
  obtain ⟨new, h₁₂⟩ := h₁₂
  obtain ⟨new', h₂₃⟩ := h₂₃
  exact ⟨new ++ new', h₁₂.trans h₂₃⟩

theorem Accords.trans {P P' : Prop} (h₁₂ : Accords P h₁ h₂) (h₂₃ : Accords P' h₂ h₃) :
    Accords (P ∧ P') h₁ h₃ := by
  obtain ⟨gone, new, stored, hp, hiff, hhidden⟩ := h₁₂
  obtain ⟨gone', new', stored', hp', hiff', hhidden'⟩ := h₂₃
  refine ⟨_, _, _, hp.trans hp', ?_, fun hboth => (hhidden hboth.1).trans (hhidden' hboth.2)⟩
  rw [List.append_eq_nil_iff, List.forall_mem_append]
  by_cases hP : P
  · obtain ⟨rfl, hstored⟩ := hiff.mpr hP
    -- `e->epoch` still has its value where the second part begins
    have hepoch : h₂.epoch = h₁.epoch := by
      rw [hp.epoch]
      cases hlast : stored.getLast? with
      | none => rfl
      | some v => exact hstored v (List.mem_of_getLast? hlast)
    rw [and_iff_right hP, ← hiff', hepoch, and_iff_right rfl, and_iff_right hstored]
  · refine iff_of_false (fun hboth => hP (hiff.mp ⟨hboth.1.1, hboth.2.1⟩)) fun h => hP h.1

/-! ### Lines -/

theorem Quiet.engine (h : Handler) (e : Engine) :
    Quiet h { h with session := { h.session with engine := e } } :=
  ⟨[], .still rfl rfl rfl rfl rfl rfl rfl⟩

/-- Whatever `x` leaves it in, `P` says whether the part was one that kept still. -/
def Says {α : Type} (P : Prop) (x : Line α) (h : Handler) : Prop :=
  wp True x h (fun _ h' => Accords P h h') fun _ h' => Accords P h h'

/-- Nothing is queued, committed or stored. -/
def Still (h h' : Handler) : Prop := Passes h h' [] [] []

theorem Still.refl (h : Handler) : Still h h := .still rfl rfl rfl rfl rfl rfl rfl

theorem Accords.congr {P P' : Prop} (ha : Accords P h h') (hP : P ↔ P') : Accords P' h h' := by
  obtain ⟨gone, new, stored, hp, hiff, hhidden⟩ := ha
  exact ⟨gone, new, stored, hp, hiff.trans hP, fun hP' => hhidden (hP.mpr hP')⟩

theorem Says.congr {α : Type} {P P' : Prop} {x : Line α} (hx : Says P x h) (hP : P ↔ P') :
    Says P' x h :=
  wp_mono hx (fun _ _ ha => ha.congr hP) fun _ _ ha => ha.congr hP

/-- One part after the other. -/
theorem Says.bind {α β : Type} {P : Prop} {P' : α → Handler → Prop} {x : Line α} {f : α → Line β}
    (hx : Says P x h) (hf : ∀ a h₁, x h = some (.ok a, h₁) → Says (P' a h₁) (f a) h₁) :
    Says (P ∧ ∀ a h₁, x h = some (.ok a, h₁) → P' a h₁) (x >>= f) h := by
  unfold Says at hx ⊢
  rw [wp_bind]
  rcases Option.eq_none_or_eq_some (x h) with hr | ⟨⟨e | a, h₁⟩, hr⟩
  · exact (wp_of_none hr).mpr trivial
  · have hE : Accords P h h₁ := of_wp_error hx hr
    have hnever : ∀ a h₁', x h = some (.ok a, h₁') → P' a h₁' := fun a h₁' hr' => by
      cases hr.symm.trans hr'
    exact (wp_of_error hr).mpr (hE.congr (and_iff_left hnever).symm)
  · have ha : Accords P h h₁ := of_wp_ok hx hr
    have hiff : P ∧ P' a h₁ ↔ (P ∧ ∀ a' h₁', x h = some (.ok a', h₁') → P' a' h₁') := by
      refine and_congr_right fun _ => ⟨fun hP' a' h₁' hr' => ?_, fun hall => hall a h₁ hr⟩
      cases hr.symm.trans hr'
      exact hP'
    have hboth : ∀ h₂, Accords (P' a h₁) h₁ h₂ → Accords _ h h₂ :=
      fun h₂ ha' => (ha.trans ha').congr hiff
    have hsays : wp True (f a) h₁ _ _ := hf a h₁ hr
    exact (wp_of_ok hr).mpr (wp_mono hsays (fun _ h₂ => hboth h₂) fun _ h₂ => hboth h₂)

end Ksi.Cmd

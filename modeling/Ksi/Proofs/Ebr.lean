/-
What epoch-based reclamation protects.

An object is destroyed two advances after the epoch it is filed under.  Filed under
the current epoch, it is safe: whoever was inside at its retirement has to leave, or
to have copied a later epoch, before the second of them.  But `ksiDynamicEBRRetire`
files under the epoch of the retiring worker's own entry, which may be one or two
advances old, and then a single advance, or none, is left.

`Protected` says what keeps a reader safe from an object in a given list.  A run is
`Fresh` when every retirement finds its readers protected and nobody who guards an
object copies the epoch that would let its list go.
-/
import Ksi.Ebr.Protocol

namespace Ksi.Ebr

open Runs

variable {nprocs overlookers : Nat} {tid : Fin nprocs} {s s' : State nprocs overlookers}

/-! ### The condition -/

/-- The current pass has looked at the entry of `t` and found nothing against it. -/
@[grind =]
def CollectorPc.past (t : Thread nprocs overlookers) : CollectorPc nprocs overlookers → Bool
  | .check _ rest => decide (t ∉ rest)
  | .compare _ entry rest => decide (t ≠ entry ∧ t ∉ rest)
  | .cas _ => true
  | .idle | .destroy _ _ | .clear _ _ _ | .setOwn _ => false

/-- The epoch has been advanced and a list of worker `i` is about to be destroyed. -/
@[grind =]
def CollectorPc.destroys (i : Fin nprocs) : CollectorPc nprocs overlookers → Bool
  | .destroy _ rest => decide (i ∈ rest)
  | .clear _ _ rest => decide (i ∈ rest)
  | .idle | .check _ _ | .compare _ _ _ | .cas _ | .setOwn _ => false

/-- Thread `t`, inside now, need not fear for an object in list `k` of worker `i`. -/
@[grind =]
def Protected (s : State nprocs overlookers) (i : Fin nprocs) (k : Fin 3)
    (t : Thread nprocs overlookers) : Prop :=
  k = s.epoch ∨
  (k + 1 = s.epoch ∧ s.entryEpoch t ≠ s.epoch ∧ s.collector.past t = false) ∨
  (k = s.epoch + 1 ∧ s.collector.destroys i = false)

instance (s : State nprocs overlookers) (i : Fin nprocs) (k : Fin 3)
    (t : Thread nprocs overlookers) : Decidable (Protected s i k t) := by
  unfold Protected
  infer_instance

/-- A retirement files the object where all threads inside are protected, and a
thread that enters again does not give up the protection of what it guards. -/
def Fresh (s : State nprocs overlookers) : Label nprocs overlookers → Prop
  | .retire i => ∀ t, (s.pc t).isInside = true → Protected s i (s.entryEpoch (.worker i)) t
  | .entry t => s.pc t = .store true s.epoch →
      ∀ i, ∀ x ∈ s.freelist i (s.epoch + 2), s.guards x t = false
  | _ => True

instance : DecidableRel (@Fresh nprocs overlookers) := fun s l => by
  unfold Fresh
  split <;> infer_instance

/-- An object destroyed has no reader left that was inside at its retirement. -/
def NoReaderOfFreed (s : State nprocs overlookers) : Prop :=
  ∀ x ∈ s.freed, ∀ t, s.guards x t = false

/-! ### The invariant -/

/-- The value of the global epoch the collector relies on. -/
@[grind =]
def CollectorPc.expects : CollectorPc nprocs overlookers → Option (Fin 3)
  | .idle => none
  | .check epoch _ | .compare epoch _ _ | .cas epoch => some epoch
  | .destroy epoch _ | .clear epoch _ _ | .setOwn epoch => some (epoch + 1)

@[simp, grind =]
theorem past_checkNext (e : Fin 3) (rest : List (Thread nprocs overlookers))
    (t : Thread nprocs overlookers) :
    (CollectorPc.checkNext e rest).past t = decide (t ∉ rest) := by
  cases rest <;> simp [CollectorPc.checkNext, CollectorPc.past]

@[simp, grind =]
theorem destroys_checkNext (e : Fin 3) (rest : List (Thread nprocs overlookers)) (i : Fin nprocs) :
    (CollectorPc.checkNext e rest).destroys i = false := by
  cases rest <;> rfl

@[simp, grind =]
theorem expects_checkNext (e : Fin 3) (rest : List (Thread nprocs overlookers)) :
    (CollectorPc.checkNext e rest).expects = some e := by
  cases rest <;> rfl

@[simp, grind =]
theorem past_destroyNext (e : Fin 3) (rest : List (Fin nprocs)) (t : Thread nprocs overlookers) :
    (CollectorPc.destroyNext e rest).past t = false := by
  cases rest <;> rfl

@[simp, grind =]
theorem destroys_destroyNext (e : Fin 3) (rest : List (Fin nprocs)) (i : Fin nprocs) :
    (@CollectorPc.destroyNext nprocs overlookers e rest).destroys i = decide (i ∈ rest) := by
  cases rest <;> simp [CollectorPc.destroyNext, CollectorPc.destroys]

@[simp, grind =]
theorem expects_destroyNext (e : Fin 3) (rest : List (Fin nprocs)) :
    (@CollectorPc.destroyNext nprocs overlookers e rest).expects = some (e + 1) := by
  cases rest <;> rfl

theorem mem_order (t : Thread nprocs overlookers) : t ∈ order nprocs overlookers := by
  cases t <;> simp [order]

/-- The invariant of the runs that are `Fresh`. -/
structure EbrInv (tid : Fin nprocs) (s : State nprocs overlookers) : Prop where
  active : ∀ t, s.active t = false ↔ s.pc t = .outside
  own : s.pc (.worker tid) = .outside
  collector : ∀ e, s.collector.expects = some e → s.epoch = e
  inside : ∀ t, (s.pc t).isInside = true → s.collector.past t = true →
    s.entryEpoch t ≠ s.epoch + 1
  /-- an epoch on its way into an entry is at most two advances old -/
  store : ∀ t inner e, s.pc t = .store inner e →
    e = s.epoch ∨ (e + 1 = s.epoch ∧ (s.collector.past t = true → s.entryEpoch t = s.epoch)) ∨
      (e = s.epoch + 1 ∧ s.entryEpoch t ≠ s.epoch ∧ s.collector.past t = false)
  filed : ∀ i k, ∀ x ∈ s.freelist i k, x < s.retired ∧
    ∀ t, s.guards x t = true → (s.pc t).isInside = true ∧ Protected s i k t
  freed : ∀ x ∈ s.freed, x < s.retired ∧ ∀ t, s.guards x t = false

theorem EbrInv.init (tid : Fin nprocs) : EbrInv tid (init nprocs overlookers) := by
  constructor <;> simp [Ebr.init, CollectorPc.expects, EntryPc.isInside]

theorem EbrInv.stepEnter (h : EbrInv tid s) {t : Thread nprocs overlookers}
    (hs : stepEnter tid s t = some s') : EbrInv tid s' := by
  unfold Ebr.stepEnter at hs
  split at hs
  · cases hs
  · obtain ⟨_, _, _, _, _, _, _⟩ := h
    split at hs <;> cases hs
    · constructor <;> grind [EntryPc.isInside]
    · constructor <;> grind [EntryPc.isInside]

theorem EbrInv.stepEntry (h : EbrInv tid s) {t : Thread nprocs overlookers}
    (hf : Fresh s (.entry t)) (hs : stepEntry s t = some s') : EbrInv tid s' := by
  unfold Ebr.stepEntry at hs
  obtain ⟨_, _, _, _, hstore, _, _⟩ := h
  split at hs
  · cases hs
    constructor <;> grind [EntryPc.isInside]
  · rename_i inner e hpc
    cases hs
    have := hstore t inner e hpc
    have hf : inner = true → e = s.epoch → ∀ i, ∀ x ∈ s.freelist i (s.epoch + 2),
        s.guards x t = false := by
      rintro rfl rfl
      exact hf hpc
    have hthree : ∀ k : Fin 3, k + 1 = s.epoch → k = s.epoch + 2 := by
      intro k hk
      rw [← hk]
      omega
    constructor <;> grind [EntryPc.isInside]
  · cases hs

theorem EbrInv.stepLeave (h : EbrInv tid s) {t : Thread nprocs overlookers}
    (hs : stepLeave s t = some s') : EbrInv tid s' := by
  unfold Ebr.stepLeave at hs
  obtain ⟨_, _, _, _, hstore, _, _⟩ := h
  split at hs
  · cases hs
    constructor <;> grind [EntryPc.isInside]
  · cases hs

theorem EbrInv.stepRetire (h : EbrInv tid s) {i : Fin nprocs} (hf : Fresh s (.retire i))
    (hs : stepRetire s i = some s') : EbrInv tid s' := by
  unfold Ebr.stepRetire at hs
  simp only [Fresh] at hf
  obtain ⟨_, _, _, _, hstore, _, _⟩ := h
  split at hs
  · cases hs
    constructor <;> grind [EntryPc.isInside]
  · cases hs

/-- A pass begins. -/
theorem EbrInv.beginPass (h : EbrInv tid s) :
    EbrInv tid { s with collector := .checkNext s.epoch (order nprocs overlookers) } := by
  obtain ⟨_, _, _, _, _, _, _⟩ := h
  have := @mem_order nprocs overlookers
  constructor <;> grind

/-- An entry is not active, or has the epoch of the pass. -/
theorem EbrInv.pass (h : EbrInv tid s) {e : Fin 3} {t : Thread nprocs overlookers}
    {rest : List (Thread nprocs overlookers)}
    (hpc : s.collector = .check e (t :: rest) ∨ s.collector = .compare e t rest)
    (hok : s.pc t = .outside ∨ s.entryEpoch t = s.epoch) :
    EbrInv tid { s with collector := .checkNext e rest } := by
  obtain ⟨_, _, _, _, _, _, _⟩ := h
  constructor <;> grind [EntryPc.isInside]

/-- The epoch is advanced: a reader that guards an object of the list about to be
destroyed would have stopped the pass. -/
theorem EbrInv.advance (h : EbrInv tid s) {e : Fin 3} (hpc : s.collector = .cas e)
    (he : s.epoch = e) : EbrInv tid { s with
      epoch := e + 1, collector := .destroyNext e (List.finRange nprocs).reverse } := by
  obtain ⟨_, _, _, _, _, _, _⟩ := h
  constructor <;> grind [EntryPc.isInside]

theorem EbrInv.destroy (h : EbrInv tid s) {e : Fin 3} {i : Fin nprocs} {rest : List (Fin nprocs)}
    (hpc : s.collector = .destroy e (i :: rest)) : EbrInv tid { s with
      freed := s.freed ++ s.freelist i (e + 2), collector := .clear e i rest } := by
  have he : s.epoch = e + 1 := h.collector _ (by simp [hpc, CollectorPc.expects])
  obtain ⟨_, _, _, _, _, _, _⟩ := h
  constructor <;> grind [EntryPc.isInside]

theorem EbrInv.clear (h : EbrInv tid s) {e : Fin 3} {i : Fin nprocs} {rest : List (Fin nprocs)}
    (hpc : s.collector = .clear e i rest) : EbrInv tid { s with
      freelist := fun j k => if j = i ∧ k = e + 2 then [] else s.freelist j k,
      collector := .destroyNext e rest } := by
  obtain ⟨_, _, _, _, _, _, _⟩ := h
  constructor <;> grind [EntryPc.isInside]

/-- The collector's own entry is never active. -/
theorem EbrInv.setOwn (h : EbrInv tid s) (e : Fin 3) : EbrInv tid { s with
    entryEpoch := Function.update s.entryEpoch (.worker tid) (e + 1), collector := .idle } := by
  obtain ⟨_, _, _, _, _, _, _⟩ := h
  constructor <;> grind [EntryPc.isInside]

theorem EbrInv.stepCollector (h : EbrInv tid s) (hs : stepCollector tid s = some s') :
    EbrInv tid s' := by
  unfold Ebr.stepCollector at hs
  split at hs
  · cases hs
    exact h.beginPass
  · rename_i e t rest hpc
    split at hs
    · cases hs
      obtain ⟨_, _, _, _, _, _, _⟩ := h
      constructor <;> grind [EntryPc.isInside]
    · rename_i hactive
      cases hs
      exact h.pass (.inl hpc) (.inl ((h.active t).mp (by simpa using hactive)))
  · cases hs
  · rename_i e t rest hpc
    split at hs
    · cases hs
      obtain ⟨_, _, _, _, _, _, _⟩ := h
      constructor <;> grind [EntryPc.isInside]
    · rename_i he
      cases hs
      have hepoch := h.collector e (by simp [hpc, CollectorPc.expects])
      exact h.pass (.inr hpc) (.inr (by simpa [hepoch] using he))
  · rename_i e hpc
    split at hs
    · rename_i he
      cases hs
      exact h.advance hpc he
    · rename_i he
      exact absurd (h.collector e (by simp [hpc, CollectorPc.expects])) he
  · rename_i e i rest hpc
    cases hs
    exact h.destroy hpc
  · cases hs
  · rename_i e i rest hpc
    cases hs
    exact h.clear hpc
  · rename_i e hpc
    cases hs
    exact h.setOwn e

theorem EbrInv.step (h : EbrInv tid s) {l : Label nprocs overlookers} (hf : Fresh s l)
    (hs : step tid s l = some s') : EbrInv tid s' := by
  cases l with
  | enter t => exact h.stepEnter hs
  | entry t => exact h.stepEntry hf hs
  | leave t => exact h.stepLeave hs
  | retire i => exact h.stepRetire hf hs
  | collector => exact h.stepCollector hs

/-! ### Runs -/

/-- **Nothing is destroyed under a reader** in a run whose retirements all find the
readers protected. -/
theorem noReaderOfFreed_of_fresh
    (h : Reaches (step tid) Fresh (init nprocs overlookers) s) : NoReaderOfFreed s := by
  have hinv : EbrInv tid s :=
    h.invariant (EbrInv tid) (.init tid) fun _ _ _ hi hf hs => hi.step hf hs
  exact fun x hx => (hinv.freed x hx).2

/-- The steps of an Enter. -/
def enterRun (t : Thread 2 1) : List (Label 2 1) := [.enter t, .entry t, .entry t]

/-- Two threads are inside when worker 0 retires an object.  One pass goes by while
they are, the next one only after both have left.  Worker 1 is the collector. -/
def freshRun : List (Label 2 1) :=
  enterRun (.worker 0) ++ enterRun (.overlooker 0) ++ [.retire 0] ++
    List.replicate 12 .collector ++ [.leave (.worker 0), .leave (.overlooker 0)] ++
    List.replicate 10 .collector

theorem noReaderOfFreed_freshRun : ∃ s : State 2 1,
    Reaches (step 1) Fresh (init 2 1) s ∧ s.freed = [0] ∧ NoReaderOfFreed s := by
  have hrun : ∃ s, runChecked (step 1) Fresh (init 2 1) freshRun = some s ∧ s.freed = [0] :=
    ⟨_, rfl, rfl⟩
  obtain ⟨s, hs, hfreed⟩ := hrun
  have hreach := reaches_of_runChecked freshRun hs
  exact ⟨s, hreach, hfreed, noReaderOfFreed_of_fresh hreach⟩

/-- Worker 0 stays inside while the epoch is advanced; the overlooker enters in the
new epoch; then worker 0 retires an object, under the old one. -/
def staleRun : List (Label 2 1) :=
  enterRun (.worker 0) ++ List.replicate 11 .collector ++ enterRun (.overlooker 0) ++
    [.retire 0, .leave (.worker 0)] ++ List.replicate 9 .collector

/-- **Objects are destroyed under readers**: the very next pass takes the list. -/
theorem not_noReaderOfFreed :
    ¬ ∀ s : State 2 1, Reaches (step 1) Free (init 2 1) s → NoReaderOfFreed s := by
  intro h
  have hrun : ∃ s, run (step 1) (init 2 1) staleRun = some s ∧ 0 ∈ s.freed ∧
      s.guards 0 (.overlooker 0) = true :=
    ⟨_, rfl, by decide, by decide⟩
  obtain ⟨s, hs, hfreed, hguard⟩ := hrun
  have hno := h s (reaches_of_run staleRun hs) 0 hfreed (.overlooker 0)
  simp [hguard] at hno

end Ksi.Ebr

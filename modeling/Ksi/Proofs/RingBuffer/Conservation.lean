/-
Every task to at most one thread.

In a run that is `Careful` at every step no pointer is lost and none is returned twice:
the invariant holds throughout, and its segments `c lo` to `c hi` are the reachable
ones.

Not every run is careful.  Pop loads `tail_idx` and then, if it has seen more than one
item, stores `head_idx` without looking again; by then thieves may have taken all of
them, and the last is returned a second time.
-/
import Ksi.Proofs.RingBuffer.Thief
import Mathlib.Data.Fintype.Basic

namespace Ksi.RingBuffer

open Relation Runs

variable {V T : Type} [DecidableEq T] {junk : Nat → V} {s s' : State V T} {c : Nat → Nat}
  {lo hi : Nat}

/-! ### Runs -/

omit [DecidableEq T] in
theorem DequeInv.init : DequeInv (init junk T) (fun _ => 0) 0 0 := by
  refine ⟨?_, trivial, fun _ => trivial, ?_⟩
  · constructor <;> intros <;> simp_all [RingBuffer.init]
    exact ⟨by simp, by simp, by simp⟩
  · simp [RingBuffer.init, State.inHand, OwnerPc.inHand, held, Segment.items]

omit [DecidableEq T] in
/-- A call of Push or Pop. -/
theorem DequeInv.call (h : DequeInv s c lo hi) (ho : s.owner = .idle) {o : OwnerPc V}
    (hown : o.unlinked = false) (hok : OwnerOk c lo hi (s.seg (c hi)) o)
    (hhand : o.inHand (s.seg (c hi)) = []) : DequeInv { s with owner := o } c lo hi :=
  h.load (by rw [ho, hown]; rfl) hok (by rw [ho, hhand]; rfl)

/-- **Every careful step keeps the invariant.** -/
theorem DequeInv.step (h : DequeInv s c lo hi) {l : Label V T} (hcareful : Careful s l)
    (hstep : step junk s l = some s') : ∃ c' lo' hi', DequeInv s' c' lo' hi' := by
  unfold RingBuffer.step at hstep
  cases l with
  | push data =>
      dsimp only at hstep
      split at hstep
      · cases hstep
        exact ⟨c, lo, hi, h.call ‹_› rfl trivial rfl⟩
      · cases hstep
  | pop =>
      dsimp only at hstep
      split at hstep
      · cases hstep
        exact ⟨c, lo, hi, h.call ‹_› rfl trivial rfl⟩
      · cases hstep
  | owner =>
      obtain ⟨c', hi', h'⟩ := h.stepOwner hcareful hstep
      exact ⟨c', lo, hi', h'⟩
  | take w =>
      dsimp only at hstep
      split at hstep
      · cases hstep
        exact ⟨c, lo, hi, h.move trivial⟩
      · cases hstep
  | thief w =>
      obtain ⟨lo', h'⟩ := h.stepThief hcareful hstep
      exact ⟨c, lo', hi, h'⟩
  | spurious w =>
      dsimp only at hstep
      split at hstep
      · rename_i x t ret hpc
        cases hstep
        have hw := h.thief w
        rw [hpc] at hw
        obtain ⟨i, hi', rfl, -⟩ := hw
        exact ⟨c, lo, hi, h.move ⟨i, hi', rfl⟩⟩
      · cases hstep

/-! ### Reachability -/

omit [DecidableEq T] in
/-- From `rb->head` the segments up to `rb->tail` are reached by `prev`. -/
theorem Linked.reachable (h : Linked s c lo hi) {i : Nat} (hlo : lo ≤ i) (hi' : i ≤ hi) :
    s.Reachable (c i) := by
  refine .inl ⟨c hi, h.head, ?_⟩
  obtain ⟨d, rfl⟩ : ∃ d, hi = i + d := ⟨hi - i, by omega⟩
  have hback : ∀ k, k ≤ d →
      ReflTransGen (fun p q => (s.seg p).prev = some q) (c (i + k)) (c i) := by
    intro k
    induction k with
    | zero => exact fun _ => .refl
    | succ k ih =>
        intro hk
        exact .head (h.prev (i + k) (by omega) (by omega)) (ih (by omega))
  exact hback d (Nat.le_refl d)

omit [DecidableEq T] in
theorem DequeInv.account (h : DequeInv s c lo hi) : Conserved s := by
  refine ⟨(List.range' lo (hi + 1 - lo)).map c, ?_, ?_, ?_⟩
  · refine List.Nodup.map_on ?_ List.nodup_range'
    intro i hmem j hmem' heq
    rw [List.mem_range'_1] at hmem hmem'
    exact h.linked.inj i j (by omega) (by omega) heq
  · intro x hx
    obtain ⟨i, hmem, rfl⟩ := List.mem_map.mp hx
    rw [List.mem_range'_1] at hmem
    exact h.linked.reachable hmem.1 (by omega)
  · rw [h.conserved, held, List.map_map]
    rfl

/-- **Every pointer pushed is returned once or still there**, in a run whose steps are
all careful. -/
theorem conserved_of_careful (h : Reaches (step junk) Careful (init junk T) s) :
    Conserved s := by
  have hinv : ∃ c lo hi, DequeInv s c lo hi := by
    refine h.invariant (fun s => ∃ c lo hi, DequeInv s c lo hi) ⟨_, _, _, .init⟩ ?_
    rintro s l s' ⟨c, lo, hi, hinv⟩ hcareful hstep
    exact hinv.step hcareful hstep
  obtain ⟨c, lo, hi, hinv⟩ := hinv
  exact hinv.account

/-! ### A run that is careful and a run that is not -/

instance (x t : Nat) (pc : ThiefPc V) : Decidable (pc.takes x t) := by
  cases pc <;> unfold ThiefPc.takes <;> infer_instance

instance (x : Nat) (pc : ThiefPc V) : Decidable (pc.leaves x) := by
  cases pc <;> unfold ThiefPc.leaves <;> infer_instance

instance decidableSomeAnd {α : Type} (o : Option α) (p : α → Prop) [DecidablePred p] :
    Decidable (∃ a, o = some a ∧ p a) :=
  match o with
  | none => isFalse (by simp)
  | some a => decidable_of_iff (p a) (by simp)

instance [Fintype T] : DecidableRel (@Careful V T) := by
  intro s l
  unfold Careful
  split
  · split <;> infer_instance
  · split <;> infer_instance
  · infer_instance

/-- The steps of a Push into a segment with space. -/
def pushRun (data : Bool) : List (Label Bool (Fin 1)) := .push data :: List.replicate 4 .owner

/-- The steps of a Take that finds an item. -/
def takeRun : List (Label Bool (Fin 1)) := .take 0 :: List.replicate 5 (.thief 0)

/-- Two pushes, a Take and a Pop. -/
def carefulRun : List (Label Bool (Fin 1)) :=
  pushRun false ++ pushRun true ++ takeRun ++ .pop :: List.replicate 4 .owner

theorem conserved_carefulRun : ∃ s : State Bool (Fin 1),
    Reaches (step fun _ => false) Careful (init (fun _ => false) (Fin 1)) s ∧
      s.returned = [false, true] ∧ Conserved s := by
  have hrun : ∃ s, runChecked (step fun _ => false) Careful (init (fun _ => false) (Fin 1))
      carefulRun = some s ∧ s.returned = [false, true] :=
    ⟨_, rfl, rfl⟩
  obtain ⟨s, hs, hreturned⟩ := hrun
  have hreach := reaches_of_runChecked carefulRun hs
  exact ⟨s, hreach, hreturned, conserved_of_careful hreach⟩

/-- Pop sees two items and is about to take the second by storing `head_idx`; two Takes
empty the segment first. -/
def overtakenRun : List (Label Bool (Fin 1)) :=
  pushRun false ++ pushRun true ++ [.pop, .owner, .owner] ++ takeRun ++ takeRun ++
    [.owner, .owner]

omit [DecidableEq T] in
/-- What has been returned has been pushed before. -/
theorem Conserved.length_le (h : Conserved s) : s.returned.length ≤ s.pushed.length := by
  obtain ⟨segs, -, -, hsum⟩ := h
  have := congrArg Multiset.card hsum
  simp only [Multiset.card_add, Multiset.coe_card] at this
  omega

/-- **A pointer is returned twice**: three are returned where two have been pushed. -/
theorem not_conserved : ¬ ∀ s : State Bool (Fin 1),
    Reaches (step fun _ => false) Free (init (fun _ => false) (Fin 1)) s → Conserved s := by
  intro h
  have hrun : ∃ s, run (step fun _ => false) (init (fun _ => false) (Fin 1)) overtakenRun = some s ∧
      s.pushed = [false, true] ∧ s.returned = [false, true, true] :=
    ⟨_, rfl, rfl, by decide⟩
  obtain ⟨s, hs, hpushed, hreturned⟩ := hrun
  have hle := (h s (reaches_of_run overtakenRun hs)).length_le
  rw [hpushed, hreturned] at hle
  exact absurd hle (by decide)

end Ksi.RingBuffer

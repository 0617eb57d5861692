/-
What it means that the queue is reported empty.

`ksiLCRQDequeue` returns -1 when it has found that no ticket of its ring is ahead of its
own and then, after `fixState`, that no ring follows.  Between the two the queue may be
filled again.  But when the first was found, every item that had been accepted was
delivered, or in the hands of a dequeuer: there was nothing left to take.

The second load has to see a ring that has not been retired; retiring a ring makes it look
like the last one.
-/
import Ksi.Proofs.Lcrq.Fifo

namespace Ksi.Lcrq

open Relation Runs Threads

variable {V T : Type} {m : Memory V T} {size : Nat} {t w : T} {s s' : State V T} {e : Entry V}

/-- The ring and the ticket of a dequeuer that has found no ticket ahead of its own, and has
not looked for the next ring yet. -/
def DequeuePc.checked : DequeuePc V → Option (Nat × Nat)
  | .fixTail rq h | .fixHead rq h _ | .fixAgain rq h _ _ | .fixSwap rq h _ _
  | .loadNext rq h => some (rq, h)
  | .loadHead | .ticket _ | .loadIdx _ _ _ _ | .loadVal _ _ _ _ _ _ | .take _ _ _ _ _ _ _
  | .mark _ _ _ _ _ _ _ | .loadTail _ _ _ _ _ | .skip _ _ _ _ _ | .advance _ _ _ _ _
  | .close _ _ | .checkTail _ _ | .recheck _ _ _ | .move _ _ | .retire _ => none

def Pc.checked : Pc V → Option (Nat × Nat)
  | .dequeue pc => pc.checked
  | .idle | .enqueue _ => none

/-- The dequeuer is about to find no ticket ahead of its own. -/
structure Finds (s : State V T) (w : T) (rq h : Nat) : Prop where
  pc : s.thread w = .dequeue (.checkTail rq h)
  tail : (s.mem.ring rq).tail.idx ≤ h + 1

/-- When a dequeuer finds no ticket ahead of its own and its ring is the last one, there is
nothing left to take. -/
theorem inHand_of_finds (h : Tidy size s) {rq i : Nat} (hfinds : Finds s w rq i)
    (hlast : ∀ c, s.mem.Linked c → c ≤ rq) (he : e ∈ s.mem.accepted) :
    e ∈ s.mem.delivered ∨ InHand s e := by
  obtain ⟨hinv, ho⟩ := h.inv
  obtain ⟨hk, hp⟩ := h.knows w
  have hok := hk.ok
  rw [hfinds.pc] at hok hp
  by_cases hd : e ∈ s.mem.delivered
  · exact .inl hd
  · refine .inr ?_
    obtain ⟨hlinked, hissued⟩ := hinv.ledger.linked e he
    rcases Nat.lt_or_eq_of_le (hlast e.ring hlinked) with hlt | heq
    · exact inHand_of_passed h.holds ho he hd (Nat.lt_of_lt_of_le hlt (hp.here rq rfl))
    · refine inHand_of_stored h.holds (hinv.ledger.stored_of_accepted he hd) ?_
      -- the tickets given to enqueuers are up to the dequeuer's own
      have htail : (s.mem.ring rq).tail.idx ≤ i + 1 := hfinds.tail
      have hhead : i < (s.mem.ring rq).head := hok.2
      have hbound := hinv.ticketed.issued rq
      rw [heq] at hissued ⊢
      omega

variable [DecidableEq V] [DecidableEq T]

/-- A dequeuer that has found no ticket ahead has just found it, or had found it before. -/
theorem checked_of_step (m : Memory V T) {pc : DequeuePc V} {rq h : Nat}
    (hc : (stepDequeue size t m pc).2.checked = some (rq, h)) :
    (pc = .checkTail rq h ∧ (m.ring rq).tail.idx ≤ h + 1) ∨ pc.checked = some (rq, h) := by
  cases pc with
  | checkTail rq' h' =>
      simp only [stepDequeue] at hc
      split at hc
      · rename_i htail
        cases hc
        exact .inl ⟨rfl, htail⟩
      · cases hc
  | fixTail rq' h' => exact .inr hc
  | fixHead rq' h' tl => exact .inr hc
  | fixAgain rq' h' tl hd =>
      simp only [stepDequeue] at hc
      split at hc
      · split at hc
        · exact .inr hc
        · exact .inr hc
      · exact .inr hc
  | fixSwap rq' h' tl hd =>
      simp only [stepDequeue] at hc
      split at hc
      · exact .inr hc
      · exact .inr hc
  | loadVal rq' h' tt r i u =>
      simp only [stepDequeue, onEmpty] at hc
      repeat' split at hc
      all_goals cases hc
  | loadTail rq' h' r i u =>
      simp only [stepDequeue, onEmpty] at hc
      repeat' split at hc
      all_goals cases hc
  | _ =>
      simp only [stepDequeue] at hc
      repeat' split at hc
      all_goals cases hc

/-- An enqueuer has not looked. -/
theorem enqueue_checked (m : Memory V T) (pc : EnqueuePc V) :
    (stepEnqueue size t m pc).2.checked = none := by
  cases pc <;> simp only [stepEnqueue] <;> repeat' split
  all_goals rfl

/-- The same for any thread. -/
theorem checked_of_act {pc : Pc V} {a : Move V} {r : Memory V T × Pc V} {rq h : Nat}
    (hact : act size t m pc a = some r) (hc : r.2.checked = some (rq, h)) :
    (pc = .dequeue (.checkTail rq h) ∧ (m.ring rq).tail.idx ≤ h + 1) ∨
      pc.checked = some (rq, h) := by
  cases pc with
  | idle =>
      cases a with
      | enqueue v =>
          cases hact
          cases hc
      | dequeue k =>
          cases hact
          cases hc
      | next => cases hact
  | enqueue pc =>
      cases a with
      | next =>
          have hnone : r.2.checked = none := Option.some.inj hact ▸ enqueue_checked m pc
          rw [hnone] at hc
          cases hc
      | enqueue v => cases hact
      | dequeue k => cases hact
  | dequeue pc =>
      cases a with
      | next =>
          rw [← Option.some.inj hact] at hc
          exact (checked_of_step m hc).imp_left fun hh => ⟨congrArg Pc.dequeue hh.1, hh.2⟩
      | enqueue v => cases hact
      | dequeue k => cases hact

/-- Who has found no ticket ahead has found it in an earlier state of the run. -/
theorem found_of_checked (hr : CarefulRun size (ksiLCRQInit V T) s) {rq h : Nat}
    (hc : (s.thread w).checked = some (rq, h)) :
    ∃ s₁, CarefulRun size (ksiLCRQInit V T) s₁ ∧ CarefulRun size s₁ s ∧ Finds s₁ w rq h := by
  induction hr with
  | refl => cases hc
  | tail l hr hg hs ih =>
      rename_i s s'
      have extend : (s.thread w).checked = some (rq, h) →
          ∃ s₁, CarefulRun size (ksiLCRQInit V T) s₁ ∧ CarefulRun size s₁ s' ∧
            Finds s₁ w rq h := by
        intro hold
        obtain ⟨s₁, h₁, h₂, hfinds⟩ := ih hold
        exact ⟨s₁, h₁, .tail l h₂ hg hs, hfinds⟩
      cases l with
      | env c =>
          rw [(System.step_env hs).2] at hc
          exact extend hc
      | thread t a =>
          obtain ⟨l', hact, hthread⟩ := System.step_thread hs
          rw [hthread] at hc
          by_cases hwt : w = t
          · subst hwt
            rw [Function.update_self] at hc
            rcases checked_of_act hact hc with ⟨hpc, htail⟩ | hold
            · exact ⟨s, hr, .tail _ .refl hg hs, hpc, htail⟩
            · exact extend hold
          · rw [Function.update_of_ne hwt] at hc
            exact extend hc

/-- A linked ring stays linked. -/
theorem linked_of_careful (hsize : 0 < size) {s₁ : State V T} {c : Nat}
    (h₁ : CarefulRun size (ksiLCRQInit V T) s₁) (hr : CarefulRun size s₁ s)
    (hc : s₁.mem.Linked c) : s.mem.Linked c := by
  have h : Tidy size s ∧ s.mem.Linked c := by
    refine hr.invariant (fun s => Tidy size s ∧ s.mem.Linked c)
      ⟨tidy_of_careful hsize h₁, hc⟩ ?_
    intro s l s' ⟨htidy, hlinked⟩ hg hs
    refine ⟨htidy.step hsize hg hs, ?_⟩
    cases l with
    | env e =>
        obtain ⟨henv, -⟩ := System.step_env hs
        cases e with
        | collect u k =>
            rw [← Option.some.inj henv]
            exact hlinked
    | thread t a =>
        obtain ⟨l', hact, -⟩ := System.step_thread hs
        exact (act_kept hsize htidy.inv.1 (htidy.knows t).1 hact).forward.linked c hlinked
  exact h.2

/-- **The queue is reported empty only if it was.**  A dequeuer that is about to return -1,
and whose ring has not been retired, has seen a state in which every accepted item was
delivered, or in the hands of the dequeuer with its ticket. -/
theorem empty_of_careful (hsize : 0 < size) (hr : CarefulRun size (ksiLCRQInit V T) s)
    {rq h : Nat} (hpc : s.thread w = .dequeue (.loadNext rq h))
    (hnext : (s.mem.ring rq).next = none) (hret : rq ∉ s.mem.retired) :
    ∃ s₁, CarefulRun size (ksiLCRQInit V T) s₁ ∧ CarefulRun size s₁ s ∧ Finds s₁ w rq h ∧
      ∀ e ∈ s₁.mem.accepted, e ∈ s₁.mem.delivered ∨ InHand s₁ e := by
  have htidy := tidy_of_careful hsize hr
  have hok := (htidy.knows w).1.ok
  rw [hpc] at hok
  have hchecked : (s.thread w).checked = some (rq, h) := congrArg Pc.checked hpc
  obtain ⟨s₁, h₁, h₂, hfinds⟩ := found_of_checked hr hchecked
  refine ⟨s₁, h₁, h₂, hfinds, fun e he => ?_⟩
  refine inHand_of_finds (tidy_of_careful hsize h₁) hfinds (fun c hc => ?_) he
  exact htidy.inv.2.le_of_last hok.1 hret hnext (linked_of_careful hsize h₁ h₂ hc)

/-- An item is put in and taken out, and the next dequeuer gets to the end. -/
def emptyRun : List (Label Nat (Fin 2)) :=
  enqueueRun 0 7 6 ++ dequeueRun 1 5 ++ dequeueRun 1 11

theorem empty_emptyRun : ∃ s s₁ : State Nat (Fin 2), s.mem.delivered.map Entry.val = [7] ∧
    CarefulRun 1 s₁ s ∧ ∀ e ∈ s₁.mem.accepted, e ∈ s₁.mem.delivered ∨ InHand s₁ e := by
  have hrun : ∃ s, runChecked (system Nat (Fin 2) 1).step (Guarded Careful)
      (ksiLCRQInit Nat (Fin 2)) emptyRun = some s ∧ s.mem.delivered.map Entry.val = [7] ∧
      s.thread 1 = .dequeue (.loadNext 0 1) ∧ (s.mem.ring 0).next = none ∧ s.mem.retired = [] :=
    ⟨_, rfl, rfl, rfl, rfl, rfl⟩
  obtain ⟨s, hs, hdel, hpc, hnext, hret⟩ := hrun
  obtain ⟨s₁, -, h₁, -, hall⟩ := empty_of_careful Nat.one_pos (reaches_of_runChecked _ hs) hpc
    hnext (hret ▸ List.not_mem_nil)
  exact ⟨s, s₁, hdel, h₁, hall⟩

end Ksi.Lcrq

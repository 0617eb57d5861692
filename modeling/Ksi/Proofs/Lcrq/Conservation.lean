/-
No item is lost in a ring, and none is delivered twice.

Every item that an enqueuer has put into a ring of the queue is either in the cell of its
ticket or has been taken out, by the one dequeuer with that ticket.  An item is not
forgotten in its cell: once its ticket has been given to a dequeuer, that dequeuer is still
at work on it.  All this holds for any interleaving of any number of threads, also where
rings are retired too early.
-/
import Ksi.Proofs.Lcrq.Step

namespace Ksi.Lcrq

open Runs

variable {V T : Type} {m : Memory V T} {s : State V T} {size : Nat} {e : Entry V}

/-- The item is in the cell of its ticket, in a ring of the queue. -/
def Memory.Stored (m : Memory V T) (size : Nat) (e : Entry V) : Prop :=
  m.Linked e.ring ∧ (m.cellOf size e).idx = e.ticket ∧ (m.cellOf size e).val = some e.val

/-- A thread is at work in `ksiLCRQDequeue` on the ticket of the item. -/
def InHand (s : State V T) (e : Entry V) : Prop :=
  ∃ t, (s.thread t).working = some e.place

/-- What has become of the items. -/
structure Conserved (size : Nat) (s : State V T) : Prop where
  accepted : (s.mem.accepted.map Entry.place).Nodup
  delivered : (s.mem.delivered.map Entry.place).Nodup
  /-- nothing is delivered that was not put in -/
  given : ∀ e ∈ s.mem.delivered, e ∈ s.mem.accepted
  split : ∀ e, e ∈ s.mem.accepted ↔ Xor (e ∈ s.mem.delivered) (s.mem.Stored size e)
  inHand : ∀ e, s.mem.Stored size e → e.ticket < (s.mem.ring e.ring).head → InHand s e

/-- The entry of what a cell holds. -/
theorem Ledger.accepted_of_stored (h : Ledger size m) (hsize : 0 < size)
    (he : m.Stored size e) : e ∈ m.accepted := by
  obtain ⟨hl, hidx, hval⟩ := he
  have hmem := h.stored e.ring hl (e.ticket % size) (Nat.mod_lt _ hsize) e.val hval
  have hidx : ((m.ring e.ring).array (e.ticket % size)).idx = e.ticket := hidx
  rw [hidx] at hmem
  exact hmem

/-- What has been taken out is not there any more. -/
theorem Ledger.not_stored (h : Ledger size m) (he : e ∈ m.delivered) : ¬ m.Stored size e :=
  fun hs => Nat.ne_of_gt (h.taken e he).2 hs.2.1

/-- What has not been taken out is there. -/
theorem Ledger.stored_of_accepted (h : Ledger size m) (he : e ∈ m.accepted)
    (hd : e ∉ m.delivered) : m.Stored size e :=
  ⟨(h.linked e he).1, (h.placed e he).resolve_left hd⟩

/-- A cell with the item of ticket `t` is not shut for `t`. -/
theorem RingNode.not_shut {c : RingNode V} {t : Nat} (hidx : c.idx = t) (hval : c.val ≠ none) :
    ¬ c.Shut t := by
  rintro (hlt | ⟨-, hnone⟩)
  · exact Nat.lt_irrefl t (hidx ▸ hlt)
  · exact hval (hnone hidx)

/-- The dequeuer that has got the ticket of a stored item is at work on it. -/
theorem inHand_of_stored (h : Threads.Holds (Invariant size) (Knows size) s)
    (he : s.mem.Stored size e) (hlt : e.ticket < (s.mem.ring e.ring).head) : InHand s e := by
  obtain ⟨-, hidx, hval⟩ := he
  cases hholder : s.mem.holder e.ring e.ticket with
  | none =>
      have hshut := h.inv.ticketed.shut e.ring e.ticket hlt hholder
      exact absurd hshut (RingNode.not_shut hidx (hval ▸ Option.some_ne_none e.val))
  | some t => exact ⟨t, ((h.knows t).holder e.ring e.ticket).mp hholder⟩

variable [DecidableEq V] [DecidableEq T]

/-- The invariant in every reachable state. -/
theorem holds_of_free (hsize : 0 < size)
    (hr : Reaches (system V T size).step Free (ksiLCRQInit V T) s) :
    Threads.Holds (Invariant size) (Knows size) s := by
  have hguarded : Reaches (system V T size).step (Threads.Guarded fun _ _ _ _ => True)
      (ksiLCRQInit V T) s := hr.mono fun _ a _ => by cases a <;> trivial
  exact holds_of_reaches hsize hguarded

/-- **Items are conserved** under every interleaving. -/
theorem conserved_of_reaches (hsize : 0 < size)
    (hr : Reaches (system V T size).step Free (ksiLCRQInit V T) s) : Conserved size s := by
  have h := holds_of_free hsize hr
  have hl := h.inv.ledger
  refine ⟨hl.accepted, hl.delivered, fun e he => (hl.taken e he).1, fun e => ⟨fun he => ?_, ?_⟩,
    fun e => inHand_of_stored h⟩
  · by_cases hd : e ∈ s.mem.delivered
    · exact .inl ⟨hd, hl.not_stored hd⟩
    · exact .inr ⟨hl.stored_of_accepted he hd, hd⟩
  · rintro (⟨hd, -⟩ | ⟨hs, -⟩)
    · exact (hl.taken e hd).1
    · exact hl.accepted_of_stored hsize hs

/-- A call of `ksiLCRQEnqueue` that takes the given number of steps. -/
def enqueueRun {T : Type} (t : T) (v steps : Nat) : List (Label Nat T) :=
  .thread t (.enqueue v) :: List.replicate steps (.thread t .next)

/-- A call of `ksiLCRQDequeue` that takes the given number of steps. -/
def dequeueRun {T : Type} (t : T) (steps : Nat) : List (Label Nat T) :=
  .thread t (.dequeue 0) :: List.replicate steps (.thread t .next)

/-- With rings of one cell: the second item gets a ring of its own, and the second dequeue
retires the first ring on its way. -/
def ringRun : List (Label Nat (Fin 2)) :=
  enqueueRun 0 7 6 ++ enqueueRun 0 8 10 ++ dequeueRun 1 5 ++ dequeueRun 1 19

theorem conserved_ringRun : ∃ s : State Nat (Fin 2),
    s.mem.delivered.map Entry.val = [8, 7] ∧ s.mem.retired = [0] ∧ Conserved 1 s := by
  have hrun : ∃ s, run (system Nat (Fin 2) 1).step (ksiLCRQInit Nat (Fin 2)) ringRun = some s ∧
      s.mem.delivered.map Entry.val = [8, 7] ∧ s.mem.retired = [0] :=
    ⟨_, rfl, rfl, rfl⟩
  obtain ⟨s, hs, hdelivered, hretired⟩ := hrun
  exact ⟨s, hdelivered, hretired, conserved_of_reaches Nat.one_pos (reaches_of_run ringRun hs)⟩

end Ksi.Lcrq

/-
What the threads at a queue rely on.

A cell only moves forward: its index grows, and at one index it goes from empty to full.
`Past c i` says that the cell is no longer empty at index `i`, and this is never undone.
That is why a compare-and-swap of a cell can succeed only if nothing has happened to the
cell since its index was loaded.

The heart of the matter is `Shut`.  A dequeuer that gives up its ticket leaves the cell in
a state where no enqueuer can put an item for that ticket, or for an earlier one: the
index is past the ticket, or the cell is unsafe.  An enqueuer may still fill an unsafe
cell, but only if it has seen that no dequeuer had its ticket yet, and then whoever gets
that ticket, or a later one of the same cell, moves the cell past the index the enqueuer
is waiting for.  This is `Claimed`.

Rings that are linked are shared; a new ring belongs to the thread that is about to append
it, and nobody else touches it.
-/
import Ksi.Lcrq.Machine

namespace Ksi.Lcrq

variable {V T : Type}

/-! ### Cells and rings -/

/-- The cell is no longer empty at index `i`. -/
def RingNode.Past (c : RingNode V) (i : Nat) : Prop := i < c.idx ∨ (c.idx = i ∧ c.val ≠ none)

/-- No item can be put into the cell for ticket `t` any more. -/
def RingNode.Shut (c : RingNode V) (t : Nat) : Prop :=
  t < c.idx ∨ (c.isUnsafe ∧ (c.idx = t → c.val = none))

/-- A cell moves forward. -/
structure RingNode.Grows (c c' : RingNode V) : Prop where
  idx : c.idx ≤ c'.idx
  past : ∀ i, c.Past i → c'.Past i

/-- A ring moves forward. -/
structure RingQueue.Grows (g g' : RingQueue V) : Prop where
  head : g.head ≤ g'.head
  tail : g.tail.idx ≤ g'.tail.idx
  closed : g.tail.closed → g'.tail.closed
  array : ∀ j, (g.array j).Grows (g'.array j)

/-- A ring of the queue, or one that was. -/
def Memory.Linked (m : Memory V T) (r : Nat) : Prop := r < m.allocated ∧ m.owner r = none

/-- A closed ring all of whose enqueue tickets have been given to dequeuers. -/
def Memory.Drained (m : Memory V T) (r : Nat) : Prop :=
  (m.ring r).tail.closed ∧ m.issued r ≤ (m.ring r).head

/-- A dequeuer with ticket `t` of the ring, or with a later one of the same cell, is still
at work, or it has moved the cell past index `i`. -/
def Memory.Claimed (m : Memory V T) (size rq t i : Nat) : Prop :=
  ∀ h, t ≤ h → h % size = t % size → h < (m.ring rq).head →
    m.holder rq h ≠ none ∨ ((m.ring rq).cell size t).Past i

/-- Where an item is in the queue. -/
def Entry.place (e : Entry V) : Nat × Nat := (e.ring, e.ticket)

/-- The cell of an entry. -/
def Memory.cellOf (m : Memory V T) (size : Nat) (e : Entry V) : RingNode V :=
  (m.ring e.ring).cell size e.ticket

/-! ### The invariant of the memory -/

/-- The pointers lead to rings of the queue. -/
structure Wired (m : Memory V T) : Prop where
  head : m.Linked m.head
  tail : m.Linked m.tail
  next : ∀ r b, (m.ring r).next = some b → m.Linked b
  free : ∀ t k b, m.freelist t k = some b → m.Linked b
  closed : ∀ r b, (m.ring r).next = some b → (m.ring r).tail.closed
  raw : ∀ r, m.allocated ≤ r → m.ring r = init_ring V ∧ m.owner r = none ∧ m.issued r = 0

/-- The tickets and the cells. -/
structure Ticketed (size : Nat) (m : Memory V T) : Prop where
  cells : ∀ r j, j < size → ((m.ring r).array j).idx % size = j
  issued : ∀ r, m.issued r ≤ (m.ring r).tail.idx
  given : ∀ r h, m.holder r h ≠ none → h < (m.ring r).head
  shut : ∀ r h, h < (m.ring r).head → m.holder r h = none → ((m.ring r).cell size h).Shut h

/-- Every item is where its ticket says, or has been taken out. -/
structure Ledger (size : Nat) (m : Memory V T) : Prop where
  linked : ∀ e ∈ m.accepted, m.Linked e.ring ∧ e.ticket < m.issued e.ring
  placed : ∀ e ∈ m.accepted, e ∈ m.delivered ∨
    ((m.cellOf size e).idx = e.ticket ∧ (m.cellOf size e).val = some e.val)
  stored : ∀ r, m.Linked r → ∀ j, j < size → ∀ v, ((m.ring r).array j).val = some v →
    { ring := r, ticket := ((m.ring r).array j).idx, val := v } ∈ m.accepted
  taken : ∀ e ∈ m.delivered, e ∈ m.accepted ∧ e.ticket < (m.cellOf size e).idx
  given : ∀ e ∈ m.delivered, e.ticket < (m.ring e.ring).head
  accepted : (m.accepted.map Entry.place).Nodup
  delivered : (m.delivered.map Entry.place).Nodup

structure Invariant (size : Nat) (m : Memory V T) : Prop where
  wired : Wired m
  ticketed : Ticketed size m
  ledger : Ledger size m

/-! ### What the threads know -/

/-- The ticket a dequeuer is at work on. -/
def DequeuePc.working : DequeuePc V → Option (Nat × Nat)
  | .loadIdx rq h _ _ | .loadVal rq h _ _ _ _ | .take rq h _ _ _ _ _ | .mark rq h _ _ _ _ _
  | .loadTail rq h _ _ _ | .skip rq h _ _ _ | .advance rq h _ _ _ => some (rq, h)
  | .loadHead | .ticket _ | .close _ _ | .checkTail _ _ | .fixTail _ _ | .fixHead _ _ _
  | .fixAgain _ _ _ _ | .fixSwap _ _ _ _ | .loadNext _ _ | .recheck _ _ _ | .move _ _
  | .retire _ => none

/-- The ticket a thread is at work on in `ksiLCRQDequeue`. -/
def Pc.working : Pc V → Option (Nat × Nat)
  | .dequeue pc => pc.working
  | .idle | .enqueue _ => none

/-- What a thread knows in `ksiLCRQEnqueue`. -/
def EnqueuePc.Ok (size : Nat) (me : T) (m : Memory V T) : EnqueuePc V → Prop
  | .loadTail _ _ => True
  | .loadNext _ _ rq | .ticket _ _ rq | .full _ _ rq _ | .close _ _ rq _ => m.Linked rq
  | .help _ _ rq next => m.Linked rq ∧ m.Linked next
  | .alloc _ _ rq => m.Linked rq ∧ (m.ring rq).tail.closed
  | .append v _ rq nrq => m.Linked rq ∧ (m.ring rq).tail.closed ∧ rq < nrq ∧
      m.owner nrq = some me ∧ m.ring nrq = (init_ring V).solo v ∧ m.issued nrq = 1
  | .publish rq nrq => m.Linked rq ∧ m.Linked nrq ∧ rq < nrq
  | .loadIdx _ _ rq t => m.Linked rq ∧ t < m.issued rq
  | .loadVal _ _ rq t i _ => m.Linked rq ∧ t < m.issued rq ∧ i ≤ ((m.ring rq).cell size t).idx
  | .loadHead _ _ rq t i _ => m.Linked rq ∧ t < m.issued rq ∧
      i ≤ ((m.ring rq).cell size t).idx ∧ i ≤ t
  | .store _ _ rq t i u => m.Linked rq ∧ t < m.issued rq ∧
      i ≤ ((m.ring rq).cell size t).idx ∧ i ≤ t ∧ (u → m.Claimed size rq t i)

/-- What a thread knows in `ksiLCRQDequeue`. -/
def DequeuePc.Ok (size : Nat) (m : Memory V T) : DequeuePc V → Prop
  | .loadHead => True
  | .ticket rq | .loadIdx rq _ _ _ => m.Linked rq
  | .loadVal rq h _ _ i _ => m.Linked rq ∧ i ≤ ((m.ring rq).cell size h).idx
  | .take rq h _ _ _ i _ => m.Linked rq ∧ i = h
  | .mark rq h _ _ _ i _ => m.Linked rq ∧ i < h
  | .loadTail rq h _ i _ | .skip rq h _ _ i | .advance rq h _ _ i => m.Linked rq ∧ i ≤ h
  | .close rq h | .checkTail rq h | .fixTail rq h | .fixHead rq h _ | .fixAgain rq h _ _
  | .loadNext rq h => m.Linked rq ∧ h < (m.ring rq).head
  | .fixSwap rq h t hd => m.Linked rq ∧ h < (m.ring rq).head ∧ t.idx < hd ∧ ¬ t.closed
  | .recheck rq h next => m.Linked rq ∧ h < (m.ring rq).head ∧ m.Linked next ∧
      (m.ring rq).tail.closed
  | .move rq next => m.Linked rq ∧ m.Linked next ∧ m.Drained rq
  | .retire rq => m.Linked rq ∧ m.Drained rq

def Pc.Ok (size : Nat) (me : T) (m : Memory V T) : Pc V → Prop
  | .idle => True
  | .enqueue pc => pc.Ok size me m
  | .dequeue pc => pc.Ok size m

/-- What a thread knows. -/
structure Knows (size : Nat) (me : T) (m : Memory V T) (pc : Pc V) : Prop where
  handle : m.handle me = none
  holder : ∀ r h, m.holder r h = some me ↔ pc.working = some (r, h)
  ok : pc.Ok size me m

/-- What every step does to the rings of the queue. -/
structure Forward (size : Nat) (m m' : Memory V T) : Prop where
  linked : ∀ r, m.Linked r → m'.Linked r
  grows : ∀ r, m.Linked r → (m.ring r).Grows (m'.ring r)
  issued : ∀ r, m.Linked r → m.issued r ≤ m'.issued r
  sealed : ∀ r, m.Linked r → (m.ring r).tail.closed → m'.issued r = m.issued r
  /-- a ticket that is given has a holder -/
  given : ∀ r h, m.Linked r → (m.ring r).head ≤ h → h < (m'.ring r).head → m'.holder r h ≠ none
  /-- who is done with a ticket leaves the cell past what any enqueuer waits for -/
  done : ∀ r h, m.Linked r → m.holder r h ≠ none → m'.holder r h ≠ none ∨
    ∀ i, i ≤ h → i ≤ ((m.ring r).cell size h).idx → ((m'.ring r).cell size h).Past i

/-- What thread `me` relies on from the steps of the others. -/
structure Rely (size : Nat) (me : T) (m m' : Memory V T) : Prop extends Forward size m m' where
  handle : m'.handle me = m.handle me
  holder : ∀ r h, m'.holder r h = some me ↔ m.holder r h = some me
  owner : ∀ n, m.owner n = some me →
    m'.owner n = some me ∧ m'.ring n = m.ring n ∧ m'.issued n = m.issued n

/-! ### Moving forward -/

theorem RingNode.Grows.refl (c : RingNode V) : c.Grows c := ⟨Nat.le_refl _, fun _ h => h⟩

/-- A cell whose index grows. -/
theorem RingNode.Grows.of_lt {c c' : RingNode V} (h : c.idx < c'.idx) : c.Grows c' where
  idx := Nat.le_of_lt h
  past := by
    rintro i (hlt | ⟨heq, -⟩)
    · exact .inl (Nat.lt_trans hlt h)
    · exact .inl (heq ▸ h)

/-- A cell that is filled or that keeps its item. -/
theorem RingNode.Grows.of_val {c c' : RingNode V} (h : c.idx ≤ c'.idx)
    (hval : c.idx = c'.idx → c.val ≠ none → c'.val ≠ none) : c.Grows c' where
  idx := h
  past := by
    rintro i (hlt | ⟨heq, hne⟩)
    · exact .inl (Nat.lt_of_lt_of_le hlt h)
    · rcases Nat.lt_or_eq_of_le h with hlt | hidx
      · exact .inl (heq ▸ hlt)
      · exact .inr ⟨hidx.symm.trans heq, hval hidx hne⟩

theorem RingQueue.Grows.refl (g : RingQueue V) : g.Grows g :=
  ⟨Nat.le_refl _, Nat.le_refl _, fun h => h, fun _ => .refl _⟩

/-- A ring that differs in one cell. -/
theorem RingQueue.Grows.of_cell (g : RingQueue V) {j : Nat} {c : RingNode V}
    (h : (g.array j).Grows c) : g.Grows { g with array := Function.update g.array j c } where
  head := Nat.le_refl _
  tail := Nat.le_refl _
  closed := fun hc => hc
  array := by
    intro k
    show (g.array k).Grows (Function.update g.array j c k)
    by_cases hk : k = j
    · subst hk
      rw [Function.update_self]
      exact h
    · rw [Function.update_of_ne hk]
      exact .refl _

theorem Memory.Claimed.mono {m m' : Memory V T} {size rq t i} (h : m.Claimed size rq t i)
    (hr : Forward size m m') (hrq : m.Linked rq) (hit : i ≤ t)
    (hi : i ≤ ((m.ring rq).cell size t).idx) : m'.Claimed size rq t i := by
  intro h' hle hmod hlt
  have hcell : (m'.ring rq).cell size h' = (m'.ring rq).cell size t := by
    unfold RingQueue.cell
    rw [hmod]
  have hcell₀ : (m.ring rq).cell size h' = (m.ring rq).cell size t := by
    unfold RingQueue.cell
    rw [hmod]
  rcases Nat.lt_or_ge h' (m.ring rq).head with hold | hnew
  · rcases h h' hle hmod hold with hhold | hpast
    · rcases hr.done rq h' hrq hhold with hstill | hdone
      · exact .inl hstill
      · rw [hcell, hcell₀] at hdone
        exact .inr (hdone i (Nat.le_trans hit hle) hi)
    · exact .inr (((hr.grows rq hrq).array _).past i hpast)
  · exact .inl (hr.given rq h' hrq hnew hlt)

theorem Memory.Drained.mono {m m' : Memory V T} {size rq} (h : m.Drained rq)
    (hr : Forward size m m') (hrq : m.Linked rq) : m'.Drained rq := by
  refine ⟨(hr.grows rq hrq).closed h.1, ?_⟩
  rw [hr.sealed rq hrq h.1]
  exact Nat.le_trans h.2 (hr.grows rq hrq).head

/-- What a thread knows is stable under the steps of the others. -/
theorem Knows.stable {m m' : Memory V T} {size me pc} (h : Knows size me m pc)
    (hr : Rely size me m m') : Knows size me m' pc where
  handle := hr.handle.trans h.handle
  holder r t := (hr.holder r t).trans (h.holder r t)
  ok := by
    have hidx : ∀ rq t, m.Linked rq →
        ((m.ring rq).cell size t).idx ≤ ((m'.ring rq).cell size t).idx :=
      fun rq t hrq => ((hr.grows rq hrq).array _).idx
    have hok := h.ok
    have hl := hr.linked
    have hg := hr.grows
    have hi := hr.issued
    cases pc with
    | idle => trivial
    | enqueue pc =>
        cases pc with
        | loadTail v n => trivial
        | append v n rq nrq =>
            obtain ⟨hrq, hclosed, hlt, howner, hring, hissued⟩ := hok
            obtain ⟨howner', hring', hissued'⟩ := hr.owner nrq howner
            exact ⟨hl rq hrq, (hg rq hrq).closed hclosed, hlt, howner', hring'.trans hring,
              hissued'.trans hissued⟩
        | store v n rq t i u =>
            obtain ⟨hrq, hlt, hle, hit, hclaim⟩ := hok
            exact ⟨hl rq hrq, Nat.lt_of_lt_of_le hlt (hi rq hrq), Nat.le_trans hle (hidx rq t hrq),
              hit, fun hu => (hclaim hu).mono hr.toForward hrq hit hle⟩
        | _ => simp only [Pc.Ok, EnqueuePc.Ok] at hok ⊢; grind [RingQueue.Grows]
    | dequeue pc =>
        cases pc with
        | loadHead => trivial
        | move rq next => exact ⟨hl rq hok.1, hl next hok.2.1, hok.2.2.mono hr.toForward hok.1⟩
        | retire rq => exact ⟨hl rq hok.1, hok.2.mono hr.toForward hok.1⟩
        | _ => simp only [Pc.Ok, DequeuePc.Ok] at hok ⊢; grind [RingQueue.Grows]

end Ksi.Lcrq

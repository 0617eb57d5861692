/-
First in, first out.

In careful runs every item that has been accepted and not been delivered is in the hands of
the dequeuer with its ticket, or waits in a ring that is reached from `q->head`.  The place
of an item, its ring and then its ticket, is its place in the queue: the items before one
that has been delivered have been delivered, or are in the hands of a dequeuer.  And the
places follow the order of the calls: an enqueue that is called after another has returned
puts its item behind.
-/
import Ksi.Proofs.Lcrq.Order

namespace Ksi.Lcrq

open Relation Runs Threads

variable {V T : Type} {m m' : Memory V T} {size : Nat} {t p : T}
  {pc pc' : Pc V} {a : Move V} {s s' : State V T} {e f : Entry V}

/-! ### What holds in careful runs -/

/-- The invariant of careful runs. -/
def Sorted (size : Nat) (m : Memory V T) : Prop := Invariant size m ∧ Ordered m

/-- What a thread knows in careful runs. -/
def KnowsPlace (size : Nat) (t : T) (m : Memory V T) (pc : Pc V) : Prop :=
  Knows size t m pc ∧ pc.Placed m

/-- What is relied on in careful runs. -/
def RelyOnward (size : Nat) (t : T) (m m' : Memory V T) : Prop :=
  Rely size t m m' ∧ Onward m m'

/-- What holds in every state of a careful run. -/
abbrev Tidy (size : Nat) (s : State V T) : Prop := Holds (Sorted size) (KnowsPlace size) s

theorem tidy_init : Tidy size (ksiLCRQInit V T) where
  inv := by
    refine ⟨holds_init.inv, fun r b _ hb => absurd hb.symm (Option.some_ne_none b),
      fun r c hr _ hc hlt => ?_, fun r hr => absurd hr List.not_mem_nil,
      fun r _ hlt => absurd hlt (Nat.not_lt_zero r), fun r hr => absurd hr (Nat.lt_irrefl 0),
      fun r hr => absurd hr (Nat.not_lt_zero 1)⟩
    have hr₀ : c < 1 := hc.1
    omega
  knows t := ⟨holds_init.knows t, trivial⟩

theorem Tidy.holds (h : Tidy size s) : Holds (Invariant size) (Knows size) s :=
  ⟨h.inv.1, fun t => (h.knows t).1⟩

/-! ### Rings -/

/-- The ring is reached from `q->head`. -/
def Memory.Reachable (m : Memory V T) (r : Nat) : Prop :=
  ReflTransGen (fun a b => (m.ring a).next = some b) m.head r

/-- The item is in a ring that is reached from `q->head`, and no dequeuer has got its ticket
yet. -/
def Memory.Waiting (m : Memory V T) (size : Nat) (e : Entry V) : Prop :=
  m.Reachable e.ring ∧ m.Stored size e ∧ (m.ring e.ring).head ≤ e.ticket

/-- The links lead to every ring that `q->head` has not passed. -/
theorem Ordered.reachable (ho : Ordered m) (hw : Wired m) {r : Nat} (hr : m.Linked r)
    (hle : m.head ≤ r) : m.Reachable r := by
  suffices ∀ n b, r - b = n → m.Linked b → m.head ≤ b → b ≤ r →
      ReflTransGen (fun a b => (m.ring a).next = some b) b r from
    this _ m.head rfl hw.head (Nat.le_refl _) hle
  intro n
  induction n using Nat.strongRecOn with
  | ind n ih =>
      intro b hn hb hhead hbr
      rcases Nat.lt_or_eq_of_le hbr with hlt | rfl
      · have hret : b ∉ m.retired := fun hmem =>
          absurd (ho.retired b hmem) (Nat.not_lt.mpr hhead)
        obtain ⟨c, hc, hcr⟩ := ho.after b r hb hret hr hlt
        have hbc := ho.next b c hret hc
        exact .head hc (ih (r - c) (by omega) c rfl (hw.next b c hc)
          (Nat.le_trans hhead (Nat.le_of_lt hbc)) hcr)
      · exact .refl

/-- A ring behind `q->head` keeps no item but those that are in hand. -/
theorem inHand_of_passed (h : Holds (Invariant size) (Knows size) s) (ho : Ordered s.mem)
    (he : e ∈ s.mem.accepted) (hd : e ∉ s.mem.delivered) (hlt : e.ring < s.mem.head) :
    InHand s e := by
  obtain ⟨hlinked, hissued⟩ := h.inv.ledger.linked e he
  refine inHand_of_stored h (h.inv.ledger.stored_of_accepted he hd) ?_
  exact Nat.lt_of_lt_of_le hissued (ho.passed e.ring hlinked hlt).2

/-! ### Careful runs -/

variable [DecidableEq V] [DecidableEq T]

/-- The step of a thread, if it is careful. -/
theorem act_inOrder (hsize : 0 < size) (hinv : Invariant size m) (ho : Ordered m)
    (hk : Knows size t m pc) (hp : pc.Placed m) (hc : Careful t m pc a)
    {r : Memory V T × Pc V} (hact : act size t m pc a = some r) : InOrder m r := by
  cases pc with
  | idle =>
      cases a with
      | enqueue v =>
          cases hact
          exact .load ho trivial
      | dequeue k =>
          cases hact
          have hq : Quiet m { m with epoch := Function.update m.epoch t k } :=
            ⟨fun _ => rfl, fun _ => Iff.rfl, rfl, rfl, rfl⟩
          have hf : Forward size m { m with epoch := Function.update m.epoch t k } :=
            .of_eq rfl rfl rfl rfl rfl
          exact .quiet hq ho hf (fun _ => rfl) ho.served
            ⟨fun rq hrq => absurd hrq (Option.not_mem_none rq), trivial⟩
      | next => cases hact
  | enqueue pc =>
      cases a with
      | next => exact Option.some.inj hact ▸ enqueue_inOrder hinv ho hk hp hc
      | enqueue v => cases hact
      | dequeue k => cases hact
  | dequeue pc =>
      cases a with
      | next => exact Option.some.inj hact ▸ dequeue_inOrder hsize hinv ho hk hp
      | enqueue v => cases hact
      | dequeue k => cases hact

theorem relies_careful (hsize : 0 < size) :
    Relies (system V T size) Careful (Sorted size) (KnowsPlace size) (RelyOnward size) where
  act := by
    intro t m pc a m' pc' hc ⟨hinv, ho⟩ ⟨hk, hp⟩ hact
    have hkept := act_kept hsize hinv hk hact
    have horder := act_inOrder hsize hinv ho hk hp hc hact
    exact ⟨⟨hkept.inv, horder.ordered⟩, ⟨hkept.knows, horder.placed⟩,
      fun u hu => ⟨hkept.rely u hu, horder.onward⟩⟩
  env := by
    intro m e m' ⟨hinv, ho⟩ henv
    obtain ⟨hinv', hrely⟩ := (relies hsize Careful).env hinv henv
    cases e with
    | collect t k =>
        cases henv
        exact ⟨⟨hinv', ho.next, ho.after, ho.retired, ho.passed, ho.reached, ho.served⟩, fun u =>
          ⟨hrely u, Nat.le_refl _, Nat.le_refl _, fun _ hr => hr, fun _ _ _ hb => hb,
            fun _ hc => .inl hc⟩⟩
  stable _ hr hk := ⟨hk.1.stable hr.1, hk.2.stable hk.1 hr.2⟩

/-- The careful runs. -/
abbrev CarefulRun (size : Nat) : State V T → State V T → Prop :=
  Reaches (system V T size).step (Guarded Careful)

theorem tidy_of_careful (hsize : 0 < size) (hr : CarefulRun size (ksiLCRQInit V T) s) :
    Tidy size s :=
  (relies_careful hsize).holds tidy_init hr

/-- A careful step keeps what holds. -/
theorem Tidy.step (hsize : 0 < size) (h : Tidy size s) {l : Label V T}
    (hc : Guarded Careful s l) (hs : (system V T size).step s l = some s') : Tidy size s' :=
  (relies_careful hsize).step h hc hs

/-- **No item is out of reach.**  In a careful run an item that has been accepted has been
delivered, or is in the hands of the dequeuer with its ticket, or waits in a ring that is
reached from `q->head`. -/
theorem waiting_of_careful (hsize : 0 < size) (hr : CarefulRun size (ksiLCRQInit V T) s) :
    ∀ e ∈ s.mem.accepted, e ∈ s.mem.delivered ∨ InHand s e ∨ s.mem.Waiting size e := by
  intro e he
  have h := tidy_of_careful hsize hr
  obtain ⟨hinv, ho⟩ := h.inv
  by_cases hd : e ∈ s.mem.delivered
  · exact .inl hd
  · refine .inr ?_
    have hstored := hinv.ledger.stored_of_accepted he hd
    rcases Nat.lt_or_ge e.ring s.mem.head with hlt | hge
    · exact .inl (inHand_of_passed h.holds ho he hd hlt)
    · rcases Nat.lt_or_ge e.ticket (s.mem.ring e.ring).head with hgiven | hwait
      · exact .inl (inHand_of_stored h.holds hstored hgiven)
      · exact .inr ⟨ho.reachable hinv.wired (hinv.ledger.linked e he).1 hge, hstored, hwait⟩

/-- Two items, the second in a ring of its own. -/
def waitingRun : List (Label Nat (Fin 2)) := enqueueRun 0 7 6 ++ enqueueRun 0 8 10

theorem waiting_waitingRun : ∃ s : State Nat (Fin 2),
    s.mem.accepted = [⟨1, 0, 8⟩, ⟨0, 0, 7⟩] ∧
      ∀ e ∈ s.mem.accepted, e ∈ s.mem.delivered ∨ InHand s e ∨ s.mem.Waiting 1 e := by
  have hrun : ∃ s, runChecked (system Nat (Fin 2) 1).step (Guarded Careful)
      (ksiLCRQInit Nat (Fin 2)) waitingRun = some s ∧
      s.mem.accepted = [⟨1, 0, 8⟩, ⟨0, 0, 7⟩] :=
    ⟨_, rfl, rfl⟩
  obtain ⟨s, hs, hacc⟩ := hrun
  exact ⟨s, hacc, waiting_of_careful Nat.one_pos (reaches_of_runChecked _ hs)⟩

/-- An enqueuer has appended a ring, and not moved `q->tail` yet.  A dequeuer passes the old
ring and retires it; the next enqueuer finds it without a successor. -/
def carelessRun : List (Label Nat (Fin 3)) :=
  enqueueRun 0 7 6 ++ enqueueRun 0 8 9 ++ dequeueRun 2 5 ++ dequeueRun 2 14 ++ enqueueRun 1 9 6

/-- **An item is lost** where the link of a retired ring is used. -/
theorem not_waiting : ¬ ∀ s : State Nat (Fin 3),
    Reaches (system Nat (Fin 3) 1).step Free (ksiLCRQInit Nat (Fin 3)) s →
      ∀ e ∈ s.mem.accepted, e ∈ s.mem.delivered ∨ InHand s e ∨ s.mem.Waiting 1 e := by
  intro h
  have hrun : ∃ s, run (system Nat (Fin 3) 1).step (ksiLCRQInit Nat (Fin 3)) carelessRun = some s ∧
      s.mem.accepted = [⟨2, 0, 9⟩, ⟨1, 0, 8⟩, ⟨0, 0, 7⟩] ∧ s.mem.delivered = [⟨0, 0, 7⟩] ∧
      s.mem.head = 1 ∧ (s.mem.ring 1).next = none ∧ s.mem.holder 2 0 = none :=
    ⟨_, rfl, rfl, rfl, rfl, rfl, rfl⟩
  obtain ⟨s, hs, hacc, hdel, hhead, hnext, hholder⟩ := hrun
  have hreach := reaches_of_run carelessRun hs
  rcases h s hreach ⟨2, 0, 9⟩ (hacc ▸ List.mem_cons_self) with hd | ⟨t, ht⟩ | ⟨hpath, -⟩
  · rw [hdel] at hd
    exact absurd hd (by decide)
  · have hheld := ((holds_of_free Nat.one_pos hreach).knows t).holder 2 0
    rw [hholder] at hheld
    exact absurd (hheld.mpr ht).symm (Option.some_ne_none t)
  · unfold Memory.Reachable at hpath
    rw [hhead] at hpath
    rcases hpath.cases_head with heq | ⟨b, hb, -⟩
    · cases heq
    · rw [hnext] at hb
      cases hb

/-! ### The order of the items -/

/-- The place of an item in the queue: by its ring, and there by its ticket. -/
def Entry.Before (e f : Entry V) : Prop :=
  e.ring < f.ring ∨ (e.ring = f.ring ∧ e.ticket < f.ticket)

/-- The call that has put the item in has returned. -/
def Returned (s : State V T) (e : Entry V) : Prop :=
  e ∈ s.mem.accepted ∧ (e.ticket = 0 → ∀ t rq, s.thread t ≠ .enqueue (.publish rq e.ring))

omit [DecidableEq V] [DecidableEq T] in
/-- What is before a delivered item has been delivered, or is in the hands of a dequeuer. -/
theorem delivered_of_before (h : Tidy size s) (he : e ∈ s.mem.accepted)
    (hf : f ∈ s.mem.delivered) (hb : e.Before f) : e ∈ s.mem.delivered ∨ InHand s e := by
  obtain ⟨hinv, ho⟩ := h.inv
  by_cases hd : e ∈ s.mem.delivered
  · exact .inl hd
  · refine .inr ?_
    have hgiven := hinv.ledger.given f hf
    rcases hb with hring | ⟨hring, hticket⟩
    · -- a dequeuer has got as far as the ring of `f`
      have hreached := ho.reached f.ring (Nat.zero_lt_of_lt hgiven)
      exact inHand_of_passed h.holds ho he hd (Nat.lt_of_lt_of_le hring hreached)
    · refine inHand_of_stored h.holds (hinv.ledger.stored_of_accepted he hd) ?_
      rw [hring]
      exact Nat.lt_trans hticket hgiven

/-! ### Where an enqueue puts its item -/

/-- The thread is in an enqueue that can only put its item behind `e`. -/
def EnqueuePc.Ahead (e : Entry V) : EnqueuePc V → Prop
  | .loadTail _ _ | .help _ _ _ _ | .publish _ _ => True
  | .loadNext _ _ rq | .ticket _ _ rq | .alloc _ _ rq | .append _ _ rq _ | .full _ _ rq _
  | .close _ _ rq _ => e.ring ≤ rq
  | .loadIdx _ _ rq t | .loadVal _ _ rq t _ _ | .loadHead _ _ rq t _ _ | .store _ _ rq t _ _ =>
      e.ring < rq ∨ (e.ring = rq ∧ e.ticket < t)

def Pc.Ahead (e : Entry V) : Pc V → Prop
  | .enqueue pc => pc.Ahead e
  | .idle | .dequeue _ => True

/-- What a step of the thread puts into the queue is behind `e`. -/
structure Behind (e : Entry V) (m : Memory V T) (r : Memory V T × Pc V) : Prop where
  ahead : r.2.Ahead e
  new : ∀ f ∈ r.1.accepted, f ∈ m.accepted ∨ e.Before f

omit [DecidableEq V] [DecidableEq T] in
/-- A step that accepts nothing. -/
theorem Behind.same (hacc : m'.accepted = m.accepted) (h : pc'.Ahead e) :
    Behind e m (m', pc') where
  ahead := h
  new f hf := by
    rw [hacc] at hf
    exact .inl hf

omit [DecidableEq V] [DecidableEq T] in
/-- A step that accepts an item. -/
theorem Behind.accept (hacc : m'.accepted = f :: m.accepted) (hb : e.Before f)
    (h : pc'.Ahead e) : Behind e m (m', pc') where
  ahead := h
  new g hg := by
    rw [hacc] at hg
    rcases List.mem_cons.mp hg with rfl | hg
    · exact .inr hb
    · exact .inl hg

/-- The step of an enqueuer. -/
theorem enqueue_behind (hinv : Invariant size m) {pc : EnqueuePc V}
    (hk : Knows size t m (.enqueue pc)) (he : e ∈ m.accepted) (htail : e.ring ≤ m.tail)
    (ha : pc.Ahead e) : Behind e m (stepEnqueue size t m pc) := by
  have hok := hk.ok
  cases pc with
  | loadTail v n => exact .same rfl htail
  | loadNext v n rq =>
      simp only [stepEnqueue]
      split
      · exact .same rfl trivial
      · exact .same rfl ha
  | help v n rq next =>
      simp only [stepEnqueue]
      split
      · exact .same rfl trivial
      · exact .same rfl trivial
  | ticket v n rq =>
      simp only [stepEnqueue]
      split
      · exact .same rfl ha
      · refine .same rfl ?_
        rcases Nat.lt_or_eq_of_le ha with hlt | heq
        · exact .inl hlt
        · have hlt := (hinv.ledger.linked e he).2
          rw [heq] at hlt
          exact .inr ⟨heq, Nat.lt_of_lt_of_le hlt (hinv.ticketed.issued rq)⟩
  | alloc v n rq =>
      rw [stepEnqueue_alloc hk.handle]
      exact .same rfl ha
  | append v n rq nrq =>
      simp only [stepEnqueue]
      split
      · exact .accept rfl (.inl (Nat.lt_of_le_of_lt ha hok.2.2.1)) trivial
      · exact .same rfl trivial
  | publish rq nrq =>
      simp only [stepEnqueue]
      split
      · exact .same rfl trivial
      · exact .same rfl trivial
  | loadIdx v n rq i => exact .same rfl ha
  | loadVal v n rq i k u =>
      simp only [stepEnqueue]
      split
      · refine .same rfl ?_
        split
        · exact ha
        · exact ha
      · exact .same rfl (ha.elim Nat.le_of_lt fun hh => Nat.le_of_eq hh.1)
  | loadHead v n rq i k u =>
      simp only [stepEnqueue]
      refine .same rfl ?_
      split
      · exact ha
      · exact ha.elim Nat.le_of_lt fun hh => Nat.le_of_eq hh.1
  | store v n rq i k u =>
      simp only [stepEnqueue]
      split
      · exact .accept rfl ha trivial
      · exact .same rfl (ha.elim Nat.le_of_lt fun hh => Nat.le_of_eq hh.1)
  | full v n rq i =>
      simp only [stepEnqueue]
      refine .same rfl ?_
      split
      · exact ha
      · trivial
  | close v n rq i =>
      simp only [stepEnqueue]
      split
      · split
        · exact .same rfl ha
        · exact .same rfl trivial
      · refine .same rfl ?_
        split
        · trivial
        · exact ha

/-- A step that accepts nothing and appends nothing. -/
structure Aside (m : Memory V T) (r : Memory V T × Pc V) : Prop where
  accepted : r.1.accepted = m.accepted
  linked : ∀ c, r.1.Linked c → m.Linked c
  pc : ∀ pc, r.2 ≠ .enqueue pc

/-- The step of a dequeuer. -/
theorem dequeue_aside (m : Memory V T) (pc : DequeuePc V) :
    Aside m (stepDequeue size t m pc) := by
  cases pc <;> simp only [stepDequeue] <;> repeat' split
  all_goals exact ⟨rfl, fun _ hr => hr, by simp⟩

/-- The step of a thread that is in no enqueue, or in one that was called behind `e`. -/
theorem act_behind (hinv : Invariant size m) (hk : Knows size t m pc) (he : e ∈ m.accepted)
    (htail : e.ring ≤ m.tail) (ha : pc.Ahead e) {r : Memory V T × Pc V}
    (hact : act size t m pc a = some r) : Behind e m r := by
  cases pc with
  | idle =>
      cases a with
      | enqueue v =>
          cases hact
          exact .same rfl trivial
      | dequeue k =>
          cases hact
          exact .same rfl trivial
      | next => cases hact
  | enqueue pc =>
      cases a with
      | next => exact Option.some.inj hact ▸ enqueue_behind hinv hk he htail ha
      | enqueue v => cases hact
      | dequeue k => cases hact
  | dequeue pc =>
      cases a with
      | next =>
          have haside : Aside m r := Option.some.inj hact ▸ dequeue_aside m pc
          refine .same haside.accepted ?_
          have hpc := haside.pc
          cases hr : r.2 with
          | enqueue pc' => exact absurd hr (hpc pc')
          | idle => trivial
          | dequeue pc' => trivial
      | enqueue v => cases hact
      | dequeue k => cases hact

/-- An enqueuer forgets no item, and the ring it links it is about to publish. -/
theorem enqueue_appends (hinv : Invariant size m) {pc : EnqueuePc V}
    (hk : Knows size t m (.enqueue pc)) :
    (∀ f ∈ m.accepted, f ∈ (stepEnqueue size t m pc).1.accepted) ∧
      ∀ c, (stepEnqueue size t m pc).1.Linked c → m.Linked c ∨
        ∃ rq, (stepEnqueue size t m pc).2 = .enqueue (.publish rq c) := by
  cases pc with
  | alloc v n rq =>
      rw [stepEnqueue_alloc hk.handle]
      exact ⟨fun f hf => hf, fun c hc => .inl ((m.newRing_linked t v c).mp hc)⟩
  | append v n rq nrq =>
      simp only [stepEnqueue]
      split
      · refine ⟨fun f hf => List.mem_cons_of_mem _ hf, fun c hc => ?_⟩
        rcases (Memory.link_linked hinv.wired hk.ok.2.2.2.1 c).mp hc with hold | rfl
        · exact .inl hold
        · exact .inr ⟨rq, rfl⟩
      · exact ⟨fun f hf => hf, fun c hc => .inl hc⟩
  | store v n rq i k u =>
      simp only [stepEnqueue]
      split
      · exact ⟨fun f hf => List.mem_cons_of_mem _ hf, fun c hc => .inl hc⟩
      · exact ⟨fun f hf => hf, fun c hc => .inl hc⟩
  | _ =>
      simp only [stepEnqueue]
      repeat' split
      all_goals exact ⟨fun f hf => hf, fun c hc => .inl hc⟩

/-- A thread forgets no item, and the ring it links it is about to publish. -/
theorem act_appends (hinv : Invariant size m) (hk : Knows size t m pc)
    {r : Memory V T × Pc V} (hact : act size t m pc a = some r) :
    (∀ f ∈ m.accepted, f ∈ r.1.accepted) ∧
      ∀ c, r.1.Linked c → m.Linked c ∨ ∃ rq, r.2 = .enqueue (.publish rq c) := by
  cases pc with
  | idle =>
      cases a with
      | enqueue v =>
          cases hact
          exact ⟨fun f hf => hf, fun c hc => .inl hc⟩
      | dequeue k =>
          cases hact
          exact ⟨fun f hf => hf, fun c hc => .inl hc⟩
      | next => cases hact
  | enqueue pc =>
      cases a with
      | next => exact Option.some.inj hact ▸ enqueue_appends hinv hk
      | enqueue v => cases hact
      | dequeue k => cases hact
  | dequeue pc =>
      cases a with
      | next =>
          have haside : Aside m r := Option.some.inj hact ▸ dequeue_aside m pc
          exact ⟨fun f hf => haside.accepted.symm ▸ hf, fun c hc => .inl (haside.linked c hc)⟩
      | enqueue v => cases hact
      | dequeue k => cases hact

/-! ### Rings get published -/

/-- `q->tail` has got to every ring, but for those whose appender is about to see to it. -/
def Published (s : State V T) : Prop :=
  ∀ c, s.mem.Linked c → c ≤ s.mem.tail ∨ ∃ t rq, s.thread t = .enqueue (.publish rq c)

/-- Once the appender is done, `q->tail` has got there. -/
theorem publish_tail (hinv : Invariant size m) {rq nrq : Nat}
    (hp : (EnqueuePc.publish rq nrq : EnqueuePc V).Placed m) :
    nrq ≤ (stepEnqueue size t m (.publish rq nrq)).1.tail := by
  obtain ⟨hle, -, hafter⟩ := hp
  simp only [stepEnqueue]
  split
  · exact Nat.le_refl nrq
  · rename_i hne
    exact hafter m.tail hinv.wired.tail (Nat.lt_of_le_of_ne hle (Ne.symm hne))

theorem Published.step (h : Tidy size s) (hpub : Published s) {l : Label V T}
    (hon : Onward s.mem s'.mem) (hs : (system V T size).step s l = some s') : Published s' := by
  cases l with
  | env c =>
      obtain ⟨henv, hthread⟩ := System.step_env hs
      cases c with
      | collect u k =>
          have hmem := Option.some.inj henv
          intro c hc
          rw [← hmem] at hc ⊢
          rw [hthread]
          exact hpub c hc
  | thread t a =>
      obtain ⟨l', hact, hthread⟩ := System.step_thread hs
      intro c hc
      have hk := (h.knows t).1
      rcases (act_appends h.inv.1 hk hact).2 c hc with hold | ⟨rq, hpc⟩
      · rcases hpub c hold with htail | ⟨u, rq, hu⟩
        · exact .inl (Nat.le_trans htail hon.tail)
        · by_cases hut : u = t
          · subst hut
            have hp := (h.knows u).2
            rw [hu] at hact hp
            cases a with
            | next =>
                refine .inl ?_
                have hmem : s'.mem = (stepEnqueue size u s.mem (.publish rq c)).1 :=
                  congrArg Prod.fst (Option.some.inj hact).symm
                rw [hmem]
                exact publish_tail h.inv.1 hp
            | enqueue v => cases hact
            | dequeue k => cases hact
          · refine .inr ⟨u, rq, ?_⟩
            rw [hthread, Function.update_of_ne hut]
            exact hu
      · refine .inr ⟨t, rq, ?_⟩
        rw [hthread, Function.update_self]
        exact hpc

/-- A careful step keeps the order of the rings. -/
theorem Tidy.onward (hsize : 0 < size) (h : Tidy size s) {l : Label V T}
    (hc : Guarded Careful s l) (hs : (system V T size).step s l = some s') :
    Onward s.mem s'.mem := by
  cases l with
  | env c =>
      obtain ⟨henv, -⟩ := System.step_env hs
      cases c with
      | collect u k =>
          rw [← Option.some.inj henv]
          exact ⟨Nat.le_refl _, Nat.le_refl _, fun _ hr => hr, fun _ _ _ hb => hb,
            fun _ hc => .inl hc⟩
  | thread t a =>
      obtain ⟨l', hact, -⟩ := System.step_thread hs
      exact (act_inOrder hsize h.inv.1 h.inv.2 (h.knows t).1 (h.knows t).2 hc hact).onward

theorem published_of_careful (hsize : 0 < size) (hr : CarefulRun size (ksiLCRQInit V T) s) :
    Published s := by
  have h : Tidy size s ∧ Published s := by
    refine hr.invariant (fun s => Tidy size s ∧ Published s) ⟨tidy_init, fun c hc => ?_⟩ ?_
    · exact .inl (Nat.le_of_lt_succ hc.1)
    · intro s l s' ⟨htidy, hpub⟩ hc hs
      exact ⟨htidy.step hsize hc hs, hpub.step htidy (htidy.onward hsize hc hs) hs⟩
  exact h.2

/-! ### The order of the calls -/

/-- The thread has called nothing but what comes behind `e`. -/
structure After (size : Nat) (e : Entry V) (p : T) (s : State V T) : Prop where
  tidy : Tidy size s
  accepted : e ∈ s.mem.accepted
  tail : e.ring ≤ s.mem.tail
  ahead : (s.thread p).Ahead e

theorem After.step (hsize : 0 < size) (h : After size e p s) {l : Label V T}
    (hc : Guarded Careful s l) (hs : (system V T size).step s l = some s') :
    After size e p s' := by
  have htidy := h.tidy.step hsize hc hs
  have hon := h.tidy.onward hsize hc hs
  cases l with
  | env c =>
      obtain ⟨henv, hthread⟩ := System.step_env hs
      refine ⟨htidy, ?_, Nat.le_trans h.tail hon.tail, hthread ▸ h.ahead⟩
      cases c with
      | collect u k =>
          rw [← Option.some.inj henv]
          exact h.accepted
  | thread t a =>
      obtain ⟨l', hact, hthread⟩ := System.step_thread hs
      have hk := (h.tidy.knows t).1
      refine ⟨htidy, (act_appends h.tidy.inv.1 hk hact).1 e h.accepted,
        Nat.le_trans h.tail hon.tail, ?_⟩
      rw [hthread]
      by_cases hpt : p = t
      · subst hpt
        rw [Function.update_self]
        exact (act_behind h.tidy.inv.1 hk h.accepted h.tail h.ahead hact).ahead
      · rw [Function.update_of_ne hpt]
        exact h.ahead

/-- A returned item is behind `q->tail`, and an idle thread will put nothing before it. -/
theorem after_of_returned (hsize : 0 < size) (hr : CarefulRun size (ksiLCRQInit V T) s)
    (he : Returned s e) (hp : s.thread p = .idle) : After size e p s := by
  have h := tidy_of_careful hsize hr
  obtain ⟨hlinked, hissued⟩ := h.inv.1.ledger.linked e he.1
  refine ⟨h, he.1, ?_, hp ▸ trivial⟩
  rcases published_of_careful hsize hr e.ring hlinked with hle | ⟨t, rq, ht⟩
  · exact hle
  · rcases Nat.eq_zero_or_pos e.ticket with hzero | hpos
    · exact absurd ht (he.2 hzero t rq)
    · exact h.inv.2.served e.ring (Nat.lt_of_le_of_lt hpos hissued)

/-- **First in, first out.**  If the enqueue that has put `e` in has returned before thread
`p` calls the one that puts `f` in, then `f` is delivered only after `e` has been, or while
`e` is in the hands of the dequeuer with its ticket. -/
theorem fifo_of_careful (hsize : 0 < size) {s₁ s₂ s₃ s₄ : State V T}
    (h₁ : CarefulRun size (ksiLCRQInit V T) s₁) (he : Returned s₁ e) (hp : s₁.thread p = .idle)
    (h₂ : CarefulRun size s₁ s₂) (hc : Guarded Careful s₂ (.thread p a : Label V T))
    (hs : (system V T size).step s₂ (.thread p a) = some s₃) (hf : f ∈ s₃.mem.accepted)
    (hnew : f ∉ s₂.mem.accepted) (h₃ : CarefulRun size s₃ s₄) (hd : f ∈ s₄.mem.delivered) :
    e ∈ s₄.mem.delivered ∨ InHand s₄ e := by
  have hafter : After size e p s₂ :=
    h₂.invariant (After size e p) (after_of_returned hsize h₁ he hp)
      fun _ _ _ h hc hs => h.step hsize hc hs
  have hb : e.Before f := by
    obtain ⟨l', hact, -⟩ := System.step_thread hs
    have hbehind := act_behind hafter.tidy.inv.1 (hafter.tidy.knows p).1 hafter.accepted
      hafter.tail hafter.ahead hact
    exact (hbehind.new f hf).resolve_left hnew
  have hend : After size e p s₄ :=
    h₃.invariant (After size e p) (hafter.step hsize hc hs)
      fun _ _ _ h hc hs => h.step hsize hc hs
  exact delivered_of_before hend.tidy hend.accepted hd hb

/-- The run `ringRun` is careful: here it is cut where the second item is accepted. -/
theorem fifo_ringRun : ∃ s : State Nat (Fin 2), ∃ e f : Entry Nat,
    e.val = 7 ∧ f.val = 8 ∧ f ∈ s.mem.delivered ∧ (e ∈ s.mem.delivered ∨ InHand s e) := by
  have hrun : ∃ s₁ s₂ s₃ s₄ : State Nat (Fin 2),
      runChecked (system Nat (Fin 2) 1).step (Guarded Careful) (ksiLCRQInit Nat (Fin 2))
        (enqueueRun 0 7 6) = some s₁ ∧
      runChecked (system Nat (Fin 2) 1).step (Guarded Careful) s₁ (enqueueRun 0 8 8) = some s₂ ∧
      (system Nat (Fin 2) 1).step s₂ (.thread 0 .next) = some s₃ ∧
      runChecked (system Nat (Fin 2) 1).step (Guarded Careful) s₃
        (.thread 0 .next :: (dequeueRun 1 5 ++ dequeueRun 1 19)) = some s₄ ∧
      s₁.thread 0 = .idle ∧ s₁.thread 1 = .idle ∧ s₁.mem.accepted = [⟨0, 0, 7⟩] ∧
      s₂.mem.accepted = [⟨0, 0, 7⟩] ∧ s₃.mem.accepted = [⟨1, 0, 8⟩, ⟨0, 0, 7⟩] ∧
      s₄.mem.delivered = [⟨1, 0, 8⟩, ⟨0, 0, 7⟩] ∧ Careful 0 s₂.mem (s₂.thread 0) .next :=
    ⟨_, _, _, _, rfl, rfl, rfl, rfl, rfl, rfl, rfl, rfl, rfl, rfl, by decide⟩
  obtain ⟨s₁, s₂, s₃, s₄, h₁, h₂, hs, h₃, hidle₀, hidle₁, hacc₁, hacc₂, hacc₃, hdel, hc⟩ := hrun
  have hidle : ∀ t, s₁.thread t = .idle := Fin.forall_fin_two.mpr ⟨hidle₀, hidle₁⟩
  have he : Returned s₁ ⟨0, 0, 7⟩ := by
    refine ⟨hacc₁ ▸ List.mem_cons_self, fun _ t rq ht => ?_⟩
    rw [hidle t] at ht
    cases ht
  have hf : (⟨1, 0, 8⟩ : Entry Nat) ∈ s₄.mem.delivered := hdel ▸ List.mem_cons_self
  exact ⟨s₄, ⟨0, 0, 7⟩, ⟨1, 0, 8⟩, rfl, rfl, hf, fifo_of_careful Nat.one_pos
    (reaches_of_runChecked _ h₁) he (hidle 0) (reaches_of_runChecked _ h₂) hc hs
    (hacc₃ ▸ List.mem_cons_self) (by rw [hacc₂]; decide) (reaches_of_runChecked _ h₃) hf⟩

end Ksi.Lcrq

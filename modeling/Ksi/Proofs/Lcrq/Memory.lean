/-
What the stores of the queue keep.

Each store of a step is taken by itself: that it keeps the invariant of the memory, and
that it stays within what the other threads rely on.  The conditions are those the steps
meet; `Step.lean` puts the two together.
-/
import Ksi.Proofs.Lcrq.Invariant

namespace Ksi.Lcrq

variable {V T : Type}

namespace Memory

variable (m : Memory V T) (a j h r k : Nat)

/-! ### The fields after a store -/

@[grind =] theorem setCell_head (c : RingNode V) :
    ((m.setCell a j c).ring r).head = (m.ring r).head := by
  unfold setCell modify
  by_cases hr : r = a <;> simp [hr]

@[grind =] theorem setCell_tail (c : RingNode V) :
    ((m.setCell a j c).ring r).tail = (m.ring r).tail := by
  unfold setCell modify
  by_cases hr : r = a <;> simp [hr]

@[grind =] theorem setCell_next (c : RingNode V) :
    ((m.setCell a j c).ring r).next = (m.ring r).next := by
  unfold setCell modify
  by_cases hr : r = a <;> simp [hr]

@[grind =] theorem setCell_array (c : RingNode V) : ((m.setCell a j c).ring r).array k =
    if r = a ∧ k = j then c else (m.ring r).array k := by
  unfold setCell modify
  by_cases hr : r = a <;> simp [Function.update_apply, hr]

theorem setCell_ring_self (c : RingNode V) : (m.setCell a j c).ring a =
    { m.ring a with array := Function.update (m.ring a).array j c } :=
  Function.update_self ..

theorem setCell_ring_of_ne (c : RingNode V) (h : r ≠ a) : (m.setCell a j c).ring r = m.ring r :=
  Function.update_of_ne h ..

@[grind =] theorem setTail_head (t : Tail) :
    ((m.setTail a t).ring r).head = (m.ring r).head := by
  unfold setTail modify
  by_cases hr : r = a <;> simp [hr]

@[grind =] theorem setTail_tail (t : Tail) :
    ((m.setTail a t).ring r).tail = if r = a then t else (m.ring r).tail := by
  unfold setTail modify
  by_cases hr : r = a <;> simp [hr]

@[grind =] theorem setTail_next (t : Tail) :
    ((m.setTail a t).ring r).next = (m.ring r).next := by
  unfold setTail modify
  by_cases hr : r = a <;> simp [hr]

@[grind =] theorem setTail_array (t : Tail) :
    ((m.setTail a t).ring r).array = (m.ring r).array := by
  unfold setTail modify
  by_cases hr : r = a <;> simp [hr]

theorem setTail_ring_of_ne (t : Tail) (h : r ≠ a) : (m.setTail a t).ring r = m.ring r :=
  Function.update_of_ne h ..

@[grind =] theorem setHolder_holder (t : Option T) : (m.setHolder a h t).holder r k =
    if r = a ∧ k = h then t else m.holder r k := by
  unfold setHolder
  by_cases hr : r = a <;> simp [Function.update_apply, hr]

/-- The cell of an entry after a store to a cell. -/
theorem setCell_cellOf (size : Nat) (c : RingNode V) (e : Entry V) :
    (m.setCell a j c).cellOf size e =
      if e.ring = a ∧ e.ticket % size = j then c else m.cellOf size e :=
  setCell_array m a j e.ring (e.ticket % size) c

end Memory

variable {m m' : Memory V T} {size rq : Nat} {me : T}

/-! ### What a step leaves alone -/

/-- The cells stay, and which tickets are given. -/
theorem Ticketed.frame (h : Ticketed size m) (harray : ∀ r, (m'.ring r).array = (m.ring r).array)
    (hhead : ∀ r, (m'.ring r).head = (m.ring r).head)
    (hissued : ∀ r, m'.issued r ≤ (m'.ring r).tail.idx) (hholder : m'.holder = m.holder) :
    Ticketed size m' where
  cells r j hj := by
    rw [harray]
    exact h.cells r j hj
  issued := hissued
  given r i hi := by
    rw [hholder] at hi
    rw [hhead]
    exact h.given r i hi
  shut r i hi hnone := by
    rw [hhead] at hi
    rw [hholder] at hnone
    unfold RingQueue.cell
    rw [harray]
    exact h.shut r i hi hnone

/-- The cells stay, and tickets only go on. -/
theorem Ledger.frame (h : Ledger size m)
    (harray : ∀ r, m.Linked r → (m'.ring r).array = (m.ring r).array)
    (hlinked : ∀ r, m'.Linked r ↔ m.Linked r) (hissued : ∀ r, m.Linked r → m.issued r ≤ m'.issued r)
    (hhead : ∀ r, m.Linked r → (m.ring r).head ≤ (m'.ring r).head)
    (haccepted : m'.accepted = m.accepted) (hdelivered : m'.delivered = m.delivered) :
    Ledger size m' := by
  have hcell : ∀ e : Entry V, m.Linked e.ring → m'.cellOf size e = m.cellOf size e := fun e hr =>
    congrFun (harray e.ring hr) _
  constructor
  case linked =>
    intro e he
    rw [haccepted] at he
    obtain ⟨hl, hlt⟩ := h.linked e he
    exact ⟨(hlinked _).mpr hl, Nat.lt_of_lt_of_le hlt (hissued _ hl)⟩
  case placed =>
    intro e he
    rw [haccepted] at he
    rw [hdelivered, hcell e (h.linked e he).1]
    exact h.placed e he
  case stored =>
    intro r hr j hj v hv
    have hr := (hlinked r).mp hr
    rw [harray r hr] at hv ⊢
    rw [haccepted]
    exact h.stored r hr j hj v hv
  case taken =>
    intro e he
    rw [hdelivered] at he
    obtain ⟨hacc, hlt⟩ := h.taken e he
    rw [haccepted, hcell e (h.linked e hacc).1]
    exact ⟨hacc, hlt⟩
  case given =>
    intro e he
    rw [hdelivered] at he
    exact Nat.lt_of_lt_of_le (h.given e he) (hhead e.ring (h.linked e (h.taken e he).1).1)
  case accepted => exact haccepted ▸ h.accepted
  case delivered => exact hdelivered ▸ h.delivered

/-! ### `tail` of a ring -/

section SetTail

variable {t : Tail} {k : Nat}

theorem Wired.setTail (h : Wired m) (hrq : m.Linked rq)
    (hclosed : (m.ring rq).tail.closed → t.closed) :
    Wired { m.setTail rq t with issued := Function.update m.issued rq k } where
  head := h.head
  tail := h.tail
  next r b hn := h.next r b ((m.setTail_next rq r t).symm.trans hn)
  free := h.free
  closed r b hn := by
    have hold := h.closed r b ((m.setTail_next rq r t).symm.trans hn)
    show ((m.setTail rq t).ring r).tail.closed = true
    rw [Memory.setTail_tail]
    split
    · rename_i hr
      exact hclosed (hr ▸ hold)
    · exact hold
  raw r hr := by
    have hne : r ≠ rq := fun heq => absurd hrq.1 (Nat.not_lt.mpr (heq ▸ hr))
    obtain ⟨hring, howner, hissued⟩ := h.raw r hr
    exact ⟨(m.setTail_ring_of_ne rq r t hne).trans hring, howner,
      (Function.update_of_ne hne ..).trans hissued⟩

theorem Ticketed.setTail (h : Ticketed size m) (hkt : k ≤ t.idx) :
    Ticketed size { m.setTail rq t with issued := Function.update m.issued rq k } := by
  refine h.frame (fun r => m.setTail_array rq r t) (fun r => m.setTail_head rq r t)
    (fun r => ?_) rfl
  show Function.update m.issued rq k r ≤ ((m.setTail rq t).ring r).tail.idx
  rw [Memory.setTail_tail, Function.update_apply]
  split
  · exact hkt
  · exact h.issued r

theorem Ledger.setTail (h : Ledger size m) (hk : m.issued rq ≤ k) :
    Ledger size { m.setTail rq t with issued := Function.update m.issued rq k } := by
  refine h.frame (fun r _ => m.setTail_array rq r t) (fun _ => Iff.rfl) (fun r _ => ?_)
    (fun r _ => Nat.le_of_eq (m.setTail_head rq r t).symm) rfl rfl
  show m.issued r ≤ Function.update m.issued rq k r
  rw [Function.update_apply]
  split
  · rename_i hr
    exact hr ▸ hk
  · exact Nat.le_refl _

/-- `tail` grows, and is not opened again. -/
theorem Invariant.setTail (h : Invariant size m) (hrq : m.Linked rq)
    (hclosed : (m.ring rq).tail.closed → t.closed)
    (hk : m.issued rq ≤ k) (hkt : k ≤ t.idx) :
    Invariant size { m.setTail rq t with issued := Function.update m.issued rq k } where
  wired := h.wired.setTail hrq hclosed
  ticketed := h.ticketed.setTail hkt
  ledger := h.ledger.setTail hk

theorem Forward.setTail (hidx : (m.ring rq).tail.idx ≤ t.idx)
    (hclosed : (m.ring rq).tail.closed → t.closed) (hk : m.issued rq ≤ k)
    (hseal : (m.ring rq).tail.closed → k = m.issued rq) :
    Forward size m { m.setTail rq t with issued := Function.update m.issued rq k } where
  linked r hr := hr
  grows r _ := by
    show (m.ring r).Grows ((m.setTail rq t).ring r)
    constructor
    case head => exact Nat.le_of_eq (m.setTail_head rq r t).symm
    case tail =>
      rw [Memory.setTail_tail]
      split
      · rename_i hr
        exact hr ▸ hidx
      · exact Nat.le_refl _
    case closed =>
      rw [Memory.setTail_tail]
      split
      · rename_i hr
        exact hr ▸ hclosed
      · exact fun hc => hc
    case array =>
      rw [Memory.setTail_array]
      exact fun _ => .refl _
  issued r _ := by
    show m.issued r ≤ Function.update m.issued rq k r
    rw [Function.update_apply]
    split
    · rename_i hr
      exact hr ▸ hk
    · exact Nat.le_refl _
  sealed r _ hc := by
    show Function.update m.issued rq k r = m.issued r
    rw [Function.update_apply]
    split
    · rename_i hr
      subst hr
      exact hseal hc
    · rfl
  given r i _ hge hlt := by
    change i < ((m.setTail rq t).ring r).head at hlt
    rw [Memory.setTail_head] at hlt
    exact absurd hlt (Nat.not_lt.mpr hge)
  done _ _ _ hh := .inl hh

theorem Rely.setTail (hrq : m.Linked rq) (hidx : (m.ring rq).tail.idx ≤ t.idx)
    (hclosed : (m.ring rq).tail.closed → t.closed) (hk : m.issued rq ≤ k)
    (hseal : (m.ring rq).tail.closed → k = m.issued rq) :
    Rely size me m { m.setTail rq t with issued := Function.update m.issued rq k } where
  toForward := .setTail hidx hclosed hk hseal
  handle := rfl
  holder _ _ := Iff.rfl
  owner n hn := by
    have hne : n ≠ rq := by
      rintro rfl
      rw [hrq.2] at hn
      cases hn
    exact ⟨hn, m.setTail_ring_of_ne rq n t hne, Function.update_of_ne hne ..⟩

/-- A store to `tail` that is no enqueue ticket. -/
theorem Memory.setTail_issued (m : Memory V T) (rq : Nat) (t : Tail) :
    { m.setTail rq t with issued := Function.update m.issued rq (m.issued rq) } =
      m.setTail rq t := by
  rw [Function.update_eq_self]
  rfl

theorem Forward.setTail_only (hidx : (m.ring rq).tail.idx ≤ t.idx)
    (hclosed : (m.ring rq).tail.closed → t.closed) : Forward size m (m.setTail rq t) := by
  rw [← Memory.setTail_issued]
  exact .setTail hidx hclosed (Nat.le_refl _) fun _ => rfl

end SetTail

/-! ### A dequeue ticket is taken -/

/-- The memory after a fetch-and-add of `head`. -/
def Memory.takeTicket (m : Memory V T) (rq : Nat) (t : T) : Memory V T :=
  (m.modify rq fun g => { g with head := g.head + 1 }).setHolder rq (m.ring rq).head (some t)

section TakeTicket

theorem Memory.takeTicket_ring (m : Memory V T) (rq r : Nat) (t : T) :
    (m.takeTicket rq t).ring r =
      if r = rq then { m.ring rq with head := (m.ring rq).head + 1 } else m.ring r :=
  Function.update_apply ..

@[grind =] theorem Memory.takeTicket_head (m : Memory V T) (rq r : Nat) (t : T) :
    ((m.takeTicket rq t).ring r).head =
      if r = rq then (m.ring rq).head + 1 else (m.ring r).head := by
  rw [takeTicket_ring]
  split <;> rfl

@[grind =] theorem Memory.takeTicket_tail (m : Memory V T) (rq r : Nat) (t : T) :
    ((m.takeTicket rq t).ring r).tail = (m.ring r).tail := by
  rw [takeTicket_ring]
  split
  · rename_i hr
    rw [hr]
  · rfl

@[grind =] theorem Memory.takeTicket_next (m : Memory V T) (rq r : Nat) (t : T) :
    ((m.takeTicket rq t).ring r).next = (m.ring r).next := by
  rw [takeTicket_ring]
  split
  · rename_i hr
    rw [hr]
  · rfl

@[grind =] theorem Memory.takeTicket_array (m : Memory V T) (rq r : Nat) (t : T) :
    ((m.takeTicket rq t).ring r).array = (m.ring r).array := by
  rw [takeTicket_ring]
  split
  · rename_i hr
    rw [hr]
  · rfl

@[grind =] theorem Memory.takeTicket_holder (m : Memory V T) (rq r h : Nat) (t : T) :
    (m.takeTicket rq t).holder r h =
      if r = rq ∧ h = (m.ring rq).head then some t else m.holder r h :=
  Memory.setHolder_holder ..

theorem Wired.takeTicket (h : Wired m) (hrq : m.Linked rq) (t : T) :
    Wired (m.takeTicket rq t) where
  head := h.head
  tail := h.tail
  next r b hn := h.next r b ((m.takeTicket_next rq r t).symm.trans hn)
  free := h.free
  closed r b hn := by
    rw [Memory.takeTicket_tail]
    exact h.closed r b ((m.takeTicket_next rq r t).symm.trans hn)
  raw r hr := by
    have hne : r ≠ rq := fun heq => absurd hrq.1 (Nat.not_lt.mpr (heq ▸ hr))
    obtain ⟨hring, hrest⟩ := h.raw r hr
    rw [Memory.takeTicket_ring, if_neg hne]
    exact ⟨hring, hrest⟩

theorem Ticketed.takeTicket (h : Ticketed size m) (t : T) :
    Ticketed size (m.takeTicket rq t) where
  cells r j hj := by
    rw [Memory.takeTicket_array]
    exact h.cells r j hj
  issued r := by
    rw [Memory.takeTicket_tail]
    exact h.issued r
  given r i hi := by
    have := h.given r i
    grind
  shut r i hi hnone := by
    have hold := h.shut r i
    unfold RingQueue.cell at hold ⊢
    grind

theorem Ledger.takeTicket (h : Ledger size m) (t : T) : Ledger size (m.takeTicket rq t) := by
  refine h.frame (fun r _ => m.takeTicket_array rq r t) (fun _ => Iff.rfl)
    (fun _ _ => Nat.le_refl _)
    (fun r _ => ?_) rfl rfl
  rw [Memory.takeTicket_head]
  split
  · rename_i hr
    rw [hr]
    exact Nat.le_succ _
  · exact Nat.le_refl _

theorem Invariant.takeTicket (h : Invariant size m) (hrq : m.Linked rq) (t : T) :
    Invariant size (m.takeTicket rq t) where
  wired := h.wired.takeTicket hrq t
  ticketed := h.ticketed.takeTicket t
  ledger := h.ledger.takeTicket t

theorem Forward.takeTicket (m : Memory V T) (rq : Nat) (t : T) :
    Forward size m (m.takeTicket rq t) where
  linked r hr := hr
  grows r _ := by
    constructor
    case head => grind
    case tail => exact Nat.le_of_eq (congrArg Tail.idx (m.takeTicket_tail rq r t).symm)
    case closed =>
      rw [Memory.takeTicket_tail]
      exact fun hc => hc
    case array =>
      rw [Memory.takeTicket_array]
      exact fun _ => .refl _
  issued r _ := Nat.le_refl _
  sealed r _ _ := rfl
  given r i _ hge hlt := by grind
  done r i _ hh := by
    refine .inl ?_
    grind

theorem Rely.takeTicket (h : Ticketed size m) (hrq : m.Linked rq) {t : T} (ht : me ≠ t) :
    Rely size me m (m.takeTicket rq t) where
  toForward := .takeTicket m rq t
  handle := rfl
  holder r i := by
    -- the ticket is new, so that nobody had it
    have hnew := h.given rq (m.ring rq).head
    grind
  owner n hn := by
    have hne : n ≠ rq := by
      rintro rfl
      rw [hrq.2] at hn
      cases hn
    exact ⟨hn, (m.takeTicket_ring rq n t).trans (if_neg hne), rfl⟩

end TakeTicket

/-! ### A dequeuer is done with its ticket -/

/-- The memory after a dequeuer has left its cell as `c`. -/
def Memory.leave (m : Memory V T) (size rq h : Nat) (c : RingNode V) : Memory V T :=
  (m.setCell rq (h % size) c).setHolder rq h none

/-- The cell a dequeuer leaves behind. -/
structure RingNode.Left (size h : Nat) (c c' : RingNode V) : Prop where
  grows : c.Grows c'
  mod : c'.idx % size = h % size
  shut : c'.Shut h
  keeps : ∀ t, c.Shut t → c'.Shut t
  past : ∀ i, i ≤ h → i ≤ c.idx → c'.Past i

section Leave

variable {h : Nat} {c : RingNode V} {d : List (Entry V)}

@[grind =] theorem Memory.leave_holder (m : Memory V T) (size rq h r k : Nat) (c : RingNode V) :
    (m.leave size rq h c).holder r k = if r = rq ∧ k = h then none else m.holder r k :=
  Memory.setHolder_holder ..

theorem Wired.leave (hw : Wired m) (hrq : m.Linked rq) :
    Wired { m.leave size rq h c with delivered := d } where
  head := hw.head
  tail := hw.tail
  next r b hn := hw.next r b ((m.setCell_next rq _ r c).symm.trans hn)
  free := hw.free
  closed r b hn := by
    show ((m.setCell rq (h % size) c).ring r).tail.closed = true
    rw [Memory.setCell_tail]
    exact hw.closed r b ((m.setCell_next rq _ r c).symm.trans hn)
  raw r hr := by
    have hne : r ≠ rq := fun heq => absurd hrq.1 (Nat.not_lt.mpr (heq ▸ hr))
    obtain ⟨hring, hrest⟩ := hw.raw r hr
    exact ⟨(m.setCell_ring_of_ne rq _ r c hne).trans hring, hrest⟩

theorem Ticketed.leave (ht : Ticketed size m) (hc : ((m.ring rq).cell size h).Left size h c) :
    Ticketed size { m.leave size rq h c with delivered := d } where
  cells r j hj := by
    show (((m.setCell rq (h % size) c).ring r).array j).idx % size = j
    rw [Memory.setCell_array]
    split
    · rename_i heq
      rw [hc.mod, heq.2]
    · exact ht.cells r j hj
  issued r := by
    show m.issued r ≤ ((m.setCell rq (h % size) c).ring r).tail.idx
    rw [Memory.setCell_tail]
    exact ht.issued r
  given r i hi := by
    change (m.leave size rq h c).holder r i ≠ none at hi
    show i < ((m.setCell rq (h % size) c).ring r).head
    rw [Memory.setCell_head]
    refine ht.given r i ?_
    grind
  shut r i hi hnone := by
    change i < ((m.setCell rq (h % size) c).ring r).head at hi
    change (m.leave size rq h c).holder r i = none at hnone
    show (((m.setCell rq (h % size) c).ring r).array (i % size)).Shut i
    rw [Memory.setCell_head] at hi
    rw [Memory.leave_holder] at hnone
    rw [Memory.setCell_array]
    by_cases heq : r = rq ∧ i = h
    · rw [heq.1, heq.2, if_pos ⟨rfl, rfl⟩]
      exact hc.shut
    · rw [if_neg heq] at hnone
      have hold := ht.shut r i hi hnone
      split
      · rename_i hcell
        refine hc.keeps i ?_
        unfold RingQueue.cell at hold ⊢
        rw [← hcell.1, ← hcell.2]
        exact hold
      · exact hold

/-- No item goes: the cell keeps what it holds, or it was empty. -/
theorem Ledger.leave (hl : Ledger size m) (hgrows : ((m.ring rq).cell size h).Grows c)
    (hval : (c.idx = ((m.ring rq).cell size h).idx ∧ c.val = ((m.ring rq).cell size h).val) ∨
      (((m.ring rq).cell size h).val = none ∧ c.val = none)) :
    Ledger size (m.leave size rq h c) := by
  have hcell : ∀ e, (m.leave size rq h c).cellOf size e =
      if e.ring = rq ∧ e.ticket % size = h % size then c else m.cellOf size e := fun e =>
    m.setCell_cellOf rq (h % size) size c e
  have hcell₀ : ∀ e : Entry V, e.ring = rq ∧ e.ticket % size = h % size →
      m.cellOf size e = (m.ring rq).cell size h := by
    intro e he
    unfold Memory.cellOf RingQueue.cell
    rw [he.1, he.2]
  constructor
  case linked => exact hl.linked
  case placed =>
    intro e he
    show e ∈ m.delivered ∨ ((m.leave size rq h c).cellOf size e).idx = e.ticket ∧
      ((m.leave size rq h c).cellOf size e).val = some e.val
    have hold := hl.placed e he
    rw [hcell]
    split
    · rename_i hat
      rw [hcell₀ e hat] at hold
      rcases hval with ⟨hidx, hval⟩ | ⟨hnone, -⟩
      · rw [hidx, hval]
        exact hold
      · rw [hnone] at hold
        exact hold.imp_right fun hh => absurd hh.2.symm (Option.some_ne_none _)
    · exact hold
  case stored =>
    intro r hr j hj v hv
    change (((m.setCell rq (h % size) c).ring r).array j).val = some v at hv
    show Entry.mk r (((m.setCell rq (h % size) c).ring r).array j).idx v ∈ m.accepted
    rw [Memory.setCell_array] at hv ⊢
    split at hv
    · rename_i hat
      rw [if_pos hat]
      rcases hval with ⟨hidx, hval⟩ | ⟨-, hnone⟩
      · rw [hidx]
        rw [hval] at hv
        have hold := hl.stored r hr j hj v
        rw [hat.1, hat.2] at hold
        rw [hat.1]
        exact hold hv
      · rw [hnone] at hv
        cases hv
    · rename_i hat
      rw [if_neg hat]
      exact hl.stored r hr j hj v hv
  case taken =>
    intro e he
    obtain ⟨hacc, hlt⟩ := hl.taken e he
    refine ⟨hacc, ?_⟩
    rw [hcell]
    split
    · rename_i hat
      rw [hcell₀ e hat] at hlt
      exact Nat.lt_of_lt_of_le hlt hgrows.idx
    · exact hlt
  case given =>
    intro e he
    show e.ticket < ((m.setCell rq (h % size) c).ring e.ring).head
    rw [Memory.setCell_head]
    exact hl.given e he
  case accepted => exact hl.accepted
  case delivered => exact hl.delivered

/-- The item of ticket `h` is taken out, and the cell goes to the next round. -/
theorem Ledger.take (hl : Ledger size m) (hsize : 0 < size) (hrq : m.Linked rq)
    (hlt : h < (m.ring rq).head) {v : V} {u : Bool}
    (hc : (m.ring rq).cell size h = { val := some v, idx := h, isUnsafe := u }) :
    Ledger size { m.leave size rq h { val := none, idx := h + size, isUnsafe := u } with
      delivered := { ring := rq, ticket := h, val := v } :: m.delivered } := by
  have hcell : ∀ e, (m.leave size rq h { val := none, idx := h + size, isUnsafe := u }).cellOf
      size e = if e.ring = rq ∧ e.ticket % size = h % size then
        { val := none, idx := h + size, isUnsafe := u } else m.cellOf size e := fun e =>
    m.setCell_cellOf rq (h % size) size _ e
  have hcell₀ : ∀ e : Entry V, e.ring = rq ∧ e.ticket % size = h % size →
      m.cellOf size e = { val := some v, idx := h, isUnsafe := u } := by
    intro e he
    rw [← hc]
    unfold Memory.cellOf RingQueue.cell
    rw [he.1, he.2]
  constructor
  case linked => exact hl.linked
  case placed =>
    intro e he
    show e ∈ Entry.mk rq h v :: m.delivered ∨ _
    have hold := hl.placed e he
    by_cases hat : e.ring = rq ∧ e.ticket % size = h % size
    · rw [hcell₀ e hat] at hold
      refine .inl ?_
      rcases hold with hgone | ⟨hidx, hval⟩
      · exact List.mem_cons_of_mem _ hgone
      · -- the entry whose item the cell held
        have heq : e = Entry.mk rq h v := by
          cases e
          simp only at hat hidx hval
          rw [hat.1, hidx, Option.some.inj hval]
        rw [heq]
        exact List.mem_cons_self
    · refine hold.imp (List.mem_cons_of_mem _) fun hh => ?_
      show ((m.leave size rq h _).cellOf size e).idx = e.ticket ∧
        ((m.leave size rq h _).cellOf size e).val = some e.val
      rw [hcell, if_neg hat]
      exact hh
  case stored =>
    intro r hr j hj w hw
    change (((m.setCell rq (h % size) _).ring r).array j).val = some w at hw
    show Entry.mk r (((m.setCell rq (h % size) _).ring r).array j).idx w ∈ m.accepted
    rw [Memory.setCell_array] at hw ⊢
    split at hw
    · cases hw
    · rename_i hat
      rw [if_neg hat]
      exact hl.stored r hr j hj w hw
  case taken =>
    intro e he
    show e ∈ m.accepted ∧ e.ticket < ((m.leave size rq h _).cellOf size e).idx
    rw [hcell]
    rcases List.mem_cons.mp he with rfl | hold
    · rw [if_pos ⟨rfl, rfl⟩]
      refine ⟨?_, Nat.lt_add_of_pos_right hsize⟩
      have hstored := hl.stored rq hrq (h % size) (Nat.mod_lt _ hsize) v
      unfold RingQueue.cell at hc
      rw [hc] at hstored
      exact hstored rfl
    · obtain ⟨hacc, hlt⟩ := hl.taken e hold
      refine ⟨hacc, ?_⟩
      split
      · rename_i hat
        rw [hcell₀ e hat] at hlt
        exact Nat.lt_add_right size hlt
      · exact hlt
  case given =>
    intro e he
    show e.ticket < ((m.setCell rq (h % size) _).ring e.ring).head
    rw [Memory.setCell_head]
    rcases List.mem_cons.mp he with rfl | hold
    · exact hlt
    · exact hl.given e hold
  case accepted => exact hl.accepted
  case delivered =>
    show ((Entry.mk rq h v :: m.delivered).map Entry.place).Nodup
    rw [List.map_cons, List.nodup_cons]
    refine ⟨fun hmem => ?_, hl.delivered⟩
    obtain ⟨e, he, hplace⟩ := List.mem_map.mp hmem
    have hat : e.ring = rq ∧ e.ticket = h := Prod.mk.inj hplace
    have hlt := (hl.taken e he).2
    rw [hcell₀ e ⟨hat.1, by rw [hat.2]⟩, hat.2] at hlt
    exact Nat.lt_irrefl h hlt

theorem Forward.leave (hc : ((m.ring rq).cell size h).Left size h c) :
    Forward size m { m.leave size rq h c with delivered := d } where
  linked r hr := hr
  grows r _ := by
    by_cases hr : r = rq
    · subst hr
      show (m.ring r).Grows ((m.setCell r (h % size) c).ring r)
      rw [Memory.setCell_ring_self]
      exact .of_cell _ hc.grows
    · show (m.ring r).Grows ((m.setCell rq (h % size) c).ring r)
      rw [m.setCell_ring_of_ne rq _ r c hr]
      exact .refl _
  issued r _ := Nat.le_refl _
  sealed r _ _ := rfl
  given r i _ hge hlt := by
    change i < ((m.setCell rq (h % size) c).ring r).head at hlt
    rw [Memory.setCell_head] at hlt
    exact absurd hlt (Nat.not_lt.mpr hge)
  done r i _ hh := by
    show (m.leave size rq h c).holder r i ≠ none ∨ _
    rw [Memory.leave_holder]
    split
    · rename_i hat
      rw [hat.1, hat.2]
      refine .inr fun k hk hidx => ?_
      show (((m.setCell rq (h % size) c).ring rq).array (h % size)).Past k
      rw [Memory.setCell_array, if_pos ⟨rfl, rfl⟩]
      exact hc.past k hk hidx
    · exact .inl hh

theorem Rely.leave (hrq : m.Linked rq) (hmine : ∀ t, m.holder rq h = some t → me ≠ t)
    (hc : ((m.ring rq).cell size h).Left size h c) :
    Rely size me m { m.leave size rq h c with delivered := d } where
  toForward := .leave hc
  handle := rfl
  holder r i := by
    show (m.leave size rq h c).holder r i = some me ↔ _
    rw [Memory.leave_holder]
    split
    · rename_i hat
      rw [hat.1, hat.2]
      exact iff_of_false (Option.some_ne_none me).symm fun hh => hmine me hh rfl
    · exact Iff.rfl
  owner n hn := by
    have hne : n ≠ rq := by
      rintro rfl
      rw [hrq.2] at hn
      cases hn
    exact ⟨hn, m.setCell_ring_of_ne rq _ n c hne, rfl⟩

end Leave

/-! ### An item is put into a cell -/

/-- The memory after an enqueuer has filled its cell. -/
def Memory.fill (m : Memory V T) (size rq t : Nat) (v : V) : Memory V T :=
  { m.setCell rq (t % size) { val := some v, idx := t, isUnsafe := false } with
    accepted := { ring := rq, ticket := t, val := v } :: m.accepted }

section Fill

variable {t i : Nat} {u : Bool} {v : V}

theorem Wired.fill (hw : Wired m) (hrq : m.Linked rq) : Wired (m.fill size rq t v) where
  head := hw.head
  tail := hw.tail
  next r b hn := hw.next r b ((m.setCell_next rq _ r _).symm.trans hn)
  free := hw.free
  closed r b hn := by
    show ((m.setCell rq (t % size) _).ring r).tail.closed = true
    rw [Memory.setCell_tail]
    exact hw.closed r b ((m.setCell_next rq _ r _).symm.trans hn)
  raw r hr := by
    have hne : r ≠ rq := fun heq => absurd hrq.1 (Nat.not_lt.mpr (heq ▸ hr))
    obtain ⟨hring, hrest⟩ := hw.raw r hr
    exact ⟨(m.setCell_ring_of_ne rq _ r _ hne).trans hring, hrest⟩

theorem Ticketed.fill (ht : Ticketed size m) (hit : i ≤ t)
    (hc : (m.ring rq).cell size t = { val := none, idx := i, isUnsafe := u })
    (hclaim : u → m.Claimed size rq t i) : Ticketed size (m.fill size rq t v) where
  cells r j hj := by
    show (((m.setCell rq (t % size) _).ring r).array j).idx % size = j
    rw [Memory.setCell_array]
    split
    · rename_i heq
      exact heq.2.symm
    · exact ht.cells r j hj
  issued r := by
    show m.issued r ≤ ((m.setCell rq (t % size) _).ring r).tail.idx
    rw [Memory.setCell_tail]
    exact ht.issued r
  given r h hh := by
    show h < ((m.setCell rq (t % size) _).ring r).head
    rw [Memory.setCell_head]
    exact ht.given r h hh
  shut r h hlt hnone := by
    change h < ((m.setCell rq (t % size) _).ring r).head at hlt
    show (((m.setCell rq (t % size) _).ring r).array (h % size)).Shut h
    rw [Memory.setCell_head] at hlt
    rw [Memory.setCell_array]
    have hold := ht.shut r h hlt hnone
    split
    · rename_i hat
      obtain ⟨rfl, hmod⟩ := hat
      refine .inl ?_
      have hcell : (m.ring r).cell size h = { val := none, idx := i, isUnsafe := u } := by
        rw [← hc]
        unfold RingQueue.cell
        rw [hmod]
      rw [hcell] at hold
      rcases hold with hpast | ⟨hu, -⟩
      · exact Nat.lt_of_lt_of_le hpast hit
      · -- the ticket is given and its dequeuer is done, so that it is an earlier one
        refine Nat.lt_of_not_le fun hle => ?_
        rcases hclaim hu h hle hmod hlt with hholder | hpast
        · exact hholder hnone
        · rw [hc] at hpast
          rcases hpast with hlt | ⟨-, hne⟩
          · exact Nat.lt_irrefl i hlt
          · exact hne rfl
    · exact hold

theorem Ledger.fill (hl : Ledger size m) (hrq : m.Linked rq) (hissued : t < m.issued rq)
    (hit : i ≤ t) (hc : (m.ring rq).cell size t = { val := none, idx := i, isUnsafe := u }) :
    Ledger size (m.fill size rq t v) := by
  have hcell : ∀ e, (m.fill size rq t v).cellOf size e =
      if e.ring = rq ∧ e.ticket % size = t % size then
        { val := some v, idx := t, isUnsafe := false } else m.cellOf size e := fun e =>
    m.setCell_cellOf rq (t % size) size _ e
  have hcell₀ : ∀ e : Entry V, e.ring = rq ∧ e.ticket % size = t % size →
      m.cellOf size e = { val := none, idx := i, isUnsafe := u } := by
    intro e he
    rw [← hc]
    unfold Memory.cellOf RingQueue.cell
    rw [he.1, he.2]
  -- the cell was empty, so that the items accepted for it before have been taken out
  have hgone : ∀ e ∈ m.accepted, e.ring = rq ∧ e.ticket % size = t % size → e ∈ m.delivered := by
    intro e he hat
    rcases hl.placed e he with hdel | ⟨-, hval⟩
    · exact hdel
    · rw [hcell₀ e hat] at hval
      cases hval
  constructor
  case linked =>
    intro e he
    rcases List.mem_cons.mp he with rfl | hold
    · exact ⟨hrq, hissued⟩
    · exact hl.linked e hold
  case placed =>
    intro e he
    rw [hcell]
    rcases List.mem_cons.mp he with rfl | hold
    · rw [if_pos ⟨rfl, rfl⟩]
      exact .inr ⟨rfl, rfl⟩
    · by_cases hat : e.ring = rq ∧ e.ticket % size = t % size
      · exact .inl (hgone e hold hat)
      · rw [if_neg hat]
        exact hl.placed e hold
  case stored =>
    intro r hr j hj w hw
    change (((m.setCell rq (t % size) _).ring r).array j).val = some w at hw
    show Entry.mk r (((m.setCell rq (t % size) _).ring r).array j).idx w ∈
      Entry.mk rq t v :: m.accepted
    rw [Memory.setCell_array] at hw ⊢
    split at hw
    · rename_i hat
      rw [if_pos hat, hat.1, Option.some.inj hw]
      exact List.mem_cons_self
    · rename_i hat
      rw [if_neg hat]
      exact List.mem_cons_of_mem _ (hl.stored r hr j hj w hw)
  case taken =>
    intro e he
    obtain ⟨hacc, hlt⟩ := hl.taken e he
    refine ⟨List.mem_cons_of_mem _ hacc, ?_⟩
    rw [hcell]
    split
    · rename_i hat
      rw [hcell₀ e hat] at hlt
      exact Nat.lt_of_lt_of_le hlt hit
    · exact hlt
  case given =>
    intro e he
    show e.ticket < ((m.setCell rq (t % size) _).ring e.ring).head
    rw [Memory.setCell_head]
    exact hl.given e he
  case accepted =>
    show ((Entry.mk rq t v :: m.accepted).map Entry.place).Nodup
    rw [List.map_cons, List.nodup_cons]
    refine ⟨fun hmem => ?_, hl.accepted⟩
    obtain ⟨e, he, hplace⟩ := List.mem_map.mp hmem
    have hat : e.ring = rq ∧ e.ticket = t := Prod.mk.inj hplace
    have hat' : e.ring = rq ∧ e.ticket % size = t % size := ⟨hat.1, by rw [hat.2]⟩
    have hlt := (hl.taken e (hgone e he hat')).2
    rw [hcell₀ e hat', hat.2] at hlt
    exact absurd hlt (Nat.not_lt.mpr hit)
  case delivered => exact hl.delivered

theorem Invariant.fill (h : Invariant size m) (hrq : m.Linked rq) (hissued : t < m.issued rq)
    (hit : i ≤ t) (hc : (m.ring rq).cell size t = { val := none, idx := i, isUnsafe := u })
    (hclaim : u → m.Claimed size rq t i) : Invariant size (m.fill size rq t v) where
  wired := h.wired.fill hrq
  ticketed := h.ticketed.fill hit hc hclaim
  ledger := h.ledger.fill hrq hissued hit hc

theorem Forward.fill (hit : i ≤ t)
    (hc : (m.ring rq).cell size t = { val := none, idx := i, isUnsafe := u }) :
    Forward size m (m.fill size rq t v) where
  linked r hr := hr
  grows r _ := by
    by_cases hr : r = rq
    · subst hr
      show (m.ring r).Grows ((m.setCell r (t % size) _).ring r)
      rw [Memory.setCell_ring_self]
      refine .of_cell _ (.of_val ?_ fun _ _ => Option.some_ne_none v)
      unfold RingQueue.cell at hc
      rw [hc]
      exact hit
    · show (m.ring r).Grows ((m.setCell rq (t % size) _).ring r)
      rw [m.setCell_ring_of_ne rq _ r _ hr]
      exact .refl _
  issued r _ := Nat.le_refl _
  sealed r _ _ := rfl
  given r h _ hge hlt := by
    change h < ((m.setCell rq (t % size) _).ring r).head at hlt
    rw [Memory.setCell_head] at hlt
    exact absurd hlt (Nat.not_lt.mpr hge)
  done _ _ _ hh := .inl hh

theorem Rely.fill (hrq : m.Linked rq) (hit : i ≤ t)
    (hc : (m.ring rq).cell size t = { val := none, idx := i, isUnsafe := u }) :
    Rely size me m (m.fill size rq t v) where
  toForward := .fill hit hc
  handle := rfl
  holder _ _ := Iff.rfl
  owner n hn := by
    have hne : n ≠ rq := by
      rintro rfl
      rw [hrq.2] at hn
      cases hn
    exact ⟨hn, m.setCell_ring_of_ne rq _ n _ hne, rfl⟩

end Fill

end Ksi.Lcrq

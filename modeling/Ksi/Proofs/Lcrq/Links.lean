/-
What the links between the rings keep.

A ring comes into being private and with an item in it; appending it makes it one of the
queue's, and its item accepted.  Retiring a ring overwrites its link, here with a ring that
has been retired before; the rest of the ring stays as it is.
-/
import Ksi.Proofs.Lcrq.Memory

namespace Ksi.Lcrq

variable {V T : Type} {m m' : Memory V T} {size rq nrq : Nat} {me t : T} {v : V}

/-! ### Pointers -/

/-- A step that touches no ring. -/
theorem Forward.of_eq (hring : m'.ring = m.ring) (halloc : m'.allocated = m.allocated)
    (howner : m'.owner = m.owner) (hissued : m'.issued = m.issued)
    (hholder : m'.holder = m.holder) : Forward size m m' where
  linked r hr := by
    unfold Memory.Linked
    rw [halloc, howner]
    exact hr
  grows r _ := by
    rw [hring]
    exact .refl _
  issued r _ := Nat.le_of_eq (congrFun hissued r).symm
  sealed r _ _ := by rw [hissued]
  given r h _ hge hlt := by
    rw [hring] at hlt
    exact absurd hlt (Nat.not_lt.mpr hge)
  done r h _ hh := by
    rw [hholder]
    exact .inl hh

theorem Rely.of_eq (hring : m'.ring = m.ring) (halloc : m'.allocated = m.allocated)
    (howner : m'.owner = m.owner) (hissued : m'.issued = m.issued)
    (hholder : m'.holder = m.holder) (hhandle : m'.handle me = m.handle me) :
    Rely size me m m' where
  toForward := .of_eq hring halloc howner hissued hholder
  handle := hhandle
  holder r h := by rw [hholder]
  owner n hn := by
    rw [howner, hring, hissued]
    exact ⟨hn, rfl, rfl⟩

theorem Ledger.of_eq (h : Ledger size m) (hring : m'.ring = m.ring)
    (halloc : m'.allocated = m.allocated) (howner : m'.owner = m.owner)
    (hissued : m'.issued = m.issued) (haccepted : m'.accepted = m.accepted)
    (hdelivered : m'.delivered = m.delivered) : Ledger size m' := by
  cases m
  cases m'
  subst hring halloc howner hissued haccepted hdelivered
  exact ⟨h.linked, h.placed, h.stored, h.taken, h.given, h.accepted, h.delivered⟩

theorem Ticketed.of_eq (h : Ticketed size m) (hring : m'.ring = m.ring)
    (hissued : m'.issued = m.issued) (hholder : m'.holder = m.holder) : Ticketed size m' := by
  cases m
  cases m'
  subst hring hissued hholder
  exact ⟨h.cells, h.issued, h.given, h.shut⟩

/-- A ring that belongs to a thread is allocated. -/
theorem Wired.lt_of_owner (h : Wired m) (hn : m.owner nrq = some t) : nrq < m.allocated := by
  refine Nat.lt_of_not_le fun hle => ?_
  rw [(h.raw nrq hle).2.1] at hn
  cases hn

/-- `q->tail` is moved on. -/
theorem Invariant.moveTail (h : Invariant size m) (hr : m.Linked rq) :
    Invariant size { m with tail := rq } where
  wired := ⟨h.wired.head, hr, h.wired.next, h.wired.free, h.wired.closed, h.wired.raw⟩
  ticketed := h.ticketed.of_eq rfl rfl rfl
  ledger := h.ledger.of_eq rfl rfl rfl rfl rfl rfl

/-- `q->head` is moved on. -/
theorem Invariant.moveHead (h : Invariant size m) (hr : m.Linked rq) :
    Invariant size { m with head := rq } where
  wired := ⟨hr, h.wired.tail, h.wired.next, h.wired.free, h.wired.closed, h.wired.raw⟩
  ticketed := h.ticketed.of_eq rfl rfl rfl
  ledger := h.ledger.of_eq rfl rfl rfl rfl rfl rfl

section

variable [DecidableEq T]

/-- `handle->next` is cleared. -/
theorem Invariant.setHandle (h : Invariant size m) :
    Invariant size { m with handle := Function.update m.handle t none } where
  wired := ⟨h.wired.head, h.wired.tail, h.wired.next, h.wired.free, h.wired.closed, h.wired.raw⟩
  ticketed := h.ticketed.of_eq rfl rfl rfl
  ledger := h.ledger.of_eq rfl rfl rfl rfl rfl rfl

/-- A dequeuer finds an epoch. -/
theorem Invariant.setEpoch (h : Invariant size m) {k : Fin 3} :
    Invariant size { m with epoch := Function.update m.epoch t k } where
  wired := ⟨h.wired.head, h.wired.tail, h.wired.next, h.wired.free, h.wired.closed, h.wired.raw⟩
  ticketed := h.ticketed.of_eq rfl rfl rfl
  ledger := h.ledger.of_eq rfl rfl rfl rfl rfl rfl

/-- A free list is emptied. -/
theorem Invariant.collect (h : Invariant size m) {k : Fin 3} :
    Invariant size { m with
      freelist := Function.update m.freelist t (Function.update (m.freelist t) k none) } where
  wired := by
    refine ⟨h.wired.head, h.wired.tail, h.wired.next, fun u l b hb => ?_, h.wired.closed,
      h.wired.raw⟩
    change Function.update m.freelist t (Function.update (m.freelist t) k none) u l = some b at hb
    by_cases hu : u = t
    · subst hu
      rw [Function.update_self, Function.update_apply] at hb
      split at hb
      · cases hb
      · exact h.wired.free u l b hb
    · rw [Function.update_of_ne hu] at hb
      exact h.wired.free u l b hb
  ticketed := h.ticketed.of_eq rfl rfl rfl
  ledger := h.ledger.of_eq rfl rfl rfl rfl rfl rfl

end

/-! ### A new ring -/

/-- The memory with a new ring for thread `t`, and its item in it. -/
def Memory.newRing (m : Memory V T) (t : T) (v : V) : Memory V T := { m with
  ring := Function.update m.ring m.allocated ((init_ring V).solo v)
  allocated := m.allocated + 1
  owner := Function.update m.owner m.allocated (some t)
  issued := Function.update m.issued m.allocated 1 }

theorem Memory.newRing_ring (m : Memory V T) (t : T) (v : V) (r : Nat) :
    (m.newRing t v).ring r = if r = m.allocated then (init_ring V).solo v else m.ring r :=
  Function.update_apply ..

theorem Memory.newRing_owner (m : Memory V T) (t : T) (v : V) (r : Nat) :
    (m.newRing t v).owner r = if r = m.allocated then some t else m.owner r :=
  Function.update_apply ..

theorem Memory.newRing_issued (m : Memory V T) (t : T) (v : V) (r : Nat) :
    (m.newRing t v).issued r = if r = m.allocated then 1 else m.issued r :=
  Function.update_apply ..

/-- The new ring is not linked yet. -/
theorem Memory.newRing_linked (m : Memory V T) (t : T) (v : V) (r : Nat) :
    (m.newRing t v).Linked r ↔ m.Linked r := by
  unfold Linked
  rw [newRing_owner]
  show r < m.allocated + 1 ∧ _ ↔ _
  split
  · rename_i heq
    exact iff_of_false (fun hh => Option.some_ne_none t hh.2)
      fun hh => absurd hh.1 (Nat.not_lt.mpr (Nat.le_of_eq heq.symm))
  · rename_i hne
    refine and_congr_left fun _ => ?_
    omega

theorem Memory.Linked.ne_allocated {r : Nat} (h : m.Linked r) : r ≠ m.allocated :=
  Nat.ne_of_lt h.1

theorem Memory.Linked.newRing_ring {r : Nat} (h : m.Linked r) (t : T) (v : V) :
    (m.newRing t v).ring r = m.ring r :=
  (Memory.newRing_ring m t v r).trans (if_neg h.ne_allocated)

/-- The array of a new ring. -/
theorem solo_array (v : V) (j : Nat) : ((init_ring V).solo v).array j =
    { val := if j = 0 then some v else none, idx := j, isUnsafe := false } := by
  show Function.update (init_ring V).array 0 _ j = _
  rw [Function.update_apply]
  split
  · rename_i hj
    rw [hj]
  · rfl

theorem Invariant.newRing (h : Invariant size m) : Invariant size (m.newRing t v) where
  wired := by
    constructor
    case head => exact (m.newRing_linked t v _).mpr h.wired.head
    case tail => exact (m.newRing_linked t v _).mpr h.wired.tail
    case next =>
      intro r b hb
      rw [Memory.newRing_ring] at hb
      split at hb
      · cases hb
      · exact (m.newRing_linked t v b).mpr (h.wired.next r b hb)
    case free => exact fun u k b hb => (m.newRing_linked t v b).mpr (h.wired.free u k b hb)
    case closed =>
      intro r b hb
      rw [Memory.newRing_ring] at hb ⊢
      split at hb
      · cases hb
      · rename_i hne
        rw [if_neg hne]
        exact h.wired.closed r b hb
    case raw =>
      intro r hr
      have hne : r ≠ m.allocated := Nat.ne_of_gt hr
      rw [Memory.newRing_ring, Memory.newRing_owner, Memory.newRing_issued, if_neg hne, if_neg hne,
        if_neg hne]
      exact h.wired.raw r (Nat.le_of_lt hr)
  ticketed := by
    constructor
    case cells =>
      intro r j hj
      rw [Memory.newRing_ring]
      split
      · rw [solo_array]
        exact Nat.mod_eq_of_lt hj
      · exact h.ticketed.cells r j hj
    case issued =>
      intro r
      rw [Memory.newRing_ring, Memory.newRing_issued]
      split
      · exact Nat.le_refl 1
      · exact h.ticketed.issued r
    case given =>
      intro r i hi
      have hold := h.ticketed.given r i hi
      rw [Memory.newRing_ring]
      split
      · rename_i heq
        rw [(h.wired.raw r (Nat.le_of_eq heq.symm)).1] at hold
        exact hold
      · exact hold
    case shut =>
      intro r i hi hnone
      rw [Memory.newRing_ring] at hi ⊢
      split at hi
      · cases hi
      · rename_i hne
        rw [if_neg hne]
        exact h.ticketed.shut r i hi hnone
  ledger := by
    refine h.ledger.frame (fun r hr => by rw [hr.newRing_ring]) (m.newRing_linked t v)
      (fun r hr => ?_)
      (fun r hr => Nat.le_of_eq (by rw [hr.newRing_ring])) rfl rfl
    exact Nat.le_of_eq (by rw [Memory.newRing_issued, if_neg hr.ne_allocated])

theorem Forward.newRing (m : Memory V T) (t : T) (v : V) : Forward size m (m.newRing t v) where
  linked r hr := (m.newRing_linked t v r).mpr hr
  grows r hr := by
    rw [hr.newRing_ring]
    exact .refl _
  issued r hr := Nat.le_of_eq ((m.newRing_issued t v r).trans (if_neg hr.ne_allocated)).symm
  sealed r hr _ := by
    rw [Memory.newRing_issued, if_neg hr.ne_allocated]
  given r h hr hge hlt := by
    rw [hr.newRing_ring] at hlt
    exact absurd hlt (Nat.not_lt.mpr hge)
  done _ _ _ hh := .inl hh

theorem Rely.newRing (hw : Wired m) : Rely size me m (m.newRing t v) where
  toForward := .newRing m t v
  handle := rfl
  holder _ _ := Iff.rfl
  owner n hn := by
    have hne : n ≠ m.allocated := by
      rintro rfl
      rw [(hw.raw _ (Nat.le_refl _)).2.1] at hn
      cases hn
    rw [Memory.newRing_owner, Memory.newRing_ring, Memory.newRing_issued, if_neg hne, if_neg hne,
      if_neg hne]
    exact ⟨hn, rfl, rfl⟩

/-! ### A ring is appended -/

/-- The memory after ring `nrq` has been appended to `rq`. -/
def Memory.link (m : Memory V T) (rq nrq : Nat) (v : V) : Memory V T :=
  { m.modify rq (fun g => { g with next := some nrq }) with
    owner := Function.update m.owner nrq none,
    accepted := { ring := nrq, ticket := 0, val := v } :: m.accepted }

section Link

theorem Memory.link_ring (m : Memory V T) (rq nrq : Nat) (v : V) (r : Nat) :
    (m.link rq nrq v).ring r = if r = rq then { m.ring rq with next := some nrq } else m.ring r :=
  Function.update_apply ..

@[grind =] theorem Memory.link_head (m : Memory V T) (rq nrq : Nat) (v : V) (r : Nat) :
    ((m.link rq nrq v).ring r).head = (m.ring r).head := by
  rw [link_ring]
  split
  · rename_i hr
    rw [hr]
  · rfl

@[grind =] theorem Memory.link_tail (m : Memory V T) (rq nrq : Nat) (v : V) (r : Nat) :
    ((m.link rq nrq v).ring r).tail = (m.ring r).tail := by
  rw [link_ring]
  split
  · rename_i hr
    rw [hr]
  · rfl

@[grind =] theorem Memory.link_array (m : Memory V T) (rq nrq : Nat) (v : V) (r : Nat) :
    ((m.link rq nrq v).ring r).array = (m.ring r).array := by
  rw [link_ring]
  split
  · rename_i hr
    rw [hr]
  · rfl

@[grind =] theorem Memory.link_next (m : Memory V T) (rq nrq : Nat) (v : V) (r : Nat) :
    ((m.link rq nrq v).ring r).next = if r = rq then some nrq else (m.ring r).next := by
  rw [link_ring]
  split <;> rfl

theorem Memory.link_linked (h : Wired m) (hn : m.owner nrq = some t) (r : Nat) :
    (m.link rq nrq v).Linked r ↔ m.Linked r ∨ r = nrq := by
  have hlt := h.lt_of_owner hn
  unfold Linked
  show r < m.allocated ∧ Function.update m.owner nrq none r = none ↔ _
  grind [Function.update_apply]

theorem Invariant.link (h : Invariant size m) (hrq : m.Linked rq)
    (hclosed : (m.ring rq).tail.closed) (howner : m.owner nrq = some t)
    (hring : m.ring nrq = (init_ring V).solo v) (hissued : m.issued nrq = 1) :
    Invariant size (m.link rq nrq v) where
  wired := by
    have hl : ∀ r, (m.link rq nrq v).Linked r ↔ m.Linked r ∨ r = nrq :=
      Memory.link_linked h.wired howner
    constructor
    case head => exact (hl _).mpr (.inl h.wired.head)
    case tail => exact (hl _).mpr (.inl h.wired.tail)
    case next =>
      intro r b hb
      rw [Memory.link_next] at hb
      split at hb
      · exact (hl b).mpr (.inr (Option.some.inj hb).symm)
      · exact (hl b).mpr (.inl (h.wired.next r b hb))
    case free => exact fun u k b hb => (hl b).mpr (.inl (h.wired.free u k b hb))
    case closed =>
      intro r b hb
      rw [Memory.link_next] at hb
      rw [Memory.link_tail]
      split at hb
      · rename_i hr
        rw [hr]
        exact hclosed
      · exact h.wired.closed r b hb
    case raw =>
      intro r hr
      change m.allocated ≤ r at hr
      have hne : r ≠ rq := fun heq => absurd hrq.1 (Nat.not_lt.mpr (heq ▸ hr))
      have hne' : r ≠ nrq := fun heq =>
        absurd (h.wired.lt_of_owner howner) (Nat.not_lt.mpr (heq ▸ hr))
      obtain ⟨hraw, hnone, hzero⟩ := h.wired.raw r hr
      exact ⟨(m.link_ring rq nrq v r).trans ((if_neg hne).trans hraw),
        (Function.update_of_ne hne' ..).trans hnone, hzero⟩
  ticketed := by
    refine h.ticketed.frame (m.link_array rq nrq v) (m.link_head rq nrq v) (fun r => ?_) rfl
    rw [Memory.link_tail]
    exact h.ticketed.issued r
  ledger := by
    have hl : ∀ r, (m.link rq nrq v).Linked r ↔ m.Linked r ∨ r = nrq :=
      Memory.link_linked h.wired howner
    have hcell : ∀ e, (m.link rq nrq v).cellOf size e = m.cellOf size e := fun e =>
      congrFun (m.link_array rq nrq v e.ring) _
    have hnew : ∀ e ∈ m.accepted, e.ring ≠ nrq := by
      intro e he heq
      have := (h.ledger.linked e he).1.2
      rw [heq, howner] at this
      cases this
    constructor
    case linked =>
      intro e he
      rcases List.mem_cons.mp he with rfl | hold
      · exact ⟨(hl _).mpr (.inr rfl), Nat.lt_of_lt_of_eq Nat.one_pos hissued.symm⟩
      · obtain ⟨hlk, hlt⟩ := h.ledger.linked e hold
        exact ⟨(hl _).mpr (.inl hlk), hlt⟩
    case placed =>
      intro e he
      rw [hcell]
      rcases List.mem_cons.mp he with rfl | hold
      · refine .inr ?_
        unfold Memory.cellOf RingQueue.cell
        rw [hring, solo_array]
        exact ⟨Nat.zero_mod size, by rw [Nat.zero_mod, if_pos rfl]⟩
      · exact h.ledger.placed e hold
    case stored =>
      intro r hr j hj w hw
      rw [Memory.link_array] at hw ⊢
      rcases (hl r).mp hr with hold | rfl
      · exact List.mem_cons_of_mem _ (h.ledger.stored r hold j hj w hw)
      · rw [hring, solo_array] at hw ⊢
        by_cases hj₀ : j = 0
        · simp only [hj₀, if_true, Option.some.injEq] at hw
          rw [hw, hj₀]
          exact List.mem_cons_self
        · simp only [hj₀, if_false, reduceCtorEq] at hw
    case taken =>
      intro e he
      obtain ⟨hacc, hlt⟩ := h.ledger.taken e he
      rw [hcell]
      exact ⟨List.mem_cons_of_mem _ hacc, hlt⟩
    case given =>
      intro e he
      rw [Memory.link_head]
      exact h.ledger.given e he
    case accepted =>
      show ((Entry.mk nrq 0 v :: m.accepted).map Entry.place).Nodup
      rw [List.map_cons, List.nodup_cons]
      refine ⟨fun hmem => ?_, h.ledger.accepted⟩
      obtain ⟨e, he, hplace⟩ := List.mem_map.mp hmem
      exact hnew e he (Prod.mk.inj hplace).1
    case delivered => exact h.ledger.delivered

theorem Forward.link (hw : Wired m) (howner : m.owner nrq = some t) :
    Forward size m (m.link rq nrq v) where
  linked r hr := (Memory.link_linked hw howner r).mpr (.inl hr)
  grows r _ := by
    constructor
    case head => exact Nat.le_of_eq (m.link_head rq nrq v r).symm
    case tail => exact Nat.le_of_eq (congrArg Tail.idx (m.link_tail rq nrq v r).symm)
    case closed =>
      rw [Memory.link_tail]
      exact fun hc => hc
    case array =>
      rw [Memory.link_array]
      exact fun _ => .refl _
  issued _ _ := Nat.le_refl _
  sealed _ _ _ := rfl
  given r h _ hge hlt := by
    rw [Memory.link_head] at hlt
    exact absurd hlt (Nat.not_lt.mpr hge)
  done _ _ _ hh := .inl hh

theorem Rely.link (hw : Wired m) (hrq : m.Linked rq) (howner : m.owner nrq = some t)
    (ht : me ≠ t) : Rely size me m (m.link rq nrq v) where
  toForward := .link hw howner
  handle := rfl
  holder _ _ := Iff.rfl
  owner n hn := by
    have hne : n ≠ rq := by
      rintro rfl
      rw [hrq.2] at hn
      cases hn
    have hne' : n ≠ nrq := by
      rintro rfl
      exact ht (Option.some.inj (hn.symm.trans howner))
    exact ⟨(Function.update_of_ne hne' ..).trans hn, (m.link_ring rq nrq v n).trans (if_neg hne),
      rfl⟩

end Link

/-! ### A ring is retired -/

variable [DecidableEq T]

/-- The memory after thread `t` has put `rq` on its free list. -/
def Memory.unlink (m : Memory V T) (rq : Nat) (t : T) : Memory V T :=
  { m.modify rq (fun g => { g with next := m.freelist t (m.epoch t) }) with
    freelist := Function.update m.freelist t
      (Function.update (m.freelist t) (m.epoch t) (some rq)),
    retired := rq :: m.retired }

section Unlink

theorem Memory.unlink_ring (m : Memory V T) (rq : Nat) (t : T) (r : Nat) :
    (m.unlink rq t).ring r =
      if r = rq then { m.ring rq with next := m.freelist t (m.epoch t) } else m.ring r :=
  Function.update_apply ..

@[grind =] theorem Memory.unlink_head (m : Memory V T) (rq : Nat) (t : T) (r : Nat) :
    ((m.unlink rq t).ring r).head = (m.ring r).head := by
  rw [unlink_ring]
  split
  · rename_i hr
    rw [hr]
  · rfl

@[grind =] theorem Memory.unlink_tail (m : Memory V T) (rq : Nat) (t : T) (r : Nat) :
    ((m.unlink rq t).ring r).tail = (m.ring r).tail := by
  rw [unlink_ring]
  split
  · rename_i hr
    rw [hr]
  · rfl

@[grind =] theorem Memory.unlink_array (m : Memory V T) (rq : Nat) (t : T) (r : Nat) :
    ((m.unlink rq t).ring r).array = (m.ring r).array := by
  rw [unlink_ring]
  split
  · rename_i hr
    rw [hr]
  · rfl

@[grind =] theorem Memory.unlink_next (m : Memory V T) (rq : Nat) (t : T) (r : Nat) :
    ((m.unlink rq t).ring r).next =
      if r = rq then m.freelist t (m.epoch t) else (m.ring r).next := by
  rw [unlink_ring]
  split <;> rfl

theorem Invariant.unlink (h : Invariant size m) (hrq : m.Linked rq)
    (hclosed : (m.ring rq).tail.closed) : Invariant size (m.unlink rq t) where
  wired := by
    constructor
    case head => exact h.wired.head
    case tail => exact h.wired.tail
    case next =>
      intro r b hb
      rw [Memory.unlink_next] at hb
      split at hb
      · exact h.wired.free t _ b hb
      · exact h.wired.next r b hb
    case free =>
      intro u k b hb
      change Function.update m.freelist t (Function.update (m.freelist t) (m.epoch t) (some rq))
        u k = some b at hb
      by_cases hu : u = t
      · subst hu
        rw [Function.update_self, Function.update_apply] at hb
        split at hb
        · exact Option.some.inj hb ▸ hrq
        · exact h.wired.free u k b hb
      · rw [Function.update_of_ne hu] at hb
        exact h.wired.free u k b hb
    case closed =>
      intro r b hb
      rw [Memory.unlink_next] at hb
      rw [Memory.unlink_tail]
      split at hb
      · rename_i hr
        rw [hr]
        exact hclosed
      · exact h.wired.closed r b hb
    case raw =>
      intro r hr
      have hne : r ≠ rq := fun heq => absurd hrq.1 (Nat.not_lt.mpr (heq ▸ hr))
      rw [Memory.unlink_ring, if_neg hne]
      exact h.wired.raw r hr
  ticketed := by
    refine h.ticketed.frame (m.unlink_array rq t) (m.unlink_head rq t) (fun r => ?_) rfl
    rw [Memory.unlink_tail]
    exact h.ticketed.issued r
  ledger := h.ledger.frame (fun r _ => m.unlink_array rq t r) (fun _ => Iff.rfl)
    (fun _ _ => Nat.le_refl _)
    (fun r _ => Nat.le_of_eq (m.unlink_head rq t r).symm) rfl rfl

theorem Forward.unlink (m : Memory V T) (rq : Nat) (t : T) :
    Forward size m (m.unlink rq t) where
  linked r hr := hr
  grows r _ := by
    constructor
    case head => exact Nat.le_of_eq (m.unlink_head rq t r).symm
    case tail => exact Nat.le_of_eq (congrArg Tail.idx (m.unlink_tail rq t r).symm)
    case closed =>
      rw [Memory.unlink_tail]
      exact fun hc => hc
    case array =>
      rw [Memory.unlink_array]
      exact fun _ => .refl _
  issued _ _ := Nat.le_refl _
  sealed _ _ _ := rfl
  given r h _ hge hlt := by
    rw [Memory.unlink_head] at hlt
    exact absurd hlt (Nat.not_lt.mpr hge)
  done _ _ _ hh := .inl hh

theorem Rely.unlink (hrq : m.Linked rq) : Rely size me m (m.unlink rq t) where
  toForward := .unlink m rq t
  handle := rfl
  holder _ _ := Iff.rfl
  owner n hn := by
    have hne : n ≠ rq := by
      rintro rfl
      rw [hrq.2] at hn
      cases hn
    exact ⟨hn, (m.unlink_ring rq t n).trans (if_neg hne), rfl⟩

end Unlink

end Ksi.Lcrq

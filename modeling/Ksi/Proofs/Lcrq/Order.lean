/-
The order of the rings.

Rings are numbered as they are allocated, and a ring is allocated for the ring it is to
follow, so that the links go upwards.  While no ring is retired too early the link of each
ring leads to the next one of the queue: `q->head` walks over all of them, and a ring it
has passed is closed and drained.

Retiring a ring overwrites its link.  An enqueuer that still holds the ring may then take
it for the last one and append its item to it, where nobody looks.  `Careful` says that no
enqueuer follows, or compares and swaps, the link of a ring that has been retired.
-/
import Ksi.Proofs.Lcrq.Conservation

namespace Ksi.Lcrq

open Relation Runs

variable {V T : Type} {m m' : Memory V T} {size : Nat} {me : T}

/-- The ring whose link an enqueuer is about to use. -/
def Pc.follows : Pc V → Option Nat
  | .enqueue (.loadNext _ _ rq) | .enqueue (.append _ _ rq _) => some rq
  | _ => none

/-- The ring has not been retired. -/
def Careful (_ : T) (m : Memory V T) (pc : Pc V) (_ : Move V) : Prop :=
  ∀ rq ∈ pc.follows, rq ∉ m.retired

instance (t : T) (m : Memory V T) (pc : Pc V) (a : Move V) : Decidable (Careful t m pc a) :=
  inferInstanceAs (Decidable (∀ rq ∈ pc.follows, rq ∉ m.retired))

/-- The links lead upwards from ring to ring, and `q->head` has passed what is behind it. -/
structure Ordered (m : Memory V T) : Prop where
  next : ∀ r b, r ∉ m.retired → (m.ring r).next = some b → r < b
  after : ∀ r c, m.Linked r → r ∉ m.retired → m.Linked c → r < c →
    ∃ b, (m.ring r).next = some b ∧ b ≤ c
  retired : ∀ r ∈ m.retired, r < m.head
  passed : ∀ r, m.Linked r → r < m.head → m.Drained r
  /-- dequeuers get to a ring by `q->head` -/
  reached : ∀ r, 0 < (m.ring r).head → r ≤ m.head
  /-- but for the one that appends it, enqueuers get to a ring by `q->tail` -/
  served : ∀ r, 1 < m.issued r → r ≤ m.tail

/-- What an enqueuer knows of the order of the rings. -/
def EnqueuePc.Placed (m : Memory V T) : EnqueuePc V → Prop
  | .loadNext _ _ rq | .ticket _ _ rq | .alloc _ _ rq | .append _ _ rq _ => rq ≤ m.tail
  | .help _ _ rq next => rq ≤ m.tail ∧ rq < next
  | .publish rq nrq => rq ≤ m.tail ∧ rq < nrq ∧ ∀ c, m.Linked c → rq < c → nrq ≤ c
  | .loadIdx _ _ rq _ | .loadVal _ _ rq _ _ _ | .loadHead _ _ rq _ _ _ | .store _ _ rq _ _ _
  | .full _ _ rq _ | .close _ _ rq _ => rq ≤ m.tail
  | .loadTail _ _ => True

/-- The ring a dequeuer is at. -/
def DequeuePc.here : DequeuePc V → Option Nat
  | .loadHead => none
  | .ticket rq | .loadIdx rq _ _ _ | .loadVal rq _ _ _ _ _ | .take rq _ _ _ _ _ _
  | .mark rq _ _ _ _ _ _ | .loadTail rq _ _ _ _ | .skip rq _ _ _ _ | .advance rq _ _ _ _
  | .close rq _ | .checkTail rq _ | .fixTail rq _ | .fixHead rq _ _ | .fixAgain rq _ _ _
  | .fixSwap rq _ _ _ | .loadNext rq _ | .recheck rq _ _ | .move rq _ | .retire rq => some rq

/-- The successor a dequeuer has loaded, if its ring has not been retired since, and that
`q->head` has passed a ring that is about to be retired. -/
def DequeuePc.Follows (m : Memory V T) : DequeuePc V → Prop
  | .recheck rq _ next | .move rq next => rq ∉ m.retired → (m.ring rq).next = some next
  | .retire rq => rq < m.head
  | _ => True

/-- What a dequeuer knows of the order of the rings. -/
structure DequeuePc.Placed (m : Memory V T) (pc : DequeuePc V) : Prop where
  here : ∀ rq ∈ pc.here, rq ≤ m.head
  follows : pc.Follows m

def Pc.Placed (m : Memory V T) : Pc V → Prop
  | .idle => True
  | .enqueue pc => pc.Placed m
  | .dequeue pc => pc.Placed m

/-- What every careful step does to the order of the rings. -/
structure Onward (m m' : Memory V T) : Prop where
  head : m.head ≤ m'.head
  tail : m.tail ≤ m'.tail
  retired : ∀ r ∈ m.retired, r ∈ m'.retired
  next : ∀ r b, r ∉ m'.retired → (m.ring r).next = some b → (m'.ring r).next = some b
  /-- a ring that is appended follows all others -/
  linked : ∀ c, m'.Linked c → m.Linked c ∨ ∀ r, m.Linked r → r < c

/-- What a careful step from `m` has to leave behind. -/
structure InOrder (m : Memory V T) (r : Memory V T × Pc V) : Prop where
  ordered : Ordered r.1
  placed : r.2.Placed r.1
  onward : Onward m r.1

/-! ### Steps that touch no link -/

/-- The links, `q->head` and `q->tail` are as they were. -/
structure Quiet (m m' : Memory V T) : Prop where
  next : ∀ r, (m'.ring r).next = (m.ring r).next
  linked : ∀ r, m'.Linked r ↔ m.Linked r
  retired : m'.retired = m.retired
  head : m'.head = m.head
  tail : m'.tail = m.tail

theorem Quiet.refl (m : Memory V T) : Quiet m m :=
  ⟨fun _ => rfl, fun _ => Iff.rfl, rfl, rfl, rfl⟩

theorem Quiet.onward (h : Quiet m m') : Onward m m' where
  head := Nat.le_of_eq h.head.symm
  tail := Nat.le_of_eq h.tail.symm
  retired r hr := by
    rw [h.retired]
    exact hr
  next r b _ hb := (h.next r).trans hb
  linked c hc := .inl ((h.linked c).mp hc)

theorem Quiet.ordered (h : Quiet m m') (ho : Ordered m) (hf : Forward size m m')
    (hreached : ∀ r, 0 < (m'.ring r).head → r ≤ m.head)
    (hserved : ∀ r, 1 < m'.issued r → r ≤ m.tail) : Ordered m' where
  next r b hr hb := by
    rw [h.retired] at hr
    rw [h.next] at hb
    exact ho.next r b hr hb
  after r c hr hret hc hlt := by
    rw [h.retired] at hret
    rw [h.next]
    exact ho.after r c ((h.linked r).mp hr) hret ((h.linked c).mp hc) hlt
  retired r hr := by
    rw [h.retired] at hr
    rw [h.head]
    exact ho.retired r hr
  passed r hr hlt := by
    rw [h.head] at hlt
    have hr := (h.linked r).mp hr
    exact (ho.passed r hr hlt).mono hf hr
  reached r hr := by
    rw [h.head]
    exact hreached r hr
  served r hr := by
    rw [h.tail]
    exact hserved r hr

/-- Where a thread is does not change by such a step. -/
theorem Quiet.placed {pc : Pc V} (h : Quiet m m') (hp : pc.Placed m) : pc.Placed m' := by
  cases pc with
  | idle => trivial
  | enqueue pc =>
      have htail : ∀ {rq}, rq ≤ m.tail → rq ≤ m'.tail := fun hle => h.tail ▸ hle
      cases pc with
      | loadTail v n => trivial
      | help v n rq next => exact ⟨htail hp.1, hp.2⟩
      | publish rq nrq =>
          exact ⟨htail hp.1, hp.2.1, fun c hc hlt => hp.2.2 c ((h.linked c).mp hc) hlt⟩
      | _ => exact htail hp
  | dequeue pc =>
      refine ⟨fun rq hrq => h.head ▸ hp.here rq hrq, ?_⟩
      have hfollows := hp.follows
      cases pc with
      | recheck rq t next =>
          exact fun hr => (h.next rq).trans (hfollows fun hr' => hr (h.retired ▸ hr'))
      | move rq next => exact fun hr => (h.next rq).trans (hfollows fun hr' => hr (h.retired ▸ hr'))
      | retire rq => exact Nat.lt_of_lt_of_eq hfollows h.head.symm
      | _ => trivial

/-- What a thread knows of the order is stable under the steps of the others. -/
theorem Pc.Placed.stable {pc : Pc V} (h : pc.Placed m) (hk : Knows size me m pc)
    (hon : Onward m m') : pc.Placed m' := by
  have htail : ∀ {rq}, rq ≤ m.tail → rq ≤ m'.tail := fun hle => Nat.le_trans hle hon.tail
  cases pc with
  | idle => trivial
  | enqueue pc =>
      cases pc with
      | loadTail v n => trivial
      | help v n rq next => exact ⟨htail h.1, h.2⟩
      | publish rq nrq =>
          refine ⟨htail h.1, h.2.1, fun c hc hlt => ?_⟩
          rcases hon.linked c hc with hold | hnew
          · exact h.2.2 c hold hlt
          · exact Nat.le_of_lt (hnew nrq hk.ok.2.1)
      | _ => exact htail h
  | dequeue pc =>
      refine ⟨fun rq hrq => Nat.le_trans (h.here rq hrq) hon.head, ?_⟩
      have hfollows := h.follows
      cases pc with
      | recheck rq t next =>
          exact fun hr => hon.next rq next hr (hfollows fun hr' => hr (hon.retired rq hr'))
      | move rq next =>
          exact fun hr => hon.next rq next hr (hfollows fun hr' => hr (hon.retired rq hr'))
      | retire rq => exact Nat.lt_of_lt_of_le hfollows hon.head
      | _ => trivial

/-- A step that only loads. -/
theorem InOrder.load {pc : Pc V} (ho : Ordered m) (hp : pc.Placed m) : InOrder m (m, pc) :=
  ⟨ho, hp, (Quiet.refl m).onward⟩

/-- A step that touches no link, and gives no dequeue ticket. -/
theorem InOrder.quiet {pc : Pc V} (hq : Quiet m m') (ho : Ordered m) (hf : Forward size m m')
    (hhead : ∀ r, (m'.ring r).head = (m.ring r).head) (hserved : ∀ r, 1 < m'.issued r → r ≤ m.tail)
    (hp : pc.Placed m') : InOrder m (m', pc) where
  ordered := hq.ordered ho hf (fun r hr => ho.reached r (hhead r ▸ hr)) hserved
  placed := hp
  onward := hq.onward

variable {rq nrq : Nat}

/-- A ring without a successor is the last one. -/
theorem Ordered.le_of_last (ho : Ordered m) (hrq : m.Linked rq) (hret : rq ∉ m.retired)
    (hnext : (m.ring rq).next = none) {c : Nat} (hc : m.Linked c) : c ≤ rq := by
  refine Nat.le_of_not_lt fun hlt => ?_
  obtain ⟨b, hb, -⟩ := ho.after rq c hrq hret hc hlt
  rw [hnext] at hb
  cases hb

variable {t : T} {v : V}

/-- A store to `tail` of a ring. -/
theorem InOrder.setTail {pc : Pc V} {tl : Tail} (ho : Ordered m)
    (hidx : (m.ring rq).tail.idx ≤ tl.idx) (hclosed : (m.ring rq).tail.closed → tl.closed)
    (hp : pc.Placed m) : InOrder m (m.setTail rq tl, pc) := by
  have hq : Quiet m (m.setTail rq tl) :=
    ⟨fun r => m.setTail_next rq r tl, fun _ => Iff.rfl, rfl, rfl, rfl⟩
  have hf : Forward 0 m (m.setTail rq tl) := .setTail_only hidx hclosed
  exact .quiet hq ho hf (fun r => m.setTail_head rq r tl) ho.served (hq.placed hp)

/-- A dequeuer leaves its cell. -/
theorem InOrder.leave {pc : Pc V} {h : Nat} {c : RingNode V} {d : List (Entry V)}
    (ho : Ordered m) (hc : ((m.ring rq).cell size h).Left size h c) (hp : pc.Placed m) :
    InOrder m ({ m.leave size rq h c with delivered := d }, pc) := by
  have hq : Quiet m { m.leave size rq h c with delivered := d } :=
    ⟨fun r => m.setCell_next rq _ r c, fun _ => Iff.rfl, rfl, rfl, rfl⟩
  exact .quiet hq ho (.leave hc) (fun r => m.setCell_head rq _ r c) ho.served (hq.placed hp)

theorem Quiet.newRing (hw : Wired m) : Quiet m (m.newRing t v) := by
  refine ⟨fun r => ?_, m.newRing_linked t v, rfl, rfl, rfl⟩
  rw [Memory.newRing_ring]
  split
  · rename_i hr
    rw [(hw.raw r (Nat.le_of_eq hr.symm)).1]
    rfl
  · rfl

/-! ### Steps that change links -/

/-- A ring is appended to the last one. -/
theorem InOrder.link {pc : Pc V} (ho : Ordered m) (hinv : Invariant size m) (hrq : m.Linked rq)
    (hret : rq ∉ m.retired) (hnext : (m.ring rq).next = none) (hlt : rq < nrq)
    (howner : m.owner nrq = some t) (hp : pc.Placed (m.link rq nrq v)) :
    InOrder m (m.link rq nrq v, pc) := by
  have hl : ∀ r, (m.link rq nrq v).Linked r ↔ m.Linked r ∨ r = nrq :=
    Memory.link_linked hinv.wired howner
  have hlast : ∀ c, m.Linked c → c ≤ rq := fun c hc => ho.le_of_last hrq hret hnext hc
  have hf : Forward size m (m.link rq nrq v) := .link hinv.wired howner
  refine ⟨⟨?_, ?_, ho.retired, ?_, ?_, ho.served⟩, hp, Nat.le_refl _, Nat.le_refl _,
    fun _ hr => hr, ?_, ?_⟩
  · intro r b hr hb
    rw [Memory.link_next] at hb
    split at hb
    · rename_i heq
      rw [heq, ← Option.some.inj hb]
      exact hlt
    · exact ho.next r b hr hb
  · intro r c hr hr' hc hrc
    rw [Memory.link_next]
    rcases (hl r).mp hr with hrm | rfl
    · split
      · rename_i heq
        subst heq
        refine ⟨nrq, rfl, ?_⟩
        rcases (hl c).mp hc with hc | rfl
        · exact absurd hrc (Nat.not_lt.mpr (hlast c hc))
        · exact Nat.le_refl c
      · rename_i hne
        rcases (hl c).mp hc with hc | rfl
        · exact ho.after r c hrm hr' hc hrc
        · obtain ⟨b, hb, hle⟩ :=
            ho.after r rq hrm hr' hrq (Nat.lt_of_le_of_ne (hlast r hrm) hne)
          exact ⟨b, hb, Nat.le_trans hle (Nat.le_of_lt hlt)⟩
    · -- nothing follows the new ring
      rcases (hl c).mp hc with hc | rfl
      · exact absurd (Nat.lt_trans hlt hrc) (Nat.not_lt.mpr (hlast c hc))
      · exact absurd hrc (Nat.lt_irrefl c)
  · intro r hr hrh
    rcases (hl r).mp hr with hr | rfl
    · exact (ho.passed r hr hrh).mono hf hr
    · exact absurd (Nat.lt_trans hlt hrh) (Nat.not_lt.mpr (hlast _ hinv.wired.head))
  · intro r hr
    rw [Memory.link_head] at hr
    exact ho.reached r hr
  · intro r b _ hb
    rw [Memory.link_next]
    split
    · rename_i heq
      rw [heq, hnext] at hb
      cases hb
    · exact hb
  · intro c hc
    rcases (hl c).mp hc with hc | rfl
    · exact .inl hc
    · exact .inr fun r hr => Nat.lt_of_le_of_lt (hlast r hr) hlt

/-- `q->tail` moves on. -/
theorem InOrder.moveTail {pc : Pc V} {handle : T → Option Nat} (ho : Ordered m)
    (hle : m.tail ≤ rq) (hp : pc.Placed { m with tail := rq, handle := handle }) :
    InOrder m ({ m with tail := rq, handle := handle }, pc) where
  ordered := ⟨ho.next, ho.after, ho.retired, ho.passed, ho.reached,
    fun r hr => Nat.le_trans (ho.served r hr) hle⟩
  placed := hp
  onward := ⟨Nat.le_refl _, hle, fun _ hr => hr, fun _ _ _ hb => hb, fun _ hc => .inl hc⟩

/-- `q->head` moves on from a drained ring to the one after it. -/
theorem InOrder.moveHead {pc : Pc V} (ho : Ordered m) (hlt : m.head < nrq)
    (hdrained : m.Drained m.head)
    (hafter : ∀ c, m.Linked c → m.head < c → nrq ≤ c)
    (hp : pc.Placed { m with head := nrq }) : InOrder m ({ m with head := nrq }, pc) where
  ordered := by
    refine ⟨ho.next, ho.after, fun r hr => Nat.lt_trans (ho.retired r hr) hlt, fun r hr hrn => ?_,
      fun r hr => Nat.le_trans (ho.reached r hr) (Nat.le_of_lt hlt), ho.served⟩
    change r < nrq at hrn
    show m.Drained r
    rcases Nat.lt_trichotomy r m.head with hlt | heq | hgt
    · exact ho.passed r hr hlt
    · exact heq ▸ hdrained
    · exact absurd hrn (Nat.not_lt.mpr (hafter r hr hgt))
  placed := hp
  onward := ⟨Nat.le_of_lt hlt, Nat.le_refl _, fun _ hr => hr, fun _ _ _ hb => hb,
    fun _ hc => .inl hc⟩

variable [DecidableEq T]

/-- A ring that `q->head` has passed is retired. -/
theorem InOrder.unlink {pc : Pc V} (ho : Ordered m) (hlt : rq < m.head)
    (hp : pc.Placed (m.unlink rq t)) : InOrder m (m.unlink rq t, pc) := by
  have hnext : ∀ r, r ∉ rq :: m.retired → ((m.unlink rq t).ring r).next = (m.ring r).next := by
    intro r hr
    have hne : r ≠ rq := by
      rintro rfl
      exact hr List.mem_cons_self
    rw [Memory.unlink_next, if_neg hne]
  have hf : Forward 0 m (m.unlink rq t) := .unlink m rq t
  have hold : ∀ r, r ∉ rq :: m.retired → r ∉ m.retired := fun r hr hr' =>
    hr (List.mem_cons_of_mem rq hr')
  refine ⟨⟨?_, ?_, ?_, ?_, ?_, ho.served⟩, hp, Nat.le_refl _, Nat.le_refl _,
    fun r hr => List.mem_cons_of_mem rq hr, ?_, fun _ hc => .inl hc⟩
  · intro r b hr hb
    rw [hnext r hr] at hb
    exact ho.next r b (hold r hr) hb
  · intro r c hr hr' hc hrc
    rw [hnext r hr']
    exact ho.after r c hr (hold r hr') hc hrc
  · intro r hr
    rcases List.mem_cons.mp hr with rfl | hr
    · exact hlt
    · exact ho.retired r hr
  · exact fun r hr hrh => (ho.passed r hr hrh).mono hf hr
  · intro r hr
    rw [Memory.unlink_head] at hr
    exact ho.reached r hr
  · intro r b hr hb
    exact (hnext r hr).trans hb

/-! ### Steps -/

section Steps

variable [DecidableEq V]

/-- The step of an enqueuer, if it is careful. -/
theorem enqueue_inOrder (hinv : Invariant size m) (ho : Ordered m) {pc : EnqueuePc V}
    (hk : Knows size me m (.enqueue pc)) (hp : pc.Placed m)
    (hc : Careful me m (.enqueue pc) .next) : InOrder m (stepEnqueue size me m pc) := by
  have hok := hk.ok
  cases pc with
  | loadTail v n => exact .load ho (Nat.le_refl m.tail)
  | loadNext v n rq =>
      simp only [stepEnqueue]
      split
      · rename_i next hnext
        exact .load ho ⟨hp, ho.next rq next (hc rq rfl) hnext⟩
      · exact .load ho hp
  | help v n rq next =>
      simp only [stepEnqueue]
      split
      · rename_i htail
        exact .moveTail ho (htail ▸ Nat.le_of_lt hp.2) trivial
      · exact .load ho trivial
  | ticket v n rq =>
      have hf := (enqueue_kept hinv hk).forward
      simp only [stepEnqueue] at hf ⊢
      split
      · exact .setTail ho (Nat.le_succ _) (fun hcl => hcl) hp
      · rename_i hopen
        rw [if_neg hopen] at hf
        refine .quiet ⟨fun r => m.setTail_next rq r _, fun _ => Iff.rfl, rfl, rfl, rfl⟩ ho hf
          (fun r => m.setTail_head rq r _) (fun r hr => ?_) hp
        change 1 < Function.update m.issued rq _ r at hr
        rw [Function.update_apply] at hr
        split at hr
        · rename_i heq
          exact heq ▸ hp
        · exact ho.served r hr
  | alloc v n rq =>
      rw [stepEnqueue_alloc hk.handle]
      have hf : Forward size m (m.newRing me v) := .newRing m me v
      refine .quiet (.newRing hinv.wired) ho hf (fun r => ?_) (fun r hr => ?_) hp
      · rw [Memory.newRing_ring]
        split
        · rename_i hr
          rw [(hinv.wired.raw r (Nat.le_of_eq hr.symm)).1]
          rfl
        · rfl
      · rw [Memory.newRing_issued] at hr
        split at hr
        · exact absurd hr (Nat.lt_irrefl 1)
        · exact ho.served r hr
  | append v n rq nrq =>
      obtain ⟨hrq, -, hlt, howner, -, -⟩ := hok
      have hret : rq ∉ m.retired := hc rq rfl
      simp only [stepEnqueue]
      split
      · rename_i hnext
        refine .link ho hinv hrq hret hnext hlt howner ⟨hp, hlt, fun c hcl hgt => ?_⟩
        rcases (Memory.link_linked hinv.wired howner c).mp hcl with hold | heq
        · exact absurd hgt (Nat.not_lt.mpr (ho.le_of_last hrq hret hnext hold))
        · exact Nat.le_of_eq heq.symm
      · exact .load ho trivial
  | publish rq nrq =>
      simp only [stepEnqueue]
      split
      · rename_i htail
        exact .moveTail ho (htail ▸ Nat.le_of_lt hp.2.1) trivial
      · exact .moveTail ho (Nat.le_refl _) trivial
  | loadIdx v n rq t => exact .load ho hp
  | loadVal v n rq t i u =>
      simp only [stepEnqueue]
      split
      · refine .load ho ?_
        split
        · exact hp
        · exact hp
      · exact .load ho hp
  | loadHead v n rq t i u =>
      simp only [stepEnqueue]
      refine .load ho ?_
      split
      · exact hp
      · exact hp
  | store v n rq t i u =>
      obtain ⟨hrq, -, -, hit, -⟩ := hok
      simp only [stepEnqueue]
      split
      · rename_i hcell
        exact .quiet ⟨fun r => m.setCell_next rq _ r _, fun _ => Iff.rfl, rfl, rfl, rfl⟩ ho
          (.fill hit hcell) (fun r => m.setCell_head rq _ r _) ho.served trivial
      · exact .load ho hp
  | full v n rq t =>
      simp only [stepEnqueue]
      refine .load ho ?_
      split
      · exact hp
      · trivial
  | close v n rq t =>
      simp only [stepEnqueue]
      split
      · split
        · rename_i htail
          exact .setTail ho (Nat.le_of_eq (by rw [htail])) (fun _ => rfl) hp
        · exact .load ho trivial
      · refine .setTail ho (Nat.le_refl _) (fun _ => rfl) ?_
        split
        · trivial
        · exact hp

/-- The step of a dequeuer. -/
theorem dequeue_inOrder (hsize : 0 < size) (hinv : Invariant size m) (ho : Ordered m)
    {pc : DequeuePc V} (hk : Knows size me m (.dequeue pc)) (hp : pc.Placed m) :
    InOrder m (stepDequeue size me m pc) := by
  have hok := hk.ok
  have hf := (dequeue_kept hsize hinv hk).forward
  -- a step within the same ring
  have stay : ∀ {pc' : DequeuePc V}, pc'.here = pc.here → pc'.Follows m → pc'.Placed m :=
    fun hhere hfollows => ⟨fun rq hrq => hp.here rq (hhere ▸ hrq), hfollows⟩
  have start : DequeuePc.Placed m (.loadHead : DequeuePc V) :=
    ⟨fun rq hrq => absurd hrq (Option.not_mem_none rq), trivial⟩
  have empty : ∀ {rq h r i : Nat} {tt : Tail} {u : Bool}, pc.here = some rq →
      DequeuePc.Placed m (onEmpty rq h tt r i u : DequeuePc V) := by
    intro rq h r i tt u hhere
    unfold onEmpty
    split
    · exact stay hhere.symm trivial
    · split
      · exact stay hhere.symm trivial
      · exact stay hhere.symm trivial
  cases pc with
  | loadHead =>
      exact .load ho ⟨fun rq hrq => Nat.le_of_eq (Option.some.inj hrq).symm, trivial⟩
  | ticket rq =>
      have hq : Quiet m (m.takeTicket rq me) :=
        ⟨fun r => m.takeTicket_next rq r me, fun _ => Iff.rfl, rfl, rfl, rfl⟩
      refine ⟨hq.ordered ho hf (fun r hr => ?_) ho.served, hq.placed (stay rfl trivial),
        hq.onward⟩
      rw [Memory.takeTicket_head] at hr
      split at hr
      · rename_i heq
        exact heq ▸ hp.here rq rfl
      · exact ho.reached r hr
  | loadIdx rq h tt r => exact .load ho (stay rfl trivial)
  | loadVal rq h tt r i u =>
      simp only [stepDequeue] at hf ⊢
      split
      · rename_i hlt
        rw [if_pos hlt] at hf
        have hq : Quiet m (m.setHolder rq h none) :=
          ⟨fun _ => rfl, fun _ => Iff.rfl, rfl, rfl, rfl⟩
        exact .quiet hq ho hf (fun _ => rfl) ho.served (hq.placed (stay rfl trivial))
      · split
        · refine .load ho ?_
          split
          · exact stay rfl trivial
          · exact stay rfl trivial
        · split
          · exact .load ho (stay rfl trivial)
          · exact .load ho (empty rfl)
  | take rq h tt r v i u =>
      obtain ⟨hrq, rfl⟩ := hok
      simp only [stepDequeue]
      split
      · rename_i hcell
        exact .leave ho (left_next hsize hcell (Nat.le_refl i)) trivial
      · exact .load ho (stay rfl trivial)
  | mark rq h tt r v i u =>
      simp only [stepDequeue]
      split
      · rename_i hcell
        have hmod := hinv.ticketed.cell_mod hsize rq h
        exact .leave ho (left_mark hcell hok.2 hmod) (stay rfl trivial)
      · exact .load ho (stay rfl trivial)
  | loadTail rq h r i u => exact .load ho (empty rfl)
  | skip rq h tt r i =>
      simp only [stepDequeue]
      split
      · rename_i hcell
        exact .leave ho (left_next hsize hcell hok.2) (stay rfl trivial)
      · exact .load ho (stay rfl trivial)
  | advance rq h tt r i =>
      simp only [stepDequeue]
      split
      · rename_i hcell
        refine .leave ho (left_next hsize hcell hok.2) ?_
        split
        · exact stay rfl trivial
        · exact stay rfl trivial
      · exact .load ho (stay rfl trivial)
  | close rq h => exact .setTail ho (Nat.le_refl _) (fun _ => rfl) (stay rfl trivial)
  | checkTail rq h =>
      simp only [stepDequeue]
      refine .load ho ?_
      split
      · exact stay rfl trivial
      · exact start
  | fixTail rq h => exact .load ho (stay rfl trivial)
  | fixHead rq h t => exact .load ho (stay rfl trivial)
  | fixAgain rq h t hd =>
      simp only [stepDequeue]
      split
      · refine .load ho ?_
        split
        · exact stay rfl trivial
        · exact stay rfl trivial
      · exact .load ho (stay rfl trivial)
  | fixSwap rq h t hd =>
      obtain ⟨-, -, hbehind, hopen⟩ := hok
      simp only [stepDequeue]
      split
      · rename_i htail
        refine .setTail ho ?_ (fun hcl => ?_) (stay rfl trivial)
        · rw [htail]
          exact Nat.le_of_lt hbehind
        · rw [htail] at hcl
          exact absurd hcl hopen
      · exact .load ho (stay rfl trivial)
  | loadNext rq h =>
      simp only [stepDequeue]
      split
      · exact .load ho trivial
      · rename_i next hnext
        exact .load ho (stay rfl fun _ => hnext)
  | recheck rq h next =>
      simp only [stepDequeue]
      refine .load ho ?_
      split
      · exact stay rfl hp.follows
      · exact start
  | move rq next =>
      obtain ⟨hrq, hnext, hdrained⟩ := hok
      simp only [stepDequeue]
      split
      · rename_i hhead
        have hret : rq ∉ m.retired := fun hr => Nat.ne_of_lt (ho.retired rq hr) hhead.symm
        have hlink := hp.follows hret
        have hlt := ho.next rq next hret hlink
        subst hhead
        refine .moveHead ho hlt hdrained (fun c hc hgt => ?_)
          ⟨fun r hr => Option.some.inj hr ▸ Nat.le_of_lt hlt, hlt⟩
        obtain ⟨b, hb, hle⟩ := ho.after m.head c hrq hret hc hgt
        rw [hlink] at hb
        exact Option.some.inj hb ▸ hle
      · exact .load ho start
  | retire rq =>
      exact .unlink ho hp.follows ⟨fun r hr => absurd hr (Option.not_mem_none r), trivial⟩

end Steps

end Ksi.Lcrq

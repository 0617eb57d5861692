/-
The steps of the queue, within what the threads rely on.

Each step keeps the invariant of the memory, leaves its thread with what it should know,
and does nothing the other threads do not reckon with.  The rely rule makes of this what
holds in every state that any interleaving reaches.
-/
import Ksi.Proofs.Lcrq.Links

namespace Ksi.Lcrq

variable {V T : Type} {m m' : Memory V T} {size : Nat} {me : T} {pc pc' : Pc V}

/-- What a step from `m` has to leave behind. -/
structure Kept (size : Nat) (me : T) (m : Memory V T) (r : Memory V T × Pc V) : Prop where
  inv : Invariant size r.1
  knows : Knows size me r.1 r.2
  forward : Forward size m r.1
  rely : ∀ u, u ≠ me → Rely size u m r.1

/-- A thread that stays at its ticket, or without one. -/
theorem Knows.goto (h : Knows size me m pc) (hhandle : m'.handle me = m.handle me)
    (hholder : m'.holder = m.holder) (hworking : pc'.working = pc.working)
    (hok : pc'.Ok size me m') : Knows size me m' pc' where
  handle := hhandle.trans h.handle
  holder r t := by
    rw [hholder, hworking]
    exact h.holder r t
  ok := hok

/-- A step that only loads. -/
theorem Kept.load (hinv : Invariant size m) (h : Knows size me m pc)
    (hworking : pc'.working = pc.working) (hok : pc'.Ok size me m) : Kept size me m (m, pc') where
  inv := hinv
  knows := h.goto rfl rfl hworking hok
  forward := .of_eq rfl rfl rfl rfl rfl
  rely _ _ := .of_eq rfl rfl rfl rfl rfl rfl

/-- A step that changes `tail` of a ring, and no ticket. -/
theorem Kept.setTail {rq : Nat} {t : Tail} (hinv : Invariant size m) (h : Knows size me m pc)
    (hrq : m.Linked rq) (hidx : (m.ring rq).tail.idx ≤ t.idx)
    (hclosed : (m.ring rq).tail.closed → t.closed) (hworking : pc'.working = pc.working)
    (hok : pc'.Ok size me (m.setTail rq t)) : Kept size me m (m.setTail rq t, pc') := by
  have hissued := hinv.ticketed.issued rq
  refine ⟨?_, h.goto rfl rfl hworking hok, .setTail_only hidx hclosed, fun u _ => ?_⟩
  · show Invariant size (m.setTail rq t)
    rw [← Memory.setTail_issued]
    exact hinv.setTail hrq hclosed (Nat.le_refl _) (Nat.le_trans hissued hidx)
  · show Rely size u m (m.setTail rq t)
    rw [← Memory.setTail_issued]
    exact .setTail hrq hidx hclosed (Nat.le_refl _) fun _ => rfl

/-- A dequeuer leaves its cell and its ticket. -/
theorem Kept.leave {rq h : Nat} {c : RingNode V} (hinv : Invariant size m)
    (hk : Knows size me m pc) (hat : pc.working = some (rq, h)) (hrq : m.Linked rq)
    (hc : ((m.ring rq).cell size h).Left size h c)
    (hval : (c.idx = ((m.ring rq).cell size h).idx ∧ c.val = ((m.ring rq).cell size h).val) ∨
      (((m.ring rq).cell size h).val = none ∧ c.val = none))
    (hworking : pc'.working = none) (hok : pc'.Ok size me (m.leave size rq h c)) :
    Kept size me m (m.leave size rq h c, pc') := by
  have hmine : m.holder rq h = some me := (hk.holder rq h).mpr hat
  refine ⟨⟨hinv.wired.leave hrq, hinv.ticketed.leave hc, hinv.ledger.leave hc.grows hval⟩,
    ⟨hk.handle, fun r i => ?_, hok⟩, .leave hc, fun u hu => ?_⟩
  · rw [Memory.leave_holder, hworking]
    have hold := hk.holder r i
    grind
  · refine .leave hrq (fun t ht => ?_) hc
    rw [Option.some.inj (hmine.symm.trans ht)] at hu
    exact hu

/-! ### The cells a dequeuer leaves -/

section Left

variable {h i : Nat} {v : V} {u : Bool} {c : RingNode V}

/-- The cell goes to the next round without an item, as unsafe as it was. -/
theorem left_next {o : Option V} (hsize : 0 < size) (hc : c = { val := o, idx := i, isUnsafe := u })
    (hle : i ≤ h) : c.Left size h { val := none, idx := h + size, isUnsafe := u } := by
  subst hc
  constructor
  case grows => exact .of_lt (Nat.lt_of_le_of_lt hle (Nat.lt_add_of_pos_right hsize))
  case mod => exact Nat.add_mod_right h size
  case shut => exact .inl (Nat.lt_add_of_pos_right hsize)
  case keeps =>
    rintro t (hlt | ⟨hu, -⟩)
    · exact .inl (Nat.lt_of_lt_of_le hlt (Nat.le_trans hle (Nat.le_add_right h size)))
    · exact .inr ⟨hu, fun _ => rfl⟩
  case past => exact fun k hk _ => .inl (Nat.lt_of_le_of_lt hk (Nat.lt_add_of_pos_right hsize))

/-- The cell with an earlier item is marked as unsafe. -/
theorem left_mark (hc : c = { val := some v, idx := i, isUnsafe := u }) (hlt : i < h)
    (hmod : c.idx % size = h % size) :
    c.Left size h { val := some v, idx := i, isUnsafe := true } := by
  subst hc
  constructor
  case grows => exact .of_val (Nat.le_refl i) fun _ _ => Option.some_ne_none v
  case mod => exact hmod
  case shut => exact .inr ⟨rfl, fun heq => absurd heq (Nat.ne_of_lt hlt)⟩
  case keeps =>
    rintro t (hpast | ⟨-, hne⟩)
    · exact .inl hpast
    · exact .inr ⟨rfl, hne⟩
  case past =>
    intro k _ hk
    rcases Nat.lt_or_eq_of_le hk with hlt | heq
    · exact .inl hlt
    · exact .inr ⟨heq.symm, Option.some_ne_none v⟩

/-- The cell is past the ticket already. -/
theorem left_past (hlt : h < c.idx) (hmod : c.idx % size = h % size) :
    c.Left size h c where
  grows := .refl c
  mod := hmod
  shut := .inl hlt
  keeps _ hs := hs
  past _ hk _ := .inl (Nat.lt_of_le_of_lt hk hlt)

end Left

/-- The index of a cell is its ticket's, up to whole rounds. -/
theorem Ticketed.cell_mod (h : Ticketed size m) (hsize : 0 < size) (rq t : Nat) :
    ((m.ring rq).cell size t).idx % size = t % size :=
  h.cells rq (t % size) (Nat.mod_lt t hsize)

/-- A store of what the cell holds already. -/
theorem Memory.leave_self (m : Memory V T) (size rq h : Nat) :
    m.leave size rq h ((m.ring rq).cell size h) = m.setHolder rq h none := by
  simp only [leave, setCell, modify, RingQueue.cell, Function.update_eq_self]

/-- A ticket that is held has been given. -/
theorem Knows.lt_head (hinv : Invariant size m) (hk : Knows size me m pc) {rq h : Nat}
    (hat : pc.working = some (rq, h)) : h < (m.ring rq).head := by
  refine hinv.ticketed.given rq h ?_
  rw [(hk.holder rq h).mpr hat]
  exact Option.some_ne_none me

/-- Where a dequeuer goes that has found its cell empty. -/
theorem Kept.onEmpty {rq h r i : Nat} {tt : Tail} {u : Bool} (hinv : Invariant size m)
    (hk : Knows size me m pc) (hat : pc.working = some (rq, h)) (hrq : m.Linked rq) (hle : i ≤ h) :
    Kept size me m (m, .dequeue (onEmpty rq h tt r i u)) := by
  unfold Lcrq.onEmpty
  split
  · exact .load hinv hk hat.symm ⟨hrq, hle⟩
  · split
    · exact .load hinv hk hat.symm ⟨hrq, hle⟩
    · exact .load hinv hk hat.symm hrq

/-! ### Steps -/

variable [DecidableEq V] [DecidableEq T]

/-- No handle ever has a ring left, so that each closed ring costs a new one. -/
theorem stepEnqueue_alloc {v : V} {n rq : Nat} (h : m.handle me = none) :
    stepEnqueue size me m (.alloc v n rq) =
      (m.newRing me v, .enqueue (.append v n rq m.allocated)) := by
  simp only [stepEnqueue, takeRing, h, Memory.modify, Memory.newRing, Function.update_self,
    Function.update_idem]

/-- The step of an enqueuer. -/
theorem enqueue_kept (hinv : Invariant size m) {pc : EnqueuePc V}
    (h : Knows size me m (.enqueue pc)) : Kept size me m (stepEnqueue size me m pc) := by
  have hok := h.ok
  cases pc with
  | loadTail v n => exact .load hinv h rfl hinv.wired.tail
  | loadNext v n rq =>
      simp only [stepEnqueue]
      split
      · rename_i next hnext
        exact .load hinv h rfl ⟨hok, hinv.wired.next rq next hnext⟩
      · exact .load hinv h rfl hok
  | help v n rq next =>
      simp only [stepEnqueue]
      split
      · exact ⟨hinv.moveTail hok.2, h.goto rfl rfl rfl trivial, .of_eq rfl rfl rfl rfl rfl,
          fun _ _ => .of_eq rfl rfl rfl rfl rfl rfl⟩
      · exact .load hinv h rfl trivial
  | ticket v n rq =>
      change m.Linked rq at hok
      simp only [stepEnqueue]
      split
      · rename_i hclosed
        exact .setTail hinv h hok (Nat.le_succ _) (fun hc => hc) rfl ⟨hok, by
          rw [Memory.setTail_tail, if_pos rfl]
          exact hclosed⟩
      · rename_i hopen
        have hissued := hinv.ticketed.issued rq
        refine ⟨hinv.setTail hok (fun hc => hc) (Nat.le_succ_of_le hissued)
          (Nat.le_refl _), h.goto rfl rfl rfl ⟨hok, ?_⟩,
          .setTail (Nat.le_succ _) (fun hc => hc) (Nat.le_succ_of_le hissued)
            fun hc => absurd hc hopen,
          fun u _ => .setTail hok (Nat.le_succ _) (fun hc => hc) (Nat.le_succ_of_le hissued)
            fun hc => absurd hc hopen⟩
        show _ < Function.update m.issued rq _ rq
        rw [Function.update_self]
        exact Nat.lt_succ_self _
  | alloc v n rq =>
      obtain ⟨hrq, hclosed⟩ := hok
      rw [stepEnqueue_alloc h.handle]
      refine ⟨hinv.newRing, h.goto rfl rfl rfl ?_, .newRing m me v,
        fun _ _ => .newRing hinv.wired⟩
      refine ⟨(m.newRing_linked me v rq).mpr hrq, ?_, hrq.1, Function.update_self ..,
        Function.update_self .., Function.update_self ..⟩
      rw [hrq.newRing_ring]
      exact hclosed
  | append v n rq nrq =>
      obtain ⟨hrq, hclosed, hlt, howner, hring, hissued⟩ := hok
      simp only [stepEnqueue]
      split
      · have hl : ∀ r, (m.link rq nrq v).Linked r ↔ m.Linked r ∨ r = nrq :=
          Memory.link_linked hinv.wired howner
        exact ⟨hinv.link hrq hclosed howner hring hissued,
          h.goto rfl rfl rfl ⟨(hl rq).mpr (.inl hrq), (hl nrq).mpr (.inr rfl), hlt⟩,
          .link hinv.wired howner, fun u hu => .link hinv.wired hrq howner hu⟩
      · exact .load hinv h rfl trivial
  | publish rq nrq =>
      have hhandle : ∀ u (m' : Memory V T), u ≠ me →
          Function.update m'.handle me none u = m'.handle u := fun u m' hu =>
        Function.update_of_ne hu ..
      simp only [stepEnqueue]
      split
      · exact ⟨(hinv.moveTail hok.2.1).setHandle, ⟨Function.update_self .., h.holder, trivial⟩,
          .of_eq rfl rfl rfl rfl rfl, fun u hu => .of_eq rfl rfl rfl rfl rfl (hhandle u m hu)⟩
      · exact ⟨hinv.setHandle, ⟨Function.update_self .., h.holder, trivial⟩,
          .of_eq rfl rfl rfl rfl rfl, fun u hu => .of_eq rfl rfl rfl rfl rfl (hhandle u m hu)⟩
  | loadIdx v n rq t => exact .load hinv h rfl ⟨hok.1, hok.2, Nat.le_refl _⟩
  | loadVal v n rq t i u =>
      obtain ⟨hrq, hlt, hle⟩ := hok
      simp only [stepEnqueue]
      split
      · rename_i hempty
        refine .load hinv h (by split <;> rfl) ?_
        split
        · exact ⟨hrq, hlt, hle, hempty.2⟩
        · rename_i hu
          exact ⟨hrq, hlt, hle, hempty.2, fun hu' => absurd hu' hu⟩
      · exact .load hinv h rfl hrq
  | loadHead v n rq t i u =>
      obtain ⟨hrq, hlt, hle, hit⟩ := hok
      simp only [stepEnqueue]
      refine .load hinv h (by split <;> rfl) ?_
      split
      · rename_i hhead
        -- the ticket is not given to a dequeuer yet, nor is a later one
        refine ⟨hrq, hlt, hle, hit, fun _ h' hle' _ hlt' => ?_⟩
        exact absurd hlt' (Nat.not_lt.mpr (Nat.le_trans (Nat.le_of_lt hhead) hle'))
      · exact hrq
  | store v n rq t i u =>
      obtain ⟨hrq, hlt, -, hit, hclaim⟩ := hok
      simp only [stepEnqueue]
      split
      · rename_i hcell
        exact ⟨hinv.fill hrq hlt hit hcell hclaim, h.goto rfl rfl rfl trivial,
          .fill hit hcell, fun u _ => .fill hrq hit hcell⟩
      · exact .load hinv h rfl hrq
  | full v n rq t =>
      simp only [stepEnqueue]
      refine .load hinv h (by split <;> rfl) ?_
      split
      · exact hok
      · trivial
  | close v n rq t =>
      change m.Linked rq at hok
      simp only [stepEnqueue]
      split
      · split
        · rename_i htail
          refine .setTail hinv h hok ?_ (fun _ => rfl) rfl ⟨hok, ?_⟩
          · exact Nat.le_of_eq (by rw [htail])
          · rw [Memory.setTail_tail, if_pos rfl]
        · exact .load hinv h rfl trivial
      · refine .setTail hinv h hok (Nat.le_refl _) (fun _ => rfl) (by split <;> rfl) ?_
        split
        · trivial
        · exact ⟨hok, by rw [Memory.setTail_tail, if_pos rfl]⟩

/-- The step of a dequeuer. -/
theorem dequeue_kept (hsize : 0 < size) (hinv : Invariant size m) {pc : DequeuePc V}
    (hk : Knows size me m (.dequeue pc)) : Kept size me m (stepDequeue size me m pc) := by
  have hok := hk.ok
  cases pc with
  | loadHead => exact .load hinv hk rfl hinv.wired.head
  | ticket rq =>
      refine ⟨hinv.takeTicket hok me, ⟨hk.handle, fun r i => ?_, hok⟩, .takeTicket m rq me,
        fun u hu => .takeTicket hinv.ticketed hok hu⟩
      show (m.takeTicket rq me).holder r i = some me ↔ some (rq, (m.ring rq).head) = some (r, i)
      have hold := hk.holder r i
      simp only [Pc.working, DequeuePc.working, reduceCtorEq, iff_false] at hold
      grind
  | loadIdx rq h tt r => exact .load hinv hk rfl ⟨hok, Nat.le_refl _⟩
  | loadVal rq h tt r i u =>
      obtain ⟨hrq, hle⟩ := hok
      simp only [stepDequeue]
      split
      · rename_i hlt
        rw [← Memory.leave_self m size]
        have hpast := Nat.lt_of_lt_of_le hlt hle
        have hleft := left_past hpast (hinv.ticketed.cell_mod hsize rq h)
        refine .leave hinv hk rfl hrq hleft (.inl ⟨rfl, rfl⟩) rfl ⟨hrq, ?_⟩
        show h < ((m.setCell rq _ _).ring rq).head
        rw [Memory.setCell_head]
        exact hk.lt_head hinv rfl
      · rename_i hnot
        have hih : i ≤ h := Nat.le_of_not_lt hnot
        split
        · refine .load hinv hk (by split <;> rfl) ?_
          split
          · rename_i heq
            exact ⟨hrq, heq⟩
          · rename_i hne
            exact ⟨hrq, Nat.lt_of_le_of_ne hih hne⟩
        · split
          · exact .load hinv hk rfl ⟨hrq, hih⟩
          · exact .onEmpty hinv hk rfl hrq hih
  | take rq h tt r v i u =>
      obtain ⟨hrq, rfl⟩ := hok
      simp only [stepDequeue]
      split
      · rename_i hcell
        have hleft := left_next hsize hcell (Nat.le_refl i)
        refine ⟨⟨hinv.wired.leave hrq, hinv.ticketed.leave hleft,
          hinv.ledger.take hsize hrq (hk.lt_head hinv rfl) hcell⟩,
          ⟨hk.handle, fun r' h' => ?_, trivial⟩,
          .leave hleft, fun w hw => .leave hrq (fun t ht => ?_) hleft⟩
        · show (m.leave size rq i _).holder r' h' = some me ↔ none = some (r', h')
          rw [Memory.leave_holder]
          have hold := hk.holder r' h'
          simp only [Pc.working, DequeuePc.working] at hold
          grind
        · rw [Option.some.inj (((hk.holder rq i).mpr rfl).symm.trans ht)] at hw
          exact hw
      · exact .load hinv hk rfl hrq
  | mark rq h tt r v i u =>
      obtain ⟨hrq, hlt⟩ := hok
      simp only [stepDequeue]
      split
      · rename_i hcell
        have hleft := left_mark hcell hlt (hinv.ticketed.cell_mod hsize rq h)
        refine .leave hinv hk rfl hrq hleft (.inl ?_) rfl ⟨hrq, ?_⟩
        · rw [hcell]
          exact ⟨rfl, rfl⟩
        · show h < ((m.setCell rq _ _).ring rq).head
          rw [Memory.setCell_head]
          exact hk.lt_head hinv rfl
      · exact .load hinv hk rfl hrq
  | loadTail rq h r i u => exact .onEmpty hinv hk rfl hok.1 hok.2
  | skip rq h tt r i =>
      obtain ⟨hrq, hle⟩ := hok
      simp only [stepDequeue]
      split
      · rename_i hcell
        refine .leave hinv hk rfl hrq (left_next hsize hcell hle) (.inr ?_) rfl ⟨hrq, ?_⟩
        · rw [hcell]
          exact ⟨rfl, rfl⟩
        · show h < ((m.setCell rq _ _).ring rq).head
          rw [Memory.setCell_head]
          exact hk.lt_head hinv rfl
      · exact .load hinv hk rfl hrq
  | advance rq h tt r i =>
      obtain ⟨hrq, hle⟩ := hok
      simp only [stepDequeue]
      split
      · rename_i hcell
        have hlt : h < ((m.leave size rq h
            { val := none, idx := h + size, isUnsafe := false }).ring rq).head := by
          show h < ((m.setCell rq _ _).ring rq).head
          rw [Memory.setCell_head]
          exact hk.lt_head hinv rfl
        refine .leave hinv hk rfl hrq (left_next hsize hcell hle) (.inr ?_) (by split <;> rfl) ?_
        · rw [hcell]
          exact ⟨rfl, rfl⟩
        · split
          · exact ⟨hrq, hlt⟩
          · exact ⟨hrq, hlt⟩
      · exact .load hinv hk rfl hrq
  | close rq h =>
      refine .setTail hinv hk hok.1 (Nat.le_refl _) (fun _ => rfl) rfl ⟨hok.1, ?_⟩
      rw [Memory.setTail_head]
      exact hok.2
  | checkTail rq h =>
      simp only [stepDequeue]
      refine .load hinv hk (by split <;> rfl) ?_
      split
      · exact hok
      · trivial
  | fixTail rq h => exact .load hinv hk rfl hok
  | fixHead rq h t => exact .load hinv hk rfl hok
  | fixAgain rq h t hd =>
      simp only [stepDequeue]
      split
      · refine .load hinv hk (by split <;> rfl) ?_
        split
        · rename_i hbehind
          exact ⟨hok.1, hok.2, hbehind⟩
        · exact hok
      · exact .load hinv hk rfl hok
  | fixSwap rq h t hd =>
      obtain ⟨hrq, hlt, hbehind, hopen⟩ := hok
      simp only [stepDequeue]
      split
      · rename_i htail
        refine .setTail hinv hk hrq ?_ (fun hc => ?_) rfl ⟨hrq, ?_⟩
        · rw [htail]
          exact Nat.le_of_lt hbehind
        · rw [htail] at hc
          exact absurd hc hopen
        · rw [Memory.setTail_head]
          exact hlt
      · exact .load hinv hk rfl ⟨hrq, hlt⟩
  | loadNext rq h =>
      simp only [stepDequeue]
      split
      · exact .load hinv hk rfl trivial
      · rename_i next hnext
        exact .load hinv hk rfl ⟨hok.1, hok.2, hinv.wired.next rq next hnext,
          hinv.wired.closed rq next hnext⟩
  | recheck rq h next =>
      obtain ⟨hrq, hlt, hnext, hclosed⟩ := hok
      simp only [stepDequeue]
      refine .load hinv hk (by split <;> rfl) ?_
      split
      · rename_i htail
        -- the tickets given while the ring was open are all below `h + 1`
        exact ⟨hrq, hnext, hclosed, Nat.le_trans (hinv.ticketed.issued rq)
          (Nat.le_trans htail hlt)⟩
      · trivial
  | move rq next =>
      obtain ⟨hrq, hnext, hdrained⟩ := hok
      simp only [stepDequeue]
      split
      · exact ⟨hinv.moveHead hnext, hk.goto rfl rfl rfl ⟨hrq, hdrained⟩,
          .of_eq rfl rfl rfl rfl rfl, fun _ _ => .of_eq rfl rfl rfl rfl rfl rfl⟩
      · exact .load hinv hk rfl trivial
  | retire rq =>
      exact ⟨hinv.unlink hok.1 hok.2.1, hk.goto rfl rfl rfl trivial, .unlink m rq me,
        fun _ _ => .unlink hok.1⟩

/-! ### Runs -/

/-- The step of a thread. -/
theorem act_kept (hsize : 0 < size) (hinv : Invariant size m) (hk : Knows size me m pc)
    {a : Move V} {r : Memory V T × Pc V} (hact : act size me m pc a = some r) :
    Kept size me m r := by
  cases pc with
  | idle =>
      cases a with
      | enqueue v =>
          cases hact
          exact .load hinv hk rfl trivial
      | dequeue k =>
          cases hact
          exact ⟨hinv.setEpoch, hk.goto rfl rfl rfl trivial, .of_eq rfl rfl rfl rfl rfl,
            fun _ _ => .of_eq rfl rfl rfl rfl rfl rfl⟩
      | next => cases hact
  | enqueue pc =>
      cases a with
      | next => exact Option.some.inj hact ▸ enqueue_kept hinv hk
      | enqueue v => cases hact
      | dequeue k => cases hact
  | dequeue pc =>
      cases a with
      | next => exact Option.some.inj hact ▸ dequeue_kept hsize hinv hk
      | enqueue v => cases hact
      | dequeue k => cases hact

/-- What the threads rely on is what they do, wherever they are allowed to move. -/
theorem relies (hsize : 0 < size) (guard : T → Memory V T → Pc V → Move V → Prop) :
    Threads.Relies (system V T size) guard (Invariant size) (Knows size) (Rely size) where
  act _ hinv hk hact :=
    have h := act_kept hsize hinv hk hact
    ⟨h.inv, h.knows, h.rely⟩
  env := by
    intro m e m' hinv henv
    cases e with
    | collect t k =>
        cases henv
        exact ⟨hinv.collect, fun _ => .of_eq rfl rfl rfl rfl rfl rfl⟩
  stable _ hr hk := hk.stable hr

omit [DecidableEq V] [DecidableEq T] in
theorem holds_init : Threads.Holds (Invariant size) (Knows size) (ksiLCRQInit V T) where
  inv := by
    refine ⟨⟨⟨Nat.one_pos, rfl⟩, ⟨Nat.one_pos, rfl⟩, ?_, ?_, ?_, fun _ _ => ⟨rfl, rfl, rfl⟩⟩,
      ⟨?_, fun _ => Nat.le_refl _, ?_, ?_⟩, ⟨?_, ?_, ?_, ?_, ?_, .nil, .nil⟩⟩
    · exact fun r b hb => absurd hb.symm (Option.some_ne_none b)
    · exact fun t k b hb => absurd hb.symm (Option.some_ne_none b)
    · exact fun r b hb => absurd hb.symm (Option.some_ne_none b)
    · exact fun r j hj => Nat.mod_eq_of_lt hj
    · exact fun r h hh => absurd rfl hh
    · exact fun r h hh => absurd hh (Nat.not_lt_zero h)
    · exact fun e he => absurd he List.not_mem_nil
    · exact fun e he => absurd he List.not_mem_nil
    · exact fun r _ j _ v hv => absurd hv.symm (Option.some_ne_none v)
    · exact fun e he => absurd he List.not_mem_nil
    · exact fun e he => absurd he List.not_mem_nil
  knows t := ⟨rfl, fun _ _ =>
    iff_of_false (Option.some_ne_none _).symm (Option.some_ne_none _).symm, trivial⟩

/-- Every interleaving keeps the invariant, and the threads know what they should. -/
theorem holds_of_reaches (hsize : 0 < size)
    {guard : T → Memory V T → Pc V → Move V → Prop} {s : State V T}
    (hr : Runs.Reaches (system V T size).step (Threads.Guarded guard) (ksiLCRQInit V T) s) :
    Threads.Holds (Invariant size) (Knows size) s :=
  (relies hsize guard).holds holds_init hr

end Ksi.Lcrq

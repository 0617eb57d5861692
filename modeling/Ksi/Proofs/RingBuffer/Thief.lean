/-
The steps of a thief.

A thief changes segments at `rb->tail` and behind it only.  The owner is concerned if
its segment is `rb->tail` too, and then it can lose an item to the thief, but no more.
-/
import Ksi.Proofs.RingBuffer.Owner

namespace Ksi.RingBuffer

variable {V T : Type} {s s' : State V T} {c : Nat → Nat} {lo hi : Nat} {w : T}

/-! ### Reading -/

/-- A thief moves on, and what it knows there is so. -/
theorem DequeInv.move [DecidableEq T] (h : DequeInv s c lo hi) {pc : ThiefPc V}
    (hpc : ThiefOk s c lo hi pc) : DequeInv (s.move w pc) c lo hi := by
  obtain ⟨⟨hle, hinj, halloc, hhead, htail, hnext, hlast, hprev, hfirst, hpassed, huse⟩, howner,
    hthief, hcons⟩ := h
  refine ⟨⟨hle, hinj, halloc, hhead, htail, hnext, hlast, hprev, hfirst, hpassed, huse⟩, howner,
    ?_, hcons⟩
  intro v
  by_cases heq : v = w
  · subst heq
    simp only [State.move, Function.update_self]
    exact hpc
  · simp only [State.move, Function.update_of_ne heq]
    exact hthief v

/-- A segment a thief finds open is `rb->tail`. -/
theorem Linked.openTail (h : Linked s c lo hi) {i : Nat} (hi' : i ≤ lo)
    (hne : (s.seg (c i)).head_idx ≠ closed) : i = lo ∧ (s.seg (c lo)).Open := by
  have heq : i = lo := by
    by_contra hne'
    exact hne (h.passed i (by omega))
  subst heq
  refine ⟨rfl, ?_⟩
  rcases h.inUse i (Nat.le_refl i) h.le with hopen | ⟨hcl, -⟩
  · exact hopen
  · exact absurd hcl hne

/-- The comparison of Take: there is an item, unless the tail has moved on since. -/
theorem DequeInv.found (h : DequeInv s c lo hi) {x t : Nat}
    (hw : ThiefOk s c lo hi (.loadHead x t))
    (hlt : (t + 1) % word < ((s.seg x).head_idx + 1) % word) : ThiefOk s c lo hi (.slot x t) := by
  obtain ⟨i, hi', rfl, ht⟩ := hw
  refine ⟨i, hi', rfl, ht, fun heq => ?_⟩
  have hne : (s.seg (c i)).head_idx ≠ closed := by
    intro hcl
    rw [hcl] at hlt
    simp [closed, word] at hlt
  refine ⟨hne, ?_⟩
  obtain ⟨rfl, hopen⟩ := h.linked.openTail hi' hne
  have hle := hopen.le
  have hcl := hopen.lt
  have ht' : t < closed := by omega
  have hword : closed + 1 = word := by decide
  rw [Nat.mod_eq_of_lt (by omega : t + 1 < word),
    Nat.mod_eq_of_lt (by omega : (s.seg (c i)).head_idx + 1 < word)] at hlt
  omega

/-- The successor a thief loads. -/
theorem DequeInv.successor (h : DequeInv s c lo hi) {x b : Nat}
    (hw : ThiefOk s c lo hi (.next x)) (hnext : (s.seg x).next = some b)
    (hempty : (s.seg x).head_idx = closed ∨ (s.seg x).tail_idx = (s.seg x).head_idx) :
    ThiefOk s c lo hi (.close x b) := by
  obtain ⟨i, hi', rfl⟩ := hw
  have hle := h.linked.le
  have hlt : i < hi := by
    by_contra hge
    obtain rfl : i = hi := by omega
    rw [h.linked.last] at hnext
    cases hnext
  have hb : b = c (i + 1) := by
    have := h.linked.next i hlt
    rw [hnext] at this
    split at this
    · cases this
    · exact Option.some.inj this
  exact ⟨i, hi', hlt, rfl, hb, hnext, fun _ => hempty⟩

/-! ### Writing -/

/-- A change of `rb->tail`, or of a segment behind it, that touches no link but `prev`
of the tail. -/
theorem Linked.atTail (h : Linked s c lo hi) {j : Nat} (hj : j ≤ lo)
    {f : Segment V → Segment V} (hnext : (f (s.seg (c j))).next = (s.seg (c j)).next)
    (hprev : j = lo → ∀ a, (f (s.seg (c j))).prev = some a → (s.seg (c j)).prev = some a)
    (hpassed : j < lo → (f (s.seg (c j))).head_idx = closed)
    (huse : j = lo → (f (s.seg (c j))).Open ∨
      ((f (s.seg (c j))).head_idx = closed ∧ (s.seg (c j)).next = some (c (j + 1)) ∧ j < hi)) :
    Linked (s.modify (c j) f) c lo hi := by
  have hother : ∀ i, i ≤ hi → i ≠ j → (s.modify (c j) f).seg (c i) = s.seg (c i) :=
    fun i hi' hne => s.modify_of_ne f fun heq => hne (h.inj i j hi' (Nat.le_trans hj h.le) heq)
  have hthis := s.modify_self (c j) f
  have hnext' : ∀ i, i ≤ hi → ((s.modify (c j) f).seg (c i)).next = (s.seg (c i)).next := by
    intro i hi'
    by_cases heq : i = j
    · subst heq
      rw [hthis, hnext]
    · rw [hother i hi' heq]
  constructor
  case le => exact h.le
  case inj => exact h.inj
  case alloc => exact h.alloc
  case head => exact h.head
  case tail => exact h.tail
  case next =>
    intro i hi'
    rw [hnext' i (by omega)]
    exact h.next i hi'
  case last =>
    rw [hnext' hi (Nat.le_refl hi)]
    exact h.last
  case prev =>
    intro i hlo hi'
    rw [hother (i + 1) (by omega) (by omega)]
    exact h.prev i hlo hi'
  case first =>
    intro a ha
    by_cases heq : j = lo
    · subst heq
      rw [hthis] at ha
      exact h.first a (hprev rfl a ha)
    · rw [hother lo h.le (Ne.symm heq)] at ha
      exact h.first a ha
  case passed =>
    intro i hi'
    by_cases heq : i = j
    · subst heq
      rw [hthis]
      exact hpassed hi'
    · rw [hother i (by have := h.le; omega) heq]
      exact h.passed i hi'
  case inUse =>
    intro i hlo hi'
    rw [hnext' i hi']
    by_cases heq : i = j
    · obtain rfl : j = lo := by omega
      subst heq
      rw [hthis]
      rcases huse rfl with hopen | ⟨hcl, hn, hlt⟩
      · exact .inl hopen
      · exact .inr ⟨hcl, rfl, hn, hlt⟩
    · rw [hother i hi' heq]
      exact h.inUse i hlo hi'

/-- A step of a thief that changes one segment. -/
theorem DequeInv.atTail (h : DequeInv s c lo hi) {j : Nat} (hj : j ≤ lo)
    {f : Segment V → Segment V} {returned : List V} (hlinked : Linked (s.modify (c j) f) c lo hi)
    (hnext : (f (s.seg (c j))).next = (s.seg (c j)).next)
    (hbuffer : (f (s.seg (c j))).buffer = (s.seg (c j)).buffer)
    (hidx : (s.seg (c j)).tail_idx ≤ (f (s.seg (c j))).tail_idx)
    (htakes : ∀ t, (s.seg (c j)).Poised t → (f (s.seg (c j))).Poised t)
    (hclosed : (s.seg (c j)).head_idx = closed → (f (s.seg (c j))).head_idx = closed)
    (hempty : (s.seg (c j)).tail_idx = (s.seg (c j)).head_idx →
      (f (s.seg (c j))).head_idx = closed ∨
        (f (s.seg (c j))).tail_idx = (f (s.seg (c j))).head_idx)
    (howner : j = hi → OwnerOk c lo hi (f (s.seg (c j))) s.owner)
    (hbalance : (s.returned : Multiset V) + (s.seg (c j)).items =
      returned + (f (s.seg (c j))).items) :
    DequeInv { s.modify (c j) f with returned := returned } c lo hi := by
  have hle := h.linked.le
  have hinj := h.linked.inj
  have hother : ∀ i, i ≤ hi → i ≠ j → (s.modify (c j) f).seg (c i) = s.seg (c i) :=
    fun i hi' hne => s.modify_of_ne f fun heq => hne (hinj i j hi' (by omega) heq)
  have hthis := s.modify_self (c j) f
  have hlinked' : Linked { s.modify (c j) f with returned := returned } c lo hi := by
    obtain ⟨hle, hinj, halloc, hhead, htail, hnext, hlast, hprev, hfirst, hpassed, huse⟩ := hlinked
    exact ⟨hle, hinj, halloc, hhead, htail, hnext, hlast, hprev, hfirst, hpassed, huse⟩
  refine ⟨hlinked', ?_, ?_, ?_⟩
  · by_cases heq : j = hi
    · obtain rfl := heq
      rw [hthis]
      exact howner rfl
    · rw [hother hi (Nat.le_refl hi) (Ne.symm heq)]
      exact h.owner
  · intro w
    refine (h.thief w).frame hle (fun _ _ => rfl) ?_ ?_ ?_
    · intro i hi'
      by_cases heq : i = j
      · subst heq
        rw [hthis]
        exact hidx
      · rw [hother i (by omega) heq]
    · intro i t hi' _ hp
      by_cases heq : i = j
      · subst heq
        rw [hthis, hbuffer]
        exact ⟨htakes t hp, fun _ => rfl⟩
      · rw [hother i (by omega) heq]
        exact ⟨hp, fun _ => rfl⟩
    · intro i hi' hlt _
      by_cases heq : i = j
      · subst heq
        rw [hthis]
        exact ⟨hlt, hnext, hclosed, fun he => he.elim (fun hcl => .inl (hclosed hcl)) hempty⟩
      · rw [hother i (by omega) heq]
        exact ⟨hlt, rfl, id, id⟩
  · have hhand : { s.modify (c j) f with returned := returned }.inHand = s.inHand := by
      have hbuf : ((s.modify (c j) f).seg (c hi)).buffer = (s.seg (c hi)).buffer := by
        by_cases heq : hi = j
        · subst heq
          rw [hthis, hbuffer]
        · rw [hother hi (Nat.le_refl hi) heq]
      rw [hlinked'.inHand, h.linked.inHand]
      show s.owner.inHand ((s.modify (c j) f).seg (c hi)) = _
      cases s.owner <;> simp [OwnerPc.inHand, hbuf]
    have hcons := h.conserved
    rw [hhand]
    show (s.pushed : Multiset V) = (returned : Multiset V) + s.inHand +
      held (s.modify (c j) f) c lo hi
    by_cases hlt : j < lo
    · -- a segment that has been passed holds nothing
      have hcl := h.linked.passed j hlt
      rw [Segment.items_of_closed hcl, Segment.items_of_closed (hclosed hcl)] at hbalance
      have hheld : held (s.modify (c j) f) c lo hi = held s c lo hi :=
        held_congr fun i hlo hi' => by rw [hother i hi' (by omega)]
      have hret : (s.returned : Multiset V) = returned := by simpa using hbalance
      rw [hheld, ← hret, hcons]
    · have hchange := held_change s (s.modify (c j) f) c
        (⟨by omega, by omega⟩ : lo ≤ j ∧ j ≤ hi)
        (fun i _ hi' hne => by rw [hother i hi' hne])
      rw [hthis] at hchange
      refine balance hcons hchange ?_
      have : (s.returned : Multiset V) + s.inHand + (s.seg (c j)).items =
          (returned : Multiset V) + s.inHand + (f (s.seg (c j))).items := by
        rw [add_right_comm, hbalance, add_right_comm]
      rw [this]

/-- The compare-and-swap of `tail_idx` succeeds: the item is the thief's. -/
theorem DequeInv.stolen (h : DequeInv s c lo hi) {x t : Nat} {ret : V}
    (hw : ThiefOk s c lo hi (.cas x t ret)) (ht : (s.seg x).tail_idx = t) :
    DequeInv { s.modify x (fun g => { g with tail_idx := (t + 1) % word }) with
      returned := s.returned ++ [ret] } c lo hi := by
  obtain ⟨i, hi', rfl, hp, hret⟩ := hw
  obtain ⟨hne, hlt⟩ := hp.item ht.symm
  obtain ⟨rfl, hopen⟩ := h.linked.openTail hi' hne
  have hcl := hopen.lt
  have hfits := hopen.fits
  have hmod : (t + 1) % word = t + 1 := Nat.mod_eq_of_lt (Nat.succ_lt_succ (Nat.lt_trans hlt hcl))
  rw [hmod]
  have hitems := Segment.items_take hopen (by omega)
  have hopen' : { s.seg (c i) with tail_idx := t + 1 }.Open :=
    ⟨hlt, Nat.le_trans hfits (by rw [ht]; exact Nat.add_le_add_right (Nat.le_succ t) _), hcl⟩
  refine h.atTail (Nat.le_refl i) ?_ rfl rfl ?_ ?_ id ?_ ?_ ?_
  · exact h.linked.atTail (Nat.le_refl i) rfl (fun _ _ => id)
      (fun hlt => absurd hlt (Nat.lt_irrefl i))
      fun _ => .inl hopen'
  · show (s.seg (c i)).tail_idx ≤ t + 1
    omega
  · intro u hu
    have hle := hu.le
    refine ⟨?_, fun heq => ?_⟩
    · show u ≤ t + 1
      omega
    · have heq : u = t + 1 := heq
      omega
  · intro he
    omega
  · -- the owner learns of an item less
    intro heq
    have ho := h.owner
    rw [← heq] at ho ⊢
    cases hown : s.owner <;> rw [hown] at ho <;> simp only [OwnerOk] at ho ⊢ <;> grind
  · rw [hitems, hret ht, ht, ← Multiset.coe_add, ← Multiset.cons_coe, ← Multiset.singleton_add]
    simp only [Multiset.coe_singleton]
    abel

/-- A segment with a successor is closed. -/
theorem DequeInv.close (h : DequeInv s c lo hi) {x b : Nat}
    (hw : ThiefOk s c lo hi (.close x b)) :
    DequeInv (s.modify x (fun g => { g with head_idx := closed })) c lo hi := by
  obtain ⟨i, hi', hlt, rfl, rfl, hnext, hempty⟩ := hw
  have hempty' : (s.seg (c i)).head_idx = closed ∨
      (s.seg (c i)).tail_idx = (s.seg (c i)).head_idx := by
    by_cases heq : i = lo
    · exact hempty heq
    · exact .inl (h.linked.passed i (by omega))
  refine h.atTail (f := fun g => { g with head_idx := closed }) hi' ?_ rfl rfl (Nat.le_refl _) ?_
    (fun _ => rfl) (fun _ => .inl rfl) ?_ ?_
  · exact h.linked.atTail hi' rfl (fun _ _ => id) (fun _ => rfl) fun _ => .inr ⟨rfl, hnext, hlt⟩
  · -- a thief that has seen an item here comes too late
    intro t ht
    refine ⟨ht.le, fun heq => ?_⟩
    have heq : t = (s.seg (c i)).tail_idx := heq
    have := ht.item heq
    omega
  · exact fun heq => absurd heq (Nat.ne_of_lt hlt)
  · rcases hempty' with hcl | he
    · rw [Segment.items_of_closed hcl, Segment.items_of_closed rfl]
    · rw [Segment.items_of_empty he, Segment.items_of_closed rfl]

/-- A store to `prev` of a segment behind the tail, or of NULL to that of the tail. -/
theorem DequeInv.cut (h : DequeInv s c lo hi) {j : Nat} (hj : j ≤ lo) {p : Option Nat}
    (hp : j = lo → p = none) :
    DequeInv (s.modify (c j) (fun g => { g with prev := p })) c lo hi := by
  refine h.atTail (f := fun g => { g with prev := p }) hj ?_ rfl rfl
    (Nat.le_refl _) ?_ id .inr ?_ rfl
  · refine h.linked.atTail hj rfl ?_ (h.linked.passed j) ?_
    · intro heq a ha
      have ha : p = some a := ha
      rw [hp heq] at ha
      cases ha
    · rintro rfl
      rcases h.linked.inUse j (Nat.le_refl j) h.linked.le with hopen | ⟨hcl, -, hn, hlt⟩
      · exact .inl ⟨hopen.le, hopen.fits, hopen.lt⟩
      · exact .inr ⟨hcl, hn, hlt⟩
  · intro t ht
    exact ⟨ht.le, ht.item⟩
  · rintro rfl
    have ho := h.owner
    cases hown : s.owner <;> rw [hown] at ho <;> exact ho

/-- `rb->tail` moves on to the next segment. -/
theorem DequeInv.swing (h : DequeInv s c lo hi) {x b : Nat}
    (hw : ThiefOk s c lo hi (.swing x b)) (heq : s.tail = x) :
    x = c lo ∧ b = c (lo + 1) ∧ DequeInv { s with tail := b } c (lo + 1) hi := by
  obtain ⟨i, hi', hlt, rfl, rfl, hnext, hcl⟩ := hw
  obtain ⟨hle, hinj, halloc, hhead, htail, hnexts, hlast, hprev, hfirst, hpassed, huse⟩ := h.linked
  obtain rfl : i = lo := hinj i lo (by omega) hle (heq.symm.trans htail)
  refine ⟨rfl, rfl, ?_, ?_, ?_, ?_⟩
  · constructor
    case le => exact hlt
    case inj => exact hinj
    case alloc => exact halloc
    case head => exact hhead
    case tail => rfl
    case next => exact hnexts
    case last => exact hlast
    case prev => exact fun j hj hj' => hprev j (by omega) hj'
    case first =>
      intro a ha
      have hp := hprev i (Nat.le_refl i) hlt
      exact ⟨i, Nat.lt_succ_self i, Option.some.inj (ha.symm.trans hp)⟩
    case passed =>
      intro j hj
      by_cases hji : j = i
      · subst hji
        exact hcl
      · exact hpassed j (by omega)
    case inUse =>
      intro j hj hj'
      rcases huse j (by omega) hj' with hopen | ⟨-, hji, -⟩
      · exact .inl hopen
      · omega
  · -- a link is not missing between the two
    have hlinked : s.owner.unlinked = true → i + 1 < hi := by
      intro hu
      by_contra hge
      have := hnexts i hlt
      rw [if_pos ⟨by omega, hu⟩, hnext] at this
      cases this
    have ho := h.owner
    cases hown : s.owner <;> rw [hown] at ho hlinked <;> simp only [OwnerOk] at ho ⊢ <;> grind
  · intro v
    have hv := h.thief v
    show ThiefOk { s with tail := c (i + 1) } c (i + 1) hi (s.thief v)
    cases hpc : s.thief v <;> rw [hpc] at hv <;> simp only [ThiefOk] at hv ⊢ <;> grind
  · rw [h.conserved, held_first hle, Segment.items_of_closed hcl]
    simp [State.inHand, held]

/-! ### Every step -/

/-- **A step of a thief keeps the invariant**, with the tail where it was or one
further. -/
theorem DequeInv.stepThief [DecidableEq T] (h : DequeInv s c lo hi)
    (hcareful : Careful s (.thief w)) (hstep : stepThief s w = some s') :
    ∃ lo', DequeInv s' c lo' hi := by
  have hw := h.thief w
  unfold RingBuffer.stepThief at hstep
  cases hpc : s.thief w with
  | idle =>
      rw [hpc] at hstep
      cases hstep
  | load =>
      rw [hpc] at hstep
      cases hstep
      exact ⟨lo, h.move ⟨lo, Nat.le_refl lo, h.linked.tail⟩⟩
  | loadTail x =>
      rw [hpc] at hstep hw
      cases hstep
      obtain ⟨i, hi', rfl⟩ := hw
      exact ⟨lo, h.move ⟨i, hi', rfl, Nat.le_refl _⟩⟩
  | loadHead x t =>
      rw [hpc] at hstep hw
      dsimp only at hstep
      split at hstep
      · cases hstep
        exact ⟨lo, h.move (h.found hw ‹_›)⟩
      · cases hstep
        obtain ⟨i, hi', rfl, -⟩ := hw
        exact ⟨lo, h.move ⟨i, hi', rfl⟩⟩
  | slot x t =>
      rw [hpc] at hstep hw
      cases hstep
      obtain ⟨i, hi', rfl, hp⟩ := hw
      exact ⟨lo, h.move ⟨i, hi', rfl, hp, fun _ => rfl⟩⟩
  | cas x t ret =>
      rw [hpc] at hstep hw
      dsimp only at hstep
      split at hstep
      · cases hstep
        exact ⟨lo, (h.stolen hw ‹_›).move trivial⟩
      · cases hstep
        obtain ⟨i, hi', rfl, -⟩ := hw
        exact ⟨lo, h.move ⟨i, hi', rfl⟩⟩
  | next x =>
      simp only [Careful, hpc] at hcareful
      rw [hpc] at hstep hw
      dsimp only at hstep
      split at hstep
      · cases hstep
        exact ⟨lo, h.move trivial⟩
      · rename_i b hnext
        cases hstep
        rw [hnext] at hcareful
        exact ⟨lo, h.move (h.successor hw hnext (hcareful.resolve_left (by simp)))⟩
  | close x b =>
      rw [hpc] at hstep hw
      cases hstep
      have h' := h.close hw
      obtain ⟨i, hi', hlt, rfl, rfl, hnext, -⟩ := hw
      refine ⟨lo, h'.move ⟨i, hi', hlt, rfl, rfl, ?_, ?_⟩⟩
      · rw [s.modify_self]
        exact hnext
      · rw [s.modify_self]
  | swing x b =>
      rw [hpc] at hstep hw
      dsimp only at hstep
      split at hstep
      · cases hstep
        obtain ⟨rfl, rfl, h'⟩ := h.swing hw ‹_›
        exact ⟨lo + 1, h'.move ⟨lo, Nat.lt_succ_self lo, rfl, rfl⟩⟩
      · rename_i hne
        cases hstep
        obtain ⟨i, hi', -, rfl, rfl, -⟩ := hw
        have : i ≠ lo := fun heq => hne (heq ▸ h.linked.tail)
        exact ⟨lo, h.move ⟨i + 1, by omega, rfl⟩⟩
  | cut x b =>
      rw [hpc] at hstep hw
      cases hstep
      obtain ⟨i, hi', rfl, rfl⟩ := hw
      exact ⟨lo, (h.cut (j := i + 1) hi' fun _ => rfl).move ⟨i, hi', rfl, rfl⟩⟩
  | retire x b =>
      rw [hpc] at hstep hw
      cases hstep
      obtain ⟨i, hi', rfl, rfl⟩ := hw
      refine ⟨lo, ?_⟩
      have h' := DequeInv.move (w := w)
        (h.cut (j := i) (p := s.thiefFree w) (by omega) fun heq => by omega)
        (show ThiefOk _ c lo hi (.loadTail (c (i + 1))) from ⟨i + 1, hi', rfl⟩)
      obtain ⟨⟨hle, hinj, halloc, hhead, htail, hnext, hlast, hprev, hfirst, hpassed, huse⟩, howner,
        hthief, hcons⟩ := h'
      exact ⟨⟨hle, hinj, halloc, hhead, htail, hnext, hlast, hprev, hfirst, hpassed, huse⟩, howner,
        hthief, hcons⟩

end Ksi.RingBuffer

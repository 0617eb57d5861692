/-
The owner's steps.

All but three of them read, or change a field of the segment at `rb->head` in a way
no thief can be hurt by; `DequeInv.atHead` says what there is to show for them.  The
three are the two halves of a new segment and the return to the previous one.
-/
import Ksi.Proofs.RingBuffer.Invariant

namespace Ksi.RingBuffer

variable {V T : Type} {junk : Nat → V} {s s' : State V T} {c : Nat → Nat} {lo hi : Nat}

@[simp] theorem State.modify_self (s : State V T) (a : Nat) (f : Segment V → Segment V) :
    (s.modify a f).seg a = f (s.seg a) := by
  simp [State.modify]

@[simp] theorem State.modify_pushed (s : State V T) (a : Nat) (f : Segment V → Segment V) :
    (s.modify a f).pushed = s.pushed := rfl

@[simp] theorem State.modify_returned (s : State V T) (a : Nat) (f : Segment V → Segment V) :
    (s.modify a f).returned = s.returned := rfl

theorem State.modify_of_ne (s : State V T) {a x : Nat} (f : Segment V → Segment V) (h : x ≠ a) :
    (s.modify a f).seg x = s.seg x := by
  simp [State.modify, h]

theorem Linked.inHand (h : Linked s c lo hi) : s.inHand = s.owner.inHand (s.seg (c hi)) := by
  simp [State.inHand, h.head]

/-- Cancelling what an account and a change of one segment have in common. -/
theorem balance {p r h x i p' r' h' x' i' : Multiset V} (haccount : p = r + h + x)
    (hchange : x' + i = x + i') (hbalance : p' + (r + h + i) = p + (r' + h' + i')) :
    p' = r' + h' + x' := by
  classical
  ext v
  have h1 := congrArg (Multiset.count v) haccount
  have h2 := congrArg (Multiset.count v) hchange
  have h3 := congrArg (Multiset.count v) hbalance
  simp only [Multiset.count_add] at h1 h2 h3 ⊢
  omega

/-- A step of the owner that touches no link and only the indices and slots of the
segment at `rb->head`. -/
theorem DequeInv.atHead (h : DequeInv s c lo hi) {f : Segment V → Segment V} {o : OwnerPc V}
    {pushed returned : List V} (hown : o.unlinked = s.owner.unlinked)
    (hlinks : (f (s.seg (c hi))).next = (s.seg (c hi)).next ∧
      (f (s.seg (c hi))).prev = (s.seg (c hi)).prev)
    (hopen : (f (s.seg (c hi))).Open) (hidx : (s.seg (c hi)).tail_idx ≤ (f (s.seg (c hi))).tail_idx)
    (htakes : ∀ w t, (s.thief w).takes (c hi) t → (s.seg (c hi)).Poised t →
      (f (s.seg (c hi))).Poised t ∧ ((f (s.seg (c hi))).tail_idx = t →
        (f (s.seg (c hi))).buffer (t % nodeLength) = (s.seg (c hi)).buffer (t % nodeLength)))
    (howner : OwnerOk c lo hi (f (s.seg (c hi))) o)
    (hbalance : (pushed : Multiset V) + (s.returned + s.owner.inHand (s.seg (c hi)) +
        (s.seg (c hi)).items) =
      s.pushed + (returned + o.inHand (f (s.seg (c hi))) + (f (s.seg (c hi))).items)) :
    DequeInv { s.modify (c hi) f with owner := o, pushed := pushed, returned := returned }
      c lo hi := by
  have hle := h.linked.le
  have hother : ∀ i, i < hi → (s.modify (c hi) f).seg (c i) = s.seg (c i) :=
    fun i hi' => s.modify_of_ne f (h.linked.ne_head hi')
  have hlinked : Linked { s.modify (c hi) f with
      owner := o, pushed := pushed, returned := returned } c lo hi :=
    h.linked.atHead rfl rfl rfl hown hother (by simpa using hlinks.1) (by simpa using hlinks.2)
      (by simpa using hopen)
  refine ⟨hlinked, by simpa using howner, ?_, ?_⟩
  · intro w
    refine (h.thief w).frame hle (fun _ _ => rfl) ?_ ?_ ?_
    · intro i hi'
      by_cases heq : i = hi
      · subst heq
        simpa using hidx
      · rw [hother i (by omega)]
    · intro i t hi' ht hp
      by_cases heq : i = hi
      · subst heq
        simpa using htakes w t ht hp
      · rw [hother i (by omega)]
        exact ⟨hp, fun _ => rfl⟩
    · intro i hi' hlt _
      rw [hother i hlt]
      exact ⟨hlt, rfl, id, id⟩
  · have hheld := held_change s (s.modify (c hi) f) c
      (⟨hle, Nat.le_refl hi⟩ : lo ≤ hi ∧ hi ≤ hi)
      (fun i _ hi' hne => by rw [hother i (by omega)])
    have hcons := h.conserved
    rw [hlinked.inHand]
    rw [h.linked.inHand] at hcons
    simp only [State.modify_self] at hheld ⊢
    exact balance hcons hheld hbalance

/-- A step of the owner that only reads. -/
theorem DequeInv.load (h : DequeInv s c lo hi) {o : OwnerPc V}
    (hown : o.unlinked = s.owner.unlinked) (howner : OwnerOk c lo hi (s.seg (c hi)) o)
    (hhand : o.inHand (s.seg (c hi)) = s.owner.inHand (s.seg (c hi))) :
    DequeInv { s with owner := o } c lo hi := by
  have hid : s.modify (c hi) id = s := by simp [State.modify]
  have h' : DequeInv { s.modify (c hi) id with
      owner := o, pushed := s.pushed, returned := s.returned } c lo hi :=
    h.atHead hown ⟨rfl, rfl⟩ h.linked.headOpen (Nat.le_refl _)
      (fun _ _ _ hp => ⟨hp, fun _ => rfl⟩) howner (by rw [id, hhand])
  rwa [hid] at h'

/-! ### Push -/

theorem DequeInv.pushHead (h : DequeInv s c lo hi) {data : V} (ho : s.owner = .pushHead data) :
    DequeInv { s with owner := .pushTail data (s.seg (c hi)).head_idx } c lo hi :=
  h.load (by rw [ho]; rfl) rfl (by rw [ho]; rfl)

theorem DequeInv.pushFull (h : DequeInv s c lo hi) {data : V} {k : Nat}
    (ho : s.owner = .pushTail data k) : DequeInv { s with owner := .pushNew data } c lo hi :=
  h.load (by rw [ho]; rfl) trivial (by rw [ho]; rfl)

theorem DequeInv.pushSpace (h : DequeInv s c lo hi) {data : V} {k : Nat}
    (ho : s.owner = .pushTail data k)
    (hspace : ¬ ((s.seg (c hi)).tail_idx + nodeLength) % word ≤ k) :
    DequeInv { s with owner := .pushSlot data k } c lo hi := by
  have hk := h.owner
  rw [ho] at hk
  have hmod := Nat.mod_le ((s.seg (c hi)).tail_idx + nodeLength) word
  exact h.load (by rw [ho]; rfl) ⟨hk, by omega⟩ (by rw [ho]; rfl)

theorem DequeInv.pushSlot (h : DequeInv s c lo hi) {data : V} {k : Nat}
    (ho : s.owner = .pushSlot data k) :
    DequeInv { s.modify (c hi) (fun g =>
        { g with buffer := Function.update g.buffer (k % nodeLength) data }) with
      owner := .pushStore data k } c lo hi := by
  have hk := h.owner
  rw [ho] at hk
  obtain ⟨hk, hfits⟩ := hk
  have hopen := h.linked.headOpen
  have hitems := Segment.items_write hopen hk hfits data
  refine h.atHead (by rw [ho]; rfl) ⟨rfl, rfl⟩ ⟨hopen.le, hopen.fits, hopen.lt⟩ (Nat.le_refl _)
    ?_ ⟨hk, hfits, by simp⟩ ?_
  · intro w t _ hp
    refine ⟨⟨hp.le, hp.item⟩, fun ht => ?_⟩
    have hlt := (hp.item ht.symm).2
    have ht : (s.seg (c hi)).tail_idx = t := ht
    refine Function.update_of_ne ?_ _ _
    show t % 256 ≠ k % 256
    have : nodeLength = 256 := rfl
    omega
  · rw [hitems, ho]
    rfl

theorem DequeInv.pushStore (h : DequeInv s c lo hi) {data : V} {k : Nat}
    (ho : s.owner = .pushStore data k) (hlt : k + 1 < closed) :
    DequeInv { s.modify (c hi) (fun g => { g with head_idx := (k + 1) % word }) with
      owner := .idle, pushed := s.pushed ++ [data] } c lo hi := by
  have hk := h.owner
  rw [ho] at hk
  obtain ⟨hk, hfits, hdata⟩ := hk
  have hopen := h.linked.headOpen
  have hle := hopen.le
  have hmod : (k + 1) % word = k + 1 := Nat.mod_eq_of_lt (Nat.lt_succ_of_lt hlt)
  rw [hmod]
  have hitems := Segment.items_push hopen hk hlt
  refine h.atHead (by rw [ho]; rfl) ⟨rfl, rfl⟩ ⟨?_, ?_, hlt⟩ (Nat.le_refl _) ?_ trivial ?_
  · show (s.seg (c hi)).tail_idx ≤ k + 1
    omega
  · show k + 1 ≤ (s.seg (c hi)).tail_idx + nodeLength
    omega
  · intro w t _ hp
    refine ⟨⟨hp.le, fun ht => ⟨Nat.ne_of_lt hlt, ?_⟩⟩, fun _ => rfl⟩
    have := (hp.item ht).2
    show t < k + 1
    omega
  · rw [hitems, ho, hdata]
    simp only [OwnerPc.inHand, ← Multiset.coe_add, State.modify_returned]
    abel

/-! ### Pop -/

theorem DequeInv.popHead (h : DequeInv s c lo hi) (ho : s.owner = .popHead) :
    DequeInv { s with owner := .popTail (((s.seg (c hi)).head_idx + (word - 1)) % word) } c lo hi :=
  h.load (by rw [ho]; rfl) rfl (by rw [ho]; rfl)

/-- What the owner has loaded as `_head_idx` is one less than `head_idx`, or -1. -/
theorem pred_index {k j : Nat} (hk : k = (j + (word - 1)) % word) (hj : j < closed) :
    j = 0 ∧ (k + 1) % word = 0 ∧ k = closed ∨ j = k + 1 ∧ (k + 1) % word = k + 1 := by
  have hw : word = 18446744073709551616 := rfl
  have hc : closed = 18446744073709551615 := rfl
  simp only [hw, hc] at *
  omega

theorem DequeInv.popMany (h : DequeInv s c lo hi) {k : Nat} (ho : s.owner = .popTail k)
    (hlt : ((s.seg (c hi)).tail_idx + 1) % word < (k + 1) % word) :
    DequeInv { s with owner := .popStore k } c lo hi := by
  have hk := h.owner
  rw [ho] at hk
  have hopen := h.linked.headOpen
  refine h.load (by rw [ho]; rfl) ?_ (by rw [ho]; rfl)
  show (s.seg (c hi)).head_idx = k + 1
  have := pred_index hk hopen.lt
  omega

theorem DequeInv.popOne (h : DequeInv s c lo hi) {k : Nat} (ho : s.owner = .popTail k)
    (heq : (s.seg (c hi)).tail_idx = k) :
    DequeInv { s with owner := .popSlot (s.seg (c hi)).tail_idx } c lo hi := by
  have hk := h.owner
  rw [ho] at hk
  have hopen := h.linked.headOpen
  refine h.load (by rw [ho]; rfl) ⟨?_, Nat.le_refl _⟩ (by rw [ho]; rfl)
  have := pred_index hk hopen.lt
  have := hopen.le
  have := hopen.lt
  omega

theorem DequeInv.popNone (h : DequeInv s c lo hi) {k : Nat} (ho : s.owner = .popTail k)
    (hge : ¬ ((s.seg (c hi)).tail_idx + 1) % word < (k + 1) % word)
    (hne : (s.seg (c hi)).tail_idx ≠ k) :
    DequeInv { s with owner := .popEmpty (s.seg (c hi)).tail_idx } c lo hi := by
  have hk := h.owner
  rw [ho] at hk
  have hopen := h.linked.headOpen
  refine h.load (by rw [ho]; rfl) ⟨?_, rfl⟩ (by rw [ho]; rfl)
  have hle := hopen.le
  have hlt := hopen.lt
  have hmod : ((s.seg (c hi)).tail_idx + 1) % word = (s.seg (c hi)).tail_idx + 1 :=
    Nat.mod_eq_of_lt (Nat.succ_lt_succ (Nat.lt_of_le_of_lt hle hlt))
  have := pred_index hk hlt
  omega

/-- The head index goes down to `k`: the item there is the owner's, if no thief has
it or is about to take it. -/
theorem DequeInv.popStore (h : DequeInv s c lo hi) {k : Nat} (ho : s.owner = .popStore k)
    (hcareful : (s.seg (c hi)).tail_idx < k ∨
      ((s.seg (c hi)).tail_idx = k ∧ ∀ w, ¬ (s.thief w).takes (c hi) k)) :
    DequeInv { s.modify (c hi) (fun g => { g with head_idx := k }) with owner := .popRead k }
      c lo hi := by
  have hk := h.owner
  rw [ho] at hk
  have hk : (s.seg (c hi)).head_idx = k + 1 := hk
  have hopen := h.linked.headOpen
  have hle : (s.seg (c hi)).tail_idx ≤ k := by omega
  have hlt := hopen.lt
  have hfits := hopen.fits
  have hitems := Segment.items_pop hopen hk hle
  refine h.atHead (by rw [ho]; rfl) ⟨rfl, rfl⟩ ⟨hle, ?_, ?_⟩ (Nat.le_refl _) ?_ rfl ?_
  · show k ≤ (s.seg (c hi)).tail_idx + nodeLength
    omega
  · show k < closed
    omega
  · intro w t htakes hp
    refine ⟨⟨hp.le, fun ht => ?_⟩, fun _ => rfl⟩
    have ht : t = (s.seg (c hi)).tail_idx := ht
    refine ⟨?_, ?_⟩
    · show k ≠ closed
      omega
    · show t < k
      rcases hcareful with hlt | ⟨heq, hno⟩
      · omega
      · exact absurd (by rwa [← heq, ← ht]) (hno w)
  · rw [hitems, ho]
    simp only [OwnerPc.inHand, ← Multiset.coe_add, State.modify_returned, State.modify_pushed]
    abel

theorem DequeInv.popRead (h : DequeInv s c lo hi) {k : Nat} (ho : s.owner = .popRead k) :
    DequeInv { s with
      owner := .idle, returned := s.returned ++ [(s.seg (c hi)).buffer (k % nodeLength)] }
      c lo hi := by
  have hid : s.modify (c hi) id = s := by simp [State.modify]
  have h' : DequeInv { s.modify (c hi) id with
      owner := .idle, pushed := s.pushed,
      returned := s.returned ++ [(s.seg (c hi)).buffer (k % nodeLength)] } c lo hi :=
    h.atHead (by rw [ho]; rfl) ⟨rfl, rfl⟩ h.linked.headOpen (Nat.le_refl _)
      (fun _ _ _ hp => ⟨hp, fun _ => rfl⟩) trivial
      (by simp [ho, OwnerPc.inHand, ← Multiset.coe_add])
  rwa [hid] at h'

theorem DequeInv.popSlot (h : DequeInv s c lo hi) {t : Nat} (ho : s.owner = .popSlot t) :
    DequeInv { s with owner := .popCas t ((s.seg (c hi)).buffer (t % nodeLength)) } c lo hi := by
  have hk := h.owner
  rw [ho] at hk
  exact h.load (by rw [ho]; rfl) ⟨hk.1, hk.2, fun _ => rfl⟩ (by rw [ho]; rfl)

theorem DequeInv.popCas (h : DequeInv s c lo hi) {t : Nat} {ret : V} (ho : s.owner = .popCas t ret)
    (ht : (s.seg (c hi)).tail_idx = t) :
    DequeInv { s.modify (c hi) (fun g => { g with tail_idx := (t + 1) % word }) with
      owner := .idle, returned := s.returned ++ [ret] } c lo hi := by
  have hk := h.owner
  rw [ho] at hk
  obtain ⟨hhead, -, hret⟩ := hk
  have hopen := h.linked.headOpen
  have hlt := hopen.lt
  have hmod : (t + 1) % word = t + 1 := Nat.mod_eq_of_lt (Nat.lt_succ_of_lt (hhead ▸ hlt))
  rw [hmod]
  have hitems := Segment.items_take hopen (by omega)
  refine h.atHead (by rw [ho]; rfl) ⟨rfl, rfl⟩ ⟨?_, ?_, hlt⟩ ?_ ?_ trivial ?_
  · show t + 1 ≤ (s.seg (c hi)).head_idx
    omega
  · show (s.seg (c hi)).head_idx ≤ t + 1 + nodeLength
    omega
  · show (s.seg (c hi)).tail_idx ≤ t + 1
    omega
  · intro w u _ hp
    have hle := hp.le
    refine ⟨⟨?_, fun hu => ?_⟩, fun _ => rfl⟩
    · show u ≤ t + 1
      omega
    · have hu : u = t + 1 := hu
      omega
  · rw [hitems, ho, hret ht, ht]
    simp only [OwnerPc.inHand, ← Multiset.coe_add, ← Multiset.cons_coe, State.modify_pushed,
      ← Multiset.singleton_add]
    simp only [Multiset.coe_nil]
    abel

theorem DequeInv.popRetry (h : DequeInv s c lo hi) {t : Nat} {ret : V}
    (ho : s.owner = .popCas t ret) : DequeInv { s with owner := .popHead } c lo hi :=
  h.load (by rw [ho]; rfl) trivial (by rw [ho]; rfl)

/-- Storing the tail index in the head index of an empty segment changes nothing. -/
theorem DequeInv.popEmpty (h : DequeInv s c lo hi) {t : Nat} (ho : s.owner = .popEmpty t) :
    DequeInv { s.modify (c hi) (fun g => { g with head_idx := t }) with owner := .popPrev }
      c lo hi := by
  have hk := h.owner
  rw [ho] at hk
  obtain ⟨hhead, htail⟩ := hk
  have hid : s.modify (c hi) (fun g => { g with head_idx := t }) = s := by
    simp [State.modify, ← hhead]
  rw [hid]
  exact h.load (by rw [ho]; rfl) (htail.trans hhead.symm) (by rw [ho]; rfl)

theorem DequeInv.popFailed (h : DequeInv s c lo hi) (ho : s.owner = .popPrev) :
    DequeInv { s with owner := .idle } c lo hi :=
  h.load (by rw [ho]; rfl) trivial (by rw [ho]; rfl)

theorem DequeInv.popPrev (h : DequeInv s c lo hi) (ho : s.owner = .popPrev) :
    DequeInv { s with owner := .popUnlink } c lo hi := by
  have hk := h.owner
  rw [ho] at hk
  exact h.load (by rw [ho]; rfl) hk (by rw [ho]; rfl)

/-! ### A new segment, and the return to the previous one -/

/-- The new segment becomes the last of the sequence; it is not linked yet. -/
theorem DequeInv.pushNew (h : DequeInv s c lo hi) {data : V} (ho : s.owner = .pushNew data) :
    DequeInv { s with
      seg := Function.update s.seg s.allocated
        (ksiRingBufferSegmentNew junk data (some (c hi)))
      allocated := s.allocated + 1
      head := some s.allocated
      owner := .pushLink (c hi) s.allocated
      pushed := s.pushed ++ [data] } (Function.update c (hi + 1) s.allocated) lo (hi + 1) := by
  obtain ⟨hle, hinj, halloc, hhead, htail, hnext, hlast, hprev, hfirst, hpassed, huse⟩ := h.linked
  have hold : ∀ i, i ≤ hi → Function.update c (hi + 1) s.allocated i = c i :=
    fun i hi' => Function.update_of_ne (by omega) _ _
  have hseg : ∀ i, i ≤ hi → Function.update s.seg s.allocated
      (ksiRingBufferSegmentNew junk data (some (c hi))) (c i) = s.seg (c i) :=
    fun i hi' => Function.update_of_ne (Nat.ne_of_lt (halloc i hi')) _ _
  refine ⟨?_, ?_, ?_, ?_⟩
  · constructor
    case le => omega
    case inj => grind
    case alloc => grind
    case head => grind
    case tail => grind
    case next => grind
    case last => grind [ksiRingBufferSegmentNew]
    case prev => grind [ksiRingBufferSegmentNew]
    case first => grind
    case passed => grind
    case inUse =>
      have hopen := Segment.open_new junk data (some (c hi))
      intro i hlo hi'
      by_cases heq : i = hi + 1
      · subst heq
        simp only [Function.update_self]
        exact .inl hopen
      · have := huse i hlo (by omega)
        grind
  · simp only [OwnerOk]
    refine ⟨by omega, ?_, by simp⟩
    rw [Nat.add_sub_cancel, hold hi (Nat.le_refl hi)]
  · intro w
    refine (h.thief w).frame hle hold ?_ ?_ ?_
    · intro i hi'
      simp only [hseg i (by omega), Nat.le_refl]
    · intro i t hi' _ hp
      simp only [hseg i (by omega)]
      exact ⟨hp, fun _ => trivial⟩
    · intro i hi' hlt _
      simp only [hseg i (by omega)]
      exact ⟨by omega, trivial, id, id⟩
  · have hcons := h.conserved
    rw [h.linked.inHand, ho] at hcons
    have hrest : (∑ i ∈ Finset.Icc lo hi, ((Function.update s.seg s.allocated
        (ksiRingBufferSegmentNew junk data (some (c hi)))
        (Function.update c (hi + 1) s.allocated i)).items : Multiset V)) = held s c lo hi := by
      refine Finset.sum_congr rfl fun i hi' => ?_
      rw [Finset.mem_Icc] at hi'
      rw [hold i hi'.2, hseg i hi'.2]
    simp only [held, State.inHand, OwnerPc.inHand]
    rw [Finset.sum_Icc_succ_top (by omega), hrest, Function.update_self, Function.update_self,
      Segment.items_new, ← Multiset.coe_add, hcons]
    simp only [OwnerPc.inHand]
    abel

/-- A store to `next` of the segment before the head, while no thief is about to
leave it. -/
theorem DequeInv.relink (h : DequeInv s c lo hi) (hlt : lo < hi)
    (hused : (s.seg (c (hi - 1))).head_idx ≠ closed)
    (hleaves : ∀ w, ¬ (s.thief w).leaves (c (hi - 1))) {o : OwnerPc V} {n : Option Nat}
    (hn : n = if o.unlinked then none else some (c hi))
    (howner : OwnerOk c lo hi (s.seg (c hi)) o)
    (hhand : o.inHand (s.seg (c hi)) = s.owner.inHand (s.seg (c hi))) :
    DequeInv { s.modify (c (hi - 1)) (fun g => { g with next := n }) with owner := o } c lo hi := by
  have hcons := h.conserved
  rw [h.linked.inHand] at hcons
  obtain ⟨hle, hinj, halloc, hhead, htail, hnext, hlast, hprev, hfirst, hpassed, huse⟩ := h.linked
  have hthis := s.modify_self (c (hi - 1)) (fun g => { g with next := n })
  have hother : ∀ i, i ≤ hi → i ≠ hi - 1 →
      (s.modify (c (hi - 1)) (fun g => { g with next := n })).seg (c i) = s.seg (c i) :=
    fun i hi' hne => s.modify_of_ne _ fun heq => hne (hinj i (hi - 1) hi' (by omega) heq)
  -- all fields but `next` are as they were
  have hsame : ∀ i, i ≤ hi → ∃ m,
      (s.modify (c (hi - 1)) (fun g => { g with next := n })).seg (c i) =
        { s.seg (c i) with next := m } := by
    intro i hi'
    by_cases heq : i = hi - 1
    · subst heq
      exact ⟨n, hthis⟩
    · exact ⟨(s.seg (c i)).next, hother i hi' heq⟩
  have hatHead := hother hi (Nat.le_refl hi) (by omega)
  have hlinked : Linked { s.modify (c (hi - 1)) (fun g => { g with next := n }) with
      owner := o } c lo hi := by
    constructor
    case le => exact hle
    case inj => exact hinj
    case alloc => exact halloc
    case head => exact hhead
    case tail => exact htail
    case next =>
      intro i hi'
      by_cases heq : i = hi - 1
      · have : i + 1 = hi := by omega
        subst heq
        rw [hthis, hn]
        simp only [this, true_and]
      · have := hnext i hi'
        rw [hother i (by omega) heq, this]
        grind
    case last => rw [hatHead]; exact hlast
    case prev =>
      intro i hlo hi'
      obtain ⟨m, hm⟩ := hsame (i + 1) hi'
      rw [hm]
      exact hprev i hlo hi'
    case first =>
      intro a ha
      obtain ⟨m, hm⟩ := hsame lo hle
      rw [hm] at ha
      exact hfirst a ha
    case passed =>
      intro i hi'
      obtain ⟨m, hm⟩ := hsame i (by omega)
      rw [hm]
      exact hpassed i hi'
    case inUse =>
      intro i hlo hi'
      by_cases heq : i = hi - 1
      · subst heq
        rw [hthis]
        rcases huse (hi - 1) hlo hi' with hopen | ⟨hcl, -⟩
        · exact .inl ⟨hopen.le, hopen.fits, hopen.lt⟩
        · exact absurd hcl hused
      · rw [hother i hi' heq]
        exact huse i hlo hi'
  refine ⟨hlinked, ?_, ?_, ?_⟩
  · rw [hatHead]
    exact howner
  · intro w
    refine (h.thief w).frame hle (fun _ _ => rfl) ?_ ?_ ?_
    · intro i hi'
      obtain ⟨m, hm⟩ := hsame i (by omega)
      rw [hm]
    · intro i t hi' _ hp
      obtain ⟨m, hm⟩ := hsame i (by omega)
      rw [hm]
      exact ⟨⟨hp.le, hp.item⟩, fun _ => rfl⟩
    · intro i hi' hlt' hl
      have hne : i ≠ hi - 1 := fun heq => hleaves w (heq ▸ hl)
      rw [hother i (by omega) hne]
      exact ⟨hlt', rfl, id, id⟩
  · have hheld : held { s.modify (c (hi - 1)) (fun g => { g with next := n }) with owner := o }
        c lo hi = held s c lo hi := by
      refine held_congr fun i _ hi' => ?_
      obtain ⟨m, hm⟩ := hsame i hi'
      rw [hm]
      rfl
    rw [hlinked.inHand, hatHead, hheld, hhand]
    exact hcons

/-- The link to the new segment is stored. -/
theorem DequeInv.pushLink (h : DequeInv s c lo hi) {old n : Nat} (ho : s.owner = .pushLink old n) :
    DequeInv { s.modify old (fun g => { g with next := some n }) with owner := .idle } c lo hi := by
  have hk := h.owner
  rw [ho] at hk
  obtain ⟨hlt, rfl, rfl⟩ := hk
  have hnone : (s.seg (c (hi - 1))).next = none := by
    rw [h.linked.next (hi - 1) (by omega), if_pos ⟨by omega, by rw [ho]; rfl⟩]
  refine h.relink hlt ?_ ?_ rfl trivial (by rw [ho]; rfl)
  · intro hcl
    rcases h.linked.inUse (hi - 1) (by omega) (by omega) with hopen | ⟨-, -, hnext, -⟩
    · exact absurd hcl (Nat.ne_of_lt hopen.lt)
    · rw [hnone] at hnext
      cases hnext
  · intro w hl
    exact (h.thief w).next_ne_none hl hnone

/-- The link to the head is taken back. -/
theorem DequeInv.popUnlink (h : DequeInv s c lo hi) {a : Nat} (ho : s.owner = .popUnlink)
    (hprev : (s.seg (c hi)).prev = some a) (hused : (s.seg a).head_idx ≠ closed)
    (hleaves : ∀ w, ¬ (s.thief w).leaves a) :
    DequeInv { s.modify a (fun g => { g with next := none }) with owner := .popDrop } c lo hi := by
  have hk := h.owner
  rw [ho] at hk
  have hle := h.linked.le
  have hlt : lo < hi := by
    rcases Nat.lt_or_ge lo hi with hlt | hge
    · exact hlt
    · -- the tail has no `prev` but a closed segment
      obtain rfl : lo = hi := by omega
      obtain ⟨i, hi', rfl⟩ := h.linked.first a hprev
      exact absurd (h.linked.passed i hi') hused
  obtain rfl : a = c (hi - 1) := by
    have := h.linked.prev (hi - 1) (by omega) (by omega)
    rw [Nat.sub_add_cancel (by omega), hprev] at this
    exact Option.some.inj this
  exact h.relink hlt hused hleaves rfl ⟨hk, hlt⟩ (by rw [ho]; rfl)

/-- The head is dropped, and the sequence is one shorter. -/
theorem DequeInv.popDrop (h : DequeInv s c lo hi) (ho : s.owner = .popDrop) :
    DequeInv { s.modify (c hi) (fun g => { g with prev := s.ownerFree }) with
      head := (s.seg (c hi)).prev
      ownerFree := some (c hi)
      owner := .popHead } c lo (hi - 1) := by
  have hk := h.owner
  rw [ho] at hk
  obtain ⟨hempty, hlt⟩ := hk
  have hcons := h.conserved
  rw [h.linked.inHand, ho] at hcons
  have hnone : (s.seg (c (hi - 1))).next = none := by
    rw [h.linked.next (hi - 1) (by omega), if_pos ⟨by omega, by rw [ho]; rfl⟩]
  have hother : ∀ i, i < hi →
      (s.modify (c hi) (fun g => { g with prev := s.ownerFree })).seg (c i) = s.seg (c i) :=
    fun i hi' => s.modify_of_ne _ (h.linked.ne_head hi')
  obtain ⟨hle, hinj, halloc, hhead, htail, hnext, hlast, hprev, hfirst, hpassed, huse⟩ := h.linked
  have hpred : (s.seg (c hi)).prev = some (c (hi - 1)) := by
    have := hprev (hi - 1) (by omega) (by omega)
    rwa [Nat.sub_add_cancel (by omega)] at this
  have hunlinked : s.owner.unlinked = true := by rw [ho]; rfl
  have hlinked : Linked { s.modify (c hi) (fun g => { g with prev := s.ownerFree }) with
      head := (s.seg (c hi)).prev, ownerFree := some (c hi), owner := .popHead }
      c lo (hi - 1) := by
    constructor
    case le => omega
    case inj => exact fun i j hi' hj => hinj i j (by omega) (by omega)
    case alloc => exact fun i hi' => halloc i (by omega)
    case head => exact hpred
    case tail => exact htail
    case next =>
      intro i hi'
      rw [hother i (by omega), hnext i (by omega)]
      simp only [OwnerPc.unlinked]
      grind
    case last => rw [hother (hi - 1) (by omega)]; exact hnone
    case prev =>
      intro i hlo hi'
      rw [hother (i + 1) (by omega)]
      exact hprev i hlo (by omega)
    case first =>
      intro a ha
      rw [hother lo hlt] at ha
      exact hfirst a ha
    case passed =>
      intro i hi'
      rw [hother i (by omega)]
      exact hpassed i hi'
    case inUse =>
      intro i hlo hi'
      rw [hother i (by omega)]
      rcases huse i hlo (by omega) with hopen | ⟨hcl, heq, hn, -⟩
      · exact .inl hopen
      · refine .inr ⟨hcl, heq, hn, ?_⟩
        have : i ≠ hi - 1 := by
          rintro rfl
          rw [hnone] at hn
          cases hn
        omega
  refine ⟨hlinked, trivial, ?_, ?_⟩
  · intro w
    refine (h.thief w).frame hle (fun _ _ => rfl) ?_ ?_ ?_
    · intro i hi'
      rw [hother i (by omega)]
    · intro i t hi' _ hp
      rw [hother i (by omega)]
      exact ⟨hp, fun _ => rfl⟩
    · intro i hi' hlt' hl
      have hne : i ≠ hi - 1 := by
        rintro rfl
        exact (h.thief w).next_ne_none hl hnone
      rw [hother i hlt']
      exact ⟨by omega, rfl, id, id⟩
  · have hheld : held { s.modify (c hi) (fun g => { g with prev := s.ownerFree }) with
        head := (s.seg (c hi)).prev, ownerFree := some (c hi), owner := .popHead }
        c lo (hi - 1) = held s c lo (hi - 1) :=
      held_congr fun i _ hi' => congrArg Segment.items (hother i (by omega))
    rw [held_last hlt, Segment.items_of_empty hempty] at hcons
    rw [hlinked.inHand, hheld]
    simpa [OwnerPc.inHand] using hcons

/-! ### Every step -/

/-- **A step of the owner keeps the invariant**, with a sequence that is one longer, as
long or one shorter. -/
theorem DequeInv.stepOwner [DecidableEq T] (h : DequeInv s c lo hi)
    (hcareful : Careful s .owner) (hstep : stepOwner junk s = some s') :
    ∃ c' hi', DequeInv s' c' lo hi' := by
  have hhead := h.linked.head
  unfold Careful at hcareful
  rw [hhead] at hcareful
  unfold RingBuffer.stepOwner at hstep
  split at hstep
  · cases hstep
  rename_i a heq
  obtain rfl : a = c hi := Option.some.inj (heq.symm.trans hhead)
  cases ho : s.owner with
  | idle =>
      rw [ho] at hstep
      cases hstep
  | pushHead data =>
      rw [ho] at hstep
      cases hstep
      exact ⟨c, hi, h.pushHead ho⟩
  | pushTail data k =>
      rw [ho] at hstep
      dsimp only at hstep
      split at hstep
      · cases hstep
        exact ⟨c, hi, h.pushFull ho⟩
      · cases hstep
        exact ⟨c, hi, h.pushSpace ho ‹_›⟩
  | pushNew data =>
      rw [ho] at hstep
      cases hstep
      exact ⟨_, hi + 1, h.pushNew ho⟩
  | pushLink old n =>
      rw [ho] at hstep
      cases hstep
      exact ⟨c, hi, h.pushLink ho⟩
  | pushSlot data k =>
      rw [ho] at hstep
      cases hstep
      exact ⟨c, hi, h.pushSlot ho⟩
  | pushStore data k =>
      rw [ho] at hstep hcareful
      cases hstep
      exact ⟨c, hi, h.pushStore ho hcareful⟩
  | popHead =>
      rw [ho] at hstep
      cases hstep
      exact ⟨c, hi, h.popHead ho⟩
  | popTail k =>
      rw [ho] at hstep
      dsimp only at hstep
      split at hstep
      · cases hstep
        exact ⟨c, hi, h.popMany ho ‹_›⟩
      · split at hstep
        · cases hstep
          exact ⟨c, hi, h.popOne ho ‹_›⟩
        · cases hstep
          exact ⟨c, hi, h.popNone ho ‹_› ‹_›⟩
  | popStore k =>
      rw [ho] at hstep hcareful
      cases hstep
      exact ⟨c, hi, h.popStore ho hcareful⟩
  | popRead k =>
      rw [ho] at hstep
      cases hstep
      exact ⟨c, hi, h.popRead ho⟩
  | popSlot t =>
      rw [ho] at hstep
      cases hstep
      exact ⟨c, hi, h.popSlot ho⟩
  | popCas t ret =>
      rw [ho] at hstep
      dsimp only at hstep
      split at hstep
      · cases hstep
        exact ⟨c, hi, h.popCas ho ‹_›⟩
      · cases hstep
        exact ⟨c, hi, h.popRetry ho⟩
  | popEmpty t =>
      rw [ho] at hstep
      cases hstep
      exact ⟨c, hi, h.popEmpty ho⟩
  | popPrev =>
      rw [ho] at hstep
      dsimp only at hstep
      split at hstep
      · cases hstep
        exact ⟨c, hi, h.popFailed ho⟩
      · cases hstep
        exact ⟨c, hi, h.popPrev ho⟩
  | popUnlink =>
      rw [ho] at hstep hcareful
      obtain ⟨a, hprev, hused, hleaves⟩ := hcareful
      rw [hprev] at hstep
      cases hstep
      exact ⟨c, hi, h.popUnlink ho hprev hused hleaves⟩
  | popDrop =>
      rw [ho] at hstep
      cases hstep
      exact ⟨c, hi - 1, h.popDrop ho⟩

end Ksi.RingBuffer

/-
A ring buffer that no other worker takes from.

Then Push, Pop and Take come one after the other, and the segments in use are a list from
`rb->tail` to `rb->head`: Push appends to it, Pop drops its last segment and Take its
first one.  A segment that Take has dropped is in its hand until it is put on a free list.
Nothing here rests on the indices in the segments; they only say which way a call goes.
-/
import Ksi.WorkQueue.Machine
import Ksi.Lib.Linked

namespace Ksi.WorkQueue

open RingBuffer (Segment OwnerPc ThiefPc)

variable {V T : Type} {junk : Nat → V} {r r' : RingBuffer.State V T} {w : T}
  {chain : List Nat} {hand : Option Nat} {x y : Nat}

/-- The `next` of the segments. -/
def nextOf (r : RingBuffer.State V T) (x : Nat) : Option Nat := (r.seg x).next

/-- The `prev` of the segments. -/
def prevOf (r : RingBuffer.State V T) (x : Nat) : Option Nat := (r.seg x).prev

theorem nextOf_store {g : Segment V} (hseg : r'.seg = Function.update r.seg x g) :
    nextOf r' = Function.update (nextOf r) x g.next := by
  funext y
  unfold nextOf
  rw [hseg]
  by_cases hy : y = x
  · subst hy
    simp
  · simp [hy]

theorem prevOf_store {g : Segment V} (hseg : r'.seg = Function.update r.seg x g) :
    prevOf r' = Function.update (prevOf r) x g.prev := by
  funext y
  unfold prevOf
  rw [hseg]
  by_cases hy : y = x
  · subst hy
    simp
  · simp [hy]

theorem nextOf_same {g : Segment V} (hseg : r'.seg = Function.update r.seg x g)
    (hg : g.next = (r.seg x).next) : nextOf r' = nextOf r := by
  rw [nextOf_store hseg, hg]
  exact Function.update_eq_self x (nextOf r)

theorem prevOf_same {g : Segment V} (hseg : r'.seg = Function.update r.seg x g)
    (hg : g.prev = (r.seg x).prev) : prevOf r' = prevOf r := by
  rw [prevOf_store hseg, hg]
  exact Function.update_eq_self x (prevOf r)

/-- The same segments are in use, and linked in the same way. -/
structure SameList (r r' : RingBuffer.State V T) : Prop where
  next : nextOf r' = nextOf r
  prev : prevOf r' = prevOf r
  allocated : r'.allocated = r.allocated
  head : r'.head = r.head
  tail : r'.tail = r.tail

theorem SameList.of_seg (hseg : r'.seg = r.seg) (hallocated : r'.allocated = r.allocated)
    (hhead : r'.head = r.head) (htail : r'.tail = r.tail) : SameList r r' where
  next := by
    unfold nextOf
    rw [hseg]
  prev := by
    unfold prevOf
    rw [hseg]
  allocated := hallocated
  head := hhead
  tail := htail

/-- A store to a segment, but for its links. -/
theorem SameList.of_store {g : Segment V} (hseg : r'.seg = Function.update r.seg x g)
    (hnext : g.next = (r.seg x).next) (hprev : g.prev = (r.seg x).prev)
    (hallocated : r'.allocated = r.allocated) (hhead : r'.head = r.head)
    (htail : r'.tail = r.tail) : SameList r r' where
  next := nextOf_same hseg hnext
  prev := prevOf_same hseg hprev
  allocated := hallocated
  head := hhead
  tail := htail

/-- The last segment of the list is not linked. -/
def unlinked : OwnerPc V → Bool
  | .pushLink _ _ | .popDrop => true
  | _ => false

/-- The segments that are linked by `next`. -/
def nexts (p : OwnerPc V) (chain : List Nat) : List Nat :=
  if unlinked p then chain.dropLast else chain

theorem nexts_unlinked {p : OwnerPc V} (hp : unlinked p = true) : nexts p chain = chain.dropLast :=
  if_pos hp

theorem nexts_linked {p : OwnerPc V} (hp : unlinked p = false) : nexts p chain = chain :=
  if_neg (by rw [hp]; nofun)

/-- The segments that are linked by `prev`, the last one first: at the end, the one that
Take has dropped, until it cuts the link. -/
def prevs (p : ThiefPc V) (chain : List Nat) : List Nat :=
  match p with
  | .cut x _ => (x :: chain).reverse
  | _ => chain.reverse

/-- What the owner's place in Push and Pop says of the list. -/
def OwnerAt (p : OwnerPc V) (chain : List Nat) : Prop :=
  match p with
  | .pushLink old n => ∃ pre, chain = pre ++ [old, n]
  | .popDrop => ∃ pre a x, chain = pre ++ [a, x]
  | _ => True

/-- What the worker's place in Take says of the list. -/
def ThiefAt (p : ThiefPc V) (chain : List Nat) (hand : Option Nat) : Prop :=
  match p with
  | .idle | .load => hand = none
  | .loadTail x | .loadHead x _ | .slot x _ | .cas x _ _ | .next x =>
      chain.head? = some x ∧ hand = none
  | .close x b | .swing x b => (∃ rest, chain = x :: b :: rest) ∧ hand = none
  | .cut x b | .retire x b => chain.head? = some b ∧ hand = some x

/-- The segments in use are those of the list. -/
structure Alone (r : RingBuffer.State V T) (w : T) (chain : List Nat)
    (hand : Option Nat) : Prop where
  nodup : (hand.toList ++ chain).Nodup
  alloc : ∀ x ∈ hand.toList ++ chain, x < r.allocated
  head : r.head = chain.getLast?
  tail : chain.head? = some r.tail
  next : Linked (nextOf r) (nexts r.owner chain)
  /-- the last segment has no successor -/
  last : ∀ x ∈ chain.getLast?, nextOf r x = none
  prev : Linked (prevOf r) (prevs (r.thief w) chain)
  owner : OwnerAt r.owner chain
  thief : ThiefAt (r.thief w) chain hand
  /-- the worker is in one call -/
  one : r.owner = .idle ∨ r.thief w = .idle

theorem alone_init : Alone (RingBuffer.init junk T) w [0] none where
  nodup := List.nodup_singleton 0
  alloc := by simp [RingBuffer.init]
  head := rfl
  tail := rfl
  next := ⟨rfl, trivial⟩
  last := by simp [RingBuffer.init, nextOf]
  prev := ⟨rfl, trivial⟩
  owner := trivial
  thief := rfl
  one := .inl rfl

namespace Alone

/-- The free lists in use do not matter. -/
theorem free (h : Alone r w chain hand) (list : Option Nat) (lists : T → Option Nat) :
    Alone { r with ownerFree := list, thiefFree := lists } w chain hand :=
  ⟨h.nodup, h.alloc, h.head, h.tail, h.next, h.last, h.prev, h.owner, h.thief, h.one⟩

/-- A step of the owner that leaves the list as it is. -/
theorem ownerTo (h : Alone r w chain hand) (hlist : SameList r r') (hthief : r'.thief = r.thief)
    (hp : unlinked r'.owner = unlinked r.owner) (hat : OwnerAt r'.owner chain)
    (hidle : r.thief w = .idle) : Alone r' w chain hand where
  nodup := h.nodup
  alloc := by
    rw [hlist.allocated]
    exact h.alloc
  head := hlist.head.trans h.head
  tail := by
    rw [hlist.tail]
    exact h.tail
  next := by
    have hlinked := h.next
    unfold nexts at hlinked ⊢
    rw [hp, hlist.next]
    exact hlinked
  last := by
    rw [hlist.next]
    exact h.last
  prev := by
    rw [hlist.prev, hthief]
    exact h.prev
  owner := hat
  thief := by
    rw [hthief]
    exact h.thief
  one := by
    rw [hthief]
    exact .inr hidle

/-- A step in Take that leaves the list as it is. -/
theorem thiefTo (h : Alone r w chain hand) (hlist : SameList r r') (howner : r'.owner = r.owner)
    (hp : prevs (r'.thief w) chain = prevs (r.thief w) chain)
    (hat : ThiefAt (r'.thief w) chain hand) (hidle : r.owner = .idle) : Alone r' w chain hand where
  nodup := h.nodup
  alloc := by
    rw [hlist.allocated]
    exact h.alloc
  head := hlist.head.trans h.head
  tail := by
    rw [hlist.tail]
    exact h.tail
  next := by
    rw [hlist.next, howner]
    exact h.next
  last := by
    rw [hlist.next]
    exact h.last
  prev := by
    rw [hlist.prev, hp]
    exact h.prev
  owner := by
    rw [howner]
    exact h.owner
  thief := hat
  one := .inl (howner.trans hidle)

end Alone

/-- What a step that retires nothing leaves of the list. -/
structure Kept (r r' : RingBuffer.State V T) (chain chain' : List Nat)
    (hand hand' : Option Nat) : Prop where
  alloc : r.allocated ≤ r'.allocated
  /-- no segment is lost -/
  kept : ∀ x ∈ hand.toList ++ chain, x ∈ hand'.toList ++ chain'
  /-- and only a new one comes in -/
  new : ∀ x ∈ hand'.toList ++ chain', x ∈ hand.toList ++ chain ∨ x = r.allocated
  /-- the `prev` of the other segments stays -/
  prev : ∀ x, x < r.allocated → x ∉ hand.toList ++ chain → prevOf r' x = prevOf r x

theorem SameList.kept (h : SameList r r') : Kept r r' chain chain hand hand where
  alloc := Nat.le_of_eq h.allocated.symm
  kept := fun _ hx => hx
  new := fun _ hx => .inl hx
  prev := fun _ _ _ => by rw [h.prev]

theorem Kept.refl (r : RingBuffer.State V T) : Kept r r chain chain hand hand :=
  SameList.kept (.of_seg rfl rfl rfl rfl)

/-! ### Push and Pop -/

namespace Alone

theorem hand_eq_none (h : Alone r w chain hand) (hidle : r.thief w = .idle) : hand = none := by
  have hat := h.thief
  rw [hidle] at hat
  exact hat

/-- A new segment comes to the end of the list. -/
theorem pushNew (h : Alone r w chain hand) {data : V} (hp : r.owner = .pushNew data) {head : Nat}
    (hhead : r.head = some head) {pushed : List V} :
    Alone { r with
        seg := Function.update r.seg r.allocated
          (RingBuffer.ksiRingBufferSegmentNew junk data (some head))
        allocated := r.allocated + 1
        head := some r.allocated
        owner := .pushLink head r.allocated
        pushed := pushed } w (chain ++ [r.allocated]) hand := by
  have hidle : r.thief w = .idle := h.one.resolve_left (by rw [hp]; nofun)
  obtain rfl := h.hand_eq_none hidle
  have hfresh : r.allocated ∉ chain := fun hmem => Nat.lt_irrefl _ (h.alloc _ (by simpa using hmem))
  obtain ⟨pre, rfl⟩ := List.getLast?_eq_some_iff.mp (h.head.symm.trans hhead)
  have hnext := h.next
  have hprev := h.prev
  rw [hp, nexts_linked rfl] at hnext
  unfold prevs at hprev
  rw [hidle] at hprev
  constructor
  case nodup =>
    refine List.nodup_append.mpr
      ⟨List.nodup_nil, List.nodup_append.mpr ⟨h.nodup, List.nodup_singleton _, ?_⟩, by simp⟩
    rintro a ha b hb rfl
    exact hfresh (by rwa [List.mem_singleton.mp hb] at ha)
  case alloc =>
    intro x hx
    have hx : x ∈ pre ++ [head] ∨ x = r.allocated := by simpa [or_assoc] using hx
    show x < r.allocated + 1
    rcases hx with hx | rfl
    · exact Nat.lt_succ_of_lt (h.alloc x (by simpa using hx))
    · exact Nat.lt_succ_self _
  case head => simp
  case tail =>
    rw [← h.tail]
    cases pre <;> rfl
  case next =>
    show Linked _ (nexts (.pushLink head r.allocated) _)
    rw [show nexts (OwnerPc.pushLink (V := V) head r.allocated) (pre ++ [head] ++ [r.allocated]) =
      pre ++ [head] by simp [nexts, unlinked]]
    rw [nextOf_store (r := r) rfl]
    exact hnext.update hfresh none
  case last =>
    intro x hx
    obtain rfl : r.allocated = x := by simpa using hx
    simp [nextOf, RingBuffer.ksiRingBufferSegmentNew]
  case prev =>
    show Linked _ (prevs (r.thief w) _)
    rw [hidle]
    unfold prevs
    dsimp only
    rw [List.reverse_append]
    refine ⟨by simp [prevOf, RingBuffer.ksiRingBufferSegmentNew], ?_⟩
    rw [prevOf_store (r := r) rfl]
    exact hprev.update (fun hmem => hfresh (List.mem_reverse.mp hmem)) (some head)
  case owner => exact ⟨pre, by simp⟩
  case thief =>
    show ThiefAt (r.thief w) _ _
    rw [hidle]
    rfl
  case one => exact .inr hidle

/-- The last segment is linked to the one before it. -/
theorem pushLink (h : Alone r w chain hand) {old n : Nat} (hp : r.owner = .pushLink old n) :
    Alone { r.modify old (fun g => { g with next := some n }) with owner := .idle } w chain
      hand := by
  have hidle : r.thief w = .idle := h.one.resolve_left (by rw [hp]; nofun)
  have hat := h.owner
  rw [hp] at hat
  obtain ⟨pre, rfl⟩ := hat
  have hlast : nextOf r n = none := h.last n (by simp)
  have hnext := h.next
  rw [hp, nexts_unlinked rfl, List.dropLast_append_of_ne_nil (by simp)] at hnext
  have hnodup : (pre ++ [old] ++ [n]).Nodup := by
    simpa using (List.nodup_append.mp h.nodup).2.1
  obtain ⟨hnodup, -, hapart⟩ := List.nodup_append.mp hnodup
  have hn : n ∉ pre ++ [old] := fun hmem => hapart n hmem n (List.mem_singleton_self n) rfl
  have hne : n ≠ old := fun heq => hn (by simp [heq])
  have hlinked : Linked (Function.update (nextOf r) old (some n)) (pre ++ [old, n]) :=
    Linked.snoc hnext hnodup hn hlast
  have hnextOf : nextOf { r.modify old (fun g => { g with next := some n }) with owner := .idle } =
      Function.update (nextOf r) old (some n) :=
    nextOf_store (g := { r.seg old with next := some n }) rfl
  have hprevOf : prevOf { r.modify old (fun g => { g with next := some n }) with owner := .idle } =
      prevOf r := prevOf_same (x := old) rfl rfl
  refine ⟨h.nodup, h.alloc, h.head, h.tail, hnextOf ▸ hlinked, ?_, hprevOf ▸ h.prev, trivial,
    h.thief, .inl rfl⟩
  intro x hx
  obtain rfl : n = x := by simpa using hx
  rw [hnextOf, Function.update_of_ne hne]
  exact hlast

/-- The last segment is unlinked from the one before it. -/
theorem popUnlink (h : Alone r w chain hand) (hp : r.owner = .popUnlink) {head a : Nat}
    (hhead : r.head = some head) (ha : (r.seg head).prev = some a) :
    Alone { r.modify a (fun g => { g with next := none }) with owner := .popDrop } w chain
      hand := by
  have hidle : r.thief w = .idle := h.one.resolve_left (by rw [hp]; nofun)
  obtain ⟨pre, rfl⟩ := List.getLast?_eq_some_iff.mp (h.head.symm.trans hhead)
  have hprev := h.prev
  unfold prevs at hprev
  rw [hidle] at hprev
  dsimp only at hprev
  rw [List.reverse_append] at hprev
  have hrev : pre.reverse.head? = some a := hprev.1.symm.trans ha
  obtain ⟨pre, rfl⟩ := List.getLast?_eq_some_iff.mp (by rwa [List.head?_reverse] at hrev)
  have hnodup := (List.nodup_append.mp h.nodup).2.1
  have hne : head ≠ a := by
    rintro rfl
    simp [List.nodup_append] at hnodup
  have hnext := h.next
  rw [hp, nexts_linked rfl] at hnext
  have hlinked : Linked (Function.update (nextOf r) a none) (pre ++ [a]) := by
    have hpre : Linked (nextOf r) (pre ++ a :: [head]) := by simpa using hnext
    exact hpre.cut (List.nodup_append.mp hnodup).1
  have hnextOf : nextOf { r.modify a (fun g => { g with next := none }) with owner := .popDrop } =
      Function.update (nextOf r) a none := nextOf_store (g := { r.seg a with next := none }) rfl
  have hprevOf : prevOf { r.modify a (fun g => { g with next := none }) with owner := .popDrop } =
      prevOf r := prevOf_same (x := a) rfl rfl
  refine ⟨h.nodup, h.alloc, h.head, h.tail, ?_, ?_, hprevOf ▸ h.prev, ⟨pre, a, head, by simp⟩,
    h.thief, .inr hidle⟩
  · rw [hnextOf, nexts_unlinked rfl, List.dropLast_concat]
    exact hlinked
  · intro x hx
    rw [hnextOf, Function.update_of_ne ?_]
    · exact h.last x hx
    · obtain rfl : head = x := by simpa using hx
      exact hne

/-- The last segment is dropped; it has been put on the free list. -/
theorem popDrop (h : Alone r w chain hand) (hp : r.owner = .popDrop) {head : Nat}
    (hhead : r.head = some head) :
    ∃ pre, chain = pre ++ [head] ∧
      Alone { r.modify head (fun g => { g with prev := r.ownerFree }) with
        head := (r.seg head).prev, ownerFree := some head, owner := .popHead } w pre hand := by
  have hidle : r.thief w = .idle := h.one.resolve_left (by rw [hp]; nofun)
  have hat := h.owner
  rw [hp] at hat
  obtain ⟨pre, a, x, rfl⟩ := hat
  obtain rfl : x = head := by
    have heq := h.head.symm.trans hhead
    simpa using heq
  have hnext := h.next
  have hprev := h.prev
  rw [hp, nexts_unlinked rfl, List.dropLast_append_of_ne_nil (by simp)] at hnext
  unfold prevs at hprev
  rw [hidle] at hprev
  dsimp only at hprev
  have hprev : Linked (prevOf r) (x :: (pre ++ [a]).reverse) := by simpa using hprev
  have hnodup : (hand.toList ++ (pre ++ [a]) ++ [x]).Nodup := by simpa using h.nodup
  obtain ⟨hnodup, -, hapart⟩ := List.nodup_append.mp hnodup
  have hx : x ∉ pre ++ [a] := fun hmem =>
    hapart x (List.mem_append_right _ hmem) x (List.mem_singleton_self x) rfl
  have hnextOf : nextOf { r.modify x (fun g => { g with prev := r.ownerFree }) with
      head := (r.seg x).prev, ownerFree := some x, owner := .popHead } = nextOf r :=
    nextOf_same (x := x) rfl rfl
  have hprevOf : prevOf { r.modify x (fun g => { g with prev := r.ownerFree }) with
      head := (r.seg x).prev, ownerFree := some x, owner := .popHead } =
      Function.update (prevOf r) x r.ownerFree :=
    prevOf_store (g := { r.seg x with prev := r.ownerFree }) rfl
  refine ⟨pre ++ [a], by simp, ⟨hnodup, ?_, ?_, ?_, ?_, ?_, ?_, trivial, ?_, .inr hidle⟩⟩
  · intro y hy
    refine h.alloc y ?_
    rw [show pre ++ [a, x] = (pre ++ [a]) ++ [x] by simp, ← List.append_assoc]
    exact List.mem_append_left _ hy
  · show prevOf r x = _
    rw [hprev.1, List.head?_reverse]
  · refine Eq.trans ?_ h.tail
    cases pre <;> rfl
  · rw [hnextOf]
    exact hnext
  · intro y hy
    obtain rfl : a = y := by simpa using hy
    rw [hnextOf]
    exact Linked.next_eq (show Linked _ (_ ++ a :: []) from hnext)
  · rw [hprevOf]
    show Linked _ (prevs (r.thief w) _)
    rw [hidle]
    exact hprev.2.update (fun hmem => hx (List.mem_reverse.mp hmem)) _
  · show ThiefAt (r.thief w) _ _
    rw [hidle]
    exact h.hand_eq_none hidle

/-- A step of the owner from `p`, where the list is linked, to another such place. -/
theorem ownerStay (h : Alone r w chain hand) {p : OwnerPc V} (hp : r.owner = p) (hne : p ≠ .idle)
    (hlinked : unlinked p = false) (hlist : SameList r r') (hthief : r'.thief = r.thief)
    (hlinked' : unlinked r'.owner = false) (hat : OwnerAt r'.owner chain) :
    ∃ chain', Alone r' w chain' hand ∧ Kept r r' chain chain' hand hand ∧ r'.thief = r.thief := by
  subst hp
  have hidle : r.thief w = .idle := h.one.resolve_left hne
  have hsame : unlinked r'.owner = unlinked r.owner := hlinked'.trans hlinked.symm
  exact ⟨chain, h.ownerTo hlist hthief hsame hat hidle, hlist.kept, hthief⟩

/-- **A step of Push or Pop that retires nothing** keeps the list, but for a new segment. -/
theorem stepOwner (h : Alone r w chain hand) (hret : ownerRetires r.owner = false)
    (hs : RingBuffer.stepOwner junk r = some r') :
    ∃ chain', Alone r' w chain' hand ∧ Kept r r' chain chain' hand hand ∧ r'.thief = r.thief := by
  unfold RingBuffer.stepOwner at hs
  split at hs
  · cases hs
  rename_i head hhead
  split at hs
  case h_1 => cases hs
  case h_2 data hp =>
    cases hs
    refine h.ownerStay hp nofun rfl ?_ rfl rfl trivial
    exact .of_seg rfl rfl rfl rfl
  case h_3 data t hp =>
    split at hs
    · cases hs
      refine h.ownerStay hp nofun rfl ?_ rfl rfl trivial
      exact .of_seg rfl rfl rfl rfl
    · cases hs
      refine h.ownerStay hp nofun rfl ?_ rfl rfl trivial
      exact .of_seg rfl rfl rfl rfl
  case h_4 data hp =>
    cases hs
    have hthief : r.thief w = .idle := h.one.resolve_left (by rw [hp]; nofun)
    obtain rfl := h.hand_eq_none hthief
    refine ⟨_, h.pushNew hp hhead, ⟨Nat.le_succ _, ?_, ?_, ?_⟩, rfl⟩
    · intro x hx
      exact List.mem_append_left [r.allocated] hx
    · intro x hx
      rcases List.mem_append.mp hx with hx | hx
      · cases hx
      · rcases List.mem_append.mp hx with hx | hx
        · exact .inl (List.mem_append_right _ hx)
        · exact .inr (List.mem_singleton.mp hx)
    · intro x hx _
      exact congrArg Segment.prev (Function.update_of_ne (Nat.ne_of_lt hx) _ _)
  case h_5 old n hp =>
    cases hs
    have hprev : prevOf { r.modify old (fun g => { g with next := some n }) with owner := .idle } =
        prevOf r := prevOf_same (x := old) rfl rfl
    refine ⟨chain, h.pushLink hp, ⟨Nat.le_refl _, ?_, ?_, ?_⟩, rfl⟩
    · exact fun x hx => hx
    · exact fun x hx => .inl hx
    · intro x _ _
      rw [hprev]
  case h_6 data t hp =>
    cases hs
    refine h.ownerStay hp nofun rfl ?_ rfl rfl trivial
    exact .of_store (x := head) rfl rfl rfl rfl rfl rfl
  case h_7 data t hp =>
    cases hs
    refine h.ownerStay hp nofun rfl ?_ rfl rfl trivial
    exact .of_store (x := head) rfl rfl rfl rfl rfl rfl
  case h_8 hp =>
    cases hs
    refine h.ownerStay hp nofun rfl ?_ rfl rfl trivial
    exact .of_seg rfl rfl rfl rfl
  case h_9 t hp =>
    dsimp only at hs
    split at hs
    · cases hs
      refine h.ownerStay hp nofun rfl ?_ rfl rfl trivial
      exact .of_seg rfl rfl rfl rfl
    · split at hs
      · cases hs
        refine h.ownerStay hp nofun rfl ?_ rfl rfl trivial
        exact .of_seg rfl rfl rfl rfl
      · cases hs
        refine h.ownerStay hp nofun rfl ?_ rfl rfl trivial
        exact .of_seg rfl rfl rfl rfl
  case h_10 t hp =>
    cases hs
    refine h.ownerStay hp nofun rfl ?_ rfl rfl trivial
    exact .of_store (x := head) rfl rfl rfl rfl rfl rfl
  case h_11 t hp =>
    cases hs
    refine h.ownerStay hp nofun rfl ?_ rfl rfl trivial
    exact .of_seg rfl rfl rfl rfl
  case h_12 t hp =>
    cases hs
    refine h.ownerStay hp nofun rfl ?_ rfl rfl trivial
    exact .of_seg rfl rfl rfl rfl
  case h_13 t ret hp =>
    split at hs
    · cases hs
      refine h.ownerStay hp nofun rfl ?_ rfl rfl trivial
      exact .of_store (x := head) rfl rfl rfl rfl rfl rfl
    · cases hs
      refine h.ownerStay hp nofun rfl ?_ rfl rfl trivial
      exact .of_seg rfl rfl rfl rfl
  case h_14 t hp =>
    cases hs
    refine h.ownerStay hp nofun rfl ?_ rfl rfl trivial
    exact .of_store (x := head) rfl rfl rfl rfl rfl rfl
  case h_15 hp =>
    split at hs
    · cases hs
      refine h.ownerStay hp nofun rfl ?_ rfl rfl trivial
      exact .of_seg rfl rfl rfl rfl
    · cases hs
      refine h.ownerStay hp nofun rfl ?_ rfl rfl trivial
      exact .of_seg rfl rfl rfl rfl
  case h_16 hp =>
    split at hs
    · cases hs
    · rename_i a ha
      cases hs
      have hprev : prevOf { r.modify a (fun g => { g with next := none }) with
          owner := .popDrop } = prevOf r := prevOf_same (x := a) rfl rfl
      refine ⟨chain, h.popUnlink hp hhead ha, ⟨Nat.le_refl _, ?_, ?_, ?_⟩, rfl⟩
      · exact fun x hx => hx
      · exact fun x hx => .inl hx
      · intro x _ _
        rw [hprev]
  case h_17 hp =>
    rw [hp] at hret
    cases hret

/-! ### Take -/

section Take

variable [DecidableEq T]

/-- The tail has been moved on: the old one is in the hand. -/
theorem swing (h : Alone r w chain hand) {x b : Nat} (hp : r.thief w = .swing x b) :
    r.tail = x ∧ ∃ rest, chain = x :: b :: rest ∧ hand = none ∧
      Alone { r.move w (.cut x b) with tail := b } w (b :: rest) (some x) := by
  have hidle : r.owner = .idle := h.one.resolve_right (by rw [hp]; nofun)
  have hat := h.thief
  have hnext := h.next
  have hprev := h.prev
  rw [hp] at hat hprev
  rw [hidle, nexts_linked rfl] at hnext
  obtain ⟨⟨rest, rfl⟩, rfl⟩ := hat
  refine ⟨(Option.some.inj h.tail).symm, rest, rfl, rfl, h.nodup, h.alloc, h.head, rfl, ?_, h.last,
    ?_, ?_, ?_, .inl hidle⟩
  · show Linked (nextOf r) (nexts r.owner _)
    rw [hidle, nexts_linked rfl]
    exact hnext.2
  · show Linked (prevOf r) (prevs (Function.update r.thief w _ w) _)
    rw [Function.update_self]
    exact hprev
  · show OwnerAt r.owner _
    rw [hidle]
    trivial
  · show ThiefAt (Function.update r.thief w _ w) _ _
    rw [Function.update_self]
    exact ⟨rfl, rfl⟩

/-- The link from the new tail to the old one is cut. -/
theorem cut (h : Alone r w chain hand) {x b : Nat} (hp : r.thief w = .cut x b) :
    b ∈ chain ∧ Alone ((r.modify b fun g => { g with prev := none }).move w (.retire x b)) w chain
      hand := by
  have hidle : r.owner = .idle := h.one.resolve_right (by rw [hp]; nofun)
  have hat := h.thief
  have hprev := h.prev
  rw [hp] at hat hprev
  obtain ⟨hhead, rfl⟩ := hat
  obtain ⟨rest, rfl⟩ := List.head?_eq_some_iff.mp hhead
  have hnextOf : nextOf ((r.modify b fun g => { g with prev := none }).move w (.retire x b)) =
    nextOf r :=
    nextOf_same (x := b) rfl rfl
  have hprevOf : prevOf ((r.modify b fun g => { g with prev := none }).move w (.retire x b)) =
      Function.update (prevOf r) b none := prevOf_store (g := { r.seg b with prev := none }) rfl
  have hnodup := (List.nodup_append.mp h.nodup).2.1
  have hlinked : Linked (Function.update (prevOf r) b none) (rest.reverse ++ [b]) := by
    have hcons : Linked (prevOf r) (rest.reverse ++ b :: [x]) := by simpa [prevs] using hprev
    refine hcons.cut ?_
    rw [← List.reverse_cons]
    exact List.nodup_reverse.mpr hnodup
  refine ⟨List.mem_cons_self, h.nodup, h.alloc, h.head, h.tail, hnextOf ▸ h.next, hnextOf ▸ h.last,
    ?_, h.owner, ?_, .inl hidle⟩
  · rw [hprevOf]
    show Linked _ (prevs (Function.update r.thief w _ w) _)
    rw [Function.update_self]
    simpa [prevs] using hlinked
  · show ThiefAt (Function.update r.thief w _ w) _ _
    rw [Function.update_self]
    exact ⟨rfl, rfl⟩

/-- The old tail has been put on a free list. -/
theorem retire (h : Alone r w chain hand) {x b : Nat} (hp : r.thief w = .retire x b) :
    hand = some x ∧ Alone { (r.modify x fun g => { g with prev := r.thiefFree w }).move w
      (.loadTail b) with
      thiefFree := Function.update r.thiefFree w (some x) } w chain none := by
  have hidle : r.owner = .idle := h.one.resolve_right (by rw [hp]; nofun)
  have hat := h.thief
  have hprev := h.prev
  rw [hp] at hat hprev
  obtain ⟨hhead, rfl⟩ := hat
  obtain ⟨hx, hnodup⟩ := List.nodup_cons.mp h.nodup
  have hnextOf :
    nextOf { (r.modify x fun g => { g with prev := r.thiefFree w }).move w (.loadTail b) with
      thiefFree := Function.update r.thiefFree w (some x) } = nextOf r :=
        nextOf_same (x := x) rfl rfl
  have hprevOf :
    prevOf { (r.modify x fun g => { g with prev := r.thiefFree w }).move w (.loadTail b) with
      thiefFree := Function.update r.thiefFree w (some x) } = Function.update (prevOf r) x
        (r.thiefFree w) :=
    prevOf_store (g := { r.seg x with prev := r.thiefFree w }) rfl
  refine ⟨rfl, hnodup, fun y hy => h.alloc y (List.mem_cons_of_mem _ hy), h.head, h.tail,
    hnextOf ▸ h.next, hnextOf ▸ h.last, ?_, h.owner, ?_, .inl hidle⟩
  · rw [hprevOf]
    show Linked _ (prevs (Function.update r.thief w _ w) _)
    rw [Function.update_self]
    exact hprev.update (fun hmem => hx (List.mem_reverse.mp hmem)) _
  · show ThiefAt (Function.update r.thief w _ w) _ _
    rw [Function.update_self]
    exact ⟨hhead, rfl⟩

omit [DecidableEq T] in
/-- A step in Take from `p` to `p'` that stores to no link. -/
theorem thiefStay (h : Alone r w chain hand) {p p' : ThiefPc V} (hp : r.thief w = p)
    (hne : p ≠ .idle) (hlist : SameList r r') (howner : r'.owner = r.owner)
    (hp' : r'.thief w = p') (hprevs : prevs p' chain = prevs p chain) (hat : ThiefAt p' chain hand)
    (hloads : ∀ y ∈ loads r w, y ∈ chain) :
    ∃ chain' hand', Alone r' w chain' hand' ∧ Kept r r' chain chain' hand hand' ∧
      ∀ y ∈ loads r w, y ∈ hand'.toList ++ chain' := by
  subst hp hp'
  have hidle : r.owner = .idle := h.one.resolve_right hne
  refine ⟨chain, hand, h.thiefTo hlist howner hprevs hat hidle, hlist.kept, ?_⟩
  intro y hy
  exact List.mem_append_right _ (hloads y hy)

/-- **A step in Take that retires nothing** keeps the list; the segment that it loads is one
of it. -/
theorem stepThief (h : Alone r w chain hand) (hret : thiefRetires (r.thief w) = false)
    (hs : RingBuffer.stepThief r w = some r') :
    ∃ chain' hand', Alone r' w chain' hand' ∧ Kept r r' chain chain' hand hand' ∧
      ∀ y ∈ loads r w, y ∈ hand'.toList ++ chain' := by
  have hat := h.thief
  have hnone : loads r w = none → ∀ y ∈ loads r w, y ∈ chain := by
    intro hl y hy
    rw [hl] at hy
    cases hy
  unfold RingBuffer.stepThief at hs
  split at hs
  case h_1 => cases hs
  case h_2 hp =>
    cases hs
    rw [hp] at hat
    have hloads : ∀ y ∈ loads r w, y ∈ chain := by
      intro y hy
      simp only [loads, hp, Option.mem_some_iff] at hy
      subst hy
      exact List.mem_of_mem_head? h.tail
    refine h.thiefStay hp nofun ?_ rfl (Function.update_self ..) rfl ⟨h.tail, hat⟩ hloads
    exact .of_seg rfl rfl rfl rfl
  case h_3 x hp =>
    cases hs
    rw [hp] at hat
    have hloads := hnone (by simp only [loads, hp])
    refine h.thiefStay hp nofun ?_ rfl (Function.update_self ..) rfl hat hloads
    exact .of_seg rfl rfl rfl rfl
  case h_4 x t hp =>
    rw [hp] at hat
    have hloads := hnone (by simp only [loads, hp])
    split at hs
    · cases hs
      refine h.thiefStay hp nofun ?_ rfl (Function.update_self ..) rfl hat hloads
      exact .of_seg rfl rfl rfl rfl
    · cases hs
      refine h.thiefStay hp nofun ?_ rfl (Function.update_self ..) rfl hat hloads
      exact .of_seg rfl rfl rfl rfl
  case h_5 x t hp =>
    cases hs
    rw [hp] at hat
    have hloads := hnone (by simp only [loads, hp])
    refine h.thiefStay hp nofun ?_ rfl (Function.update_self ..) rfl hat hloads
    exact .of_seg rfl rfl rfl rfl
  case h_6 x t ret hp =>
    rw [hp] at hat
    have hloads := hnone (by simp only [loads, hp])
    split at hs
    · cases hs
      refine h.thiefStay hp nofun ?_ rfl (Function.update_self ..) rfl hat.2 hloads
      exact .of_store (x := x) rfl rfl rfl rfl rfl rfl
    · cases hs
      refine h.thiefStay hp nofun ?_ rfl (Function.update_self ..) rfl hat hloads
      exact .of_seg rfl rfl rfl rfl
  case h_7 x hp =>
    rw [hp] at hat
    have hidle : r.owner = .idle := h.one.resolve_right (by rw [hp]; nofun)
    have hnext := h.next
    rw [hidle, nexts_linked rfl] at hnext
    obtain ⟨hhead, rfl⟩ := hat
    obtain ⟨rest, rfl⟩ := List.head?_eq_some_iff.mp hhead
    split at hs
    · rename_i hb
      cases hs
      have hloads := hnone (by simp only [loads, hp, hb])
      refine h.thiefStay hp nofun ?_ rfl (Function.update_self ..) rfl rfl hloads
      exact .of_seg rfl rfl rfl rfl
    · rename_i b hb
      cases hs
      have hrest : rest.head? = some b := hnext.1.symm.trans hb
      obtain ⟨rest, rfl⟩ := List.head?_eq_some_iff.mp hrest
      have hloads : ∀ y ∈ loads r w, y ∈ x :: b :: rest := by
        intro y hy
        simp only [loads, hp, hb, Option.mem_some_iff] at hy
        subst hy
        exact List.mem_cons_of_mem _ List.mem_cons_self
      refine h.thiefStay hp nofun ?_ rfl (Function.update_self ..) rfl ⟨⟨rest, rfl⟩, rfl⟩ hloads
      exact .of_seg rfl rfl rfl rfl
  case h_8 x b hp =>
    cases hs
    rw [hp] at hat
    have hloads := hnone (by simp only [loads, hp])
    refine h.thiefStay hp nofun ?_ rfl (Function.update_self ..) rfl hat hloads
    exact .of_store (x := x) rfl rfl rfl rfl rfl rfl
  case h_9 x b hp =>
    obtain ⟨htail, rest, rfl, rfl, halone⟩ := h.swing hp
    rw [if_pos htail] at hs
    cases hs
    refine ⟨_, _, halone, ⟨Nat.le_refl _, fun _ h => h, fun _ h => .inl h, fun _ _ _ => rfl⟩, ?_⟩
    intro y hy
    simp only [loads, hp] at hy
    cases hy
  case h_10 x b hp =>
    cases hs
    obtain ⟨hb, halone⟩ := h.cut hp
    refine ⟨_, _, halone, ⟨Nat.le_refl _, fun _ h => h, fun _ h => .inl h, ?_⟩, ?_⟩
    · intro y _ hy
      have hne : y ≠ b := fun heq => hy (List.mem_append_right _ (heq ▸ hb))
      exact congrArg Segment.prev (Function.update_of_ne hne _ _)
    · intro y hy
      simp only [loads, hp] at hy
      cases hy
  case h_11 x b hp =>
    rw [hp] at hret
    cases hret

end Take

end Alone

end Ksi.WorkQueue

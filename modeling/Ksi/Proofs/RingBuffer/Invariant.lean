/-
The segments of a ring buffer as a sequence.

Number the segments that have been in the list, and not been dropped by the owner,
in the order of their links: `c 0`, `c 1`, up to `c hi`.  The thieves have passed
those below `lo`, they are closed; `c lo` is `rb->tail` and `c hi` is `rb->head`.  A
thief is at a segment of index at most `lo`, and it gets to the next one by `next`
links only, so it never meets a segment the owner can drop.  Neither the numbering nor
`lo` and `hi` are in the program's state; the invariant quantifies over them.

Where the code goes wrong it does so because a value has been overtaken between its
load and the store that rests on it.  `Careful` says of four stores that this has
not happened.
-/
import Ksi.RingBuffer.Machine
import Mathlib.Algebra.BigOperators.Intervals
import Mathlib.Algebra.Order.Group.Multiset
import Mathlib.Logic.Relation
import Mathlib.Tactic.Abel
import Mathlib.Order.Interval.Finset.Nat

namespace Ksi.RingBuffer

open Relation

variable {V T : Type}

/-! ### What the buffer holds -/

/-- The pointers a segment holds. -/
def Segment.items (g : Segment V) : List V :=
  if g.head_idx = closed then []
  else (List.range' g.tail_idx (g.head_idx - g.tail_idx)).map fun i => g.buffer (i % nodeLength)

/-- The pointer the owner has taken off the segment `g` and is about to read and
return. -/
def OwnerPc.inHand (g : Segment V) : OwnerPc V → List V
  | .popRead h => [g.buffer (h % nodeLength)]
  | _ => []

def State.inHand (s : State V T) : List V :=
  match s.head with
  | some a => s.owner.inHand (s.seg a)
  | none => []

/-- A segment can be reached from `rb->head` by `prev` or from `rb->tail` by `next`. -/
def State.Reachable (s : State V T) (x : Nat) : Prop :=
  (∃ a, s.head = some a ∧ ReflTransGen (fun p q => (s.seg p).prev = some q) a x) ∨
    ReflTransGen (fun p q => (s.seg p).next = some q) s.tail x

/-- Every pointer pushed has been returned once, is in the owner's hand, or is still
held by a reachable segment; and nothing else has been returned. -/
def Conserved (s : State V T) : Prop :=
  ∃ segs : List Nat, segs.Nodup ∧ (∀ x ∈ segs, s.Reachable x) ∧
    (s.pushed : Multiset V) =
      s.returned + s.inHand + (segs.map fun x => ((s.seg x).items : Multiset V)).sum

/-! ### The condition -/

/-- A thief has seen an item at index `t` of segment `x` and is about to take it. -/
def ThiefPc.takes (x t : Nat) : ThiefPc V → Prop
  | .slot y u => y = x ∧ u = t
  | .cas y u _ => y = x ∧ u = t
  | _ => False

/-- A thief has loaded the successor of `x` and is about to move `rb->tail` there. -/
def ThiefPc.leaves (x : Nat) : ThiefPc V → Prop
  | .close y _ => y = x
  | .swing y _ => y = x
  | _ => False

/-- No value that the step rests on has been overtaken. -/
def Careful (s : State V T) : Label V T → Prop
  | .owner =>
      match s.owner, s.head with
      | .pushStore _ h, _ => h + 1 < closed
      | .popStore h, some a =>
          -- the item at `h` is still there, and no thief is about to take it
          (s.seg a).tail_idx < h ∨
            ((s.seg a).tail_idx = h ∧ ∀ w, ¬ (s.thief w).takes a h)
      | .popUnlink, some b =>
          -- the previous segment is still in use, and no thief is about to leave it
          ∃ a, (s.seg b).prev = some a ∧ (s.seg a).head_idx ≠ closed ∧
            ∀ w, ¬ (s.thief w).leaves a
      | _, _ => True
  | .thief w =>
      match s.thief w with
      | .next x =>
          -- a segment with a successor is still as empty as it was found
          (s.seg x).next = none ∨ (s.seg x).head_idx = closed ∨
            (s.seg x).tail_idx = (s.seg x).head_idx
      | _ => True
  | _ => True

/-! ### The invariant -/

/-- The owner is between the change of `rb->head` and of the link to it. -/
@[grind =]
def OwnerPc.unlinked : OwnerPc V → Bool
  | .pushLink _ _ | .popDrop => true
  | .idle | .pushHead _ | .pushTail _ _ | .pushNew _ | .pushSlot _ _ | .pushStore _ _ | .popHead
  | .popTail _ | .popStore _ | .popRead _ | .popSlot _ | .popCas _ _ | .popEmpty _ | .popPrev
  | .popUnlink => false

/-- A segment in use: its items are fewer than its slots. -/
structure Segment.Open (g : Segment V) : Prop where
  le : g.tail_idx ≤ g.head_idx
  fits : g.head_idx ≤ g.tail_idx + nodeLength
  lt : g.head_idx < closed

/-- The links between the segments `c 0` to `c hi`. -/
structure Linked (s : State V T) (c : Nat → Nat) (lo hi : Nat) : Prop where
  le : lo ≤ hi
  inj : ∀ i j, i ≤ hi → j ≤ hi → c i = c j → i = j
  alloc : ∀ i, i ≤ hi → c i < s.allocated
  head : s.head = some (c hi)
  tail : s.tail = c lo
  next : ∀ i, i < hi →
    (s.seg (c i)).next = if i + 1 = hi ∧ s.owner.unlinked then none else some (c (i + 1))
  last : (s.seg (c hi)).next = none
  prev : ∀ i, lo ≤ i → i < hi → (s.seg (c (i + 1))).prev = some (c i)
  /-- the tail has no `prev`, but for the moment before a thief has cut it -/
  first : ∀ a, (s.seg (c lo)).prev = some a → ∃ i, i < lo ∧ a = c i
  passed : ∀ i, i < lo → (s.seg (c i)).head_idx = closed
  inUse : ∀ i, lo ≤ i → i ≤ hi → (s.seg (c i)).Open ∨
    ((s.seg (c i)).head_idx = closed ∧ i = lo ∧ (s.seg (c i)).next = some (c (i + 1)) ∧ lo < hi)

/-- What the owner at its program point knows of the segment `g` at `rb->head`. -/
def OwnerOk (c : Nat → Nat) (lo hi : Nat) (g : Segment V) : OwnerPc V → Prop
  | .idle | .pushHead _ | .pushNew _ | .popHead => True
  | .pushTail _ h => g.head_idx = h
  | .pushLink old n => lo < hi ∧ old = c (hi - 1) ∧ n = c hi
  | .pushSlot _ h => g.head_idx = h ∧ h < g.tail_idx + nodeLength
  | .pushStore data h => g.head_idx = h ∧ h < g.tail_idx + nodeLength ∧
      g.buffer (h % nodeLength) = data
  | .popTail h => h = (g.head_idx + (word - 1)) % word
  | .popStore h => g.head_idx = h + 1
  | .popRead h => g.head_idx = h
  | .popSlot t => g.head_idx = t + 1 ∧ t ≤ g.tail_idx
  | .popCas t ret => g.head_idx = t + 1 ∧ t ≤ g.tail_idx ∧
      (g.tail_idx = t → ret = g.buffer (t % nodeLength))
  | .popEmpty t => g.head_idx = t ∧ g.tail_idx = t
  | .popPrev | .popUnlink => g.tail_idx = g.head_idx
  | .popDrop => g.tail_idx = g.head_idx ∧ lo < hi

/-- An index a thief has loaded; if it is still the tail index, there is an item. -/
structure Segment.Poised (g : Segment V) (t : Nat) : Prop where
  le : t ≤ g.tail_idx
  item : t = g.tail_idx → g.head_idx ≠ closed ∧ t < g.head_idx

/-- What a thief at `pc` knows of its segment. -/
def ThiefOk (s : State V T) (c : Nat → Nat) (lo hi : Nat) (pc : ThiefPc V) : Prop :=
  match pc with
  | .idle | .load => True
  | .loadTail x | .next x => ∃ i, i ≤ lo ∧ x = c i
  | .loadHead x t => ∃ i, i ≤ lo ∧ x = c i ∧ t ≤ (s.seg x).tail_idx
  | .slot x t => ∃ i, i ≤ lo ∧ x = c i ∧ (s.seg x).Poised t
  | .cas x t ret => ∃ i, i ≤ lo ∧ x = c i ∧ (s.seg x).Poised t ∧
      ((s.seg x).tail_idx = t → ret = (s.seg x).buffer (t % nodeLength))
  | .close x b => ∃ i, i ≤ lo ∧ i < hi ∧ x = c i ∧ b = c (i + 1) ∧ (s.seg x).next = some b ∧
      (i = lo → (s.seg x).head_idx = closed ∨ (s.seg x).tail_idx = (s.seg x).head_idx)
  | .swing x b => ∃ i, i ≤ lo ∧ i < hi ∧ x = c i ∧ b = c (i + 1) ∧ (s.seg x).next = some b ∧
      (s.seg x).head_idx = closed
  | .cut x b | .retire x b => ∃ i, i < lo ∧ x = c i ∧ b = c (i + 1)

/-- The pointers held by the segments `c lo` to `c hi`. -/
def held (s : State V T) (c : Nat → Nat) (lo hi : Nat) : Multiset V :=
  ∑ i ∈ Finset.Icc lo hi, ((s.seg (c i)).items : Multiset V)

/-- The invariant of the runs that are `Careful`. -/
structure DequeInv (s : State V T) (c : Nat → Nat) (lo hi : Nat) : Prop where
  linked : Linked s c lo hi
  owner : OwnerOk c lo hi (s.seg (c hi)) s.owner
  thief : ∀ w, ThiefOk s c lo hi (s.thief w)
  conserved : (s.pushed : Multiset V) = s.returned + s.inHand + held s c lo hi

/-! ### Items -/

namespace Segment

variable {g : Segment V}

theorem items_of_closed (h : g.head_idx = closed) : g.items = [] := by
  simp [items, h]

theorem items_of_empty (h : g.tail_idx = g.head_idx) : g.items = [] := by
  simp [items, h]

/-- Taking the item at the tail index. -/
theorem items_take (hg : g.Open) (ht : g.tail_idx < g.head_idx) :
    g.items = g.buffer (g.tail_idx % nodeLength) ::
      { g with tail_idx := g.tail_idx + 1 }.items := by
  have hne : g.head_idx ≠ closed := Nat.ne_of_lt hg.lt
  obtain ⟨n, hn⟩ : ∃ n, g.head_idx - g.tail_idx = n + 1 := ⟨g.head_idx - g.tail_idx - 1, by omega⟩
  have hn' : g.head_idx - (g.tail_idx + 1) = n := by omega
  simp only [items, hne, if_false, hn, hn', List.range'_succ, List.map_cons]

/-- Removing the item below the head index. -/
theorem items_pop (hg : g.Open) {h : Nat} (hh : g.head_idx = h + 1) (ht : g.tail_idx ≤ h) :
    g.items = { g with head_idx := h }.items ++ [g.buffer (h % nodeLength)] := by
  have hlt := hg.lt
  have hne : g.head_idx ≠ closed := Nat.ne_of_lt hlt
  have hne' : h ≠ closed := by omega
  have hn : h + 1 - g.tail_idx = (h - g.tail_idx) + 1 := by omega
  have hidx : g.tail_idx + (h - g.tail_idx) = h := by omega
  simp only [items, hne', if_false, hh, hn, List.range'_1_concat, List.map_append, hidx,
    List.map_cons, List.map_nil]
  simp [← hh, hne]

/-- Making the slot at the head index an item. -/
theorem items_push (hg : g.Open) {h : Nat} (hh : g.head_idx = h) (hlt : h + 1 < closed) :
    { g with head_idx := h + 1 }.items = g.items ++ [g.buffer (h % nodeLength)] := by
  have hle := hg.le
  have hne : h ≠ closed := by omega
  have hne' : h + 1 ≠ closed := by omega
  have hn : h + 1 - g.tail_idx = (h - g.tail_idx) + 1 := by omega
  have hidx : g.tail_idx + (h - g.tail_idx) = h := by omega
  simp only [items, hne, hne', if_false, hh, hn, List.range'_1_concat, List.map_append, hidx,
    List.map_cons, List.map_nil]

/-- Writing the slot at the head index touches no item. -/
theorem items_write (hg : g.Open) {h : Nat} (hh : g.head_idx = h)
    (hlt : h < g.tail_idx + nodeLength) (data : V) :
    { g with buffer := Function.update g.buffer (h % nodeLength) data }.items = g.items := by
  have hne : g.head_idx ≠ closed := Nat.ne_of_lt hg.lt
  simp only [items, hne, if_false]
  refine List.map_congr_left fun i hi => ?_
  rw [List.mem_range'_1] at hi
  rw [Function.update_of_ne]
  show i % 256 ≠ h % 256
  have : nodeLength = 256 := rfl
  omega

theorem open_new (junk : Nat → V) (data : V) (prev : Option Nat) :
    (ksiRingBufferSegmentNew junk data prev).Open := by
  have hlt : 1 < closed := by decide
  exact ⟨Nat.zero_le 1, by simp [ksiRingBufferSegmentNew, nodeLength], hlt⟩

/-- A new segment holds what it was made for. -/
theorem items_new (junk : Nat → V) (data : V) (prev : Option Nat) :
    (ksiRingBufferSegmentNew junk data prev).items = [data] := by
  have hopen : 1 ≠ closed := by decide
  simp [items, ksiRingBufferSegmentNew, List.range'_succ, hopen]

end Segment

/-! ### What all segments hold -/

variable {s s' : State V T} {c : Nat → Nat} {lo hi : Nat}

theorem held_congr (h : ∀ i, lo ≤ i → i ≤ hi → (s'.seg (c i)).items = (s.seg (c i)).items) :
    held s' c lo hi = held s c lo hi := by
  refine Finset.sum_congr rfl fun i hi => ?_
  rw [Finset.mem_Icc] at hi
  rw [h i hi.1 hi.2]

/-- The last segment counted apart. -/
theorem held_last (h : lo < hi) :
    held s c lo hi = held s c lo (hi - 1) + ((s.seg (c hi)).items : Multiset V) := by
  obtain ⟨m, rfl⟩ : ∃ m, hi = m + 1 := ⟨hi - 1, by omega⟩
  exact Finset.sum_Icc_succ_top (by omega) _

/-- The first segment counted apart. -/
theorem held_first (h : lo ≤ hi) :
    held s c lo hi = ((s.seg (c lo)).items : Multiset V) + held s c (lo + 1) hi := by
  unfold held
  rw [← Finset.insert_Icc_add_one_left_eq_Icc h, Finset.sum_insert (by simp)]

/-- One segment's items change. -/
theorem held_change (s s' : State V T) (c : Nat → Nat) {j : Nat} (hj : lo ≤ j ∧ j ≤ hi)
    (hother : ∀ i, lo ≤ i → i ≤ hi → i ≠ j → (s'.seg (c i)).items = (s.seg (c i)).items) :
    held s' c lo hi + ((s.seg (c j)).items : Multiset V) =
      held s c lo hi + ((s'.seg (c j)).items : Multiset V) := by
  have hmem : j ∈ Finset.Icc lo hi := Finset.mem_Icc.mpr hj
  have hrest : ∑ i ∈ (Finset.Icc lo hi).erase j, ((s'.seg (c i)).items : Multiset V) =
      ∑ i ∈ (Finset.Icc lo hi).erase j, ((s.seg (c i)).items : Multiset V) := by
    refine Finset.sum_congr rfl fun i hi => ?_
    rw [Finset.mem_erase, Finset.mem_Icc] at hi
    rw [hother i hi.2.1 hi.2.2 hi.1]
  unfold held
  rw [← Finset.add_sum_erase _ _ hmem, ← Finset.add_sum_erase _ _ hmem, hrest]
  abel

/-! ### What a step leaves as it was -/

/-- The segment at `rb->head` is in use. -/
theorem Linked.headOpen (h : Linked s c lo hi) : (s.seg (c hi)).Open := by
  rcases h.inUse hi h.le (Nat.le_refl hi) with hopen | ⟨-, heq, -, hlt⟩
  · exact hopen
  · omega

theorem Linked.ne_head (h : Linked s c lo hi) {i : Nat} (hi' : i < hi) : c i ≠ c hi :=
  fun heq => Nat.ne_of_lt hi' (h.inj i hi (Nat.le_of_lt hi') (Nat.le_refl hi) heq)

/-- A thief that is about to leave a segment has seen its successor, and it is still
there. -/
theorem ThiefOk.next_ne_none {pc : ThiefPc V} (h : ThiefOk s c lo hi pc) {x : Nat}
    (hx : pc.leaves x) : (s.seg x).next ≠ none := by
  cases pc <;> simp only [ThiefPc.leaves] at hx
  · subst hx
    obtain ⟨i, -, -, -, -, hnext, -⟩ := h
    simp [hnext]
  · subst hx
    obtain ⟨i, -, -, -, -, hnext, -⟩ := h
    simp [hnext]

/-- A step that touches no link and only the indices and slots at `rb->head`. -/
theorem Linked.atHead (h : Linked s c lo hi) (hhead : s'.head = s.head) (htail : s'.tail = s.tail)
    (halloc : s'.allocated = s.allocated) (hown : s'.owner.unlinked = s.owner.unlinked)
    (hother : ∀ i, i < hi → s'.seg (c i) = s.seg (c i))
    (hnext : (s'.seg (c hi)).next = (s.seg (c hi)).next)
    (hprev : (s'.seg (c hi)).prev = (s.seg (c hi)).prev) (hopen : (s'.seg (c hi)).Open) :
    Linked s' c lo hi := by
  obtain ⟨hle, hinj, ha, hh, ht, hn, hl, hp, hf, hpa, hu⟩ := h
  constructor
  case le => exact hle
  case inj => exact hinj
  case alloc => grind
  case head => grind
  case tail => grind
  case next => grind
  case last => grind
  case prev => grind
  case first => grind
  case passed => grind
  case inUse => grind

/-- What a thief relies on survives a step that keeps the items it is about to take
and the links it is about to follow. -/
theorem ThiefOk.frame {c' : Nat → Nat} {hi' : Nat} {pc : ThiefPc V} (h : ThiefOk s c lo hi pc)
    (hlo : lo ≤ hi) (hc : ∀ i, i ≤ hi → c' i = c i)
    (htail : ∀ i, i ≤ lo → (s.seg (c i)).tail_idx ≤ (s'.seg (c i)).tail_idx)
    (htakes : ∀ i t, i ≤ lo → pc.takes (c i) t → (s.seg (c i)).Poised t →
      (s'.seg (c i)).Poised t ∧ ((s'.seg (c i)).tail_idx = t →
        (s'.seg (c i)).buffer (t % nodeLength) = (s.seg (c i)).buffer (t % nodeLength)))
    (hleaves : ∀ i, i ≤ lo → i < hi → pc.leaves (c i) → i < hi' ∧
      (s'.seg (c i)).next = (s.seg (c i)).next ∧
      ((s.seg (c i)).head_idx = closed → (s'.seg (c i)).head_idx = closed) ∧
      ((s.seg (c i)).head_idx = closed ∨ (s.seg (c i)).tail_idx = (s.seg (c i)).head_idx →
        (s'.seg (c i)).head_idx = closed ∨ (s'.seg (c i)).tail_idx = (s'.seg (c i)).head_idx)) :
    ThiefOk s' c' lo hi' pc := by
  cases pc with
  | idle => trivial
  | load => trivial
  | loadTail x =>
      obtain ⟨i, hi, rfl⟩ := h
      exact ⟨i, hi, (hc i (by omega)).symm⟩
  | next x =>
      obtain ⟨i, hi, rfl⟩ := h
      exact ⟨i, hi, (hc i (by omega)).symm⟩
  | loadHead x t =>
      obtain ⟨i, hi, rfl, ht⟩ := h
      exact ⟨i, hi, (hc i (by omega)).symm, Nat.le_trans ht (htail i hi)⟩
  | slot x t =>
      obtain ⟨i, hi, rfl, hp⟩ := h
      exact ⟨i, hi, (hc i (by omega)).symm, (htakes i t hi ⟨rfl, rfl⟩ hp).1⟩
  | cas x t ret =>
      obtain ⟨i, hi, rfl, hp, hret⟩ := h
      obtain ⟨hp', hbuf⟩ := htakes i t hi ⟨rfl, rfl⟩ hp
      refine ⟨i, hi, (hc i (by omega)).symm, hp', fun ht => ?_⟩
      have ht' : (s.seg (c i)).tail_idx = t := Nat.le_antisymm (ht ▸ htail i hi) hp.le
      rw [hret ht', hbuf ht]
  | close x b =>
      obtain ⟨i, hi, hlt, rfl, rfl, hnext, hempty⟩ := h
      obtain ⟨hlt', hnext', -, hempty'⟩ := hleaves i hi hlt rfl
      exact ⟨i, hi, hlt', (hc i (by omega)).symm, (hc (i + 1) (by omega)).symm,
        hnext'.trans hnext, fun heq => hempty' (hempty heq)⟩
  | swing x b =>
      obtain ⟨i, hi, hlt, rfl, rfl, hnext, hcl⟩ := h
      obtain ⟨hlt', hnext', hclosed, -⟩ := hleaves i hi hlt rfl
      exact ⟨i, hi, hlt', (hc i (by omega)).symm, (hc (i + 1) (by omega)).symm,
        hnext'.trans hnext, hclosed hcl⟩
  | cut x b =>
      obtain ⟨i, hi, rfl, rfl⟩ := h
      exact ⟨i, hi, (hc i (by omega)).symm, (hc (i + 1) (by omega)).symm⟩
  | retire x b =>
      obtain ⟨i, hi, rfl, rfl⟩ := h
      exact ⟨i, hi, (hc i (by omega)).symm, (hc (i + 1) (by omega)).symm⟩

end Ksi.RingBuffer

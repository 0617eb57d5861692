/-
The ring buffer used by one thread at a time.

Calls of Push, Pop and Take follow one another, each running to its return before the
next one starts.  Then the buffer is a double-ended queue: `Holds` reads the queue off
the segments, from `rb->tail` to `rb->head`, and for each program point of a call
`PushAt`, `PopAt` and `TakeAt` say how far the queue has changed.  A segment leaves the
queue at the store that cuts it off, which is one or two steps before the pointer that
the next call starts from has moved on.

Each step also lowers a measure, the segments first and the program point second, so
that every call comes to its return.
-/
import Ksi.Lib.Linked
import Ksi.Proofs.RingBuffer.Invariant

namespace Ksi.RingBuffer

open Runs

variable {V T : Type}

/-! ### Calls -/

/-- A call of Push or Pop by the owner, of Take by a thief. -/
inductive Call (V T : Type)
  | push (data : V)
  | pop
  | take (w : T)

/-- The call is made. -/
def Call.start : Call V T → Label V T
  | .push data => .push data
  | .pop => .pop
  | .take w => .take w

/-- The next step of the thread that has made the call. -/
def Call.next : Call V T → Label V T
  | .push _ | .pop => .owner
  | .take w => .thief w

/-- A step of the thread that has made the call, be it a spurious failure. -/
def Call.Own (c : Call V T) (a : Label V T) : Prop :=
  a = c.next ∨ ∃ w, c = .take w ∧ a = .spurious w

/-- The call has returned. -/
def Call.Returned (s : State V T) : Call V T → Prop
  | .push _ | .pop => s.owner = .idle
  | .take w => s.thief w = .idle

/-- What a list deque makes of the call, its front first: the deque afterwards, and the
result of Pop and Take, where `none` is `ksiRingBufferFailedVal`. -/
def Call.onDeque (D : List V) : Call V T → List V × Option V
  | .push data => (data :: D, none)
  | .pop => (D.tail, D.head?)
  | .take _ => (D.dropLast, D.getLast?)

/-- The results of the calls on a list deque. -/
def dequeResults : List V → List (Call V T) → List (Option V)
  | _, [] => []
  | D, c :: rest => (c.onDeque D).2 :: dequeResults (c.onDeque D).1 rest

/-- A list deque after the calls. -/
def dequeAfter (D : List V) (calls : List (Call V T)) : List V :=
  calls.foldl (fun D c => (c.onDeque D).1) D

theorem dequeAfter_concat (D : List V) (calls : List (Call V T)) (c : Call V T) :
    dequeAfter D (calls ++ [c]) = (c.onDeque (dequeAfter D calls)).1 :=
  List.foldl_concat ..

theorem dequeResults_concat (c : Call V T) : ∀ (calls : List (Call V T)) (D : List V),
    dequeResults D (calls ++ [c]) =
      dequeResults D calls ++ [(c.onDeque (dequeAfter D calls)).2] := by
  intro calls
  induction calls with
  | nil => exact fun D => rfl
  | cons c' rest ih => exact fun D => congrArg ((c'.onDeque D).2 :: ·) (ih _)

/-- The indices a Push computes, the one past the new `head_idx` included, are below
2^64. -/
def State.Fits (s : State V T) : Call V T → Prop
  | .push _ => ∀ a, s.head = some a → (s.seg a).head_idx + 1 < closed
  | _ => True

/-! ### The queue that the segments hold -/

/-- The segments `segs`, from `rb->tail` to `rb->head`, hold the deque `D`. -/
structure Holds (s : State V T) (segs : List Nat) (D : List V) : Prop where
  links : DoublyLinked (fun x => (s.seg x).next) (fun x => (s.seg x).prev) segs
  alloc : ∀ x ∈ segs, x < s.allocated
  inUse : ∀ x ∈ segs, (s.seg x).Open
  tail : segs.head? = some s.tail
  head : segs.getLast? = s.head
  items : segs.flatMap (fun x => (s.seg x).items) = D.reverse

variable {s s' : State V T} {segs l : List Nat} {a x : Nat} {D D' R : List V}

/-- What the threads are doing is no part of it. -/
theorem Holds.of_eq (h : Holds s segs D) (hseg : s'.seg = s.seg)
    (halloc : s'.allocated = s.allocated) (htail : s'.tail = s.tail) (hhead : s'.head = s.head) :
    Holds s' segs D := by
  obtain ⟨hlinks, ha, hu, ht, hh, hi⟩ := h
  constructor
  case links => rw [hseg]; exact hlinks
  case alloc => rw [halloc]; exact ha
  case inUse => rw [hseg]; exact hu
  case tail => rw [htail]; exact ht
  case head => rw [hhead]; exact hh
  case items => rw [hseg]; exact hi

theorem update_field {β : Type} (field : Segment V → β) (seg : Nat → Segment V) (x : Nat)
    (g : Segment V) : (fun y => field (Function.update seg x g y)) =
      Function.update (fun y => field (seg y)) x (field g) :=
  funext fun y => Function.apply_update (fun _ => field) seg x g y

theorem modify_field {β : Type} (field : Segment V → β) (s : State V T) (x : Nat)
    (f : Segment V → Segment V) :
    (fun y => field ((s.modify x f).seg y)) =
      Function.update (fun y => field (s.seg y)) x (field (f (s.seg x))) :=
  update_field field s.seg x (f (s.seg x))

theorem modify_of_ne (s : State V T) {x y : Nat} (h : y ≠ x) (f : Segment V → Segment V) :
    (s.modify x f).seg y = s.seg y :=
  Function.update_of_ne h _ _

theorem modify_self (s : State V T) (x : Nat) (f : Segment V → Segment V) :
    (s.modify x f).seg x = f (s.seg x) :=
  Function.update_self ..

/-- A write to a segment that keeps its items. -/
theorem keep_modify (s : State V T) {x : Nat} {f : Segment V → Segment V}
    (hitems : (f (s.seg x)).items = (s.seg x).items)
    (hopen : (s.seg x).Open → (f (s.seg x)).Open) (y : Nat) :
    ((s.modify x f).seg y).items = (s.seg y).items ∧
      ((s.seg y).Open → ((s.modify x f).seg y).Open) := by
  by_cases heq : y = x
  · subst heq
    rw [modify_self]
    exact ⟨hitems, hopen⟩
  · rw [modify_of_ne s heq]
    exact ⟨rfl, id⟩

/-- The items of segments other than `x`. -/
theorem items_modify (hx : x ∉ segs) (f : Segment V → Segment V) :
    segs.flatMap (fun y => ((s.modify x f).seg y).items) =
      segs.flatMap (fun y => (s.seg y).items) :=
  List.flatMap_congr fun y hy => by
    have hne : y ≠ x := fun heq => hx (heq ▸ hy)
    rw [modify_of_ne s hne]

/-- A segment outside of the list is written to. -/
theorem Holds.modify_outside (h : Holds s segs D) (hx : x ∉ segs) (f : Segment V → Segment V)
    (hnext : (f (s.seg x)).next = (s.seg x).next) : Holds (s.modify x f) segs D := by
  have hne : ∀ y ∈ segs, y ≠ x := fun y hy heq => hx (heq ▸ hy)
  obtain ⟨⟨hforth, hback, hnodup⟩, ha, hu, ht, hh, hi⟩ := h
  constructor
  case links =>
    refine ⟨?_, ?_, hnodup⟩
    · rw [modify_field Segment.next, hnext, Function.update_eq_self]
      exact hforth
    · rw [modify_field Segment.prev]
      exact hback.update (fun hmem => hx (List.mem_reverse.mp hmem)) _
  case alloc => exact ha
  case inUse => exact fun y hy => modify_of_ne s (hne y hy) f ▸ hu y hy
  case tail => exact ht
  case head => exact hh
  case items => rw [items_modify hx]; exact hi

/-- The indices and slots of a segment of the list change. -/
theorem Holds.modify (h : Holds s segs D) {f : Segment V → Segment V}
    (hnext : (f (s.seg x)).next = (s.seg x).next) (hprev : (f (s.seg x)).prev = (s.seg x).prev)
    (hopen : (f (s.seg x)).Open)
    (hitems : segs.flatMap (fun y => ((s.modify x f).seg y).items) = D'.reverse) :
    Holds (s.modify x f) segs D' := by
  obtain ⟨hlinks, ha, hu, ht, hh, -⟩ := h
  constructor
  case links =>
    rw [modify_field Segment.next, modify_field Segment.prev, hnext, hprev,
      Function.update_eq_self, Function.update_eq_self]
    exact hlinks
  case alloc => exact ha
  case inUse =>
    intro y hy
    by_cases heq : y = x
    · subst heq
      rw [modify_self]
      exact hopen
    · rw [modify_of_ne s heq]
      exact hu y hy
  case tail => exact ht
  case head => exact hh
  case items => exact hitems

/-- The segment at `rb->head`: the last one, in use, and whatever happens to its items
happens at the front of the deque. -/
theorem Holds.head_eq (h : Holds s (l ++ [a]) D) : s.head = some a := by
  rw [← h.head, List.getLast?_concat]

theorem Holds.headOpen (h : Holds s (l ++ [a]) D) : (s.seg a).Open := h.inUse a (by simp)

theorem Holds.notMem (h : Holds s (l ++ [a]) D) : a ∉ l := by
  have hnodup := h.links.nodup
  rw [List.nodup_append] at hnodup
  exact fun hmem => hnodup.2.2 a hmem a (List.mem_singleton_self a) rfl

theorem Holds.items_eq (h : Holds s (l ++ [a]) D) :
    D = ((s.seg a).items).reverse ++ (l.flatMap fun y => (s.seg y).items).reverse := by
  have hitems := h.items
  rw [List.flatMap_append, List.flatMap_singleton] at hitems
  rw [← List.reverse_append, hitems, List.reverse_reverse]

/-- The segment at `rb->head` changes, and with it the front of the deque. -/
theorem Holds.modify_head (h : Holds s (l ++ [a]) D) {f : Segment V → Segment V}
    (hnext : (f (s.seg a)).next = (s.seg a).next) (hprev : (f (s.seg a)).prev = (s.seg a).prev)
    (hopen : (f (s.seg a)).Open)
    (hD : ∀ back, D = (s.seg a).items.reverse ++ back → D' = (f (s.seg a)).items.reverse ++ back) :
    Holds (s.modify a f) (l ++ [a]) D' := by
  refine h.modify hnext hprev hopen ?_
  rw [List.flatMap_append, items_modify h.notMem, List.flatMap_singleton, modify_self,
    hD _ h.items_eq]
  simp

/-- The item at the front goes. -/
theorem Holds.pop_head (h : Holds s (l ++ [a]) D) {f : Segment V → Segment V} {v : V}
    (hnext : (f (s.seg a)).next = (s.seg a).next) (hprev : (f (s.seg a)).prev = (s.seg a).prev)
    (hopen : (f (s.seg a)).Open) (hitems : (s.seg a).items = (f (s.seg a)).items ++ [v]) :
    D.head? = some v ∧ Holds (s.modify a f) (l ++ [a]) D.tail := by
  have hD : ∀ back, D = (s.seg a).items.reverse ++ back →
      D = v :: ((f (s.seg a)).items.reverse ++ back) := by
    intro back hD
    rw [hD, hitems, List.reverse_append]
    rfl
  refine ⟨by rw [hD _ h.items_eq]; rfl, h.modify_head hnext hprev hopen fun back hback => ?_⟩
  rw [hD back hback]
  rfl

/-! ### Push -/

/-- What Push of `data` has done to the deque `D` when the owner is at a program point;
`a` is the segment at `rb->head`, and `l` the ones before it. -/
def PushAt (s : State V T) (l : List Nat) (a : Nat) (D : List V) (data : V) : OwnerPc V → Prop
  | .idle => Holds s (l ++ [a]) (data :: D)
  | .pushHead d => d = data ∧ Holds s (l ++ [a]) D ∧ (s.seg a).head_idx + 1 < closed
  | .pushTail d h => d = data ∧ Holds s (l ++ [a]) D ∧ (s.seg a).head_idx + 1 < closed ∧
      h = (s.seg a).head_idx
  | .pushNew d => d = data ∧ Holds s (l ++ [a]) D
  | .pushLink old n => s.head = some n ∧
      Holds (s.modify old fun g => { g with next := some n }) (l ++ [a]) (data :: D)
  | .pushSlot d h => d = data ∧ Holds s (l ++ [a]) D ∧ h + 1 < closed ∧
      h = (s.seg a).head_idx ∧ h < (s.seg a).tail_idx + nodeLength
  | .pushStore d h => d = data ∧ Holds s (l ++ [a]) D ∧ h + 1 < closed ∧
      h = (s.seg a).head_idx ∧ h < (s.seg a).tail_idx + nodeLength ∧
      (s.seg a).buffer (h % nodeLength) = data
  | _ => False

/-- The steps that are left of a Push. -/
def pushLeft : OwnerPc V → Nat
  | .pushHead _ => 4
  | .pushTail _ _ => 3
  | .pushNew _ | .pushSlot _ _ => 2
  | .pushLink _ _ | .pushStore _ _ => 1
  | _ => 0

/-- A new segment is linked to the one that was at `rb->head`. -/
theorem Holds.link_new (h : Holds s (l ++ [a]) D) (junk : Nat → V) (data : V)
    (hseg : s'.seg = Function.update s.seg s.allocated
      (ksiRingBufferSegmentNew junk data (some a)))
    (halloc : s'.allocated = s.allocated + 1) (htail : s'.tail = s.tail)
    (hhead : s'.head = some s.allocated) :
    Holds (s'.modify a fun g => { g with next := some s.allocated }) (l ++ [a, s.allocated])
      (data :: D) := by
  have hfresh : s.allocated ∉ l ++ [a] := fun hmem => Nat.lt_irrefl _ (h.alloc _ hmem)
  have hne : ∀ y ∈ l ++ [a], y ≠ s.allocated := fun y hy heq => hfresh (heq ▸ hy)
  have hseg' : ∀ y ∈ l ++ [a], s'.seg y = s.seg y := fun y hy => by
    rw [hseg, Function.update_of_ne (hne y hy)]
  have hnew : s'.seg s.allocated = ksiRingBufferSegmentNew junk data (some a) := by
    rw [hseg, Function.update_self]
  have ha : s.allocated ≠ a := (hne a (by simp)).symm
  have hkeep : ∀ y ∈ l ++ [a],
      ((s'.modify a fun g => { g with next := some s.allocated }).seg y).items = (s.seg y).items ∧
      ((s'.modify a fun g => { g with next := some s.allocated }).seg y).Open := by
    intro y hy
    obtain ⟨hitems, hopen⟩ := keep_modify s' (x := a)
      (f := fun g => { g with next := some s.allocated }) rfl (fun h => ⟨h.le, h.fits, h.lt⟩) y
    exact ⟨hitems.trans (by rw [hseg' y hy]), hopen (hseg' y hy ▸ h.inUse y hy)⟩
  have hsplit : l ++ [a, s.allocated] = (l ++ [a]) ++ [s.allocated] := by simp
  constructor
  case links =>
    have hnext : (fun y => (s'.seg y).next) =
        Function.update (fun y => (s.seg y).next) s.allocated none := by
      rw [hseg, update_field Segment.next]
      rfl
    have hprev : (fun y => (s'.seg y).prev) =
        Function.update (fun y => (s.seg y).prev) s.allocated (some a) := by
      rw [hseg, update_field Segment.prev]
      rfl
    rw [modify_field Segment.next, modify_field Segment.prev, Function.update_eq_self, hnext, hprev]
    exact h.links.snoc hfresh
  case alloc =>
    intro x hx
    show x < s'.allocated
    rw [hsplit, List.mem_append, List.mem_singleton] at hx
    rcases hx with hx | rfl
    · have := h.alloc x hx
      omega
    · omega
  case inUse =>
    intro x hx
    rw [hsplit, List.mem_append, List.mem_singleton] at hx
    rcases hx with hx | rfl
    · exact (hkeep x hx).2
    · rw [modify_of_ne s' ha, hnew]
      exact Segment.open_new junk data (some a)
  case tail =>
    have htail' := h.tail
    rw [hsplit, List.head?_append, htail']
    exact congrArg some htail.symm
  case head =>
    rw [hsplit, List.getLast?_concat]
    exact hhead.symm
  case items =>
    rw [hsplit, List.flatMap_append, List.flatMap_congr fun y hy => (hkeep y hy).1, h.items,
      List.flatMap_singleton, modify_of_ne s' ha, hnew, Segment.items_new, List.reverse_cons]

/-- **The owner's step in a Push.** -/
theorem pushAt_step (junk : Nat → V) {data : V} (h : PushAt s l a D data s.owner) :
    s.owner = .idle ∨ ∃ s' l' a', stepOwner junk s = some s' ∧
      PushAt s' l' a' D data s'.owner ∧ pushLeft s'.owner < pushLeft s.owner ∧
      s'.thief = s.thief ∧ s'.returned = s.returned := by
  cases hpc : s.owner with
  | idle => exact .inl rfl
  | pushHead d =>
      rw [hpc] at h
      obtain ⟨rfl, hold, hfits⟩ := h
      refine .inr ⟨_, l, a, by simp only [stepOwner, hold.head_eq, hpc]; rfl, ?_⟩
      exact ⟨⟨rfl, hold.of_eq rfl rfl rfl hold.head_eq.symm, hfits, rfl⟩, by simp [pushLeft],
        rfl, rfl⟩
  | pushTail d i =>
      rw [hpc] at h
      obtain ⟨rfl, hold, hfits, rfl⟩ := h
      by_cases hfull : ((s.seg a).tail_idx + nodeLength) % word ≤ (s.seg a).head_idx
      · refine .inr ⟨_, l, a, by simp only [stepOwner, hold.head_eq, hpc, hfull, if_true]; rfl, ?_⟩
        exact ⟨⟨rfl, hold.of_eq rfl rfl rfl hold.head_eq.symm⟩, by simp [pushLeft], rfl, rfl⟩
      · refine .inr ⟨_, l, a, by simp only [stepOwner, hold.head_eq, hpc, hfull, if_false]; rfl, ?_⟩
        have hroom : (s.seg a).head_idx < (s.seg a).tail_idx + nodeLength :=
          Nat.lt_of_lt_of_le (Nat.lt_of_not_le hfull) (Nat.mod_le _ _)
        exact ⟨⟨rfl, hold.of_eq rfl rfl rfl hold.head_eq.symm, hfits, rfl, hroom⟩,
          by simp [pushLeft], rfl, rfl⟩
  | pushNew d =>
      rw [hpc] at h
      obtain ⟨rfl, hold⟩ := h
      refine .inr ⟨_, l ++ [a], s.allocated, by simp only [stepOwner, hold.head_eq, hpc]; rfl, ?_⟩
      refine ⟨⟨rfl, ?_⟩, by simp [pushLeft], rfl, rfl⟩
      rw [List.append_assoc]
      exact hold.link_new junk d rfl rfl rfl rfl
  | pushLink old n =>
      rw [hpc] at h
      obtain ⟨hhead, hold⟩ := h
      refine .inr ⟨_, l, a, by simp only [stepOwner, hhead, hpc]; rfl, ?_⟩
      exact ⟨hold.of_eq rfl rfl rfl rfl, by simp [pushLeft], rfl, rfl⟩
  | pushSlot d i =>
      rw [hpc] at h
      obtain ⟨rfl, hold, hfits, rfl, hroom⟩ := h
      have hopen := hold.headOpen
      refine .inr ⟨_, l, a, by simp only [stepOwner, hold.head_eq, hpc]; rfl, ?_⟩
      have hslot : Holds (s.modify a fun g =>
          { g with buffer := Function.update g.buffer ((s.seg a).head_idx % nodeLength) d })
          (l ++ [a]) D :=
        hold.modify_head rfl rfl ⟨hopen.le, hopen.fits, hopen.lt⟩ fun back hback => by
          rw [Segment.items_write hopen rfl hroom]
          exact hback
      refine ⟨⟨rfl, hslot.of_eq rfl rfl rfl rfl, hfits, ?_⟩, by simp [pushLeft], rfl, rfl⟩
      simp only [State.modify, Function.update_self]
      exact ⟨trivial, hroom, trivial⟩
  | pushStore d i =>
      rw [hpc] at h
      obtain ⟨rfl, hold, hfits, rfl, hroom, hslot⟩ := h
      refine .inr ⟨_, l, a, by simp only [stepOwner, hold.head_eq, hpc]; rfl, ?_⟩
      have hopen := hold.headOpen
      have hword : closed < word := by decide
      have hmod : ((s.seg a).head_idx + 1) % word = (s.seg a).head_idx + 1 :=
        Nat.mod_eq_of_lt (by omega)
      rw [hmod]
      have hnew : Holds (s.modify a fun g => { g with head_idx := (s.seg a).head_idx + 1 })
          (l ++ [a]) (d :: D) :=
        hold.modify_head rfl rfl ⟨Nat.le_succ_of_le hopen.le, hroom, hfits⟩ fun back hback => by
          rw [Segment.items_push hopen rfl hfits, hslot, List.reverse_append, hback]
          rfl
      exact ⟨hnew.of_eq rfl rfl rfl rfl, by simp [pushLeft], rfl, rfl⟩
  | _ => rw [hpc] at h; exact h.elim

/-! ### Pop -/

/-- What Pop has done to the deque `D` when the owner is at a program point, and to what
had been returned before.  At `popDrop` the segment at `rb->head` is no longer one of the
list. -/
def PopAt (s : State V T) (l : List Nat) (a : Nat) (D R : List V) : OwnerPc V → Prop
  | .idle => Holds s (l ++ [a]) D.tail ∧ s.returned = R ++ D.head?.toList
  | .popHead => Holds s (l ++ [a]) D ∧ s.returned = R
  | .popTail h => Holds s (l ++ [a]) D ∧ s.returned = R ∧
      h = ((s.seg a).head_idx + (word - 1)) % word
  | .popStore h => Holds s (l ++ [a]) D ∧ s.returned = R ∧ (s.seg a).head_idx = h + 1 ∧
      (s.seg a).tail_idx ≤ h
  | .popRead h => Holds s (l ++ [a]) D.tail ∧ s.returned = R ∧
      D.head? = some ((s.seg a).buffer (h % nodeLength))
  | .popSlot t => Holds s (l ++ [a]) D ∧ s.returned = R ∧ (s.seg a).head_idx = t + 1 ∧
      (s.seg a).tail_idx = t
  | .popCas t ret => Holds s (l ++ [a]) D ∧ s.returned = R ∧ (s.seg a).head_idx = t + 1 ∧
      (s.seg a).tail_idx = t ∧ ret = (s.seg a).buffer (t % nodeLength)
  | .popEmpty t => Holds s (l ++ [a]) D ∧ s.returned = R ∧ (s.seg a).head_idx = t ∧
      (s.seg a).tail_idx = t
  | .popPrev => Holds s (l ++ [a]) D ∧ s.returned = R ∧
      (s.seg a).tail_idx = (s.seg a).head_idx
  | .popUnlink => Holds s (l ++ [a]) D ∧ s.returned = R ∧
      (s.seg a).tail_idx = (s.seg a).head_idx ∧ l ≠ []
  | .popDrop => ∃ b, s.head = some b ∧ b ∉ l ++ [a] ∧ (s.seg b).prev = some a ∧
      Holds { s with head := some a } (l ++ [a]) D ∧ s.returned = R
  | _ => False

/-- The steps that are left of a Pop before a segment is dropped. -/
def popLeft : OwnerPc V → Nat
  | .popDrop => 7
  | .popHead => 6
  | .popTail _ => 5
  | .popEmpty _ => 4
  | .popPrev | .popStore _ | .popSlot _ => 3
  | .popUnlink | .popRead _ | .popCas _ _ => 2
  | _ => 0

/-- The case distinction that Pop makes on its indices. -/
theorem pop_cases {g : Segment V} (hg : g.Open) {h : Nat}
    (hh : h = (g.head_idx + (word - 1)) % word) :
    if (g.tail_idx + 1) % word < (h + 1) % word then g.head_idx = h + 1 ∧ g.tail_idx < h
    else if g.tail_idx = h then g.head_idx = h + 1
    else g.tail_idx = g.head_idx := by
  have hle := hg.le
  have hlt := hg.lt
  have hclosed : closed + 1 = word := by decide
  rcases Nat.eq_zero_or_pos g.head_idx with hzero | hpos
  · have hword : h = word - 1 := by
      rw [hh, hzero, Nat.zero_add]
      exact Nat.mod_eq_of_lt (by omega)
    have hnext : (h + 1) % word = 0 := by
      rw [hword, Nat.sub_add_cancel (by omega), Nat.mod_self]
    split
    · omega
    · split <;> omega
  · have hpred : h = g.head_idx - 1 := by
      rw [hh, show g.head_idx + (word - 1) = g.head_idx - 1 + word by omega, Nat.add_mod_right]
      exact Nat.mod_eq_of_lt (by omega)
    have hnext : (h + 1) % word = g.head_idx := by
      rw [hpred, Nat.sub_add_cancel hpos]
      exact Nat.mod_eq_of_lt (by omega)
    have htail : (g.tail_idx + 1) % word = g.tail_idx + 1 := Nat.mod_eq_of_lt (by omega)
    split
    · omega
    · split <;> omega

/-- The last segment, which is empty, is cut off. -/
theorem Holds.cut_last {b : Nat} (h : Holds s (l ++ [a, b]) D)
    (hempty : (s.seg b).tail_idx = (s.seg b).head_idx) :
    Holds { s.modify a (fun g => { g with next := none }) with head := some a } (l ++ [a]) D := by
  have hsplit : l ++ [a, b] = (l ++ [a]) ++ [b] := by simp
  have hkeep := keep_modify s (x := a) (f := fun g => { g with next := none }) rfl
    (fun h => ⟨h.le, h.fits, h.lt⟩)
  constructor
  case links =>
    show DoublyLinked (fun y => ((s.modify a fun g => { g with next := none }).seg y).next)
      (fun y => ((s.modify a fun g => { g with next := none }).seg y).prev) (l ++ [a])
    rw [modify_field Segment.next, modify_field Segment.prev, Function.update_eq_self]
    exact h.links.dropLast
  case alloc => exact fun x hx => h.alloc x (by rw [hsplit]; exact List.mem_append_left _ hx)
  case inUse =>
    exact fun x hx => (hkeep x).2 (h.inUse x (by rw [hsplit]; exact List.mem_append_left _ hx))
  case tail =>
    show (l ++ [a]).head? = some s.tail
    rw [← h.tail]
    cases l <;> rfl
  case head => exact List.getLast?_concat
  case items =>
    have hitems := h.items
    rw [hsplit, List.flatMap_append, List.flatMap_singleton, Segment.items_of_empty hempty,
      List.append_nil] at hitems
    rw [← hitems]
    exact List.flatMap_congr fun y _ => (hkeep y).1

/-- **The owner's step in a Pop.** -/
theorem popAt_step (junk : Nat → V) (h : PopAt s l a D R s.owner) :
    s.owner = .idle ∨ ∃ s' l' a', stepOwner junk s = some s' ∧
      PopAt s' l' a' D R s'.owner ∧
      8 * l'.length + popLeft s'.owner < 8 * l.length + popLeft s.owner ∧
      s'.thief = s.thief := by
  cases hpc : s.owner with
  | idle => exact .inl rfl
  | popHead =>
      rw [hpc] at h
      obtain ⟨hold, hret⟩ := h
      refine .inr ⟨_, l, a, by simp only [stepOwner, hold.head_eq, hpc]; rfl, ?_⟩
      exact ⟨⟨hold.of_eq rfl rfl rfl hold.head_eq.symm, hret, rfl⟩, by simp [popLeft], rfl⟩
  | popTail i =>
      rw [hpc] at h
      obtain ⟨hold, hret, hi⟩ := h
      have hcases := pop_cases hold.headOpen hi
      by_cases hmany : ((s.seg a).tail_idx + 1) % word < (i + 1) % word
      · rw [if_pos hmany] at hcases
        refine .inr ⟨_, l, a, by simp only [stepOwner, hold.head_eq, hpc]; rw [if_pos hmany], ?_⟩
        exact ⟨⟨hold.of_eq rfl rfl rfl hold.head_eq.symm, hret, hcases.1, Nat.le_of_lt hcases.2⟩,
          by simp [popLeft], rfl⟩
      · rw [if_neg hmany] at hcases
        by_cases hone : (s.seg a).tail_idx = i
        · rw [if_pos hone] at hcases
          subst hone
          refine .inr ⟨_, l, a, by
            simp only [stepOwner, hold.head_eq, hpc]; rw [if_neg hmany, if_pos trivial], ?_⟩
          exact ⟨⟨hold.of_eq rfl rfl rfl hold.head_eq.symm, hret, hcases, rfl⟩,
            by simp [popLeft], rfl⟩
        · rw [if_neg hone] at hcases
          refine .inr ⟨_, l, a, by
            simp only [stepOwner, hold.head_eq, hpc]; rw [if_neg hmany, if_neg hone], ?_⟩
          exact ⟨⟨hold.of_eq rfl rfl rfl hold.head_eq.symm, hret, hcases.symm, rfl⟩,
            by simp [popLeft], rfl⟩
  | popStore i =>
      rw [hpc] at h
      obtain ⟨hold, hret, hi, hle⟩ := h
      have hopen := hold.headOpen
      have hlt : i < closed := Nat.lt_trans (by omega) hopen.lt
      have hfits : i ≤ (s.seg a).tail_idx + nodeLength := Nat.le_trans (by omega) hopen.fits
      obtain ⟨hfront, hrest⟩ := hold.pop_head (f := fun g => { g with head_idx := i }) rfl rfl
        ⟨hle, hfits, hlt⟩ (Segment.items_pop hopen hi hle)
      refine .inr ⟨_, l, a, by simp only [stepOwner, hold.head_eq, hpc]; rfl, ?_⟩
      refine ⟨⟨hrest.of_eq rfl rfl rfl rfl, hret, ?_⟩, by simp [popLeft], rfl⟩
      simp only [State.modify, Function.update_self]
      exact hfront
  | popRead i =>
      rw [hpc] at h
      obtain ⟨hold, hret, hfront⟩ := h
      refine .inr ⟨_, l, a, by simp only [stepOwner, hold.head_eq, hpc]; rfl, ?_⟩
      refine ⟨⟨hold.of_eq rfl rfl rfl hold.head_eq.symm, ?_⟩, by simp [popLeft], rfl⟩
      rw [hfront, hret]
      rfl
  | popSlot t =>
      rw [hpc] at h
      obtain ⟨hold, hret, hh, ht⟩ := h
      refine .inr ⟨_, l, a, by simp only [stepOwner, hold.head_eq, hpc]; rfl, ?_⟩
      exact ⟨⟨hold.of_eq rfl rfl rfl hold.head_eq.symm, hret, hh, ht, rfl⟩, by simp [popLeft], rfl⟩
  | popCas t ret =>
      rw [hpc] at h
      obtain ⟨hold, hret, hh, rfl, rfl⟩ := h
      have hopen := hold.headOpen
      have hlt := hopen.lt
      have hword : closed < word := by decide
      have hmod : ((s.seg a).tail_idx + 1) % word = (s.seg a).tail_idx + 1 :=
        Nat.mod_eq_of_lt (by omega)
      -- with one item the front is the back as well
      obtain ⟨hfront, hrest⟩ := hold.pop_head (f := fun g => { g with tail_idx := g.tail_idx + 1 })
        rfl rfl ⟨by rw [hh], by rw [hh]; exact Nat.le_add_right _ _, hlt⟩
        ((Segment.items_take hopen (by omega)).trans
          (by rw [Segment.items_of_empty (g := { s.seg a with tail_idx := (s.seg a).tail_idx + 1 })
            hh.symm]; rfl))
      refine .inr ⟨_, l, a, by
        simp only [stepOwner, hold.head_eq, hpc]; rw [if_pos trivial, hmod], ?_⟩
      refine ⟨⟨hrest.of_eq rfl rfl rfl rfl, ?_⟩, by simp [popLeft], rfl⟩
      rw [hfront, ← hret]
      rfl
  | popEmpty t =>
      rw [hpc] at h
      obtain ⟨hold, hret, hh, ht⟩ := h
      have hsame : (fun g : Segment V => { g with head_idx := t }) (s.seg a) = s.seg a := by
        rw [← hh]
      refine .inr ⟨_, l, a, by simp only [stepOwner, hold.head_eq, hpc]; rfl, ?_⟩
      refine ⟨⟨?_, hret, ?_⟩, by simp [popLeft], rfl⟩
      · refine hold.of_eq ?_ rfl rfl rfl
        exact (congrArg (Function.update s.seg a) hsame).trans (Function.update_eq_self a s.seg)
      · simp only [State.modify, Function.update_self]
        exact ht
  | popPrev =>
      rw [hpc] at h
      obtain ⟨hold, hret, hempty⟩ := h
      have hprev := hold.links.prev_eq
      cases l with
      | nil =>
          have hnil : D = [] := by
            rw [hold.items_eq, Segment.items_of_empty hempty]
            rfl
          subst hnil
          refine .inr ⟨_, [], a, by simp only [stepOwner, hold.head_eq, hpc, hprev]; rfl, ?_⟩
          exact ⟨⟨hold.of_eq rfl rfl rfl hold.head_eq.symm, by simpa using hret⟩,
            by simp [popLeft], rfl⟩
      | cons x rest =>
          refine .inr ⟨_, x :: rest, a, by
            simp only [stepOwner, hold.head_eq, hpc, hprev, List.getLast?_cons]; rfl, ?_⟩
          exact ⟨⟨hold.of_eq rfl rfl rfl hold.head_eq.symm, hret, hempty, List.cons_ne_nil x rest⟩,
            by simp [popLeft], rfl⟩
  | popUnlink =>
      rw [hpc] at h
      obtain ⟨hold, hret, hempty, hne⟩ := h
      obtain ⟨front, p, rfl⟩ := List.eq_nil_or_concat' l |>.resolve_left hne
      have hprev : (s.seg a).prev = some p := hold.links.prev_eq.trans List.getLast?_concat
      have ha : a ≠ p := fun heq => hold.notMem (by simp [heq])
      have hmem := hold.notMem
      have hhead := hold.head_eq
      refine .inr ⟨_, front, p, by simp only [stepOwner, hold.head_eq, hpc, hprev]; rfl, ?_⟩
      rw [List.append_assoc] at hold
      refine ⟨⟨a, hhead, hmem, ?_, (hold.cut_last hempty).of_eq rfl rfl rfl rfl, hret⟩, ?_, rfl⟩
      · simp only [State.modify]
        rw [Function.update_of_ne ha, hprev]
      · simp only [popLeft, List.length_append, List.length_singleton]
        omega
  | popDrop =>
      rw [hpc] at h
      obtain ⟨b, hhead, hb, hprev, hold, hret⟩ := h
      refine .inr ⟨_, l, a, by simp only [stepOwner, hhead, hpc]; rfl, ?_⟩
      have hdrop := hold.modify_outside hb (fun g => { g with prev := s.ownerFree }) rfl
      exact ⟨⟨hdrop.of_eq rfl rfl rfl hprev, hret⟩, by simp [popLeft], rfl⟩
  | _ => rw [hpc] at h; exact h.elim

/-! ### Take -/

/-- The first segment is the one at `rb->tail`. -/
theorem Holds.tail_cons (h : Holds s segs D) : ∃ rest, segs = s.tail :: rest :=
  List.head?_eq_some_iff.mp h.tail

/-- The item at the back goes. -/
theorem Holds.take_tail (h : Holds s (x :: l) D) {f : Segment V → Segment V} {v : V}
    (hnext : (f (s.seg x)).next = (s.seg x).next) (hprev : (f (s.seg x)).prev = (s.seg x).prev)
    (hopen : (f (s.seg x)).Open) (hitems : (s.seg x).items = v :: (f (s.seg x)).items) :
    D.getLast? = some v ∧ Holds (s.modify x f) (x :: l) D.dropLast := by
  have hx : x ∉ l := (List.nodup_cons.mp h.links.nodup).1
  have hD : D = ((f (s.seg x)).items ++ l.flatMap fun y => (s.seg y).items).reverse ++ [v] := by
    have hall := h.items
    rw [List.flatMap_cons, hitems] at hall
    rw [← List.reverse_cons, ← List.cons_append, hall, List.reverse_reverse]
  refine ⟨by rw [hD, List.getLast?_concat], h.modify hnext hprev hopen ?_⟩
  rw [List.flatMap_cons, items_modify hx, modify_self, hD, List.dropLast_concat,
    List.reverse_reverse]

/-- The first segment, which is empty, is cut off. -/
theorem Holds.cut_first {b : Nat} (h : Holds s (x :: b :: l) D)
    (hempty : (s.seg x).tail_idx = (s.seg x).head_idx) :
    Holds { s.modify b (fun g => { g with prev := none }) with tail := b } (b :: l) D := by
  have hkeep := keep_modify s (x := b) (f := fun g => { g with prev := none }) rfl
    (fun h => ⟨h.le, h.fits, h.lt⟩)
  constructor
  case links =>
    show DoublyLinked (fun y => ((s.modify b fun g => { g with prev := none }).seg y).next)
      (fun y => ((s.modify b fun g => { g with prev := none }).seg y).prev) (b :: l)
    rw [modify_field Segment.next, modify_field Segment.prev, Function.update_eq_self]
    exact h.links.tail
  case alloc => exact fun y hy => h.alloc y (List.mem_cons_of_mem x hy)
  case inUse => exact fun y hy => (hkeep y).2 (h.inUse y (List.mem_cons_of_mem x hy))
  case tail => rfl
  case head => exact (List.getLast?_cons_cons ..).symm.trans h.head
  case items =>
    have hitems := h.items
    rw [List.flatMap_cons, Segment.items_of_empty hempty, List.nil_append] at hitems
    rw [← hitems]
    exact List.flatMap_congr fun y _ => (hkeep y).1

/-- What Take has done to the deque `D` when the thief is at a program point, and to what
had been returned before.  From `swing` on the segment `x` is no longer one of the list. -/
def TakeAt (s : State V T) (segs : List Nat) (D R : List V) : ThiefPc V → Prop
  | .idle => Holds s segs D.dropLast ∧ s.returned = R ++ D.getLast?.toList
  | .load => Holds s segs D ∧ s.returned = R
  | .loadTail x => Holds s segs D ∧ s.returned = R ∧ x = s.tail
  | .loadHead x t => Holds s segs D ∧ s.returned = R ∧ x = s.tail ∧ t = (s.seg x).tail_idx
  | .slot x t => Holds s segs D ∧ s.returned = R ∧ x = s.tail ∧ t = (s.seg x).tail_idx ∧
      t < (s.seg x).head_idx
  | .cas x t ret => Holds s segs D ∧ s.returned = R ∧ x = s.tail ∧ t = (s.seg x).tail_idx ∧
      t < (s.seg x).head_idx ∧ ret = (s.seg x).buffer (t % nodeLength)
  | .next x => Holds s segs D ∧ s.returned = R ∧ x = s.tail ∧
      (s.seg x).tail_idx = (s.seg x).head_idx
  | .close x b => Holds s segs D ∧ s.returned = R ∧ x = s.tail ∧
      (s.seg x).tail_idx = (s.seg x).head_idx ∧ (s.seg x).next = some b
  | .swing x b => Holds { s.modify b (fun g => { g with prev := none }) with tail := b } segs D ∧
      s.returned = R ∧ x = s.tail ∧ x ∉ segs
  | .cut x b => Holds (s.modify b fun g => { g with prev := none }) segs D ∧ s.returned = R ∧
      b = s.tail ∧ x ∉ segs
  | .retire x b => Holds s segs D ∧ s.returned = R ∧ b = s.tail ∧ x ∉ segs

/-- The steps that are left of a Take before a segment is cut off. -/
def takeLeft : ThiefPc V → Nat
  | .swing _ _ => 9
  | .cut _ _ => 8
  | .retire _ _ | .load => 7
  | .loadTail _ => 6
  | .loadHead _ _ => 5
  | .slot _ _ | .next _ => 4
  | .cas _ _ _ | .close _ _ => 3
  | .idle => 0

variable [DecidableEq T] {w : T}

theorem thief_move (s : State V T) (w : T) (pc : ThiefPc V) : (s.move w pc).thief w = pc :=
  Function.update_self ..

/-- The thief has gone on to `pc`. -/
theorem takeAt_of_move {s₂ : State V T} {segs' : List Nat} (pc : ThiefPc V)
    (hstep : stepThief s w = some s₂) (hmove : s₂.thief = Function.update s.thief w pc)
    (howner : s₂.owner = s.owner) (hat : TakeAt s₂ segs' D R pc)
    (hleft : 8 * segs'.length + takeLeft pc < 8 * segs.length + takeLeft (s.thief w)) :
    ∃ s' segs', stepThief s w = some s' ∧ TakeAt s' segs' D R (s'.thief w) ∧
      8 * segs'.length + takeLeft (s'.thief w) < 8 * segs.length + takeLeft (s.thief w) ∧
      s'.owner = s.owner ∧ ∀ v, v ≠ w → s'.thief v = s.thief v := by
  have hw : s₂.thief w = pc := by rw [hmove, Function.update_self]
  refine ⟨s₂, segs', hstep, by rw [hw]; exact hat, by rw [hw]; exact hleft, howner, ?_⟩
  intro v hv
  rw [hmove, Function.update_of_ne hv]

/-- **The thief's step in a Take.** -/
theorem takeAt_step (h : TakeAt s segs D R (s.thief w)) :
    s.thief w = .idle ∨ ∃ s' segs', stepThief s w = some s' ∧
      TakeAt s' segs' D R (s'.thief w) ∧
      8 * segs'.length + takeLeft (s'.thief w) < 8 * segs.length + takeLeft (s.thief w) ∧
      s'.owner = s.owner ∧ ∀ v, v ≠ w → s'.thief v = s.thief v := by
  cases hpc : s.thief w with
  | idle => exact .inl rfl
  | load =>
      rw [hpc] at h
      obtain ⟨hold, hret⟩ := h
      have hs : stepThief s w = some (s.move w (.loadTail s.tail)) := by simp only [stepThief, hpc]
      exact .inr (hpc ▸ takeAt_of_move (.loadTail s.tail) hs rfl rfl
        ⟨hold.of_eq rfl rfl rfl rfl, hret, rfl⟩ (by simp [hpc, takeLeft]))
  | loadTail x =>
      rw [hpc] at h
      obtain ⟨hold, hret, hx⟩ := h
      have hs : stepThief s w = some (s.move w (.loadHead x (s.seg x).tail_idx)) := by
        simp only [stepThief, hpc]
      exact .inr (hpc ▸ takeAt_of_move (.loadHead x (s.seg x).tail_idx) hs rfl rfl
        ⟨hold.of_eq rfl rfl rfl rfl, hret, hx, rfl⟩ (by simp [hpc, takeLeft]))
  | loadHead x t =>
      rw [hpc] at h
      obtain ⟨hold, hret, hx, ht⟩ := h
      have hopen : (s.seg x).Open := by
        obtain ⟨rest, rfl⟩ := hold.tail_cons
        exact hold.inUse x (by simp [hx])
      have hle := hopen.le
      have hlt := hopen.lt
      have hword : closed + 1 = word := by decide
      have hmod : (t + 1) % word = t + 1 := Nat.mod_eq_of_lt (by omega)
      have hmod' : ((s.seg x).head_idx + 1) % word = (s.seg x).head_idx + 1 :=
        Nat.mod_eq_of_lt (by omega)
      by_cases hitem : t < (s.seg x).head_idx
      · have hs : stepThief s w = some (s.move w (.slot x t)) := by
          simp only [stepThief, hpc]
          rw [hmod, hmod', if_pos (by omega)]
        exact .inr (hpc ▸ takeAt_of_move (.slot x t) hs rfl rfl
          ⟨hold.of_eq rfl rfl rfl rfl, hret, hx, ht, hitem⟩ (by simp [hpc, takeLeft]))
      · have hempty : (s.seg x).tail_idx = (s.seg x).head_idx := by omega
        have hs : stepThief s w = some (s.move w (.next x)) := by
          simp only [stepThief, hpc]
          rw [hmod, hmod', if_neg (by omega)]
        exact .inr (hpc ▸ takeAt_of_move (.next x) hs rfl rfl
          ⟨hold.of_eq rfl rfl rfl rfl, hret, hx, hempty⟩ (by simp [hpc, takeLeft]))
  | slot x t =>
      rw [hpc] at h
      obtain ⟨hold, hret, hx, ht, hitem⟩ := h
      have hs : stepThief s w = some (s.move w (.cas x t ((s.seg x).buffer (t % nodeLength)))) := by
        simp only [stepThief, hpc]
      exact .inr (hpc ▸ takeAt_of_move (.cas x t ((s.seg x).buffer (t % nodeLength))) hs rfl rfl
        ⟨hold.of_eq rfl rfl rfl rfl, hret, hx, ht, hitem, rfl⟩ (by simp [hpc, takeLeft]))
  | cas x t ret =>
      rw [hpc] at h
      obtain ⟨hold, hret, rfl, rfl, hitem, rfl⟩ := h
      obtain ⟨rest, rfl⟩ := hold.tail_cons
      have hopen := hold.inUse s.tail (by simp)
      have hlt := hopen.lt
      have hword : closed < word := by decide
      have hmod : ((s.seg s.tail).tail_idx + 1) % word = (s.seg s.tail).tail_idx + 1 :=
        Nat.mod_eq_of_lt (by omega)
      obtain ⟨hback, hrest⟩ := hold.take_tail (f := fun g => { g with tail_idx := g.tail_idx + 1 })
        rfl rfl ⟨hitem, Nat.le_trans hopen.fits (Nat.add_le_add_right (Nat.le_succ _) _), hlt⟩
        (Segment.items_take hopen hitem)
      have hs : stepThief s w = some
          { (s.modify s.tail fun g => { g with tail_idx := g.tail_idx + 1 }).move w .idle with
            returned := s.returned ++
              [(s.seg s.tail).buffer ((s.seg s.tail).tail_idx % nodeLength)] } := by
        simp only [stepThief, hpc]
        rw [if_pos trivial, hmod]
        rfl
      exact .inr (hpc ▸ takeAt_of_move .idle hs rfl rfl
        ⟨hrest.of_eq rfl rfl rfl rfl, by rw [hback, ← hret]; rfl⟩ (by simp [hpc, takeLeft]))
  | next x =>
      rw [hpc] at h
      obtain ⟨hold, hret, rfl, hempty⟩ := h
      obtain ⟨rest, rfl⟩ := hold.tail_cons
      have hnext := hold.links.forth.1
      cases rest with
      | nil =>
          have hnil : D = [] := by
            have hitems := hold.items
            rw [List.flatMap_singleton, Segment.items_of_empty hempty] at hitems
            exact List.reverse_eq_nil_iff.mp hitems.symm
          subst hnil
          have hs : stepThief s w = some (s.move w .idle) := by
            simp only [stepThief, hpc, hnext]
            rfl
          exact .inr (hpc ▸ takeAt_of_move .idle hs rfl rfl
            ⟨hold.of_eq rfl rfl rfl rfl, hret.trans (List.append_nil R).symm⟩
            (by simp [hpc, takeLeft]))
      | cons b rest =>
          have hs : stepThief s w = some (s.move w (.close s.tail b)) := by
            simp only [stepThief, hpc, hnext]
            rfl
          exact .inr (hpc ▸ takeAt_of_move (.close s.tail b) hs rfl rfl
            ⟨hold.of_eq rfl rfl rfl rfl, hret, rfl, hempty, hnext⟩ (by simp [hpc, takeLeft]))
  | close x b =>
      rw [hpc] at h
      obtain ⟨hold, hret, rfl, hempty, hnext⟩ := h
      obtain ⟨rest, rfl⟩ := hold.tail_cons
      have hlink := hold.links.forth.1.symm.trans hnext
      obtain ⟨rest, rfl⟩ := List.head?_eq_some_iff.mp hlink
      have hmem : s.tail ∉ b :: rest := (List.nodup_cons.mp hold.links.nodup).1
      have hne : b ≠ s.tail := fun heq => hmem (by simp [heq])
      have hs : stepThief s w = some
          ((s.modify s.tail fun g => { g with head_idx := closed }).move w (.swing s.tail b)) := by
        simp only [stepThief, hpc]
      have hcut := (hold.cut_first hempty).modify_outside hmem
        (fun g => { g with head_idx := closed }) rfl
      -- the two stores are to different segments
      have hseg : ((s.modify s.tail fun g => { g with head_idx := closed }).modify b
            fun g => { g with prev := none }).seg =
          ((s.modify b fun g => { g with prev := none }).modify s.tail
            fun g => { g with head_idx := closed }).seg := by
        simp only [State.modify]
        rw [Function.update_of_ne hne, Function.update_of_ne hne.symm,
          Function.update_comm hne.symm]
      exact .inr (hpc ▸ takeAt_of_move (.swing s.tail b) hs rfl rfl
        ⟨hcut.of_eq hseg rfl rfl rfl, hret, rfl, hmem⟩ (by simp [hpc, takeLeft]; omega))
  | swing x b =>
      rw [hpc] at h
      obtain ⟨hold, hret, hx, hmem⟩ := h
      have hs : stepThief s w = some { s.move w (.cut x b) with tail := b } := by
        simp only [stepThief, hpc]
        rw [if_pos hx.symm]
      exact .inr (hpc ▸ takeAt_of_move (.cut x b) hs rfl rfl
        ⟨hold.of_eq rfl rfl rfl rfl, hret, rfl, hmem⟩ (by simp [hpc, takeLeft]))
  | cut x b =>
      rw [hpc] at h
      obtain ⟨hold, hret, hb, hmem⟩ := h
      have hs : stepThief s w = some
          ((s.modify b fun g => { g with prev := none }).move w (.retire x b)) := by
        simp only [stepThief, hpc]
      exact .inr (hpc ▸ takeAt_of_move (.retire x b) hs rfl rfl
        ⟨hold.of_eq rfl rfl rfl rfl, hret, hb, hmem⟩ (by simp [hpc, takeLeft]))
  | retire x b =>
      rw [hpc] at h
      obtain ⟨hold, hret, hb, hmem⟩ := h
      have hout := hold.modify_outside hmem (fun g => { g with prev := s.thiefFree w }) rfl
      have hs : stepThief s w = some
          { (s.modify x fun g => { g with prev := s.thiefFree w }).move w (.loadTail b) with
            thiefFree := Function.update s.thiefFree w (some x) } := by
        simp only [stepThief, hpc]
      exact .inr (hpc ▸ takeAt_of_move (.loadTail b) hs rfl rfl
        ⟨hout.of_eq rfl rfl rfl rfl, hret, hb⟩ (by simp [hpc, takeLeft]))

/-! ### Calls one after another -/

/-- The call `c` has been made in `s` and has gone as far as `m`. -/
def Within (junk : Nat → V) (s : State V T) (c : Call V T) (m : State V T) : Prop :=
  ∃ s₁, step junk s c.start = some s₁ ∧ Reaches (step junk) (fun _ a => c.Own a) s₁ m

/-- The call `c` made in `s` has returned, in `s'` and with the result `r`. -/
structure Performs (junk : Nat → V) (s : State V T) (c : Call V T) (r : Option V)
    (s' : State V T) : Prop where
  within : Within junk s c s'
  returned : c.Returned s'
  result : s'.returned = s.returned ++ r.toList

/-- The state after calls made one after another, with their results. -/
inductive Session (junk : Nat → V) : State V T → List (Call V T × Option V) → Prop
  | init : Session junk (init junk T) []
  | call {s s' : State V T} {log : List (Call V T × Option V)} {c : Call V T} {r : Option V} :
      Session junk s log → s.Fits c → Performs junk s c r s' → Session junk s' (log ++ [(c, r)])

/-- No call is under way, and the buffer holds the deque `D`. -/
structure Quiet (s : State V T) (D : List V) : Prop where
  owner : s.owner = .idle
  thief : ∀ w, s.thief w = .idle
  holds : ∃ segs, Holds s segs D

/-- The call `c`, made when the buffer held `D` and `R` had been returned, is under way;
at most `n` steps are left of it. -/
def During (D R : List V) (n : Nat) (s : State V T) : Call V T → Prop
  | .push data => (∀ w, s.thief w = .idle) ∧ s.returned = R ∧
      ∃ l a, PushAt s l a D data s.owner ∧ n = pushLeft s.owner
  | .pop => (∀ w, s.thief w = .idle) ∧
      ∃ l a, PopAt s l a D R s.owner ∧ n = 8 * l.length + popLeft s.owner
  | .take w => (∀ v, v ≠ w → s.thief v = .idle) ∧ s.owner = .idle ∧
      ∃ segs, TakeAt s segs D R (s.thief w) ∧ n = 8 * segs.length + takeLeft (s.thief w)

variable {junk : Nat → V} {c : Call V T} {n : Nat}

omit [DecidableEq T] in
theorem Holds.concat (h : Holds s segs D) : ∃ l a, segs = l ++ [a] := by
  obtain ⟨rest, rfl⟩ := h.tail_cons
  obtain ⟨l, a, heq⟩ := List.eq_nil_or_concat' (s.tail :: rest) |>.resolve_left
    (List.cons_ne_nil _ _)
  exact ⟨l, a, heq⟩

/-- A call can be made when no other one is under way. -/
theorem Quiet.start (junk : Nat → V) (h : Quiet s D) (c : Call V T) (hfits : s.Fits c) :
    ∃ s₁ n, step junk s c.start = some s₁ ∧ During D s.returned n s₁ c := by
  obtain ⟨ho, ht, segs, hold⟩ := h
  obtain ⟨l, a, rfl⟩ := hold.concat
  cases c with
  | push data =>
      refine ⟨{ s with owner := .pushHead data }, _, by simp only [Call.start, step, ho],
        ht, rfl, l, a, ?_, rfl⟩
      exact ⟨rfl, hold.of_eq rfl rfl rfl rfl, hfits a hold.head_eq⟩
  | pop =>
      refine ⟨{ s with owner := .popHead }, _, by simp only [Call.start, step, ho],
        ht, l, a, ?_, rfl⟩
      exact ⟨hold.of_eq rfl rfl rfl rfl, rfl⟩
  | take w =>
      refine ⟨s.move w .load, _, by simp only [Call.start, step, ht w], ?_, ho, l ++ [a], ?_, rfl⟩
      · exact fun v hv => (Function.update_of_ne hv _ _).trans (ht v)
      · rw [thief_move]
        exact ⟨hold.of_eq rfl rfl rfl rfl, rfl⟩

/-- The thread goes on with its call until it has returned. -/
theorem During.step (junk : Nat → V) (h : During D R n s c) :
    c.Returned s ∨ ∃ s' k, step junk s c.next = some s' ∧ k < n ∧ During D R k s' c := by
  cases c with
  | push data =>
      obtain ⟨ht, hret, l, a, hat, rfl⟩ := h
      rcases pushAt_step junk hat with hidle | ⟨s', l', a', hs, hat', hlt, hthief, hsame⟩
      · exact .inl hidle
      · exact .inr ⟨s', _, hs, hlt, hthief ▸ ht, hsame.trans hret, l', a', hat', rfl⟩
  | pop =>
      obtain ⟨ht, l, a, hat, rfl⟩ := h
      rcases popAt_step junk hat with hidle | ⟨s', l', a', hs, hat', hlt, hthief⟩
      · exact .inl hidle
      · exact .inr ⟨s', _, hs, hlt, hthief ▸ ht, l', a', hat', rfl⟩
  | take w =>
      obtain ⟨ht, ho, segs, hat, rfl⟩ := h
      rcases takeAt_step hat with hidle | ⟨s', segs', hs, hat', hlt, howner, hthief⟩
      · exact .inl hidle
      · exact .inr ⟨s', _, hs, hlt, fun v hv => (hthief v hv).trans (ht v hv), howner.trans ho,
          segs', hat', rfl⟩

/-- A weak compare-and-swap that fails for no reason sends the thief back. -/
theorem During.spurious {w : T} (h : During D R n s (.take w))
    (hs : RingBuffer.step junk s (.spurious w) = some s') : ∃ k, During D R k s' (.take w) := by
  obtain ⟨ht, ho, segs, hat, rfl⟩ := h
  cases hpc : s.thief w with
  | cas x t ret =>
      rw [hpc] at hat
      obtain ⟨hold, hret, hx, -⟩ := hat
      simp only [RingBuffer.step, hpc, Option.some.injEq] at hs
      subst hs
      refine ⟨_, fun v hv => (Function.update_of_ne hv _ _).trans (ht v hv), ho, segs, ?_, rfl⟩
      rw [thief_move]
      exact ⟨hold.of_eq rfl rfl rfl rfl, hret, hx⟩
  | _ => simp [RingBuffer.step, hpc] at hs

/-- A call that has returned has done what a list deque does. -/
theorem During.returned (h : During D R n s c) (hc : c.Returned s) :
    Quiet s (c.onDeque D).1 ∧ s.returned = R ++ (c.onDeque D).2.toList := by
  cases c with
  | push data =>
      obtain ⟨ht, hret, l, a, hat, rfl⟩ := h
      have ho : s.owner = .idle := hc
      rw [ho] at hat
      exact ⟨⟨ho, ht, _, hat⟩, hret.trans (List.append_nil R).symm⟩
  | pop =>
      obtain ⟨ht, l, a, hat, rfl⟩ := h
      have ho : s.owner = .idle := hc
      rw [ho] at hat
      exact ⟨⟨ho, ht, _, hat.1⟩, hat.2⟩
  | take w =>
      obtain ⟨ht, ho, segs, hat, rfl⟩ := h
      have hw : s.thief w = .idle := hc
      rw [hw] at hat
      refine ⟨⟨ho, fun v => ?_, segs, hat.1⟩, hat.2⟩
      by_cases hv : v = w
      · exact hv ▸ hw
      · exact ht v hv

/-- A call that has returned takes no further step. -/
theorem Call.Returned.next_eq_none (h : c.Returned s) : step junk s c.next = none := by
  cases c with
  | take w =>
      have hw : s.thief w = .idle := h
      simp [Call.next, step, stepThief, hw]
  | _ =>
      have ho : s.owner = .idle := h
      cases hhead : s.head <;> simp [Call.next, step, stepOwner, ho, hhead]

/-- However far a call has gone, it is under way. -/
theorem Within.during {m : State V T} (hq : Quiet s D) (hfits : s.Fits c)
    (h : Within junk s c m) : ∃ k, During D s.returned k m c := by
  obtain ⟨s₁, hstart, hrun⟩ := h
  obtain ⟨s₂, n, hstart', hd⟩ := hq.start junk c hfits
  cases hstart.symm.trans hstart'
  refine hrun.invariant (fun m => ∃ k, During D s.returned k m c) ⟨n, hd⟩ ?_
  rintro m a m' ⟨k, hk⟩ (rfl | ⟨w, rfl, rfl⟩) hs
  · rcases hk.step junk with hc | ⟨m₂, k', hs', -, hk'⟩
    · exact absurd hs (hc.next_eq_none ▸ nofun)
    · cases hs.symm.trans hs'
      exact ⟨k', hk'⟩
  · exact hk.spurious hs

/-- What a call that has returned has done. -/
theorem Performs.quiet {r : Option V} (hq : Quiet s D) (hfits : s.Fits c)
    (h : Performs junk s c r s') :
    Quiet s' (c.onDeque D).1 ∧ r = (c.onDeque D).2 := by
  obtain ⟨k, hk⟩ := h.within.during hq hfits
  obtain ⟨hq', hret⟩ := hk.returned h.returned
  have heq : r.toList = (c.onDeque D).2.toList :=
    List.append_cancel_left (h.result.symm.trans hret)
  refine ⟨hq', ?_⟩
  have hhead := congrArg List.head? heq
  rwa [Option.head?_toList, Option.head?_toList] at hhead

omit [DecidableEq T] in
theorem quiet_init (junk : Nat → V) : Quiet (init junk T) [] := by
  refine ⟨rfl, fun w => rfl, [0], ⟨DoublyLinked.singleton rfl rfl, ?_, ?_, rfl, rfl, ?_⟩⟩
  · exact fun x hx => List.mem_singleton.mp hx ▸ Nat.zero_lt_one
  · intro x hx
    exact ⟨Nat.le_refl 0, Nat.zero_le _, show 0 < closed by decide⟩
  · rw [List.flatMap_singleton]
    exact Segment.items_of_empty rfl

/-- Between the calls of a session nothing is under way. -/
theorem Session.quiet {log : List (Call V T × Option V)} (h : Session junk s log) :
    Quiet s (dequeAfter [] (log.map Prod.fst)) ∧
      log.map Prod.snd = dequeResults [] (log.map Prod.fst) := by
  induction h with
  | init => exact ⟨quiet_init junk, rfl⟩
  | call _ hfits hp ih =>
      obtain ⟨hq, hr⟩ := hp.quiet ih.1 hfits
      rw [List.map_append, List.map_append, List.map_singleton, List.map_singleton,
        dequeAfter_concat, dequeResults_concat, ih.2, hr]
      exact ⟨hq, rfl⟩

/-- **Used by one thread at a time the ring buffer is a double-ended queue.**  The calls
of a session have the results that they have on a list, where Push adds at the front, Pop
removes at the front and Take at the back; and the next call can be made, and, however far
it has gone, the steps of its thread bring it to its return. -/
theorem deque_of_session {log : List (Call V T × Option V)} (h : Session junk s log) :
    log.map Prod.snd = dequeResults [] (log.map Prod.fst) ∧
      ∀ c : Call V T, s.Fits c → (∃ m, Within junk s c m) ∧
        ∀ m, Within junk s c m → ∃ r s',
          Reaches (step junk) (fun _ a => a = c.next) m s' ∧ Performs junk s c r s' := by
  obtain ⟨hq, hresults⟩ := h.quiet
  refine ⟨hresults, fun c hfits => ⟨?_, fun m hm => ?_⟩⟩
  · obtain ⟨s₁, n, hstart, -⟩ := hq.start junk c hfits
    exact ⟨s₁, s₁, hstart, .refl⟩
  · obtain ⟨k, hk⟩ := hm.during hq hfits
    have hstep : ∀ n s', During (dequeAfter [] (log.map Prod.fst)) s.returned n s' c →
        c.Returned s' ∨ ∃ a s₂ k, a = c.next ∧ step junk s' a = some s₂ ∧ k < n ∧
          During (dequeAfter [] (log.map Prod.fst)) s.returned k s₂ c := by
      intro n s' hd
      rcases hd.step junk with hdone | ⟨s₂, k, hs, hlt, hd⟩
      · exact .inl hdone
      · exact .inr ⟨c.next, s₂, k, rfl, hs, hlt, hd⟩
    obtain ⟨s', k', hrun, hc, hd⟩ := reaches_done _ c.Returned hstep hk
    obtain ⟨s₁, hstart, hrun₁⟩ := hm
    refine ⟨_, s', hrun, ⟨s₁, hstart, ?_⟩, hc, (hd.returned hc).2⟩
    exact hrun₁.trans (hrun.mono fun _ _ ha => .inl ha)

/-- Two pointers are pushed: Take gets the first one, Pop the second, and the deque is
empty again. -/
theorem deque_of_session_five : ∃ (s : State Nat Unit) (log : List (Call Nat Unit × Option Nat)),
    Session (fun _ => 0) s log ∧
      log.map Prod.fst = [.push 7, .push 8, .take (), .pop, .pop] ∧
      log.map Prod.snd = [none, none, some 7, some 8, none] := by
  have hinit : Session (fun _ => 0) (init (fun _ => 0) Unit) ([] : List (Call Nat Unit × _)) :=
    .init
  have hfits : (init (fun _ => 0) Unit).Fits (.push 7 : Call Nat Unit) :=
    fun a _ => show 1 < closed by decide
  -- the state after the first Push, in which the second one fits
  obtain ⟨s₁, hrun, hidle, hreturned, hfits'⟩ : ∃ s₁ : State Nat Unit,
      run (step fun _ => 0) (init (fun _ => 0) Unit)
        [.push 7, .owner, .owner, .owner, .owner] = some s₁ ∧
      s₁.owner = .idle ∧ s₁.returned = [] ∧ s₁.Fits (.push 8) := by
    refine ⟨_, rfl, rfl, rfl, fun a ha => ?_⟩
    cases ha
    decide
  obtain ⟨s₀, hstart, hsteps⟩ := run_cons hrun
  have hown : Reaches (step fun _ => 0) (fun _ a => (Call.push 7 : Call Nat Unit).Own a) s₀ s₁ :=
    reaches_of_forall (List.replicate 4 (.owner : Label Nat Unit))
      (fun _ ha _ => .inl (List.eq_of_mem_replicate ha)) hsteps
  have hpush : Performs (fun _ => 0) (init (fun _ => 0) Unit) (.push 7) none s₁ :=
    ⟨⟨s₀, hstart, hown⟩, hidle, hreturned⟩
  have h₁ := hinit.call hfits hpush
  obtain ⟨⟨m, hm⟩, hret⟩ := (deque_of_session h₁).2 (.push 8) hfits'
  obtain ⟨r₂, s₂, -, hpush'⟩ := hret m hm
  have h₂ := h₁.call hfits' hpush'
  obtain ⟨⟨m, hm⟩, hret⟩ := (deque_of_session h₂).2 (.take ()) trivial
  obtain ⟨r₃, s₃, -, htake⟩ := hret m hm
  have h₃ := h₂.call (show s₂.Fits (.take ()) from trivial) htake
  obtain ⟨⟨m, hm⟩, hret⟩ := (deque_of_session h₃).2 .pop trivial
  obtain ⟨r₄, s₄, -, hpop⟩ := hret m hm
  have h₄ := h₃.call (show s₃.Fits .pop from trivial) hpop
  obtain ⟨⟨m, hm⟩, hret⟩ := (deque_of_session h₄).2 .pop trivial
  obtain ⟨r₅, s₅, -, hpop'⟩ := hret m hm
  have h₅ := h₄.call (show s₄.Fits .pop from trivial) hpop'
  exact ⟨s₅, _, h₅, rfl, (deque_of_session h₅).1⟩

end Ksi.RingBuffer

/-
Reading events is a merge.

`Queued` says that from an address on the event nodes hold a list of events.  The loop of
`ksiNodeGetNextEvent` finds the first of the least cursors (`soonest_best`), so one call
does what the merge rule asks of a step, and a whole iteration is the merge of the queues.
Enqueueing appends to what a queue holds, whatever else there is in the heap.
-/
import Ksi.Audio.Events
import Ksi.Lib.Linked
import Ksi.Lib.Merge

namespace Ksi.Audio

open Ksi.Dag

namespace EventMemory

variable {m m' : EventMemory} {n : NodePtr} {port : Nat}

/-! ### What the queues hold -/

/-- From `p` on come the event nodes `l`, which hold `events`. -/
structure Chain (m : EventMemory) (p : Option EventPtr) (l : List EventPtr)
    (events : List KsiEvent) : Prop where
  linked : Linked (fun q => (m.node q).next) l
  first : p = l.head?
  events : l.map (fun q => (m.node q).e) = events

/-- From `p` on the event nodes hold `events`. -/
def Queued (m : EventMemory) (p : Option EventPtr) (events : List KsiEvent) : Prop :=
  ∃ l, m.Chain p l events

theorem Queued.none_iff {p : Option EventPtr} {events : List KsiEvent} (h : m.Queued p events) :
    p = none ↔ events = [] := by
  obtain ⟨l, h⟩ := h
  rw [h.first, ← h.events]
  cases l <;> simp

/-- The first event, and what comes after it. -/
theorem Queued.cons {p : EventPtr} {events : List KsiEvent} (h : m.Queued (some p) events) :
    ∃ rest, events = (m.node p).e :: rest ∧ m.Queued (m.node p).next rest := by
  obtain ⟨l, h⟩ := h
  cases l with
  | nil => exact absurd h.first (by simp)
  | cons q rest =>
      obtain rfl : p = q := Option.some.inj h.first
      exact ⟨_, h.events.symm, rest, h.linked.2, h.linked.1, rfl⟩

/-! ### The soonest event -/

/-- The time stamp at the cursor of an entry. -/
def stamp (m : EventMemory) (ees : List KsiEventEnvEntry) (k : Nat) : Option Nat :=
  (ees[k]?).bind fun ee => ee.currentNode.map fun p => (m.node p).e.timeStamp

/-- What the loop knows after the first `k` entries. -/
def Best (m : EventMemory) (ees : List KsiEventEnvEntry) (k : Nat) : Option (Nat × Nat) → Prop
  | none => ∀ j < k, m.stamp ees j = none
  | some (i, ct) => i < k ∧ m.stamp ees i = some ct ∧
      ∀ j < k, ∀ t, m.stamp ees j = some t → ct ≤ t ∧ (j < i → ct < t)

theorem Best.skip {ees : List KsiEventEnvEntry} {k : Nat} {cn : Option (Nat × Nat)}
    (h : m.Best ees k cn) (hk : m.stamp ees k = none) : m.Best ees (k + 1) cn := by
  cases cn with
  | none =>
      intro j hj
      by_cases heq : j = k
      · rw [heq, hk]
      · exact h j (by omega)
  | some best =>
      obtain ⟨hi, hct, hall⟩ := h
      refine ⟨by omega, hct, fun j hj t ht => ?_⟩
      by_cases heq : j = k
      · rw [heq, hk] at ht
        cases ht
      · exact hall j (by omega) t ht

theorem Best.first {ees : List KsiEventEnvEntry} {k t : Nat} (h : m.Best ees k none)
    (hk : m.stamp ees k = some t) : m.Best ees (k + 1) (some (k, t)) := by
  refine ⟨Nat.lt_succ_self k, hk, fun j hj t' ht' => ?_⟩
  by_cases heq : j = k
  · rw [heq, hk] at ht'
    obtain rfl := Option.some.inj ht'
    exact ⟨Nat.le_refl t, by omega⟩
  · rw [h j (by omega)] at ht'
    cases ht'

theorem Best.next {ees : List KsiEventEnvEntry} {k i ct t : Nat} (h : m.Best ees k (some (i, ct)))
    (hk : m.stamp ees k = some t) :
    m.Best ees (k + 1) (if t < ct then some (k, t) else some (i, ct)) := by
  obtain ⟨hi, hct, hall⟩ := h
  by_cases hlt : t < ct
  · rw [if_pos hlt]
    refine ⟨Nat.lt_succ_self k, hk, fun j hj t' ht' => ?_⟩
    by_cases heq : j = k
    · rw [heq, hk] at ht'
      obtain rfl := Option.some.inj ht'
      exact ⟨Nat.le_refl t, by omega⟩
    · have := (hall j (by omega) t' ht').1
      omega
  · rw [if_neg hlt]
    refine ⟨by omega, hct, fun j hj t' ht' => ?_⟩
    by_cases heq : j = k
    · rw [heq, hk] at ht'
      obtain rfl := Option.some.inj ht'
      omega
    · exact hall j (by omega) t' ht'

/-- The loop ends with the first of the least time stamps. -/
theorem soonest_best {ees : List KsiEventEnvEntry} :
    ∀ (rest : List KsiEventEnvEntry) (k : Nat) (cn : Option (Nat × Nat)),
      ees.drop k = rest → m.Best ees k cn → m.Best ees ees.length (m.soonest rest k cn) := by
  intro rest
  induction rest with
  | nil =>
      intro k cn hdrop h
      have hlen := List.drop_eq_nil_iff.mp hdrop
      -- there is nothing from entry `ees.length` on
      unfold soonest
      cases cn with
      | none => exact fun j hj => h j (by omega)
      | some best =>
          obtain ⟨hi, hct, hall⟩ := h
          refine ⟨?_, hct, fun j hj => hall j (by omega)⟩
          by_contra hge
          unfold stamp at hct
          rw [List.getElem?_eq_none (by omega)] at hct
          cases hct
  | cons ee rest ih =>
      intro k cn hdrop h
      have hee : ees[k]? = some ee := by
        have hhead := congrArg List.head? hdrop
        rwa [List.head?_drop] at hhead
      have hrest : ees.drop (k + 1) = rest := by
        rw [← List.tail_drop, hdrop]
        rfl
      have hstamp : m.stamp ees k = ee.currentNode.map fun p => (m.node p).e.timeStamp := by
        unfold stamp
        rw [hee]
        rfl
      unfold soonest
      refine ih (k + 1) _ hrest ?_
      split
      · rename_i hnone
        exact h.skip (by rw [hstamp, hnone]; rfl)
      · rename_i p hsome
        exact h.first (by rw [hstamp, hsome]; rfl)
      · rename_i p i ct hsome
        exact h.next (by rw [hstamp, hsome]; rfl)

/-! ### One call -/

/-- The cursors of the entries stand at `pos` in the queues `qs`. -/
structure Reading (m : EventMemory) (n : NodePtr) (port : Nat) (qs : List (List KsiEvent))
    (pos : Nat → Nat) (m' : EventMemory) : Prop where
  node : m'.node = m.node
  queue : m'.queue = m.queue
  length : (m'.ees n port).length = qs.length
  cursor : ∀ (k : Nat) (ee : KsiEventEnvEntry), (m'.ees n port)[k]? = some ee →
    ∃ q : List KsiEvent, qs[k]? = some q ∧ m.Queued ee.currentNode (q.drop (pos k))

variable {qs : List (List KsiEvent)} {pos : Nat → Nat}

theorem ees_setEes (ees : List KsiEventEnvEntry) : (m.setEes n port ees).ees n port = ees := by
  unfold setEes
  simp

/-- The time stamp at a cursor is the key of the cell that the cursor stands at. -/
theorem Reading.stamp (h : Reading m n port qs pos m') (k : Nat) :
    m'.stamp (m'.ees n port) k = (Merge.cell qs (k, pos k)).map KsiEvent.timeStamp := by
  unfold EventMemory.stamp Merge.cell
  by_cases hk : k < (m'.ees n port).length
  · have hee := List.getElem?_eq_getElem hk
    obtain ⟨q, hq, hcur⟩ := h.cursor k _ hee
    rw [hee, Option.bind_some, hq, Option.bind_some, h.node]
    have hhead : q[pos k]? = (q.drop (pos k)).head? := List.head?_drop.symm
    cases hp : (m'.ees n port)[k].currentNode with
    | none =>
        rw [hp] at hcur
        rw [hhead, hcur.none_iff.mp rfl]
        rfl
    | some p =>
        rw [hp] at hcur
        obtain ⟨rest, hrest, -⟩ := hcur.cons
        rw [hhead, hrest]
        rfl
  · rw [List.getElem?_eq_none (by omega), List.getElem?_eq_none (by rw [← h.length]; omega)]
    rfl

/-- A call yields nothing when all cursors are at the ends. -/
theorem Reading.ended (h : Reading m n port qs pos m')
    (hs : m'.soonest (m'.ees n port) 0 none = none) :
    Merge.Exhausted qs pos ∧ (m'.ksiNodeGetNextEvent n port).1 = none ∧
      Reading m n port qs pos (m'.ksiNodeGetNextEvent n port).2 := by
  have hbest : m'.Best (m'.ees n port) (m'.ees n port).length (m'.soonest (m'.ees n port) 0 none) :=
    soonest_best (m'.ees n port) 0 none rfl fun j hj => absurd hj (Nat.not_lt_zero j)
  rw [hs] at hbest
  have hend : Merge.Exhausted qs pos := by
    intro k
    by_cases hk : k < (m'.ees n port).length
    · have hnone := hbest k hk
      rw [h.stamp] at hnone
      exact Option.map_eq_none_iff.mp hnone
    · unfold Merge.cell
      rw [List.getElem?_eq_none (by rw [← h.length]; simp only; omega)]
      rfl
  unfold ksiNodeGetNextEvent
  rw [hs]
  exact ⟨hend, rfl, h⟩

/-- Otherwise it takes the first of the soonest events and moves that cursor. -/
theorem Reading.soonest (h : Reading m n port qs pos m') {k t : Nat}
    (hs : m'.soonest (m'.ees n port) 0 none = some (k, t)) :
    ∃ e, Merge.FirstLeast KsiEvent.timeStamp qs pos k e ∧
      (m'.ksiNodeGetNextEvent n port).1 = some e ∧
      Reading m n port qs (Function.update pos k (pos k + 1))
        (m'.ksiNodeGetNextEvent n port).2 := by
  have hbest : m'.Best (m'.ees n port) (m'.ees n port).length (m'.soonest (m'.ees n port) 0 none) :=
    soonest_best (m'.ees n port) 0 none rfl fun j hj => absurd hj (Nat.not_lt_zero j)
  rw [hs] at hbest
  obtain ⟨hk, hstamp, hall⟩ := hbest
  have hee := List.getElem?_eq_getElem hk
  obtain ⟨q, hq, hcur⟩ := h.cursor k _ hee
  obtain ⟨p, hp⟩ : ∃ p, (m'.ees n port)[k].currentNode = some p := by
    unfold EventMemory.stamp at hstamp
    rw [hee, Option.bind_some] at hstamp
    obtain ⟨p, hp, -⟩ := Option.map_eq_some_iff.mp hstamp
    exact ⟨p, hp⟩
  rw [hp] at hcur
  obtain ⟨rest, hrest, hnext⟩ := hcur.cons
  have hcell : Merge.cell qs (k, pos k) = some (m.node p).e := by
    unfold Merge.cell
    rw [hq, Option.bind_some, ← List.head?_drop, hrest]
    rfl
  have hct : (m.node p).e.timeStamp = t := by
    rw [h.stamp, hcell] at hstamp
    exact Option.some.inj hstamp
  -- the keys at the other cursors are their time stamps
  have hkey : ∀ k' e', Merge.cell qs (k', pos k') = some e' →
      t ≤ e'.timeStamp ∧ (k' < k → t < e'.timeStamp) := by
    intro k' e' he'
    have hlt : k' < (m'.ees n port).length := by
      rw [h.length]
      obtain ⟨q', hq', -⟩ := Option.bind_eq_some_iff.mp he'
      exact (List.getElem?_eq_some_iff.mp hq').1
    exact hall k' hlt _ (by rw [h.stamp, he']; rfl)
  refine ⟨(m.node p).e, ⟨hcell, ?_, ?_⟩, ?_⟩
  · intro k' e' he'
    rw [hct]
    exact (hkey k' e' he').1
  · intro k' e' hlt he'
    rw [hct]
    exact (hkey k' e' he').2 hlt
  · unfold ksiNodeGetNextEvent
    rw [hs]
    simp only [hee, Option.bind_some, hp]
    refine ⟨by rw [h.node], h.node, h.queue, by rw [ees_setEes, List.length_modify]; exact h.length,
      fun k' ee' hee' => ?_⟩
    rw [ees_setEes, List.getElem?_modify] at hee'
    by_cases hkk : k = k'
    · subst hkk
      rw [hee] at hee'
      simp only [if_true, Option.map_eq_map, Option.map_some, Option.some.injEq] at hee'
      refine ⟨q, hq, ?_⟩
      rw [← hee']
      rw [Function.update_self, ← List.tail_drop, hrest, h.node]
      exact hnext
    · simp only [hkk, if_false, Option.map_eq_map, Option.map_id_fun', id_eq] at hee'
      rw [Function.update_of_ne (Ne.symm hkk)]
      exact h.cursor k' ee' hee'

/-- **One call is one step of the merge.** -/
theorem Reading.step (h : Reading m n port qs pos m') :
    (Merge.Exhausted qs pos ∧ (m'.ksiNodeGetNextEvent n port).1 = none ∧
      Reading m n port qs pos (m'.ksiNodeGetNextEvent n port).2) ∨
    ∃ k e, Merge.FirstLeast KsiEvent.timeStamp qs pos k e ∧
      (m'.ksiNodeGetNextEvent n port).1 = some e ∧
      Reading m n port qs (Function.update pos k (pos k + 1))
        (m'.ksiNodeGetNextEvent n port).2 := by
  cases hs : m'.soonest (m'.ees n port) 0 none with
  | none => exact .inl (h.ended hs)
  | some best => exact .inr ⟨best.1, h.soonest hs⟩

/-! ### A whole iteration -/

/-- The queues of the sources of an input port, in the order of its entries. -/
def Sources (m : EventMemory) (n : NodePtr) (port : Nat) (qs : List (List KsiEvent)) : Prop :=
  List.Forall₂ (fun ee q => m.Queued (m.queue ee.src ee.srcPort).tail q) (m.ees n port) qs

/-- The iteration begins at the tails of the queues. -/
theorem Sources.begin (h : m.Sources n port qs) :
    Reading m n port qs (fun _ => 0) (m.ksiNodeBeginIterateEvent n port) where
  node := rfl
  queue := rfl
  length := by
    unfold ksiNodeBeginIterateEvent
    rw [ees_setEes, List.length_map]
    exact h.length_eq
  cursor := by
    intro k ee hee
    unfold ksiNodeBeginIterateEvent at hee
    rw [ees_setEes, List.getElem?_map] at hee
    obtain ⟨ee', hee', rfl⟩ := Option.map_eq_some_iff.mp hee
    obtain ⟨hk, rfl⟩ := List.getElem?_eq_some_iff.mp hee'
    have hk' : k < qs.length := by rw [← h.length_eq]; exact hk
    exact ⟨qs[k], List.getElem?_eq_getElem hk', h.get hk hk'⟩

/-- The memory after so many calls of `ksiNodeGetNextEvent`. -/
def afterCalls (m : EventMemory) (n : NodePtr) (port calls : Nat) : EventMemory :=
  (fun m => (m.ksiNodeGetNextEvent n port).2)^[calls] (m.ksiNodeBeginIterateEvent n port)

theorem Reading.calls (h : Reading m n port qs pos m') (calls : Nat) :
    ∃ pos', Reading m n port qs pos' ((fun m => (m.ksiNodeGetNextEvent n port).2)^[calls] m') := by
  induction calls with
  | zero => exact ⟨pos, h⟩
  | succ calls ih =>
      obtain ⟨pos', h'⟩ := ih
      rw [Function.iterate_succ_apply']
      rcases h'.step with ⟨-, -, hnext⟩ | ⟨k, e, -, -, hnext⟩
      · exact ⟨pos', hnext⟩
      · exact ⟨_, hnext⟩

/-- **Reading events from several sources is a merge.**  The calls yield the events of all
sources, each once, by their time stamps; those of one source come in the order of its
queue, and of two sources the one whose entry is first goes first.  After them comes NULL,
at every call.  The queues stay as they are. -/
theorem getNextEvent_merges (hsources : m.Sources n port qs)
    (hsorted : ∀ q ∈ qs, q.Pairwise fun e e' => e.timeStamp ≤ e'.timeStamp) :
    ∃ order : List (Nat × Nat),
      order.Pairwise (Merge.Before KsiEvent.timeStamp qs) ∧
      (∀ p, p ∈ order ↔ ∃ e, Merge.cell qs p = some e) ∧
      ∀ calls,
        ((m.afterCalls n port calls).ksiNodeGetNextEvent n port).1 =
          (order[calls]?).bind (Merge.cell qs) ∧
        (m.afterCalls n port calls).node = m.node ∧
        (m.afterCalls n port calls).queue = m.queue := by
  obtain ⟨order, hmerges, hread⟩ := Merge.exists_order
    (fun m' : EventMemory => m'.ksiNodeGetNextEvent n port) (fun pos => Reading m n port qs pos)
    hsorted (fun pos m' h => h.step) (fun _ => 0) _ hsources.begin
  refine ⟨order, hmerges.sorted, fun p => ?_, fun calls => ⟨hread calls, ?_⟩⟩
  · rw [hmerges.mem]
    simp
  · obtain ⟨pos', h⟩ := hsources.begin.calls calls
    exact ⟨h.node, h.queue⟩

/-- Two sources: one with events at 3 and 7, the other with events at 3 and 5. -/
def twoSources : EventMemory where
  node := fun p => match p with
    | 0 => { next := some 1, e := { timeStamp := 3, data := 0 } }
    | 1 => { next := none, e := { timeStamp := 7, data := 1 } }
    | 2 => { next := some 3, e := { timeStamp := 3, data := 1 } }
    | _ => { next := none, e := { timeStamp := 5, data := 0 } }
  nextNode := 4
  queue := fun n _ => if n = 10 then { head := some 1, tail := some 0 }
    else { head := some 3, tail := some 2 }
  ees := fun _ _ => [{ src := 10, srcPort := 0, currentNode := none },
    { src := 11, srcPort := 1, currentNode := none }]

theorem getNextEvent_merges_two : ∃ order : List (Nat × Nat),
    order.Pairwise (Merge.Before KsiEvent.timeStamp
      [[⟨3, 0⟩, ⟨7, 1⟩], [⟨3, 1⟩, ⟨5, 0⟩]]) ∧
    (∀ p, p ∈ order ↔ ∃ e : KsiEvent, Merge.cell [[⟨3, 0⟩, ⟨7, 1⟩], [⟨3, 1⟩, ⟨5, 0⟩]] p = some e) ∧
    ((twoSources.afterCalls 12 0 0).ksiNodeGetNextEvent 12 0).1 = some ⟨3, 0⟩ ∧
    (∀ calls, ((twoSources.afterCalls 12 0 calls).ksiNodeGetNextEvent 12 0).1 =
      (order[calls]?).bind (Merge.cell [[⟨3, 0⟩, ⟨7, 1⟩], [⟨3, 1⟩, ⟨5, 0⟩]])) := by
  have hsources : twoSources.Sources 12 0 [[⟨3, 0⟩, ⟨7, 1⟩], [⟨3, 1⟩, ⟨5, 0⟩]] :=
    .cons ⟨[0, 1], ⟨⟨rfl, rfl, trivial⟩, rfl, rfl⟩⟩
      (.cons ⟨[2, 3], ⟨⟨rfl, rfl, trivial⟩, rfl, rfl⟩⟩ .nil)
  obtain ⟨order, hsorted, hmem, hread⟩ := getNextEvent_merges hsources (by decide)
  exact ⟨order, hsorted, hmem, by decide, fun calls => (hread calls).1⟩

/-- The calls of `ksiNodeGetNextEvent` yield `events`, and then NULL. -/
def Reads (m : EventMemory) (n : NodePtr) (port : Nat) (events : List KsiEvent) : Prop :=
  ∀ calls, ((m.afterCalls n port calls).ksiNodeGetNextEvent n port).1 = events[calls]?

/-- Sorted queues are read as one sorted list of their events. -/
theorem Sources.reads (h : m.Sources n port qs)
    (hsorted : ∀ q ∈ qs, q.Pairwise fun e e' => e.timeStamp ≤ e'.timeStamp) :
    ∃ events, m.Reads n port events ∧
      events.Pairwise (fun e e' => e.timeStamp ≤ e'.timeStamp) ∧
      ∀ e, e ∈ events ↔ ∃ q ∈ qs, e ∈ q := by
  obtain ⟨order, hmerges, hread⟩ := Merge.exists_order
    (fun m' : EventMemory => m'.ksiNodeGetNextEvent n port) (fun pos => Reading m n port qs pos)
    hsorted (fun pos m' h => h.step) (fun _ => 0) _ h.begin
  obtain ⟨events, hcell, hle, hmem⟩ := hmerges.elements
  exact ⟨events, fun calls => (hread calls).trans (hcell calls), hle, hmem⟩

theorem afterCalls_succ (calls : Nat) : m.afterCalls n port (calls + 1) =
    ((m.afterCalls n port calls).ksiNodeGetNextEvent n port).2 := by
  unfold afterCalls
  rw [Function.iterate_succ_apply']

/-! ### Enqueueing -/

/-- The queue of an output port is in order and holds `events`. -/
structure Holds (m : EventMemory) (n : NodePtr) (port : Nat) (l : List EventPtr)
    (events : List KsiEvent) : Prop where
  chain : m.Chain (m.queue n port).tail l events
  head : (m.queue n port).head = l.getLast?
  nodup : l.Nodup
  old : ∀ p ∈ l, p < m.nextNode

theorem queue_setQueue (q : KsiEventQueue) : (m.setQueue n port q).queue n port = q := by
  unfold setQueue
  simp

/-- A queue that has been cleared is empty. -/
theorem holds_clear : (m.ksiEventClearQueue n port).Holds n port [] [] where
  chain := ⟨trivial, by unfold ksiEventClearQueue; rw [queue_setQueue]; rfl, rfl⟩
  head := by
    unfold ksiEventClearQueue
    rw [queue_setQueue]
    rfl
  nodup := List.nodup_nil
  old := fun p hp => (by cases hp)

/-- **Enqueueing appends an event.** -/
theorem Holds.enqueue {l : List EventPtr} {events : List KsiEvent} (h : m.Holds n port l events)
    (data : KsiData) (t : Nat) : (m.ksiEventEnqueue n port data t).Holds n port
      (l ++ [m.nextNode]) (events ++ [{ timeStamp := t, data := data }]) := by
  have hnew : m.nextNode ∉ l := fun hmem => Nat.lt_irrefl _ (h.old _ hmem)
  have hnodup : (l ++ [m.nextNode]).Nodup := by
    rw [List.nodup_append]
    exact ⟨h.nodup, List.nodup_singleton _, fun a ha b hb heq =>
      hnew (List.mem_singleton.mp hb ▸ heq ▸ ha)⟩
  have hold : ∀ p ∈ l ++ [m.nextNode], p < m.nextNode + 1 := by
    intro p hp
    rcases List.mem_append.mp hp with hp | hp
    · exact Nat.lt_succ_of_lt (h.old p hp)
    · rw [List.mem_singleton.mp hp]
      exact Nat.lt_succ_self _
  unfold ksiEventEnqueue
  rcases List.eq_nil_or_concat l with rfl | ⟨front, last, rfl⟩
  · have htail : (m.queue n port).tail = none := h.chain.first
    have hevents : events = [] := h.chain.events.symm
    simp only [htail]
    refine ⟨⟨?_, ?_, ?_⟩, by rw [queue_setQueue]; rfl, hnodup, hold⟩
    · exact ⟨by simp [setQueue], trivial⟩
    · rw [queue_setQueue]
      rfl
    · simp [setQueue, hevents]
  · rw [List.concat_eq_append] at h hnew hnodup hold ⊢
    obtain ⟨tail, htail⟩ : ∃ tail, (front ++ [last]).head? = some tail := by
      cases front with
      | nil => exact ⟨last, rfl⟩
      | cons a rest => exact ⟨a, rfl⟩
    have hqtail : (m.queue n port).tail = some tail := h.chain.first.trans htail
    have hqhead : (m.queue n port).head = some last := by rw [h.head, List.getLast?_concat]
    have hne : last ≠ m.nextNode := fun heq => hnew (by simp [heq])
    simp only [hqtail, hqhead]
    refine ⟨⟨?_, ?_, ?_⟩, by rw [queue_setQueue, List.getLast?_concat], hnodup, hold⟩
    · -- the links: the old head is made to point to the new node
      have hlinked := (h.chain.linked.update hnew none).snoc h.nodup hnew (Function.update_self ..)
      rw [List.append_assoc]
      refine cast (congrArg (fun next => Linked next _) (funext fun q => ?_)) hlinked
      unfold setQueue
      by_cases hq : q = last
      · subst hq
        simp
      · by_cases hq' : q = m.nextNode
        · subst hq'
          simp [hq]
        · simp [hq, hq']
    · rw [queue_setQueue]
      cases front with
      | nil => exact htail.symm
      | cons a rest => exact htail.symm
    · rw [← h.chain.events, List.map_append]
      refine congrArg₂ (· ++ ·) (List.map_congr_left fun q hq => ?_) ?_
      · have hq' : q ≠ m.nextNode := fun heq => hnew (heq ▸ hq)
        unfold setQueue
        by_cases hql : q = last
        · subst hql
          simp [hq']
        · simp [hql, hq']
      · simp [setQueue, Ne.symm hne]

end EventMemory

end Ksi.Audio

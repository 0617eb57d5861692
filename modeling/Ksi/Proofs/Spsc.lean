/-
The list of spsc_queue.h is a queue.

The chain of nodes falls into three parts: the nodes before `cacheTail`, which the
producer may take back, those from there to `tail`, which it does not know to be free, and
those after `tail`, whose values are in the queue.  A producer that takes the first node
of the chain takes it from the first part, so the consumer never meets a node that is
being rewritten.  `Shape` says this with the three parts as lists of nodes, and with the
values of the last part as what has been enqueued and not yet been dequeued.
-/
import Ksi.Spsc.Machine
import Mathlib.Data.List.Perm.Basic
import Mathlib.Data.List.Range

namespace Ksi.Spsc

open Runs

variable {α : Type} {invalidVal : α} {s s' : State α} {old mid live : List Node}

/-- The node that NodeAlloc has handed out, until it is linked. -/
def Producer.node : Producer α → List Node
  | .storeNext _ n | .storeData _ n | .link _ n => [n]
  | _ => []

/-- The value of a call of Enqueue, until it is linked. -/
def Producer.pending : Producer α → List α
  | .loadTail v | .take v | .malloc v | .storeNext v _ | .storeData v _ | .link v _ => [v]
  | _ => []

/-- The last node of the chain. -/
def Producer.last (head : Node) : Producer α → Node
  | .advance n => n
  | _ => head

/-- The calls of Enqueue whose value is linked. -/
def Producer.linked (completed : Nat) : Producer α → Nat
  | .advance _ => completed + 1
  | _ => completed

/-- What the producer knows of its node, and of what it may take. -/
def ProducerOk (s : State α) (old : List Node) : Prop :=
  match s.producer with
  | .take _ => old ≠ []
  | .storeData _ n => s.next n = none
  | .link v n => s.next n = none ∧ s.data n = v
  | _ => True

/-- What the consumer knows of its nodes. -/
def ConsumerOk (s : State α) (live : List Node) : Prop :=
  match s.consumer with
  | .loadNext n => n = s.tail
  | .loadData nn => live.head? = some nn
  | .storeTail nn ret => live.head? = some nn ∧ s.data nn = ret
  | _ => True

variable [DecidableEq α]

/-- The values that Dequeue has returned. -/
def State.dequeued (invalidVal : α) (s : State α) : List α := s.returns.filter (· ≠ invalidVal)

/-- The chain, in its three parts. -/
structure Shape (invalidVal : α) (s : State α) (old mid live : List Node) : Prop where
  linked : Linked s.next (old ++ (mid ++ s.tail :: live))
  /-- every node is in the chain once, or in the hands of the producer -/
  nodes : (old ++ (mid ++ s.tail :: live) ++ s.producer.node).Perm (List.range s.allocated)
  cacheHead : s.cacheHead = (old ++ (mid ++ s.tail :: live)).head?
  cacheTail : some s.cacheTail = (mid ++ s.tail :: live).head?
  last : (s.tail :: live).getLast? = some (s.producer.last s.head)
  /-- what has been dequeued, what is in the queue and what is being enqueued -/
  values : s.enqueued = s.dequeued invalidVal ++ live.map s.data ++ s.producer.pending
  valid : ∀ v ∈ s.enqueued, v ≠ invalidVal
  count : s.producer.linked s.completed = (s.dequeued invalidVal ++ live.map s.data).length
  started : s.started ≤ s.completed
  producer : ProducerOk s old
  consumer : ConsumerOk s live

/-- The chain has its three parts. -/
def Shaped (invalidVal : α) (s : State α) : Prop := ∃ old mid live, Shape invalidVal s old mid live

theorem shaped_init : Shaped invalidVal (init invalidVal) :=
  ⟨[], [], [], ⟨rfl, trivial⟩, .refl _, rfl, rfl, rfl, rfl, by simp [init], rfl, Nat.le_refl _,
    trivial, trivial⟩

namespace Shape

theorem nodup (h : Shape invalidVal s old mid live) :
    (old ++ (mid ++ s.tail :: live) ++ s.producer.node).Nodup :=
  h.nodes.nodup_iff.mpr List.nodup_range

theorem mem_iff (h : Shape invalidVal s old mid live) {n : Node} :
    n ∈ old ++ (mid ++ s.tail :: live) ++ s.producer.node ↔ n < s.allocated := by
  rw [h.nodes.mem_iff, List.mem_range]

/-- The node in the hands of the producer is not in the chain. -/
theorem not_mem (h : Shape invalidVal s old mid live) {n : Node} (hn : n ∈ s.producer.node) :
    n ∉ old ++ (mid ++ s.tail :: live) := fun hmem =>
  (List.nodup_append.mp h.nodup).2.2 n hmem n hn rfl

theorem not_mem_live (h : Shape invalidVal s old mid live) {n : Node} (hn : n ∈ s.producer.node) :
    n ∉ live := fun hmem => h.not_mem hn (by simp [hmem])

/-- The node after `tail`. -/
theorem next_tail (h : Shape invalidVal s old mid live) : s.next s.tail = live.head? := by
  have hlinked := h.linked
  rw [← List.append_assoc] at hlinked
  exact hlinked.next_eq

/-- Where the cache is empty it ends where it begins. -/
theorem old_ne_nil (h : Shape invalidVal s old mid live) (hne : s.cacheHead ≠ some s.cacheTail) :
    old ≠ [] := by
  rintro rfl
  exact hne (h.cacheHead.trans h.cacheTail.symm)

end Shape

/-! ### The producer -/

theorem Shape.enqueue (h : Shape invalidVal s old mid live) {v : α} (hv : v ≠ invalidVal)
    (hs : enqueue s v = some s') : Shaped invalidVal s' := by
  unfold Spsc.enqueue at hs
  cases hp : s.producer <;> rw [hp] at hs <;> cases hs
  have hne := h.old_ne_nil
  obtain ⟨hlinked, hnodes, hhead, htail, hlast, hvalues, hvalid, hcount, hstarted, -, hcons⟩ := h
  rw [hp] at hnodes hlast hvalues hcount
  generalize hq : (if s.cacheHead ≠ some s.cacheTail then Producer.take v else .loadTail v) = q
  have hview : q.node = [] ∧ q.pending = [v] ∧ q.last s.head = s.head ∧
      q.linked s.completed = s.completed := by
    rw [← hq]
    split <;> exact ⟨rfl, rfl, rfl, rfl⟩
  refine ⟨old, mid, live, hlinked, ?_, hhead, htail, ?_, ?_, ?_, ?_, hstarted, ?_, hcons⟩
  · rw [hview.1]
    exact hnodes
  · rw [hview.2.2.1]
    exact hlast
  · rw [hview.2.1]
    show s.enqueued ++ [v] = _
    rw [hvalues]
    simp [Producer.pending, State.dequeued]
  · intro u hu
    rcases List.mem_append.mp hu with hu | hu
    · exact hvalid u hu
    · rwa [List.mem_singleton.mp hu]
  · rw [hview.2.2.2]
    exact hcount
  · rw [← hq]
    by_cases hc : s.cacheHead ≠ some s.cacheTail
    · rw [if_pos hc]
      exact hne hc
    · rw [if_neg hc]
      trivial

theorem Shape.loadTail (h : Shape invalidVal s old mid live) {v : α} (hp : s.producer = .loadTail v)
    (hs : produce s = some s') : Shaped invalidVal s' := by
  unfold Spsc.produce at hs
  rw [hp] at hs
  cases hs
  obtain ⟨hlinked, hnodes, hhead, -, hlast, hvalues, hvalid, hcount, hstarted, -, hcons⟩ := h
  rw [hp] at hnodes hlast hvalues hcount
  generalize hq : (if s.cacheHead ≠ some s.tail then Producer.take v else .malloc v) = q
  have hview : q.node = [] ∧ q.pending = [v] ∧ q.last s.head = s.head ∧
      q.linked s.completed = s.completed := by
    rw [← hq]
    split <;> exact ⟨rfl, rfl, rfl, rfl⟩
  have hassoc : old ++ (mid ++ s.tail :: live) = (old ++ mid) ++ ([] ++ s.tail :: live) := by simp
  rw [hassoc] at hlinked hnodes hhead
  refine ⟨old ++ mid, [], live, hlinked, ?_, hhead, rfl, ?_, ?_, hvalid, ?_, hstarted, ?_, hcons⟩
  · rw [hview.1]
    exact hnodes
  · rw [hview.2.2.1]
    exact hlast
  · rw [hview.2.1]
    exact hvalues
  · rw [hview.2.2.2]
    exact hcount
  · rw [← hq]
    by_cases hc : s.cacheHead ≠ some s.tail
    · rw [if_pos hc]
      intro hnil
      rw [hnil] at hhead
      exact hc hhead
    · rw [if_neg hc]
      trivial

/-- The node that is taken back is the first one of the chain. -/
theorem Shape.take (h : Shape invalidVal s old mid live) {v : α} (hp : s.producer = .take v)
    (hs : produce s = some s') : Shaped invalidVal s' := by
  obtain ⟨hlinked, hnodes, hhead, htail, hlast, hvalues, hvalid, hcount, hstarted, hprod, hcons⟩ :=
    h
  unfold ProducerOk at hprod
  rw [hp] at hnodes hlast hvalues hcount hprod
  obtain ⟨a, old, rfl⟩ := List.exists_cons_of_ne_nil hprod
  unfold Spsc.produce at hs
  rw [hp, show s.cacheHead = some a from hhead] at hs
  cases hs
  refine ⟨old, mid, live, hlinked.2, ?_, hlinked.1, htail, hlast, hvalues, hvalid, hcount, hstarted,
    trivial, hcons⟩
  refine (List.perm_append_singleton a _).trans ?_
  simpa [Producer.node] using hnodes

theorem Shape.malloc (h : Shape invalidVal s old mid live) {v : α} (hp : s.producer = .malloc v)
    (hs : produce s = some s') : Shaped invalidVal s' := by
  have hfresh : s.allocated ∉ old ++ (mid ++ s.tail :: live) := fun hmem =>
    Nat.lt_irrefl _ (h.mem_iff.mp (List.mem_append_left _ hmem))
  obtain ⟨hlinked, hnodes, hhead, htail, hlast, hvalues, hvalid, hcount, hstarted, -, hcons⟩ := h
  rw [hp] at hnodes hlast hvalues hcount
  unfold Spsc.produce at hs
  rw [hp] at hs
  cases hs
  refine ⟨old, mid, live, hlinked.update hfresh none, ?_, hhead, htail, hlast, hvalues,
    hvalid, hcount, hstarted, trivial, hcons⟩
  show (_ ++ [s.allocated]).Perm (List.range (s.allocated + 1))
  rw [List.range_succ]
  refine List.Perm.append_right _ ?_
  simpa [Producer.node] using hnodes

theorem Shape.storeNext (h : Shape invalidVal s old mid live) {v : α} {n : Node}
    (hp : s.producer = .storeNext v n) (hs : produce s = some s') : Shaped invalidVal s' := by
  have hnot : n ∉ old ++ (mid ++ s.tail :: live) :=
    h.not_mem (by rw [hp]; exact List.mem_singleton_self n)
  obtain ⟨hlinked, hnodes, hhead, htail, hlast, hvalues, hvalid, hcount, hstarted, -, hcons⟩ := h
  rw [hp] at hnodes hlast hvalues hcount
  unfold Spsc.produce at hs
  rw [hp] at hs
  cases hs
  exact ⟨old, mid, live, hlinked.update hnot none, hnodes, hhead, htail, hlast, hvalues,
    hvalid, hcount, hstarted, Function.update_self .., hcons⟩

/-- The values in the queue are not those of the node. -/
theorem Shape.map_update (h : Shape invalidVal s old mid live) {v : α} {n : Node}
    (hn : n ∈ s.producer.node) : live.map (Function.update s.data n v) = live.map s.data := by
  refine List.map_congr_left fun m hm => Function.update_of_ne ?_ _ _
  rintro rfl
  exact h.not_mem_live hn hm

theorem Shape.storeData (h : Shape invalidVal s old mid live) {v : α} {n : Node}
    (hp : s.producer = .storeData v n) (hs : produce s = some s') : Shaped invalidVal s' := by
  have hn : n ∈ s.producer.node := by rw [hp]; exact List.mem_singleton_self n
  have hmap := h.map_update (v := v) hn
  have hnot := h.not_mem_live hn
  obtain ⟨hlinked, hnodes, hhead, htail, hlast, hvalues, hvalid, hcount, hstarted, hprod, hcons⟩ :=
    h
  unfold ProducerOk at hprod
  unfold ConsumerOk at hcons
  rw [hp] at hnodes hlast hvalues hcount hprod
  unfold Spsc.produce at hs
  rw [hp] at hs
  cases hs
  refine ⟨old, mid, live, hlinked, hnodes, hhead, htail, hlast, ?_, hvalid, ?_, hstarted,
    ⟨hprod, Function.update_self ..⟩, ?_⟩
  · show s.enqueued = _ ++ live.map (Function.update s.data n v) ++ _
    rw [hmap]
    exact hvalues
  · show _ = (_ ++ live.map (Function.update s.data n v)).length
    rw [hmap]
    exact hcount
  · unfold ConsumerOk
    dsimp only
    cases hc : s.consumer with
    | storeTail nn ret =>
        rw [hc] at hcons
        have hmem : nn ∈ live := List.mem_of_mem_head? hcons.1
        refine ⟨hcons.1, ?_⟩
        rw [Function.update_of_ne (by rintro rfl; exact hnot hmem)]
        exact hcons.2
    | _ => rw [hc] at hcons; exact hcons

/-- The node is appended, and its value is in the queue. -/
theorem Shape.link (h : Shape invalidVal s old mid live) {v : α} {n : Node}
    (hp : s.producer = .link v n) (hs : produce s = some s') : Shaped invalidVal s' := by
  have hnot : n ∉ old ++ (mid ++ s.tail :: live) :=
    h.not_mem (by rw [hp]; exact List.mem_singleton_self n)
  have hnodup := h.nodup
  obtain ⟨hlinked, hnodes, hhead, htail, hlast, hvalues, hvalid, hcount, hstarted, hprod, hcons⟩ :=
    h
  unfold ProducerOk at hprod
  unfold ConsumerOk at hcons
  rw [hp] at hnodes hlast hvalues hcount hprod hnodup
  unfold Spsc.produce at hs
  rw [hp] at hs
  cases hs
  obtain ⟨init, hinit⟩ := List.getLast?_eq_some_iff.mp hlast
  have hchain : old ++ (mid ++ s.tail :: live) = (old ++ mid ++ init) ++ [s.head] := by
    rw [hinit]
    simp [Producer.last]
  have hchain' : old ++ (mid ++ s.tail :: (live ++ [n])) = (old ++ mid ++ init) ++ [s.head, n] := by
    have := congrArg (· ++ [n]) hchain
    simpa using this
  refine ⟨old, mid, live ++ [n], ?_, ?_, ?_, ?_, ?_, ?_, hvalid, ?_, hstarted, trivial, ?_⟩
  · show Linked (Function.update s.next s.head (some n)) (old ++ (mid ++ s.tail :: (live ++ [n])))
    rw [hchain']
    rw [hchain] at hlinked hnot hnodup
    exact hlinked.snoc (List.nodup_append.mp hnodup).1 hnot hprod.1
  · simpa [Producer.node] using hnodes
  · rw [hhead]
    cases old with
    | nil => cases mid <;> rfl
    | cons a rest => rfl
  · rw [htail]
    cases mid <;> rfl
  · show (s.tail :: live ++ [n]).getLast? = some n
    exact List.getLast?_concat
  · rw [hvalues]
    simp [Producer.pending, hprod.2, State.dequeued]
  · have hcount : s.completed = _ := hcount
    show s.completed + 1 = _
    rw [hcount]
    simp [State.dequeued]
    omega
  · unfold ConsumerOk
    dsimp only
    cases hc : s.consumer with
    | loadData nn =>
        rw [hc] at hcons
        dsimp only at hcons ⊢
        rw [List.head?_append, hcons]
        rfl
    | storeTail nn ret =>
        rw [hc] at hcons
        dsimp only at hcons ⊢
        rw [List.head?_append, hcons.1]
        exact ⟨rfl, hcons.2⟩
    | _ => rw [hc] at hcons; exact hcons

theorem Shape.advance (h : Shape invalidVal s old mid live) {n : Node}
    (hp : s.producer = .advance n) (hs : produce s = some s') : Shaped invalidVal s' := by
  obtain ⟨hlinked, hnodes, hhead, htail, hlast, hvalues, hvalid, hcount, hstarted, -, hcons⟩ := h
  rw [hp] at hnodes hlast hvalues hcount
  unfold Spsc.produce at hs
  rw [hp] at hs
  cases hs
  exact ⟨old, mid, live, hlinked, hnodes, hhead, htail, hlast, hvalues, hvalid, hcount,
    Nat.le_succ_of_le hstarted, trivial, hcons⟩

/-! ### The consumer -/

theorem Shape.dequeue (h : Shape invalidVal s old mid live) (hs : dequeue s = some s') :
    Shaped invalidVal s' := by
  unfold Spsc.dequeue at hs
  split at hs
  · cases hs
    exact ⟨old, mid, live, h.linked, h.nodes, h.cacheHead, h.cacheTail, h.last, h.values, h.valid,
      h.count, Nat.le_refl _, h.producer, trivial⟩
  · cases hs

/-- A step of the consumer that stores nothing. -/
theorem Shape.look (h : Shape invalidVal s old mid live) {c : Consumer α} {returns : List α}
    (hreturns : returns.filter (· ≠ invalidVal) = s.dequeued invalidVal)
    (hc : ConsumerOk { s with consumer := c } live) :
    Shaped invalidVal { s with consumer := c, returns := returns } := by
  refine ⟨old, mid, live, h.linked, h.nodes, h.cacheHead, h.cacheTail, h.last, ?_, h.valid, ?_,
    h.started, h.producer, hc⟩
  · unfold State.dequeued
    rw [hreturns]
    exact h.values
  · unfold State.dequeued
    rw [hreturns]
    exact h.count

theorem Shape.consume (h : Shape invalidVal s old mid live) (hs : consume invalidVal s = some s') :
    Shaped invalidVal s' := by
  have hcons := h.consumer
  unfold ConsumerOk at hcons
  unfold Spsc.consume at hs
  cases hc : s.consumer with
  | idle => rw [hc] at hs; cases hs
  | loadTail =>
      rw [hc] at hs
      cases hs
      exact h.look rfl rfl
  | loadNext n =>
      rw [hc] at hs hcons
      dsimp only at hs hcons
      subst hcons
      cases hn : s.next s.tail with
      | none =>
          rw [hn] at hs
          cases hs
          exact h.look (by simp [State.dequeued]) trivial
      | some nn =>
          rw [hn] at hs
          cases hs
          exact h.look rfl (by unfold ConsumerOk; exact h.next_tail.symm.trans hn)
  | loadData nn =>
      rw [hc] at hs hcons
      cases hs
      exact h.look rfl ⟨hcons, rfl⟩
  | storeTail nn ret =>
      rw [hc] at hs hcons
      cases hs
      obtain ⟨hlive, hret⟩ := hcons
      obtain ⟨rest, rfl⟩ : ∃ rest, live = nn :: rest := by
        cases live with
        | nil => cases hlive
        | cons a rest => cases hlive; exact ⟨rest, rfl⟩
      obtain ⟨hlinked, hnodes, hhead, htail, hlast, hvalues, hvalid, hcount, hstarted, hprod, -⟩ :=
        h
      have hvalid' : ret ≠ invalidVal := hvalid ret (by rw [hvalues, ← hret]; simp)
      have hdequeued : (s.returns ++ [ret]).filter (· ≠ invalidVal) = s.dequeued invalidVal ++
        [ret] := by
        simp [State.dequeued, hvalid']
      have hassoc : mid ++ s.tail :: nn :: rest = (mid ++ [s.tail]) ++ nn :: rest := by simp
      rw [hassoc] at hlinked hnodes hhead htail
      refine ⟨old, mid ++ [s.tail], rest, hlinked, hnodes, hhead, htail, ?_, ?_, hvalid, ?_,
        hstarted, hprod, trivial⟩
      · rw [← hlast]
        rfl
      · rw [hvalues]
        unfold State.dequeued
        dsimp only
        rw [hdequeued, List.map_cons, hret]
        simp [State.dequeued]
      · rw [hcount]
        unfold State.dequeued
        dsimp only
        rw [hdequeued, List.map_cons, hret]
        simp [State.dequeued]

theorem Shape.produce (h : Shape invalidVal s old mid live) (hs : produce s = some s') :
    Shaped invalidVal s' := by
  cases hp : s.producer with
  | idle => unfold Spsc.produce at hs; rw [hp] at hs; cases hs
  | loadTail v => exact h.loadTail hp hs
  | take v => exact h.take hp hs
  | malloc v => exact h.malloc hp hs
  | storeNext v n => exact h.storeNext hp hs
  | storeData v n => exact h.storeData hp hs
  | link v n => exact h.link hp hs
  | advance n => exact h.advance hp hs

/-- **The chain keeps its three parts in every run.** -/
theorem shaped_of_reaches (h : Reaches (step invalidVal) (Valid invalidVal) (init invalidVal) s) :
    Shaped invalidVal s := by
  refine h.invariant (Shaped invalidVal) shaped_init ?_
  rintro s label s' ⟨old, mid, live, h⟩ hvalid hs
  cases label with
  | enqueue v => exact h.enqueue hvalid hs
  | produce => exact h.produce hs
  | dequeue => exact h.dequeue hs
  | consume => exact h.consume hs

/-! ### What the list is for -/

/-- `b` comes right after `a`. -/
def State.Next (s : State α) (a b : Node) : Prop := s.next a = some b

/-- The list is a queue, and its nodes are used again only when the consumer is past
them. -/
structure Fifo (invalidVal : α) (s : State α) : Prop where
  /-- no value is lost, doubled or out of order -/
  ordered : s.dequeued invalidVal <+: s.enqueued
  /-- Dequeue returns `invalidVal` only if it has returned everything that had been enqueued
  when it was called -/
  emptied : ∀ label s', step invalidVal s label = some s' → s'.returns = s.returns ++ [invalidVal] →
    s.enqueued.take s.started <+: s.dequeued invalidVal
  /-- the node that NodeAlloc has handed out is not the consumer's, nor after it -/
  recycled : ∀ n ∈ s.producer.node, ¬ Relation.ReflTransGen s.Next s.tail n
  /-- between the calls every node is reached from `cacheHead` -/
  reached : s.producer = .idle → s.consumer = .idle →
    ∀ n, (∃ a, s.cacheHead = some a ∧ Relation.ReflTransGen s.Next a n) ↔ n < s.allocated
  /-- and Destroy frees each once -/
  freed : s.producer = .idle → s.consumer = .idle →
    ∃ l, destroy s.allocated s = some l ∧ l.Perm (List.range s.allocated)
  /-- a thread in a call can move on -/
  moves : (s.producer ≠ .idle → (produce s).isSome) ∧
    (s.consumer ≠ .idle → (consume invalidVal s).isSome)

namespace Shape

theorem ordered (h : Shape invalidVal s old mid live) : s.dequeued invalidVal <+: s.enqueued := by
  rw [h.values, List.append_assoc]
  exact List.prefix_append _ _

/-- With nothing after `tail`, all that is linked has been dequeued. -/
theorem take_prefix (h : Shape invalidVal s old mid live) (hlive : live = []) :
    s.enqueued.take s.started <+: s.dequeued invalidVal := by
  subst hlive
  have hcount := h.count
  rw [List.map_nil, List.append_nil] at hcount
  have hlinked : s.completed ≤ s.producer.linked s.completed := by
    unfold Producer.linked
    split
    · exact Nat.le_succ _
    · exact Nat.le_refl _
  have hstarted := h.started
  refine List.prefix_of_prefix_length_le (List.take_prefix _ _) h.ordered ?_
  rw [List.length_take]
  omega

/-- Only a Dequeue that finds no node after `tail` returns `invalidVal`. -/
theorem emptied (h : Shape invalidVal s old mid live) {label : Label α}
    (hs : step invalidVal s label = some s') (hret : s'.returns = s.returns ++ [invalidVal]) :
    s.enqueued.take s.started <+: s.dequeued invalidVal := by
  have hsame : s'.returns ≠ s.returns := by simp [hret]
  have hcons := h.consumer
  unfold ConsumerOk at hcons
  cases label with
  | enqueue v =>
      unfold step Spsc.enqueue at hs
      cases hp : s.producer <;> simp only [hp] at hs <;> cases hs
      exact absurd rfl hsame
  | produce =>
      unfold step Spsc.produce at hs
      cases hp : s.producer <;> simp only [hp] at hs
      case idle => cases hs
      case take =>
        cases hc : s.cacheHead <;> simp only [hc] at hs <;> cases hs
        exact absurd rfl hsame
      all_goals
        cases hs
        exact absurd rfl hsame
  | dequeue =>
      unfold step Spsc.dequeue at hs
      cases hc : s.consumer <;> simp only [hc] at hs <;> cases hs
      exact absurd rfl hsame
  | consume =>
      unfold step Spsc.consume at hs
      cases hc : s.consumer with
      | loadNext n =>
          simp only [hc] at hs hcons
          subst hcons
          cases hn : s.next s.tail with
          | none =>
              refine h.take_prefix (List.head?_eq_none_iff.mp ?_)
              rw [← h.next_tail, hn]
          | some nn =>
              simp only [hn] at hs
              cases hs
              exact absurd rfl hsame
      | storeTail nn ret =>
          simp only [hc] at hs hcons
          cases hs
          have hvalid : ret ≠ invalidVal := by
            refine h.valid ret ?_
            rw [h.values, ← hcons.2]
            have hmem := List.mem_map_of_mem (f := s.data) (List.mem_of_mem_head? hcons.1)
            simp only [List.mem_append]
            exact .inl (.inr hmem)
          exact absurd (List.append_inj' hret rfl).2 (by simpa using hvalid)
      | idle =>
          simp only [hc] at hs
          cases hs
      | loadTail =>
          simp only [hc] at hs
          cases hs
          exact absurd rfl hsame
      | loadData nn =>
          simp only [hc] at hs
          cases hs
          exact absurd rfl hsame

theorem recycled (h : Shape invalidVal s old mid live) {n : Node} (hn : n ∈ s.producer.node) :
    ¬ Relation.ReflTransGen s.Next s.tail n := by
  intro hreach
  have hmem := h.linked.mem_of_reaches (by simp) hreach
  exact h.not_mem hn hmem

theorem reached (h : Shape invalidVal s old mid live) (hp : s.producer = .idle) (n : Node) :
    (∃ a, s.cacheHead = some a ∧ Relation.ReflTransGen s.Next a n) ↔ n < s.allocated := by
  have hmem := h.mem_iff (n := n)
  rw [hp] at hmem
  rw [← hmem, show (Producer.idle : Producer α).node = [] from rfl, List.append_nil]
  have hhead := h.cacheHead
  have hlinked := h.linked
  generalize old ++ (mid ++ s.tail :: live) = chain at hhead hlinked
  constructor
  · rintro ⟨a, ha, hreach⟩
    exact hlinked.mem_of_reaches (List.mem_of_mem_head? (hhead ▸ ha)) hreach
  · intro hn
    cases chain with
    | nil => cases hn
    | cons a rest => exact ⟨a, hhead, hlinked.reaches_of_mem hn⟩

theorem freed (h : Shape invalidVal s old mid live) (hp : s.producer = .idle) :
    ∃ l, destroy s.allocated s = some l ∧ l.Perm (List.range s.allocated) := by
  have hnodes := h.nodes
  rw [hp, show (Producer.idle : Producer α).node = [] from rfl, List.append_nil] at hnodes
  refine ⟨_, ?_, hnodes⟩
  unfold destroy
  rw [h.cacheHead]
  exact h.linked.walk_eq (by rw [hnodes.length_eq, List.length_range])

/-- `cacheHead` is not NULL. -/
theorem moves (h : Shape invalidVal s old mid live) :
    (s.producer ≠ .idle → (Spsc.produce s).isSome) ∧
      (s.consumer ≠ .idle → (Spsc.consume invalidVal s).isSome) := by
  constructor
  · intro hne
    unfold Spsc.produce
    cases hp : s.producer with
    | idle => exact absurd hp hne
    | take v =>
        have hhead : s.cacheHead ≠ none := by
          rw [h.cacheHead]
          simp
        cases hc : s.cacheHead with
        | none => exact absurd hc hhead
        | some a => rfl
    | _ => rfl
  · intro hne
    unfold Spsc.consume
    cases hc : s.consumer with
    | idle => exact absurd hc hne
    | loadNext n => cases hn : s.next n <;> simp [hn]
    | _ => rfl

end Shape

/-- **The list is a queue in every run**, whatever the order of the accesses of its two
threads. -/
theorem fifo_of_reaches (h : Reaches (step invalidVal) (Valid invalidVal) (init invalidVal) s) :
    Fifo invalidVal s := by
  obtain ⟨old, mid, live, h⟩ := shaped_of_reaches h
  exact ⟨h.ordered, fun _ _ => h.emptied, fun _ => h.recycled, fun hp _ => h.reached hp,
    fun hp _ => h.freed hp, h.moves⟩

/-- Two values are enqueued and one is dequeued while a third one is enqueued, in a node
that has been used before. -/
theorem fifo_threeValues : ∃ s, Reaches (step 0) (Valid 0) (init 0) s ∧ s.dequeued 0 = [10, 20] ∧
    s.allocated = 3 ∧ Fifo 0 s := by
  have hrun : (runChecked (step 0) (Valid 0) (init 0)
      ([.enqueue 10] ++ List.replicate 6 .produce ++ [.enqueue 20] ++ List.replicate 6 .produce ++
        [.dequeue] ++ List.replicate 4 .consume ++ [.dequeue, .enqueue 30, .produce, .consume] ++
        [.produce, .consume] ++ List.replicate 4 .produce ++ [.consume, .consume])).map
          (fun s => (s.dequeued 0, s.allocated)) = some ([10, 20], 3) := by decide +kernel
  obtain ⟨s, hs, hobs⟩ := Option.map_eq_some_iff.mp hrun
  have hreach := reaches_of_runChecked _ hs
  exact ⟨s, hreach, congrArg Prod.fst hobs, congrArg Prod.snd hobs, fifo_of_reaches hreach⟩

end Ksi.Spsc

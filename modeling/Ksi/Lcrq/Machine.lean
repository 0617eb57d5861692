/-
The queue of lcrq/lcrq.c, one access at a time.

A KsiLCRQ is a linked list of rings.  A ring hands out tickets on both sides: an enqueuer
takes one from `tail`, a dequeuer one from `head`, by fetch-and-add; ticket `t` belongs to
cell `t % size`, and the two threads with ticket `t` meet there.  The index a cell holds
says which ticket it waits for next.  A dequeuer that finds its cell empty moves the index
on to the next round, and one that finds an item of an earlier round marks the cell as
unsafe.  An enqueuer that gets nowhere closes its ring by the top bit of `tail` and appends
a new ring with its item in it.  A dequeuer that finds its ring closed and drained moves
`q->head` on and retires the ring.

Every load, store and atomic operation on shared memory is a step; a new ring is private
until it is appended, so that filling it is one step.  A double compare-and-swap compares
item, index and the unsafe bit.  Ticket counters are unbounded here, they have 63 bits in
the program.  Rings stay allocated: when a retired ring may be freed is the subject of the
epochs, of which this machine has only the free list that `ksiDynamicEBRRetire` links a
ring into; the list is emptied at any time.  The link is stored where the ring has `next`.

The fields after `freelist` are history variables.
-/
import Ksi.Lib.Threads

namespace Ksi.Lcrq

/-- `RingNode`; an item of -1 is `none`, and the top bit of `idx` is `isUnsafe`. -/
structure RingNode (V : Type) where
  val : Option V
  idx : Nat
  isUnsafe : Bool
deriving DecidableEq

/-- The word `tail` of a ring: `tail_index`, and the bit that says that it is closed. -/
structure Tail where
  idx : Nat
  closed : Bool
deriving DecidableEq

/-- `RingQueue`; cell `j` of the array for `j` below the ring's size. -/
structure RingQueue (V : Type) where
  next : Option Nat
  head : Nat
  tail : Tail
  array : Nat → RingNode V

/-- An item with the place it has in the queue: the ring, and the ticket there. -/
structure Entry (V : Type) where
  ring : Nat
  ticket : Nat
  val : V
deriving DecidableEq

/-- Where a thread is in `ksiLCRQEnqueue`.  `v`, `n`, `rq` and `t` are its argument, its
counter `try_close`, and the local variables of these names; `i` and `u` are the cell's
index and unsafe bit it has loaded. -/
inductive EnqueuePc (V : Type)
  /-- about to load `q->tail` -/
  | loadTail (v : V) (n : Nat)
  /-- about to load `rq->next` -/
  | loadNext (v : V) (n rq : Nat)
  /-- about to move `q->tail` on to the ring that follows -/
  | help (v : V) (n rq next : Nat)
  /-- about to take a ticket -/
  | ticket (v : V) (n rq : Nat)
  /-- the ring is closed: about to get a new one and to put the item into it -/
  | alloc (v : V) (n rq : Nat)
  /-- about to compare and swap `rq->next` -/
  | append (v : V) (n rq nrq : Nat)
  /-- about to compare and swap `q->tail`, and to return -/
  | publish (rq nrq : Nat)
  /-- about to load the cell's index -/
  | loadIdx (v : V) (n rq t : Nat)
  /-- about to load the cell's item -/
  | loadVal (v : V) (n rq t i : Nat) (u : Bool)
  /-- the cell is unsafe: about to load `rq->head` -/
  | loadHead (v : V) (n rq t i : Nat) (u : Bool)
  /-- about to compare and swap the cell -/
  | store (v : V) (n rq t i : Nat) (u : Bool)
  /-- the ticket is wasted: about to load `rq->head` -/
  | full (v : V) (n rq t : Nat)
  /-- about to close the ring -/
  | close (v : V) (n rq t : Nat)

/-- Where a thread is in `ksiLCRQDequeue`.  `rq`, `h`, `tt` and `r` are the local variables
of these names; `i` and `u` are the cell's index and unsafe bit it has loaded. -/
inductive DequeuePc (V : Type)
  /-- about to load `q->head` -/
  | loadHead
  /-- about to take a ticket -/
  | ticket (rq : Nat)
  /-- about to load the cell's index -/
  | loadIdx (rq h : Nat) (tt : Tail) (r : Nat)
  /-- about to load the cell's item -/
  | loadVal (rq h : Nat) (tt : Tail) (r i : Nat) (u : Bool)
  /-- the item of its ticket: about to compare and swap the cell, and to return `v` -/
  | take (rq h : Nat) (tt : Tail) (r : Nat) (v : V) (i : Nat) (u : Bool)
  /-- an item of an earlier round: about to mark the cell as unsafe -/
  | mark (rq h : Nat) (tt : Tail) (r : Nat) (v : V) (i : Nat) (u : Bool)
  /-- no item: about to load `rq->tail` -/
  | loadTail (rq h r i : Nat) (u : Bool)
  /-- about to move an unsafe cell on to the next round -/
  | skip (rq h : Nat) (tt : Tail) (r i : Nat)
  /-- about to move a cell on to the next round -/
  | advance (rq h : Nat) (tt : Tail) (r i : Nat)
  /-- about to close the ring -/
  | close (rq h : Nat)
  /-- about to load `rq->tail`, to see whether the ring is drained -/
  | checkTail (rq h : Nat)
  /-- `fixState`, about to load `rq->tail` -/
  | fixTail (rq h : Nat)
  /-- about to load `rq->head` -/
  | fixHead (rq h : Nat) (t : Tail)
  /-- about to load `rq->tail` again -/
  | fixAgain (rq h : Nat) (t : Tail) (hd : Nat)
  /-- about to compare and swap `rq->tail` -/
  | fixSwap (rq h : Nat) (t : Tail) (hd : Nat)
  /-- about to load `rq->next` -/
  | loadNext (rq h : Nat)
  /-- about to load `rq->tail` once more -/
  | recheck (rq h next : Nat)
  /-- about to compare and swap `q->head` -/
  | move (rq next : Nat)
  /-- about to put the ring on the free list -/
  | retire (rq : Nat)

inductive Pc (V : Type)
  | idle
  | enqueue (pc : EnqueuePc V)
  | dequeue (pc : DequeuePc V)

/-- `KsiLCRQ` with its rings, which are numbered in the order they are allocated in, and
the fields of `KsiLCRQProducerHandle` and of `KsiRingBufferEBREntry` that are used here. -/
structure Memory (V T : Type) where
  ring : Nat → RingQueue V
  allocated : Nat
  head : Nat
  tail : Nat
  handle : T → Option Nat
  epoch : T → Fin 3
  freelist : T → Fin 3 → Option Nat
  /-- history: the thread a ring belongs to until it is appended -/
  owner : Nat → Option T
  /-- history: the rings that have been retired -/
  retired : List Nat
  /-- history: the tickets of a ring given to enqueuers while it was open are below this -/
  issued : Nat → Nat
  /-- history: the dequeuer that is at work on a ticket of a ring -/
  holder : Nat → Nat → Option T
  /-- history: the items that have been put into a ring of the queue -/
  accepted : List (Entry V)
  /-- history: the items that have been taken out -/
  delivered : List (Entry V)

/-- A call of `ksiLCRQEnqueue`; a call of `ksiLCRQDequeue` after `ksiLCRQConsumerEnter` has
found the given epoch; or the next step of the call the thread is in. -/
inductive Move (V : Type)
  | enqueue (v : V)
  | dequeue (epoch : Fin 3)
  | next

/-- `ksiDynamicEBRTryFree` empties a free list. -/
inductive Collect (T : Type)
  | collect (t : T) (epoch : Fin 3)

abbrev State (V T : Type) := Threads.State (Memory V T) (Pc V) T

abbrev Label (V T : Type) := Threads.Label T (Move V) (Collect T)

variable {V T : Type} [DecidableEq V] [DecidableEq T]

/-- `init_ring`. -/
def init_ring (V : Type) : RingQueue V where
  next := none
  head := 0
  tail := { idx := 0, closed := false }
  array := fun i => { val := none, idx := i, isUnsafe := false }

/-- A ring with the item of a solo enqueue. -/
def RingQueue.solo (g : RingQueue V) (v : V) : RingQueue V := { g with
  tail := { idx := 1, closed := false },
  array := Function.update g.array 0 { val := some v, idx := 0, isUnsafe := false } }

/-- `ksiLCRQInit`, before any call. -/
def ksiLCRQInit (V T : Type) : State V T where
  mem := {
    ring := fun _ => init_ring V
    allocated := 1
    head := 0
    tail := 0
    handle := fun _ => none
    epoch := fun _ => 0
    freelist := fun _ _ => none
    owner := fun _ => none
    retired := []
    issued := fun _ => 0
    holder := fun _ _ => none
    accepted := []
    delivered := [] }
  thread := fun _ => .idle

namespace Memory

/-- A store to fields of ring `a`. -/
def modify (m : Memory V T) (a : Nat) (f : RingQueue V → RingQueue V) : Memory V T :=
  { m with ring := Function.update m.ring a (f (m.ring a)) }

/-- A store to cell `j` of ring `a`. -/
def setCell (m : Memory V T) (a j : Nat) (c : RingNode V) : Memory V T :=
  m.modify a fun g => { g with array := Function.update g.array j c }

/-- A store to `tail` of ring `a`. -/
def setTail (m : Memory V T) (a : Nat) (t : Tail) : Memory V T :=
  m.modify a fun g => { g with tail := t }

/-- Thread `t` takes dequeue ticket `h` of ring `a`, or is done with it. -/
def setHolder (m : Memory V T) (a h : Nat) (t : Option T) : Memory V T :=
  { m with holder := Function.update m.holder a (Function.update (m.holder a) h t) }

end Memory

/-- The cell of ticket `t`. -/
def RingQueue.cell (g : RingQueue V) (size t : Nat) : RingNode V := g.array (t % size)

/-- The memory of `handle->next`, or a new ring. -/
def takeRing (me : T) (m : Memory V T) : Nat × Memory V T :=
  match m.handle me with
  | some nrq => (nrq, m)
  | none => (m.allocated, { m with
      ring := Function.update m.ring m.allocated (init_ring V), allocated := m.allocated + 1 })

/-- A step in `ksiLCRQEnqueue`. -/
def stepEnqueue (size : Nat) (me : T) (m : Memory V T) : EnqueuePc V → Memory V T × Pc V
  | .loadTail v n => (m, .enqueue (.loadNext v n m.tail))
  | .loadNext v n rq =>
      match (m.ring rq).next with
      | some next => (m, .enqueue (.help v n rq next))
      | none => (m, .enqueue (.ticket v n rq))
  | .help v n rq next =>
      (if m.tail = rq then { m with tail := next } else m, .enqueue (.loadTail v n))
  | .ticket v n rq =>
      let t := (m.ring rq).tail
      let m' := m.setTail rq { t with idx := t.idx + 1 }
      if t.closed then (m', .enqueue (.alloc v n rq))
      else ({ m' with issued := Function.update m.issued rq (t.idx + 1) },
        .enqueue (.loadIdx v n rq t.idx))
  | .alloc v n rq =>
      let (nrq, m') := takeRing me m
      ({ m'.modify nrq (·.solo v) with
          owner := Function.update m.owner nrq (some me),
          issued := Function.update m.issued nrq 1 }, .enqueue (.append v n rq nrq))
  | .append v n rq nrq =>
      if (m.ring rq).next = none then
        ({ m.modify rq (fun g => { g with next := some nrq }) with
            owner := Function.update m.owner nrq none,
            accepted := { ring := nrq, ticket := 0, val := v } :: m.accepted },
          .enqueue (.publish rq nrq))
      else (m, .enqueue (.loadTail v n))
  | .publish rq nrq =>
      ({ (if m.tail = rq then { m with tail := nrq } else m) with
          handle := Function.update m.handle me none }, .idle)
  | .loadIdx v n rq t =>
      let c := (m.ring rq).cell size t
      (m, .enqueue (.loadVal v n rq t c.idx c.isUnsafe))
  | .loadVal v n rq t i u =>
      if ((m.ring rq).cell size t).val = none ∧ i ≤ t then
        (m, .enqueue (if u then .loadHead v n rq t i u else .store v n rq t i u))
      else (m, .enqueue (.full v n rq t))
  | .loadHead v n rq t i u =>
      (m, .enqueue (if (m.ring rq).head < t then .store v n rq t i u else .full v n rq t))
  | .store v n rq t i u =>
      if (m.ring rq).cell size t = { val := none, idx := i, isUnsafe := u } then
        ({ m.setCell rq (t % size) { val := some v, idx := t, isUnsafe := false } with
            accepted := { ring := rq, ticket := t, val := v } :: m.accepted }, .idle)
      else (m, .enqueue (.full v n rq t))
  | .full v n rq t =>
      (m, .enqueue (if (m.ring rq).head + size ≤ t then .close v (n + 1) rq t else .loadTail v n))
  | .close v n rq t =>
      -- `close_crq`
      let was := (m.ring rq).tail
      if n < 10 then
        if was = { idx := t + 1, closed := false } then
          (m.setTail rq { idx := t + 1, closed := true }, .enqueue (.alloc v n rq))
        else (m, .enqueue (.loadTail v n))
      else (m.setTail rq { was with closed := true },
        .enqueue (if was.closed then .loadTail v n else .alloc v n rq))

/-- What a dequeuer does about a cell without an item, once it knows `rq->tail`. -/
def onEmpty (rq h : Nat) (tt : Tail) (r i : Nat) (u : Bool) : DequeuePc V :=
  if u then .skip rq h tt r i
  else if tt.idx < h + 1 ∨ 200000 < r ∨ tt.closed then .advance rq h tt r i
  else .loadIdx rq h tt (r + 1)

/-- A step in `ksiLCRQDequeue`. -/
def stepDequeue (size : Nat) (me : T) (m : Memory V T) : DequeuePc V → Memory V T × Pc V
  | .loadHead => (m, .dequeue (.ticket m.head))
  | .ticket rq =>
      let h := (m.ring rq).head
      ((m.modify rq fun g => { g with head := h + 1 }).setHolder rq h (some me),
        .dequeue (.loadIdx rq h { idx := 0, closed := false } 0))
  | .loadIdx rq h tt r =>
      let c := (m.ring rq).cell size h
      (m, .dequeue (.loadVal rq h tt r c.idx c.isUnsafe))
  | .loadVal rq h tt r i u =>
      if h < i then (m.setHolder rq h none, .dequeue (.checkTail rq h))
      else
        match ((m.ring rq).cell size h).val with
        | some v => (m, .dequeue (if i = h then .take rq h tt r v i u else .mark rq h tt r v i u))
        | none => (m, .dequeue
            (if r % 1024 = 0 then .loadTail rq h r i u else onEmpty rq h tt r i u))
  | .take rq h tt r v i u =>
      if (m.ring rq).cell size h = { val := some v, idx := i, isUnsafe := u } then
        ({ (m.setCell rq (h % size) { val := none, idx := h + size, isUnsafe := u }).setHolder
              rq h none with
            delivered := { ring := rq, ticket := h, val := v } :: m.delivered }, .idle)
      else (m, .dequeue (.loadIdx rq h tt r))
  | .mark rq h tt r v i u =>
      if (m.ring rq).cell size h = { val := some v, idx := i, isUnsafe := u } then
        ((m.setCell rq (h % size) { val := some v, idx := i, isUnsafe := true }).setHolder
            rq h none, .dequeue (.checkTail rq h))
      else (m, .dequeue (.loadIdx rq h tt r))
  | .loadTail rq h r i u => (m, .dequeue (onEmpty rq h (m.ring rq).tail r i u))
  | .skip rq h tt r i =>
      if (m.ring rq).cell size h = { val := none, idx := i, isUnsafe := true } then
        ((m.setCell rq (h % size) { val := none, idx := h + size, isUnsafe := true }).setHolder
            rq h none, .dequeue (.checkTail rq h))
      else (m, .dequeue (.loadIdx rq h tt r))
  | .advance rq h tt r i =>
      if (m.ring rq).cell size h = { val := none, idx := i, isUnsafe := false } then
        ((m.setCell rq (h % size) { val := none, idx := h + size, isUnsafe := false }).setHolder
            rq h none,
          .dequeue (if 200000 < r ∧ (size < tt.idx ∨ tt.closed) then .close rq h
            else .checkTail rq h))
      else (m, .dequeue (.loadIdx rq h tt r))
  | .close rq h =>
      (m.setTail rq { (m.ring rq).tail with closed := true }, .dequeue (.checkTail rq h))
  | .checkTail rq h =>
      (m, .dequeue (if (m.ring rq).tail.idx ≤ h + 1 then .fixTail rq h else .loadHead))
  | .fixTail rq h => (m, .dequeue (.fixHead rq h (m.ring rq).tail))
  | .fixHead rq h t => (m, .dequeue (.fixAgain rq h t (m.ring rq).head))
  | .fixAgain rq h t hd =>
      if (m.ring rq).tail = t then
        -- as a number the word of a closed tail exceeds every head
        (m, .dequeue (if t.idx < hd ∧ ¬ t.closed then .fixSwap rq h t hd else .loadNext rq h))
      else (m, .dequeue (.fixTail rq h))
  | .fixSwap rq h t hd =>
      if (m.ring rq).tail = t then
        (m.setTail rq { idx := hd, closed := false }, .dequeue (.loadNext rq h))
      else (m, .dequeue (.fixTail rq h))
  | .loadNext rq h =>
      match (m.ring rq).next with
      | none => (m, .idle)
      | some next => (m, .dequeue (.recheck rq h next))
  | .recheck rq h next =>
      (m, .dequeue (if (m.ring rq).tail.idx ≤ h + 1 then .move rq next else .loadHead))
  | .move rq next =>
      if m.head = rq then ({ m with head := next }, .dequeue (.retire rq))
      else (m, .dequeue .loadHead)
  | .retire rq =>
      let k := m.epoch me
      ({ m.modify rq (fun g => { g with next := m.freelist me k }) with
          freelist := Function.update m.freelist me
            (Function.update (m.freelist me) k (some rq)),
          retired := rq :: m.retired }, .dequeue .loadHead)

/-- One step of a thread. -/
def act (size : Nat) (me : T) (m : Memory V T) : Pc V → Move V → Option (Memory V T × Pc V)
  | .idle, .enqueue v => some (m, .enqueue (.loadTail v 0))
  | .idle, .dequeue k =>
      some ({ m with epoch := Function.update m.epoch me k }, .dequeue .loadHead)
  | .enqueue pc, .next => some (stepEnqueue size me m pc)
  | .dequeue pc, .next => some (stepDequeue size me m pc)
  | _, _ => none

/-- The queue with rings of `size` cells, `LCRQ_RING_SIZE`. -/
def system (V T : Type) [DecidableEq V] [DecidableEq T] (size : Nat) :
    Threads.System (Memory V T) (Pc V) T (Move V) (Collect T) where
  act := act size
  env m
    | .collect t k => some { m with
        freelist := Function.update m.freelist t (Function.update (m.freelist t) k none) }

end Ksi.Lcrq

/-
The single-producer single-consumer list of spsc_queue.h, one access at a time.

The list is one chain of nodes.  The consumer has the node at `tail`, whose value it has
taken, and the values of the nodes after it are in the queue; the producer appends at
`head`.  The queues `mallocBufs`, `freeBufs` and `syncCmds` of an engine are such lists.
The nodes before `tail` are still linked, and the producer takes them back from
`cacheHead` up to `cacheTail`, which is where `tail` was when the producer last looked.

Every load and store of a field of a node, of `tail` and of `head` is a step; the
producer's own `cacheHead` and `cacheTail` go with the step next to them.  A NULL pointer
that is followed stops its thread.  `enqueued`, `completed`, `returns` and `started` are
history variables.
-/
import Ksi.Lib.Runs
import Ksi.Lib.Linked

namespace Ksi.Spsc

/-- The address of a node. -/
abbrev Node := Nat

/-- Where Enqueue is; `v` is its argument, `n` its local variable. -/
inductive Producer (α : Type)
  | idle
  /-- NodeAlloc, about to load `tail` -/
  | loadTail (v : α)
  /-- about to load `next` of the node at `cacheHead` -/
  | take (v : α)
  /-- about to allocate a node, with NULL as its `next` -/
  | malloc (v : α)
  /-- about to store NULL as `next` of the new node -/
  | storeNext (v : α) (n : Node)
  /-- about to store the value in it -/
  | storeData (v : α) (n : Node)
  /-- about to store it as `next` of the node at `head` -/
  | link (v : α) (n : Node)
  /-- about to store it as `head`, and to return -/
  | advance (n : Node)
  deriving DecidableEq, Repr

/-- Where Dequeue is; `n`, `nn` and `ret` are its local variables. -/
inductive Consumer (α : Type)
  | idle
  | loadTail
  /-- about to load `n->next`, and to return `invalidVal` if it is NULL -/
  | loadNext (n : Node)
  | loadData (nn : Node)
  /-- about to store `nn` as `tail`, and to return `ret` -/
  | storeTail (nn : Node) (ret : α)
  deriving DecidableEq, Repr

/-- The list with its nodes and its two threads; the nodes are numbered in the order they
are allocated in. -/
structure State (α : Type) where
  next : Node → Option Node
  data : Node → α
  allocated : Nat
  head : Node
  cacheHead : Option Node
  cacheTail : Node
  tail : Node
  producer : Producer α
  consumer : Consumer α
  /-- history: the arguments of Enqueue, one for each call -/
  enqueued : List α
  /-- history: how many calls of Enqueue have returned -/
  completed : Nat
  /-- history: what Dequeue has returned -/
  returns : List α
  /-- history: `completed` when Dequeue was called last -/
  started : Nat

/-- Init. -/
def init {α : Type} (invalidVal : α) : State α where
  next := fun _ => none
  data := fun _ => invalidVal
  allocated := 1
  head := 0
  cacheHead := some 0
  cacheTail := 0
  tail := 0
  producer := .idle
  consumer := .idle
  enqueued := []
  completed := 0
  returns := []
  started := 0

/-- A call of Enqueue, the producer's next step, a call of Dequeue, the consumer's next
step. -/
inductive Label (α : Type)
  | enqueue (v : α)
  | produce
  | dequeue
  | consume
  deriving DecidableEq, Repr

/-- Enqueue is called with other values than `invalidVal`. -/
def Valid {α : Type} (invalidVal : α) (_ : State α) : Label α → Prop
  | .enqueue v => v ≠ invalidVal
  | _ => True

instance {α : Type} [DecidableEq α] (invalidVal : α) : DecidableRel (Valid invalidVal) :=
  fun _ l => match l with
    | .enqueue v => inferInstanceAs (Decidable (v ≠ invalidVal))
    | .produce | .dequeue | .consume => isTrue trivial

variable {α : Type}

/-- The start of Enqueue: NodeAlloc looks at its cache. -/
def enqueue (s : State α) (v : α) : Option (State α) :=
  match s.producer with
  | .idle => some { s with
      enqueued := s.enqueued ++ [v]
      producer := if s.cacheHead ≠ some s.cacheTail then .take v else .loadTail v }
  | _ => none

def produce (s : State α) : Option (State α) :=
  match s.producer with
  | .idle => none
  | .loadTail v => some { s with
      cacheTail := s.tail
      producer := if s.cacheHead ≠ some s.tail then .take v else .malloc v }
  | .take v =>
      match s.cacheHead with
      | none => none
      | some ret => some { s with cacheHead := s.next ret, producer := .storeNext v ret }
  | .malloc v => some { s with
      next := Function.update s.next s.allocated none
      allocated := s.allocated + 1
      producer := .storeNext v s.allocated }
  | .storeNext v n => some { s with
      next := Function.update s.next n none
      producer := .storeData v n }
  | .storeData v n => some { s with
      data := Function.update s.data n v
      producer := .link v n }
  | .link _ n => some { s with
      next := Function.update s.next s.head (some n)
      producer := .advance n }
  | .advance n => some { s with
      head := n
      completed := s.completed + 1
      producer := .idle }

def dequeue (s : State α) : Option (State α) :=
  match s.consumer with
  | .idle => some { s with started := s.completed, consumer := .loadTail }
  | _ => none

def consume (invalidVal : α) (s : State α) : Option (State α) :=
  match s.consumer with
  | .idle => none
  | .loadTail => some { s with consumer := .loadNext s.tail }
  | .loadNext n =>
      match s.next n with
      | some nn => some { s with consumer := .loadData nn }
      | none => some { s with returns := s.returns ++ [invalidVal], consumer := .idle }
  | .loadData nn => some { s with consumer := .storeTail nn (s.data nn) }
  | .storeTail nn ret => some { s with
      tail := nn
      returns := s.returns ++ [ret]
      consumer := .idle }

def step (invalidVal : α) (s : State α) : Label α → Option (State α)
  | .enqueue v => enqueue s v
  | .produce => produce s
  | .dequeue => dequeue s
  | .consume => consume invalidVal s

/-- Destroy: the nodes that are freed, in their order. -/
def destroy (fuel : Nat) (s : State α) : Option (List Node) := walk s.next fuel s.cacheHead

end Ksi.Spsc

/-
The event queues.

An event output port has a queue, a list of event nodes linked from its tail to its head.
The producer appends to the head; a consumer walks the queues of all its sources at once,
with a cursor in each entry of the input port.  Event nodes are addresses of a heap, and
`ksiPoolMalloc` gives none out twice; what `ksiPoolFree` is given is not used again.
-/
import Ksi.Dag.Data

namespace Ksi.Audio

open Ksi.Dag

/-- `KsiEvent`; of the union, the datum. -/
structure KsiEvent where
  timeStamp : Nat
  data : KsiData
  deriving DecidableEq, Repr

/-- The address of a `KsiEventNode`. -/
abbrev EventPtr := Nat

structure KsiEventNode where
  next : Option EventPtr
  e : KsiEvent
  deriving Repr

structure KsiEventQueue where
  head : Option EventPtr
  tail : Option EventPtr
  deriving Repr

/-- `KsiEventEnvEntry`. -/
structure KsiEventEnvEntry where
  src : NodePtr
  srcPort : Nat
  currentNode : Option EventPtr
  deriving Repr

/-- The event nodes and the queues, and the entries of the event input ports. -/
structure EventMemory where
  node : EventPtr → KsiEventNode
  /-- the next address `ksiPoolMalloc` gives -/
  nextNode : EventPtr
  /-- `n->outputBuffer[port].e` -/
  queue : NodePtr → Nat → KsiEventQueue
  /-- `n->env[port].e->ees` -/
  ees : NodePtr → Nat → List KsiEventEnvEntry

namespace EventMemory

variable (m : EventMemory) (n : NodePtr) (port : Nat)

def setQueue (q : KsiEventQueue) : EventMemory :=
  { m with queue := Function.update m.queue n (Function.update (m.queue n) port q) }

def setEes (ees : List KsiEventEnvEntry) : EventMemory :=
  { m with ees := Function.update m.ees n (Function.update (m.ees n) port ees) }

/-! ### The producer -/

/-- `ksiEventEnqueue(n->outputBuffer[port].e, data, t)`. -/
def ksiEventEnqueue (data : KsiData) (t : Nat) : EventMemory :=
  let q := m.queue n port
  let n_ := m.nextNode
  let node := Function.update m.node n_ { next := none, e := { timeStamp := t, data := data } }
  let node := match q.tail, q.head with
    | some _, some head => Function.update node head { node head with next := some n_ }
    | _, _ => node
  { m with node := node, nextNode := n_ + 1 }.setQueue n port
    { head := some n_, tail := match q.tail with
        | some tail => some tail
        | none => some n_ }

/-- `ksiEventClearQueue(n->outputBuffer[port].e)`. -/
def ksiEventClearQueue : EventMemory := m.setQueue n port { head := none, tail := none }

/-! ### The consumer -/

/-- `ksiNodeBeginIterateEvent`. -/
def ksiNodeBeginIterateEvent : EventMemory :=
  m.setEes n port ((m.ees n port).map fun ee =>
    { ee with currentNode := (m.queue ee.src ee.srcPort).tail })

/-- The loop of `ksiNodeGetNextEvent` over the entries from number `k` on: the number of
the entry with the soonest event, and its time stamp, if `flag` is set. -/
def soonest : List KsiEventEnvEntry → Nat → Option (Nat × Nat) → Option (Nat × Nat)
  | [], _, cn => cn
  | ee :: rest, k, cn => soonest rest (k + 1) <|
      match ee.currentNode, cn with
      | none, _ => cn
      | some p, none => some (k, (m.node p).e.timeStamp)
      | some p, some (_, ct) =>
          if (m.node p).e.timeStamp < ct then some (k, (m.node p).e.timeStamp) else cn

/-- `ksiNodeGetNextEvent`. -/
def ksiNodeGetNextEvent : Option KsiEvent × EventMemory :=
  match m.soonest (m.ees n port) 0 none with
  | none => (none, m)
  | some (k, _) =>
      match ((m.ees n port)[k]?).bind (·.currentNode) with
      | none => (none, m)
      | some p => (some (m.node p).e, m.setEes n port ((m.ees n port).modify k fun ee =>
          { ee with currentNode := (m.node p).next }))

end EventMemory

end Ksi.Audio

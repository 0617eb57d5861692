/-
The task scheduler of the audio threads.

`ksiEngineAudioCallback` queues every node that waits for nobody and then waits on
`masterSem`.  The workers of `ksiEngineAudioWorker` take nodes from the queues, run
them and count them off at their successors.  A successor whose counter reaches
`depNum` is ready: the first one found becomes the worker's next node, the others
are queued.  The final node has no successor loop, it posts `masterSem`.

Every access to a `depCounter`, a queue or `masterSem` is a step of its own, and a
node's run is a step at its start and one at its end.  Between two of them a worker
only looks at its own variables, so leaving the loop belongs to the step before it.
The queues are one bag: which task a dequeue yields is a choice of the step, and
none is lost or doubled.

`started`, `finished`, `posted` and `cycle` are history variables.
-/
import Ksi.Lib.Runs
import Ksi.Lib.Acyclic
import Mathlib.Logic.Function.Basic

namespace Ksi.Sched

/-- `n->type & ksiNodeTypeOutputMask`. -/
inductive Output
  | normal | final
  deriving DecidableEq, Repr

/-- What the scheduler reads of one graph version: the live nodes of
`e->nodes[epoch]` in slot order, and `successors`, `depNum` and the output type of
each. -/
structure Graph where
  nodes : List Nat
  successors : Nat → List Nat
  depNum : Nat → Nat
  output : Nat → Output
  finalNode : Option Nat

namespace Graph

variable (G : Graph)

/-- `s` has `d` in its successor list. -/
def Edge (s d : Nat) : Prop := s ∈ G.nodes ∧ d ∈ G.successors s

instance (s d : Nat) : Decidable (G.Edge s d) :=
  inferInstanceAs (Decidable (s ∈ G.nodes ∧ d ∈ G.successors s))

/-- The nodes that have `d` as successor. -/
def preds (d : Nat) : List Nat := G.nodes.filter fun s => d ∈ G.successors s

/-- The graph is what the editing commands keep it to be. -/
structure Coherent : Prop where
  nodup : G.nodes.Nodup
  closed : ∀ s ∈ G.nodes, ∀ d ∈ G.successors s, d ∈ G.nodes
  successors_nodup : ∀ s ∈ G.nodes, (G.successors s).Nodup
  depNum : ∀ d ∈ G.nodes, G.depNum d = (G.preds d).length
  final : ∀ n ∈ G.nodes, G.output n = .final ↔ G.finalNode = some n
  finalNode : ∀ f, G.finalNode = some f → f ∈ G.nodes

/-- The final node has no successors. -/
def FinalIsSink : Prop := ∀ f, G.finalNode = some f → G.successors f = []

end Graph

/-- Where the audio callback is.  `rest` are the nodes its loop has not reached. -/
inductive CallbackPc
  | idle
  | dispatch (rest : List Nat)
  /-- in `ksiSemWait(&e->masterSem)` -/
  | wait
  | returned
  deriving DecidableEq, Repr

/-- Where a worker is.  `n`, `sn` and `foundContinuation` are its local variables,
`s` is the successor it looks at. -/
inductive WorkerPc
  /-- in `dequeue_blocked` -/
  | idle
  | ready (n : Nat)
  | running (n : Nat)
  /-- about to increment the counter of the first node of `sn` -/
  | walk (n : Nat) (sn : List Nat) (foundContinuation : Bool)
  /-- about to store 0 in the counter of `s` -/
  | reset (n s : Nat) (sn : List Nat) (foundContinuation : Bool)
  /-- about to call `enqueue_signaled` on `s` -/
  | enqueue (n s : Nat) (sn : List Nat)
  /-- about to post `masterSem` -/
  | post
  deriving DecidableEq, Repr

/-- The shared state, the threads and the history. -/
structure State (W : Type) where
  queue : List Nat
  depCounter : Nat → Nat
  masterSem : Nat
  callback : CallbackPc
  worker : W → WorkerPc
  /-- history: how often each node's run has begun and ended -/
  started : Nat → Nat
  finished : Nat → Nat
  /-- history: how often `masterSem` has been posted -/
  posted : Nat
  /-- history: how many callbacks have reached the dispatch loop -/
  cycle : Nat

/-- Nothing has run yet. -/
def init (W : Type) : State W where
  queue := []
  depCounter := fun _ => 0
  masterSem := 0
  callback := .idle
  worker := fun _ => .idle
  started := fun _ => 0
  finished := fun _ => 0
  posted := 0
  cycle := 0

/-- The steps: a call of the callback, its further steps, a worker's dequeue with
the task it gets, a worker's further steps. -/
inductive Label (W : Type)
  | call
  | callback
  | dequeue (w : W) (n : Nat)
  | worker (w : W)
  deriving DecidableEq, Repr

variable {W : Type} [DecidableEq W] (G : Graph)

/-- Worker `w` moves on to `pc`. -/
def State.move (s : State W) (w : W) (pc : WorkerPc) : State W :=
  { s with worker := Function.update s.worker w pc }

/-- The dispatch loop goes on with `rest`. -/
def CallbackPc.continue (rest : List Nat) : CallbackPc :=
  match rest with
  | [] => .wait
  | _ :: _ => .dispatch rest

/-- The successor loop goes on with `sn`; at its end the worker has a node in hand
or looks for one. -/
def WorkerPc.continue (n : Nat) (sn : List Nat) (foundContinuation : Bool) : WorkerPc :=
  match sn with
  | [] => if foundContinuation then .ready n else .idle
  | _ :: _ => .walk n sn foundContinuation

/-- A call of `ksiEngineAudioCallback`: without a final node it returns before the
dispatch loop. -/
def stepCall (s : State W) : Option (State W) :=
  match s.callback with
  | .idle | .returned =>
      match G.finalNode with
      | none => some { s with callback := .idle }
      | some _ => some { s with callback := .continue G.nodes, cycle := s.cycle + 1 }
  | _ => none

/-- The dispatch loop and `ksiSemWait(&e->masterSem)`. -/
def stepCallback (s : State W) : Option (State W) :=
  match s.callback with
  | .dispatch (n :: rest) =>
      if G.depNum n = 0 then some { s with queue := s.queue ++ [n], callback := .continue rest }
      else some { s with callback := .continue rest }
  | .wait =>
      if 0 < s.masterSem then
        some { s with masterSem := s.masterSem - 1, callback := .returned }
      else none
  | _ => none

/-- `dequeue_blocked` returns `n`. -/
def stepDequeue (s : State W) (w : W) (n : Nat) : Option (State W) :=
  match s.worker w with
  | .idle =>
      if n ∈ s.queue then some ({ s with queue := s.queue.erase n }.move w (.ready n)) else none
  | _ => none

/-- The loop of `ksiEngineAudioWorker` from each of its program points. -/
def stepWorker (s : State W) (w : W) : Option (State W) :=
  match s.worker w with
  | .idle => none
  | .ready n =>
      some ({ s with started := Function.update s.started n (s.started n + 1) }.move w (.running n))
  | .running n =>
      let s' := { s with finished := Function.update s.finished n (s.finished n + 1) }
      match G.output n with
      | .normal => some (s'.move w (.continue n (G.successors n) false))
      | .final => some (s'.move w .post)
  | .walk n (sn :: rest) foundContinuation =>
      let dep := s.depCounter sn
      let s' := { s with depCounter := Function.update s.depCounter sn (dep + 1) }
      -- `dep == s->depNum - 1`
      if dep + 1 = G.depNum sn then some (s'.move w (.reset n sn rest foundContinuation))
      else some (s'.move w (.continue n rest foundContinuation))
  | .walk _ [] _ => none
  | .reset n sn rest foundContinuation =>
      let s' := { s with depCounter := Function.update s.depCounter sn 0 }
      if foundContinuation then some (s'.move w (.enqueue n sn rest))
      else some (s'.move w (.continue sn rest true))
  | .enqueue n sn rest =>
      some ({ s with queue := s.queue ++ [sn] }.move w (.continue n rest true))
  | .post =>
      some ({ s with masterSem := s.masterSem + 1, posted := s.posted + 1 }.move w .idle)

/-- One step of the callback or of a worker. -/
def step (s : State W) : Label W → Option (State W)
  | .call => stepCall G s
  | .callback => stepCallback G s
  | .dequeue w n => stepDequeue s w n
  | .worker w => stepWorker G s w

end Ksi.Sched

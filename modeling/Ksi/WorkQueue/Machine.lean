/-
The work queue of queue.c: a ring buffer for each worker, and their reclamation.

A worker pushes to and pops from its own ring buffer and takes from any of them.  Each
ring buffer has an epoch, and an entry for each worker that says whether the worker is
inside and in which epoch it came in; segments are put on the entry's free lists, and
one collector runs `ksiRingBufferTryFree` over all ring buffers, again and again.  The
accesses to the segments are those of the ring buffer's own machine.  Those to the
epochs, to the entries and to the free lists are steps of this one: a free list is
loaded in one step and stored in another.

The worker with the collector's id makes no calls.  What is taken from the master queue
touches no ring buffer, and is left out.

`freed`, `began` and `loaded` are history variables.
-/
import Ksi.RingBuffer.Machine
import Mathlib.Data.Fin.Basic
import Mathlib.Data.List.FinRange

namespace Ksi.WorkQueue

open RingBuffer (OwnerPc ThiefPc)

/-- `KsiRingBufferEBREntry`. -/
structure EBREntry where
  active : Bool
  epoch : Fin 3
  freelist : Fin 3 → Option Nat

/-- Where a worker is; in Push, Pop and Take the ring buffer says how far it has got. -/
inductive WorkerPc (V : Type) (nprocs : Nat)
  | outside
  /-- in `ksiWorkQueueGet` -/
  | get
  /-- `ksiWorkQueueCommit`, about to store `active` -/
  | commitActive (data : V)
  /-- about to load the epoch -/
  | commitLoad (data : V)
  /-- about to store it in the entry -/
  | commitStore (data : V) (epoch : Fin 3)
  /-- in the rest of Push -/
  | commit
  /-- about to clear `active` -/
  | commitLeave
  /-- `ksiWorkQueueBeginTake`, about to store `active` -/
  | beginActive
  | beginLoad
  | beginStore (epoch : Fin 3)
  /-- between `ksiWorkQueueBeginTake` and `ksiWorkQueueEndTake` -/
  | inside
  /-- in `ksiRingBufferTake`, with ring buffer `v` selected -/
  | take (v : Fin nprocs)

/-- Where the collector is in `ksiRingBufferTryFree` of ring buffer `v`; `epoch` is its
local variable, `rest` what it has still to go through. -/
inductive CollectorPc (nprocs : Nat)
  /-- about to load the epoch -/
  | load (v : Fin nprocs)
  /-- about to load `active` of the first entry of `rest` -/
  | check (v : Fin nprocs) (epoch : Fin 3) (rest : List (Fin nprocs))
  /-- about to compare the epoch of entry `i` -/
  | compare (v : Fin nprocs) (epoch : Fin 3) (i : Fin nprocs) (rest : List (Fin nprocs))
  | cas (v : Fin nprocs) (epoch : Fin 3)
  /-- about to load a free list of the first entry of `rest` -/
  | destroy (v : Fin nprocs) (epoch : Fin 3) (rest : List (Fin nprocs))
  /-- in `destroyFromTail`, about to free `cur` -/
  | free (v : Fin nprocs) (epoch : Fin 3) (cur : Option Nat) (i : Fin nprocs)
      (rest : List (Fin nprocs))
  /-- about to store NULL as that list of entry `i` -/
  | clear (v : Fin nprocs) (epoch : Fin 3) (i : Fin nprocs) (rest : List (Fin nprocs))
  /-- about to store the new epoch in its own entry -/
  | setOwn (v : Fin nprocs) (epoch : Fin 3)
  deriving DecidableEq, Repr

/-- `KsiWorkQueue` with its threads. -/
structure State (V : Type) (nprocs : Nat) where
  rb : Fin nprocs → RingBuffer.State V (Fin nprocs)
  epoch : Fin nprocs → Fin 3
  /-- `ebrEntries[w]` of ring buffer `v` -/
  ebrEntries : (v w : Fin nprocs) → EBREntry
  worker : Fin nprocs → WorkerPc V nprocs
  /-- the free list that a worker has loaded to put a segment on it -/
  freelist : Fin nprocs → Option (Option Nat)
  collector : CollectorPc nprocs
  /-- history: the segments freed, with their ring buffers -/
  freed : List (Fin nprocs × Nat)
  /-- history: the epochs of the ring buffers when a worker loaded that of its own at
  `ksiWorkQueueBeginTake` -/
  began : (w v : Fin nprocs) → Fin 3
  /-- history: the segments a worker has loaded in Take since then -/
  loaded : Fin nprocs → List (Fin nprocs × Nat)

/-- The state after `ksiWorkQueueInit`; the collector has the id `tid`. -/
def init {V : Type} (junk : Nat → V) {nprocs : Nat} (tid : Fin nprocs) : State V nprocs where
  rb := fun _ => RingBuffer.init junk (Fin nprocs)
  epoch := fun _ => 0
  ebrEntries := fun _ _ => { active := false, epoch := 0, freelist := fun _ => none }
  worker := fun _ => .outside
  freelist := fun _ => none
  collector := .load ⟨0, tid.pos⟩
  freed := []
  began := fun _ _ => 0
  loaded := fun _ => []

/-- A call by a worker, its next step, a spurious failure of its compare-and-swap, the
collector's next step. -/
inductive Label (V : Type) (nprocs : Nat)
  | get (w : Fin nprocs)
  | commit (w : Fin nprocs) (data : V)
  | beginTake (w : Fin nprocs)
  | take (w v : Fin nprocs)
  | endTake (w : Fin nprocs)
  | worker (w : Fin nprocs)
  | spurious (w : Fin nprocs)
  | collector

variable {V : Type} {nprocs : Nat}

/-! ### Stores -/

/-- Worker `w` moves on to `pc`. -/
def State.move (s : State V nprocs) (w : Fin nprocs) (pc : WorkerPc V nprocs) : State V nprocs :=
  { s with worker := Function.update s.worker w pc }

/-- A store to ring buffer `v` and its segments. -/
def State.setRb (s : State V nprocs) (v : Fin nprocs) (r : RingBuffer.State V (Fin nprocs)) :
    State V nprocs :=
  { s with rb := Function.update s.rb v r }

/-- A store to `ebrEntries[w]` of ring buffer `v`. -/
def State.setEntry (s : State V nprocs) (v w : Fin nprocs) (f : EBREntry → EBREntry) :
    State V nprocs :=
  { s with
    ebrEntries := Function.update s.ebrEntries v
      (Function.update (s.ebrEntries v) w (f (s.ebrEntries v w))) }

/-- `ee->freelist[ee->epoch]`. -/
def EBREntry.current (e : EBREntry) : Option Nat := e.freelist e.epoch

/-- A store to `ee->freelist[ee->epoch]`. -/
def EBREntry.setCurrent (list : Option Nat) (e : EBREntry) : EBREntry :=
  { e with freelist := Function.update e.freelist e.epoch list }

/-- A store to `ee->freelist[k]`. -/
def EBREntry.clear (k : Fin 3) (e : EBREntry) : EBREntry :=
  { e with freelist := Function.update e.freelist k none }

/-! ### Steps of the ring buffers -/

/-- The owner is about to put a segment on the free list. -/
def ownerRetires : OwnerPc V → Bool
  | .popDrop => true
  | _ => false

/-- The thief is about to put a segment on the free list. -/
def thiefRetires : ThiefPc V → Bool
  | .retire _ _ => true
  | _ => false

/-- A step in Push or Pop. -/
def stepOwner (junk : Nat → V) (s : State V nprocs) (w : Fin nprocs) : Option (State V nprocs) :=
  if ownerRetires (s.rb w).owner then
    match s.freelist w with
    | none => some { s with
        freelist := Function.update s.freelist w (some (s.ebrEntries w w).current) }
    | some list =>
        (RingBuffer.stepOwner junk { s.rb w with ownerFree := list }).map fun r =>
          { (s.setRb w r).setEntry w w (.setCurrent r.ownerFree) with
            freelist := Function.update s.freelist w none }
  else (RingBuffer.stepOwner junk (s.rb w)).map fun r => s.setRb w r

/-- The segment that a step in Take loads. -/
def loads {T : Type} (r : RingBuffer.State V T) (w : T) : Option Nat :=
  match r.thief w with
  | .load => some r.tail
  | .next x => (r.seg x).next
  | _ => none

/-- A step in Take from ring buffer `v`. -/
def stepThief (s : State V nprocs) (w v : Fin nprocs) : Option (State V nprocs) :=
  if thiefRetires ((s.rb v).thief w) then
    match s.freelist w with
    | none => some { s with
        freelist := Function.update s.freelist w (some (s.ebrEntries v w).current) }
    | some list =>
        let r := s.rb v
        (RingBuffer.stepThief { r with thiefFree := Function.update r.thiefFree w list } w).map
          fun r => { (s.setRb v r).setEntry v w (.setCurrent (r.thiefFree w)) with
            freelist := Function.update s.freelist w none }
  else (RingBuffer.stepThief (s.rb v) w).map fun r =>
    { s.setRb v r with
      loaded := Function.update s.loaded w
        (((loads (s.rb v) w).toList.map fun x => (v, x)) ++ s.loaded w) }

/-! ### Steps of the workers -/

/-- A call. -/
def call (s : State V nprocs) : Label V nprocs → Option (State V nprocs)
  | .get w =>
      match s.worker w with
      | .outside => some ((s.setRb w { s.rb w with owner := .popHead }).move w .get)
      | _ => none
  | .commit w data =>
      match s.worker w with
      | .outside => some (s.move w (.commitActive data))
      | _ => none
  | .beginTake w =>
      match s.worker w with
      | .outside => some (s.move w .beginActive)
      | _ => none
  | .take w v =>
      match s.worker w with
      | .inside => some ((s.setRb v ((s.rb v).move w .load)).move w (.take v))
      | _ => none
  | .endTake w =>
      match s.worker w with
      | .inside => some { (s.setEntry w w fun e => { e with active := false }).move w .outside with
          loaded := Function.update s.loaded w [] }
      | _ => none
  | _ => none

/-- Where a worker goes when Push, Pop or Take has returned. -/
def State.return (s : State V nprocs) (w : Fin nprocs) : State V nprocs :=
  match s.worker w with
  | .get => match (s.rb w).owner with
      | .idle => s.move w .outside
      | _ => s
  | .commit => match (s.rb w).owner with
      | .idle => s.move w .commitLeave
      | _ => s
  | .take v => match (s.rb v).thief w with
      | .idle => s.move w .inside
      | _ => s
  | _ => s

/-- The next step of a worker in a call. -/
def stepWorker (junk : Nat → V) (s : State V nprocs) (w : Fin nprocs) : Option (State V nprocs) :=
  match s.worker w with
  | .outside | .inside => none
  | .get | .commit => (stepOwner junk s w).map (·.return w)
  | .take v => (stepThief s w v).map (·.return w)
  | .commitActive data =>
      some ((s.setEntry w w fun e => { e with active := true }).move w (.commitLoad data))
  | .commitLoad data => some (s.move w (.commitStore data (s.epoch w)))
  | .commitStore data epoch =>
      some (((s.setEntry w w fun e => { e with epoch := epoch }).setRb w
        { s.rb w with owner := .pushHead data }).move w .commit)
  | .commitLeave => some ((s.setEntry w w fun e => { e with active := false }).move w .outside)
  | .beginActive => some ((s.setEntry w w fun e => { e with active := true }).move w .beginLoad)
  | .beginLoad => some { s.move w (.beginStore (s.epoch w)) with
      began := Function.update s.began w s.epoch }
  | .beginStore epoch => some ((s.setEntry w w fun e => { e with epoch := epoch }).move w .inside)

/-- The weak compare-and-swap in Take fails for no reason. -/
def spurious (s : State V nprocs) (w : Fin nprocs) : Option (State V nprocs) :=
  match s.worker w with
  | .take v =>
      match (s.rb v).thief w with
      | .cas x _ _ => some (s.setRb v ((s.rb v).move w (.loadTail x)))
      | _ => none
  | _ => none

/-! ### The collector -/

/-- The checks go on with `rest`. -/
def CollectorPc.checkNext (v : Fin nprocs) (epoch : Fin 3) : List (Fin nprocs) → CollectorPc nprocs
  | [] => .cas v epoch
  | rest => .check v epoch rest

/-- The destruction goes on with `rest`. -/
def CollectorPc.destroyNext (v : Fin nprocs) (epoch : Fin 3) :
    List (Fin nprocs) → CollectorPc nprocs
  | [] => .setOwn v epoch
  | rest => .destroy v epoch rest

/-- The ring buffer after `v`, and the first one after the last. -/
def nextRb (v : Fin nprocs) : Fin nprocs := ⟨(v + 1) % nprocs, Nat.mod_lt _ v.pos⟩

/-- `ksiWorkQueueTryFree`, called again whenever it has returned. -/
def stepCollector (tid : Fin nprocs) (s : State V nprocs) : Option (State V nprocs) :=
  match s.collector with
  | .load v => some { s with collector := .checkNext v (s.epoch v) (List.finRange nprocs).reverse }
  | .check v epoch (i :: rest) =>
      if (s.ebrEntries v i).active then some { s with collector := .compare v epoch i rest }
      else some { s with collector := .checkNext v epoch rest }
  | .check _ _ [] => none
  | .compare v epoch i rest =>
      if (s.ebrEntries v i).epoch ≠ epoch then some { s with collector := .load (nextRb v) }
      else some { s with collector := .checkNext v epoch rest }
  | .cas v epoch =>
      if s.epoch v = epoch then some { s with
        epoch := Function.update s.epoch v (epoch + 1)
        collector := .destroyNext v epoch (List.finRange nprocs).reverse }
      else some { s with collector := .setOwn v epoch }
  | .destroy v epoch (i :: rest) => some { s with
      collector := .free v epoch ((s.ebrEntries v i).freelist (epoch + 2)) i rest }
  | .destroy _ _ [] => none
  | .free v epoch (some cur) i rest => some { s with
      collector := .free v epoch (((s.rb v).seg cur).prev) i rest
      freed := (v, cur) :: s.freed }
  | .free v epoch none i rest => some { s with collector := .clear v epoch i rest }
  | .clear v epoch i rest => some { s.setEntry v i (.clear (epoch + 2)) with
      collector := .destroyNext v epoch rest }
  | .setOwn v epoch => some { s.setEntry v tid (fun e => { e with epoch := epoch + 1 }) with
      collector := .load (nextRb v) }

/-- The worker that makes a step. -/
def Label.worker? : Label V nprocs → Option (Fin nprocs)
  | .get w | .commit w _ | .beginTake w | .take w _ | .endTake w | .worker w | .spurious w => some w
  | .collector => none

/-- One step of a worker or of the collector. -/
def step (junk : Nat → V) (tid : Fin nprocs) (s : State V nprocs) (l : Label V nprocs) :
    Option (State V nprocs) :=
  if l.worker? = some tid then none
  else
    match l with
    | .worker w => stepWorker junk s w
    | .spurious w => spurious s w
    | .collector => stepCollector tid s
    | l => call s l

end Ksi.WorkQueue

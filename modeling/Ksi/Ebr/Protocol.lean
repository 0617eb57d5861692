/-
Epoch-based reclamation, `KsiDynamicEBR`.

Workers and overlookers announce a section by setting `active` and copying the
global epoch into their entry; a worker inside a section retires an object by
filing it in its own free list under the epoch of its own entry.  One collector
runs `ksiDynamicEBRTryFree` over and over: it reads the epoch, looks at every entry
in turn, advances the epoch and destroys one list of every worker.

Every load and store of a shared field is a step of its own.  `ebr->lock` only
guards the registration of overlookers, which are fixed here.  Epochs count modulo
3.  A thread may enter again while it is inside, as a worker does that dequeues
between `ksiWorkQueueBeginTake` and `ksiWorkQueueEndTake`; `inner` says so.

`freed` and `guards` are history variables: what has been destroyed, and which
threads were inside when an object was retired and have not left since.
-/
import Ksi.Lib.Runs
import Mathlib.Tactic.DeriveFintype
import Mathlib.Data.Fintype.Sum
import Mathlib.Data.Fin.Basic
import Mathlib.Data.List.FinRange
import Mathlib.Logic.Function.Basic

namespace Ksi.Ebr

/-- A thread with an entry in `ebrEntries` or in `dynamicOverlookers`. -/
inductive Thread (nprocs overlookers : Nat)
  | worker (i : Fin nprocs)
  | overlooker (j : Fin overlookers)
  deriving DecidableEq, Repr, Fintype

/-- Where a thread is. -/
inductive EntryPc
  | outside
  /-- `active` is set; about to load the global epoch -/
  | load (inner : Bool)
  /-- about to store the loaded epoch in the entry -/
  | store (inner : Bool) (epoch : Fin 3)
  | inside
  deriving DecidableEq, Repr

/-- The thread is between its Enter and its Leave. -/
def EntryPc.isInside : EntryPc → Bool
  | .outside => false
  | .load inner => inner
  | .store inner _ => inner
  | .inside => true

/-- Where the collector is in `ksiDynamicEBRTryFree`; `epoch` is its local variable,
`rest` what it has still to go through. -/
inductive CollectorPc (nprocs overlookers : Nat)
  | idle
  /-- about to load `active` of the first entry of `rest` -/
  | check (epoch : Fin 3) (rest : List (Thread nprocs overlookers))
  /-- about to compare the epoch of `entry` -/
  | compare (epoch : Fin 3) (entry : Thread nprocs overlookers)
      (rest : List (Thread nprocs overlookers))
  | cas (epoch : Fin 3)
  /-- about to destroy a list of the first worker of `rest` -/
  | destroy (epoch : Fin 3) (rest : List (Fin nprocs))
  /-- about to store NULL as that list of worker `i` -/
  | clear (epoch : Fin 3) (i : Fin nprocs) (rest : List (Fin nprocs))
  /-- about to store the new epoch in its own entry -/
  | setOwn (epoch : Fin 3)
  deriving DecidableEq, Repr

/-- `KsiDynamicEBR` with its threads. -/
structure State (nprocs overlookers : Nat) where
  epoch : Fin 3
  active : Thread nprocs overlookers → Bool
  entryEpoch : Thread nprocs overlookers → Fin 3
  freelist : Fin nprocs → Fin 3 → List Nat
  pc : Thread nprocs overlookers → EntryPc
  collector : CollectorPc nprocs overlookers
  /-- the objects retired so far are those below -/
  retired : Nat
  /-- history: the objects destroyed -/
  freed : List Nat
  /-- history: who was inside at an object's retirement and has not left -/
  guards : Nat → Thread nprocs overlookers → Bool

/-- The state after `ksiDynamicEBRCreate` and the registrations. -/
def init (nprocs overlookers : Nat) : State nprocs overlookers where
  epoch := 0
  active := fun _ => false
  entryEpoch := fun _ => 0
  freelist := fun _ _ => []
  pc := fun _ => .outside
  collector := .idle
  retired := 0
  freed := []
  guards := fun _ _ => false

/-- The steps.  `enter` stores `active`, `entry` is the rest of Enter. -/
inductive Label (nprocs overlookers : Nat)
  | enter (t : Thread nprocs overlookers)
  | entry (t : Thread nprocs overlookers)
  | leave (t : Thread nprocs overlookers)
  | retire (i : Fin nprocs)
  | collector
  deriving DecidableEq, Repr

variable {nprocs overlookers : Nat}

/-- The entries in the order `ksiDynamicEBRTryFree` looks at them. -/
def order (nprocs overlookers : Nat) : List (Thread nprocs overlookers) :=
  (List.finRange nprocs).reverse.map .worker ++ (List.finRange overlookers).map .overlooker

/-- The worker with id `tid` is the collector and enters no section. -/
def stepEnter (tid : Fin nprocs) (s : State nprocs overlookers) (t : Thread nprocs overlookers) :
    Option (State nprocs overlookers) :=
  if t = .worker tid then none
  else
    match s.pc t with
    | .outside => some { s with active := Function.update s.active t true,
                                pc := Function.update s.pc t (.load false) }
    | .inside => some { s with active := Function.update s.active t true,
                               pc := Function.update s.pc t (.load true) }
    | _ => none

/-- The copy of the global epoch. -/
def stepEntry (s : State nprocs overlookers) (t : Thread nprocs overlookers) :
    Option (State nprocs overlookers) :=
  match s.pc t with
  | .load inner => some { s with pc := Function.update s.pc t (.store inner s.epoch) }
  | .store _ epoch => some { s with entryEpoch := Function.update s.entryEpoch t epoch,
                                    pc := Function.update s.pc t .inside }
  | _ => none

/-- `ksiDynamicEBRLeave`. -/
def stepLeave (s : State nprocs overlookers) (t : Thread nprocs overlookers) :
    Option (State nprocs overlookers) :=
  match s.pc t with
  | .inside => some { s with active := Function.update s.active t false,
                             pc := Function.update s.pc t .outside,
                             guards := fun x u => if u = t then false else s.guards x u }
  | _ => none

/-- `ksiDynamicEBRRetire` of a new object by a worker that is inside. -/
def stepRetire (s : State nprocs overlookers) (i : Fin nprocs) :
    Option (State nprocs overlookers) :=
  match s.pc (.worker i) with
  | .inside =>
      let epoch := s.entryEpoch (.worker i)
      some { s with
        freelist := fun j k =>
          if j = i ∧ k = epoch then s.retired :: s.freelist j k else s.freelist j k,
        retired := s.retired + 1,
        guards := fun x t => if x = s.retired then (s.pc t).isInside else s.guards x t }
  | _ => none

/-- The checks go on with `rest`. -/
def CollectorPc.checkNext (epoch : Fin 3) (rest : List (Thread nprocs overlookers)) :
    CollectorPc nprocs overlookers :=
  match rest with
  | [] => .cas epoch
  | _ :: _ => .check epoch rest

/-- The destruction goes on with `rest`. -/
def CollectorPc.destroyNext (epoch : Fin 3) (rest : List (Fin nprocs)) :
    CollectorPc nprocs overlookers :=
  match rest with
  | [] => .setOwn epoch
  | _ :: _ => .destroy epoch rest

/-- `ksiDynamicEBRTryFree`, called again whenever it has returned. -/
def stepCollector (tid : Fin nprocs) (s : State nprocs overlookers) :
    Option (State nprocs overlookers) :=
  match s.collector with
  | .idle => some { s with collector := .checkNext s.epoch (order nprocs overlookers) }
  | .check epoch (t :: rest) =>
      if s.active t then some { s with collector := .compare epoch t rest }
      else some { s with collector := .checkNext epoch rest }
  | .check _ [] => none
  | .compare epoch t rest =>
      if s.entryEpoch t ≠ epoch then some { s with collector := .idle }
      else some { s with collector := .checkNext epoch rest }
  | .cas epoch =>
      if s.epoch = epoch then
        some { s with epoch := epoch + 1,
                      collector := .destroyNext epoch (List.finRange nprocs).reverse }
      else some { s with collector := .idle }
  | .destroy epoch (i :: rest) =>
      some { s with freed := s.freed ++ s.freelist i (epoch + 2), collector := .clear epoch i rest }
  | .destroy _ [] => none
  | .clear epoch i rest =>
      some { s with
        freelist := fun j k => if j = i ∧ k = epoch + 2 then [] else s.freelist j k,
        collector := .destroyNext epoch rest }
  | .setOwn epoch =>
      some { s with entryEpoch := Function.update s.entryEpoch (.worker tid) (epoch + 1),
                    collector := .idle }

/-- One step of a thread or of the collector, which is worker `tid`. -/
def step (tid : Fin nprocs) (s : State nprocs overlookers) :
    Label nprocs overlookers → Option (State nprocs overlookers)
  | .enter t => stepEnter tid s t
  | .entry t => stepEntry s t
  | .leave t => stepLeave s t
  | .retire i => stepRetire s i
  | .collector => stepCollector tid s

end Ksi.Ebr

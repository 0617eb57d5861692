/-
The work-stealing deque of ring_buffer.c, one access at a time.

A ring buffer is a doubly linked list of segments.  Its owner pushes and pops at
`rb->head`, thieves take at `rb->tail`.  A segment holds the items with indices from
`tail_idx` to `head_idx`, index `i` in slot `i % 256`; the indices are 64-bit and only
grow, but for `head_idx` under Pop.  A thief that has found a segment empty with a
successor closes it by storing -1 as `head_idx`, moves `rb->tail` on and retires it;
the owner drops the segment at `rb->head` once it is empty and retires it too.

Every load, store and compare-and-swap is a step, those of the plain fields
included; `rb->head` and the free lists belong to one thread each and go with the
step next to them.  A weak compare-and-swap may fail for no reason (`spurious`).
Nothing is freed: `ksiRingBufferTryFree` is no part of this machine, so the epochs
stand still and one free list per thread is in use.  A NULL pointer that is followed
stops its thread.

`pushed` and `returned` are history variables.
-/
import Ksi.Lib.Runs
import Mathlib.Algebra.Group.Nat.Defs
import Mathlib.Logic.Function.Basic

namespace Ksi.RingBuffer

/-- `ksiRingBufferNodeLength`. -/
abbrev nodeLength : Nat := 256

/-- 64-bit arithmetic. -/
abbrev word : Nat := 2 ^ 64

/-- `-1` as a `uint64_t`, the `head_idx` of a closed segment. -/
abbrev closed : Nat := 2 ^ 64 - 1

/-- `KsiRingBufferSegment`; slot `i` of the buffer for `i < 256`. -/
structure Segment (V : Type) where
  prev : Option Nat
  buffer : Nat → V
  head_idx : Nat
  tail_idx : Nat
  next : Option Nat

/-- Where the owner is.  `data`, `h` and `t` are the argument of Push and the local
variables `_head_idx` and `_tail_idx`. -/
inductive OwnerPc (V : Type)
  | idle
  /-- Push, about to load `head_idx` -/
  | pushHead (data : V)
  /-- about to load `tail_idx` -/
  | pushTail (data : V) (h : Nat)
  /-- about to build a new segment and to make it `rb->head` -/
  | pushNew (data : V)
  /-- about to store the new segment as `next` of the old head -/
  | pushLink (old n : Nat)
  /-- about to write the slot -/
  | pushSlot (data : V) (h : Nat)
  /-- about to store `head_idx` -/
  | pushStore (data : V) (h : Nat)
  /-- Pop, about to load `head_idx` -/
  | popHead
  /-- about to load `tail_idx` -/
  | popTail (h : Nat)
  /-- more than one item: about to store `head_idx` -/
  | popStore (h : Nat)
  /-- about to read the slot and to return -/
  | popRead (h : Nat)
  /-- one item: about to read the slot -/
  | popSlot (t : Nat)
  /-- about to compare and swap `tail_idx` -/
  | popCas (t : Nat) (ret : V)
  /-- no item: about to store `head_idx` -/
  | popEmpty (t : Nat)
  /-- about to test `head->prev` -/
  | popPrev
  /-- about to store NULL as `head->prev->next` -/
  | popUnlink
  /-- about to make `head->prev` the head and to retire the old one -/
  | popDrop

/-- Where a thief is.  `s` is its local variable `tail`, `b` the successor it has
loaded. -/
inductive ThiefPc (V : Type)
  | idle
  /-- Take, about to load `rb->tail` -/
  | load
  | loadTail (s : Nat)
  | loadHead (s t : Nat)
  /-- about to read the slot -/
  | slot (s t : Nat)
  /-- about to compare and swap `tail_idx` -/
  | cas (s t : Nat) (ret : V)
  /-- about to load `next` -/
  | next (s : Nat)
  /-- about to store -1 as `head_idx` -/
  | close (s b : Nat)
  /-- about to compare and swap `rb->tail` -/
  | swing (s b : Nat)
  /-- about to store NULL as `prev` of the new tail -/
  | cut (s b : Nat)
  /-- about to put `s` on the free list -/
  | retire (s b : Nat)

/-- `KsiRingBuffer` with its segments and its threads; the segments are numbered in
the order they are allocated in. -/
structure State (V T : Type) where
  seg : Nat → Segment V
  allocated : Nat
  head : Option Nat
  tail : Nat
  owner : OwnerPc V
  thief : T → ThiefPc V
  ownerFree : Option Nat
  thiefFree : T → Option Nat
  /-- history: the pointers that have been put into the buffer -/
  pushed : List V
  /-- history: the pointers that Pop and Take have returned -/
  returned : List V

/-- A call of Push or Pop by the owner, the owner's next step, a call of Take by a
thief, the thief's next step, a spurious failure of its compare-and-swap. -/
inductive Label (V T : Type)
  | push (data : V)
  | pop
  | owner
  | take (w : T)
  | thief (w : T)
  | spurious (w : T)

variable {V T : Type} [DecidableEq T]

/-- `ksiRingBufferSegmentNew`, with whatever the memory held in the other slots. -/
def ksiRingBufferSegmentNew (junk : Nat → V) (data : V) (prev : Option Nat) : Segment V where
  prev := prev
  buffer := Function.update junk 0 data
  head_idx := 1
  tail_idx := 0
  next := none

/-- `ksiRingBufferInit`. -/
def init (junk : Nat → V) (T : Type) : State V T where
  seg := fun _ => { prev := none, buffer := junk, head_idx := 0, tail_idx := 0, next := none }
  allocated := 1
  head := some 0
  tail := 0
  owner := .idle
  thief := fun _ => .idle
  ownerFree := none
  thiefFree := fun _ => none
  pushed := []
  returned := []

/-- A store to a field of segment `a`. -/
def State.modify (s : State V T) (a : Nat) (f : Segment V → Segment V) : State V T :=
  { s with seg := Function.update s.seg a (f (s.seg a)) }

/-- Thief `w` moves on to `pc`. -/
def State.move (s : State V T) (w : T) (pc : ThiefPc V) : State V T :=
  { s with thief := Function.update s.thief w pc }

/-- The owner's step in `ksiRingBufferPush` and `ksiRingBufferPop`. -/
def stepOwner (junk : Nat → V) (s : State V T) : Option (State V T) :=
  match s.head with
  | none => none
  | some head =>
      match s.owner with
      | .idle => none
      | .pushHead data => some { s with owner := .pushTail data (s.seg head).head_idx }
      | .pushTail data h =>
          if ((s.seg head).tail_idx + nodeLength) % word ≤ h then
            some { s with owner := .pushNew data }
          else some { s with owner := .pushSlot data h }
      | .pushNew data =>
          let n := s.allocated
          some { s with
            seg := Function.update s.seg n (ksiRingBufferSegmentNew junk data (some head)),
            allocated := n + 1, head := some n, owner := .pushLink head n,
            pushed := s.pushed ++ [data] }
      | .pushLink old n =>
          some { s.modify old (fun g => { g with next := some n }) with owner := .idle }
      | .pushSlot data h =>
          some { s.modify head (fun g =>
              { g with buffer := Function.update g.buffer (h % nodeLength) data }) with
            owner := .pushStore data h }
      | .pushStore data h =>
          some { s.modify head (fun g => { g with head_idx := (h + 1) % word }) with
            owner := .idle, pushed := s.pushed ++ [data] }
      | .popHead =>
          -- `_head_idx --`
          some { s with owner := .popTail (((s.seg head).head_idx + (word - 1)) % word) }
      | .popTail h =>
          let t := (s.seg head).tail_idx
          if (t + 1) % word < (h + 1) % word then some { s with owner := .popStore h }
          else if t = h then some { s with owner := .popSlot t }
          else some { s with owner := .popEmpty t }
      | .popStore h =>
          some { s.modify head (fun g => { g with head_idx := h }) with owner := .popRead h }
      | .popRead h =>
          some { s with owner := .idle,
                        returned := s.returned ++ [(s.seg head).buffer (h % nodeLength)] }
      | .popSlot t =>
          some { s with owner := .popCas t ((s.seg head).buffer (t % nodeLength)) }
      | .popCas t ret =>
          if (s.seg head).tail_idx = t then
            some { s.modify head (fun g => { g with tail_idx := (t + 1) % word }) with
              owner := .idle, returned := s.returned ++ [ret] }
          else some { s with owner := .popHead }
      | .popEmpty t =>
          some { s.modify head (fun g => { g with head_idx := t }) with owner := .popPrev }
      | .popPrev =>
          match (s.seg head).prev with
          | none => some { s with owner := .idle }
          | some _ => some { s with owner := .popUnlink }
      | .popUnlink =>
          match (s.seg head).prev with
          | none => none
          | some a => some { s.modify a (fun g => { g with next := none }) with owner := .popDrop }
      | .popDrop =>
          some { s.modify head (fun g => { g with prev := s.ownerFree }) with
            head := (s.seg head).prev, ownerFree := some head, owner := .popHead }

/-- A thief's step in `ksiRingBufferTake`. -/
def stepThief (s : State V T) (w : T) : Option (State V T) :=
  match s.thief w with
  | .idle => none
  | .load => some (s.move w (.loadTail s.tail))
  | .loadTail x => some (s.move w (.loadHead x (s.seg x).tail_idx))
  | .loadHead x t =>
      if (t + 1) % word < ((s.seg x).head_idx + 1) % word then some (s.move w (.slot x t))
      else some (s.move w (.next x))
  | .slot x t => some (s.move w (.cas x t ((s.seg x).buffer (t % nodeLength))))
  | .cas x t ret =>
      if (s.seg x).tail_idx = t then
        some { (s.modify x fun g => { g with tail_idx := (t + 1) % word }).move w .idle with
          returned := s.returned ++ [ret] }
      else some (s.move w (.loadTail x))
  | .next x =>
      match (s.seg x).next with
      | none => some (s.move w .idle)
      | some b => some (s.move w (.close x b))
  | .close x b => some ((s.modify x fun g => { g with head_idx := closed }).move w (.swing x b))
  | .swing x b =>
      if s.tail = x then some { s.move w (.cut x b) with tail := b }
      else some (s.move w (.loadTail b))
  | .cut x b => some ((s.modify b fun g => { g with prev := none }).move w (.retire x b))
  | .retire x b =>
      some { (s.modify x fun g => { g with prev := s.thiefFree w }).move w (.loadTail b) with
        thiefFree := Function.update s.thiefFree w (some x) }

/-- One step of the machine. -/
def step (junk : Nat → V) (s : State V T) : Label V T → Option (State V T)
  | .push data =>
      match s.owner with
      | .idle => some { s with owner := .pushHead data }
      | _ => none
  | .pop =>
      match s.owner with
      | .idle => some { s with owner := .popHead }
      | _ => none
  | .owner => stepOwner junk s
  | .take w =>
      match s.thief w with
      | .idle => some (s.move w .load)
      | _ => none
  | .thief w => stepThief s w
  | .spurious w =>
      match s.thief w with
      | .cas x _ _ => some (s.move w (.loadTail x))
      | _ => none

end Ksi.RingBuffer

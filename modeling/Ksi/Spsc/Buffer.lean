/-
The bounded single-producer single-consumer buffer of spsc_buffer.h, one call after another.

A `size_t` and a `uint64_t` have 64 bits and are natural numbers here, with what wraps around
written out.  An item is the bytes of one `memcpy`.  What `malloc` leaves in the memory, for
which sizes it finds any, and the layout of the struct are arguments: `headerSize` is its size
and `offset` is where `buffer` begins in it, which is earlier, since the struct is padded to a
multiple of its alignment.  A copy or a store outside of the memory has no result.

`copies` is a history variable.
-/
import Mathlib.Algebra.Group.Nat.Defs
import Mathlib.Tactic.Common

namespace Ksi.Spsc

/-- What one call copies. -/
abbrev Item (dataSize : Nat) := Fin dataSize → UInt8

/-- The counters, and the bytes behind them. -/
structure KsiSPSCBuffer where
  head : Nat
  tail : Nat
  /-- how many bytes of `buffer` are in the memory -/
  allocated : Nat
  buffer : Nat → UInt8
  /-- history: the bytes of `buffer` at which the copies began -/
  copies : List Nat

/-- `sizeof *ret + dataSize * bufferSize`. -/
def allocSize (headerSize dataSize bufferSize : Nat) : Nat :=
  (headerSize + dataSize * bufferSize) % 2 ^ 64

/-- `ksiSPSCBufferAlloc`, unless `ksiMalloc` aborts. -/
def ksiSPSCBufferAlloc (malloc : Nat → Bool) (garbage : Nat → UInt8)
    (offset headerSize dataSize bufferSize : Nat) : Option KsiSPSCBuffer :=
  let size := allocSize headerSize dataSize bufferSize
  if malloc size ∧ headerSize ≤ size then
    some { head := 0, tail := 0, allocated := size - offset, buffer := garbage, copies := [] }
  else none

variable {dataSize : Nat}

/-- `memcpy` to the bytes from `offset` on. -/
def copyIn (buf : KsiSPSCBuffer) (offset : Nat) (data : Item dataSize) : Option KsiSPSCBuffer :=
  if offset + dataSize ≤ buf.allocated then
    some { buf with
      buffer := fun i =>
        if h : offset ≤ i ∧ i < offset + dataSize then data ⟨i - offset, by omega⟩
        else buf.buffer i
      copies := buf.copies ++ [offset] }
  else none

/-- `memcpy` from the bytes from `offset` on. -/
def copyOut (buf : KsiSPSCBuffer) (offset dataSize : Nat) :
    Option (Item dataSize × KsiSPSCBuffer) :=
  if offset + dataSize ≤ buf.allocated then
    some (fun i => buf.buffer (offset + i), { buf with copies := buf.copies ++ [offset] })
  else none

/-- `ksiSPSCBufferPush`. -/
def ksiSPSCBufferPush (buf : KsiSPSCBuffer) (data : Item dataSize) (bufferSize : Nat) :
    Option (Int × KsiSPSCBuffer) :=
  if buf.head ≥ (buf.tail + bufferSize) % 2 ^ 64 then some (-1, buf)
  else do
    let copied ← copyIn buf (buf.head * dataSize % 2 ^ 64) data
    some (0, { copied with head := (buf.head + 1) % 2 ^ 64 })

/-- `ksiSPSCBufferPop`: what is returned, and what is copied to `data`. -/
def ksiSPSCBufferPop (buf : KsiSPSCBuffer) (dataSize : Nat) :
    Option (Int × Option (Item dataSize) × KsiSPSCBuffer) :=
  if buf.head ≤ buf.tail then some (-1, none, buf)
  else do
    let (data, copied) ← copyOut buf (buf.tail * dataSize % 2 ^ 64) dataSize
    some (0, some data, { copied with tail := (buf.tail + 1) % 2 ^ 64 })

/-! ### Sequences of calls -/

/-- A call on a buffer. -/
inductive Call (dataSize : Nat)
  | push (data : Item dataSize)
  | pop

/-- What a call returns, and what it copies out. -/
abbrev Result (dataSize : Nat) := Int × Option (Item dataSize)

/-- One call with the size of the buffer. -/
def KsiSPSCBuffer.call (bufferSize : Nat) (buf : KsiSPSCBuffer) :
    Call dataSize → Option (Result dataSize × KsiSPSCBuffer)
  | .push data => (ksiSPSCBufferPush buf data bufferSize).map fun r => ((r.1, none), r.2)
  | .pop => (ksiSPSCBufferPop buf dataSize).map fun r => ((r.1, r.2.1), r.2.2)

/-- The results of a sequence of calls, and the buffer after it. -/
def KsiSPSCBuffer.run (bufferSize : Nat) (buf : KsiSPSCBuffer) :
    List (Call dataSize) → Option (List (Result dataSize) × KsiSPSCBuffer)
  | [] => some ([], buf)
  | c :: rest => do
      let (r, buf) ← buf.call bufferSize c
      let (rs, buf) ← buf.run bufferSize rest
      some (r :: rs, buf)

end Ksi.Spsc

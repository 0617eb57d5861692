/-
The mixer, store by store.

In Worker.lean a port adds up its entries in a local value.  Here is the loop as the worker
runs it: the last sample of the port's own buffer is the place where the biases and the
clean sources are added up, then what the rest of the buffer is filled with, and then one
sample of the sum like the others.
-/
import Ksi.Audio.Worker

namespace Ksi.Audio

open Ksi.Dag

/-- The memory with other samples in a buffer. -/
def Memory.put (m : Memory) (b : BufPtr) (v : Nat → KsiData) : Memory :=
  { m with samples := Function.update m.samples b v }

/-- `f(&b[i])`. -/
def storeSample (b : BufPtr) (i : Nat) (f : KsiData → KsiData) : Work Unit :=
  storeSamples b fun old => Function.update old i (f (old i))

namespace Cycle

variable (c : Cycle) (k : Sounds) (type : PortType)

/-- The index of `*cachePtr(buf)`. -/
def cache : Nat := c.framesPerBuffer - 1

/-- `prec->outputBuffer[srcPort].d[i]`. -/
def sourceSample (src : NodePtr) (srcPort : Int) (i : Nat) : Work KsiData := do
  let buffer ← c.sourceBuffer src srcPort
  pure (buffer i)

/-- The first loop over the entries, with `dirty`. -/
def addClean (buf : BufPtr) : List Entry → Bool → Work Bool
  | [], dirty => pure dirty
  | me :: rest, dirty =>
      match me.src with
      | none => do
          storeSample buf c.cache fun s => ksiDataIncrease k s me.gain type
          addClean buf rest dirty
      | some prec => do
          let precType ← c.sourceType prec me.srcPort
          if isDirty precType then addClean buf rest true
          else do
            let x ← c.sourceSample prec me.srcPort c.cache
            storeSample buf c.cache fun s => ksiDataWeightedIncrease k s x me.gain type
            addClean buf rest dirty

/-- The loop that fills the buffer up to its last sample. -/
def spread (buf : BufPtr) : Work Unit :=
  Prog.forEach (List.range c.cache) fun j => do
    let x ← Prog.read fun m => some (m.samples buf c.cache)
    storeSample buf j fun _ => x

/-- `ksiDataBufferWeightedIncrease`. -/
def ksiDataBufferWeightedIncrease (des : BufPtr) (src : NodePtr) (srcPort : Int) (coeff : KsiData) :
    Work Unit :=
  Prog.forEach (List.range c.framesPerBuffer) fun i => do
    let x ← c.sourceSample src srcPort i
    storeSample des i fun s => ksiDataWeightedIncrease k s x coeff type

/-- The body of the second loop over the entries. -/
def addEntry (buf : BufPtr) (me : Entry) : Work Unit :=
  match me.src with
  | none => pure ()
  | some prec => do
      let precType ← c.sourceType prec me.srcPort
      Prog.when (isDirty precType = true)
        (c.ksiDataBufferWeightedIncrease k type buf prec me.srcPort me.gain)

/-- A port with the buffer `buf`. -/
def mixInto (buf : BufPtr) (entries : List Entry) (ref : TypesRef) (i : Nat) : Work Unit := do
  storeSample buf c.cache fun _ => 0
  let dirty ← c.addClean k type buf entries false
  Prog.when (dirty = true) do
    c.spread buf
    Prog.forEach entries (c.addEntry k type buf)
  storeType ref i fun t =>
    (t &&& ~~~ksiNodePortIOMask) ||| (if dirty then ksiNodePortIODirty else 0)

/-- The body of the loop over the input ports. -/
def mixPort (n : NodePtr) (node : KsiNode) (i : Nat) : Work Unit := do
  let input ← Prog.read fun _ => node.inputs[i]?
  let type ← Prog.read fun m => some (m.types (inputTypes n node) i)
  if type.isEvent then pure ()
  else match (c.version.env n i).buffer with
    | some buf => c.mixInto (c.sounds n) type buf input.entries (inputTypes n node) i
    | none => c.mixDirect input.entries (inputTypes n node) i

/-- The mixing step of a worker: `ksiEngineAudioWorker` up to the call of
`ksiNodeFuncWrapper`. -/
def mixPorts (n : NodePtr) (node : KsiNode) : Work Unit :=
  Prog.forEach (List.range node.inputs.length) (c.mixPort n node)

end Cycle

end Ksi.Audio

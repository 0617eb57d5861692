/-
One step of a worker: mixing the inputs of a node and running its function.

The dirty bits live in the types arrays of the ports.  A node has an array of its own
only when its Dynamic flag is set; all other nodes of a plugin share the plugin's two
arrays, which `DEF_PORTS` defines once.  Both are kept in a memory that a step changes,
with the samples of the buffers, under a reference that says which array is meant.

A port mixes into a local value that is stored when the sum is complete; the C loop adds
to the last sample of the port's own buffer, which is not the buffer of any source.
-/
import Ksi.Audio.Plugins

namespace Ksi.Audio

open Ksi.Dag

/-- An array of port types: `name##InPorts` and `name##OutPorts` of a plugin, or a node's
own. -/
inductive TypesRef
  | inPorts (inlineId : Nat)
  | outPorts (inlineId : Nat)
  | ownInputs (n : NodePtr)
  | ownOutputs (n : NodePtr)
  deriving DecidableEq, Repr

/-- `n->inputTypes`. -/
def inputTypes (n : NodePtr) (node : KsiNode) : TypesRef :=
  if node.type &&& ksiNodeTypeDynamicInputType ≠ 0 then .ownInputs n
  else .inPorts (ksiNodeTypeInlineId node.type)

/-- `n->outputTypes`. -/
def outputTypes (n : NodePtr) (node : KsiNode) : TypesRef :=
  if node.type &&& ksiNodeTypeDynamicOutputType ≠ 0 then .ownOutputs n
  else .outPorts (ksiNodeTypeInlineId node.type)

/-- What the workers share. -/
structure Memory where
  types : TypesRef → Nat → PortType
  samples : BufPtr → Nat → KsiData

/-- The arrays as the plugins define them, and silent buffers. -/
def Memory.init : Memory where
  types := fun ref i => match ref with
    | .inPorts id => ((inlinePorts id).bind fun ports => ports.1[i]?).getD 0
    | .outPorts id => ((inlinePorts id).bind fun ports => ports.2[i]?).getD 0
    | .ownInputs _ => ksiNodePortTypeFloat
    | .ownOutputs _ => ksiNodePortTypeFloat
  samples := fun _ _ => 0

/-- What a cycle goes over: the version that plays, and what each node plays. -/
structure Cycle where
  version : Version
  framesPerBuffer : Nat
  sounds : NodePtr → Sounds

/-- What a worker does to the memory. -/
abbrev Work := Prog Memory Empty

def storeType (ref : TypesRef) (i : Nat) (f : PortType → PortType) : Work Unit :=
  Prog.modify fun m => { m with
    types := Function.update m.types ref (Function.update (m.types ref) i (f (m.types ref i))) }

def storeSamples (b : BufPtr) (f : (Nat → KsiData) → Nat → KsiData) : Work Unit :=
  Prog.modify fun m => { m with samples := Function.update m.samples b (f (m.samples b)) }

/-! ### Mixing -/

/-- `ksiDataIncrease`. -/
def ksiDataIncrease (k : Sounds) (s i : KsiData) (type : PortType) : KsiData :=
  if type &&& ksiNodePortTypeMask = ksiNodePortTypeFloat then k.addFloat s i
  else if type &&& ksiNodePortTypeMask = ksiNodePortTypeInt32 then s + i
  else if type &&& ksiNodePortTypeMask = ksiNodePortTypeGate then s ||| i
  else s

/-- `ksiDataWeightedIncrease`, and one frame of `ksiDataBufferWeightedIncrease`. -/
def ksiDataWeightedIncrease (k : Sounds) (s i c : KsiData) (type : PortType) : KsiData :=
  if type &&& ksiNodePortTypeMask = ksiNodePortTypeFloat then k.addFloat s (k.mulFloat i c)
  else if type &&& ksiNodePortTypeMask = ksiNodePortTypeInt32 then s + i * c
  else if type &&& ksiNodePortTypeMask = ksiNodePortTypeGate then s ||| (i ||| c)
  else s

namespace Cycle

variable (c : Cycle) (k : Sounds) (type : PortType)

/-- `prec->outputTypes[srcPort]`. -/
def sourceType (src : NodePtr) (srcPort : Int) : Work PortType := Prog.read fun m =>
  (c.version.graph.heap src).bind fun node =>
    (nth node.outputs srcPort).map fun _ => m.types (outputTypes src node) srcPort.toNat

/-- `prec->outputBuffer[srcPort].d`. -/
def sourceBuffer (src : NodePtr) (srcPort : Int) : Work (Nat → KsiData) := Prog.read fun m =>
  (c.version.graph.heap src).bind fun node => (nth node.outputs srcPort).bind fun _ =>
    (c.version.outputBuffer src srcPort.toNat).map m.samples

/-- The first pass over the entries: the sum of the biases and of the clean sources, and
whether there is a dirty one. -/
def mixClean : List Entry → KsiData → Bool → Work (KsiData × Bool)
  | [], last, dirty => pure (last, dirty)
  | me :: rest, last, dirty =>
      match me.src with
      | none => mixClean rest (ksiDataIncrease k last me.gain type) dirty
      | some src => do
          let srcType ← c.sourceType src me.srcPort
          if isDirty srcType then mixClean rest last true
          else do
            let buffer ← c.sourceBuffer src me.srcPort
            mixClean rest (ksiDataWeightedIncrease k last (buffer (c.framesPerBuffer - 1)) me.gain
              type) dirty

/-- The second pass: the dirty sources, frame by frame. -/
def mixDirty : List Entry → (Nat → KsiData) → Work (Nat → KsiData)
  | [], buf => pure buf
  | me :: rest, buf =>
      match me.src with
      | none => mixDirty rest buf
      | some src => do
          let srcType ← c.sourceType src me.srcPort
          if isDirty srcType then do
            let buffer ← c.sourceBuffer src me.srcPort
            mixDirty rest fun i => if i < c.framesPerBuffer
              then ksiDataWeightedIncrease k (buf i) (buffer i) me.gain type else buf i
          else mixDirty rest buf

/-- A port with a buffer of its own. -/
def mixBuffer (buf : BufPtr) (entries : List Entry) (ref : TypesRef) (i : Nat) : Work Unit := do
  let mixed ← c.mixClean k type entries 0 false
  storeSamples buf fun old => Function.update old (c.framesPerBuffer - 1) mixed.1
  Prog.when mixed.2 do
    let old ← Prog.read fun m => some (m.samples buf)
    let sum ← c.mixDirty k type entries fun j => if j < c.framesPerBuffer then mixed.1 else old j
    storeSamples buf fun _ => sum
  storeType ref i fun t =>
    (t &&& ~~~ksiNodePortIOMask) ||| (if mixed.2 then ksiNodePortIODirty else 0)

/-- A port without one: the flag of its only source. -/
def mixDirect (entries : List Entry) (ref : TypesRef) (i : Nat) : Work Unit :=
  match entries with
  | [] => storeType ref i ksiNodePortIOClear
  | me :: _ =>
      match me.src with
      | none => storeType ref i ksiNodePortIOClear
      | some src => do
          let srcType ← c.sourceType src me.srcPort
          if isDirty srcType then storeType ref i ksiNodePortIOSetDirty
          else storeType ref i ksiNodePortIOClear

/-- The mixer for input port `i` of a node. -/
def mixInput (n : NodePtr) (node : KsiNode) (i : Nat) : Work Unit := do
  let input ← Prog.read fun _ => node.inputs[i]?
  let type ← Prog.read fun m => some (m.types (inputTypes n node) i)
  if type.isEvent then pure ()
  else match (c.version.env n i).buffer with
    | some buf => c.mixBuffer (c.sounds n) type buf input.entries (inputTypes n node) i
    | none => c.mixDirect input.entries (inputTypes n node) i

/-! ### Running a node -/

/-- The ports of a node, as its function finds them. -/
def ports (m : Memory) (n : NodePtr) (node : KsiNode) : Ports where
  inputs := node.inputs.mapIdx fun i input =>
    { type := m.types (inputTypes n node) i
      internalBufferPtr := (c.version.env n i).internalBufferPtr.map m.samples
      mixer := input.entries }
  outputs := node.outputs.mapIdx fun j _ =>
    { type := m.types (outputTypes n node) j
      buffer := ((c.version.outputBuffer n j).map m.samples).getD fun _ => 0 }

/-- What the function leaves in an output port; the final node has the driver's buffers,
which are not kept. -/
def storeOutput (n : NodePtr) (node : KsiNode) (p : Ports) (j : Nat) : Work Unit :=
  match p.outputs[j]? with
  | none => pure ()
  | some o => do
      storeType (outputTypes n node) j fun _ => o.type
      match c.version.outputBuffer n j with
      | none => pure ()
      | some b => storeSamples b fun _ => o.buffer

/-- The call of `ksiNodeFuncWrapper`. -/
def callFunc (n : NodePtr) (node : KsiNode) : Work Unit := fun m =>
  match ksiNodeFuncWrapper (c.sounds n) c.framesPerBuffer (ksiNodeTypeInlineId node.type)
      (c.ports m n node) with
  | none => none
  | some (_, p) => Prog.forEach (List.range node.outputs.length) (c.storeOutput n node p) m

def mixInputs (n : NodePtr) (node : KsiNode) : Work Unit :=
  Prog.forEach (List.range node.inputs.length) (c.mixInput n node)

/-- A worker's step for the node `n`. -/
def work (n : NodePtr) : Work Unit := do
  let node ← Prog.read fun _ => c.version.graph.heap n
  c.mixInputs n node
  c.callFunc n node

end Cycle

end Ksi.Audio

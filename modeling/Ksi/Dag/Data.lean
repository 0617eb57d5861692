/-
One version of the audio graph, and what editing it works on.

A node names another one by a pointer in the entries of its input ports and by an id in
its list of successors.  Pointers are addresses of a heap; a freed address has no node,
and no address is used twice.  The wiring is kept apart from the buffers: `KsiNode` has
what the graph is made of, `env` and `outputBuffer` of the engine what a port points
to, under the node's address and the port.

The buffers are shared by the two versions.  The version that is edited allocates them
and queues them in `mallocBufs`, and queues in `freeBufs` those it gives up; the
version that is committed takes them from the queues.
-/
import Ksi.Lib.Prog
import Ksi.Vec

namespace Ksi.Dag

/-- The error codes of err.h, in their order. -/
inductive KsiError
  | ksiErrorNone
  | ksiErrorIdNotFound
  | ksiErrorSrcIdNotFound
  | ksiErrorDesIdNotFound
  | ksiErrorTimeSeqIdNotFound
  | ksiErrorPortNotFound
  | ksiErrorSrcPortNotFound
  | ksiErrorDesPortNotFound
  | ksiErrorAlreadyWire
  | ksiErrorMultipleFinal
  | ksiErrorRing
  | ksiErrorWireNotFound
  | ksiErrorFileSystem
  | ksiErrorAudio
  | ksiErrorIdempotent
  | ksiErrorSyntax
  | ksiErrorResIdNotFound
  | ksiErrorType
  | ksiErrorNeedSignal
  | ksiErrorNoEditCmd
  | ksiErrorNoPlugin
  | ksiErrorPlugin
  | ksiErrorUninitialized
  | ksiErrorNotInBatch
  | ksiErrorAudioNotStarted
  deriving DecidableEq, Repr

/-! ### Data and port types -/

/-- `KsiData`, the bits of an `int32_t` or of a `float`. -/
abbrev KsiData := BitVec 32

/-- The type of a port, with its flags. -/
abbrev PortType := BitVec 8

def ksiNodePortTypeFloat : PortType := 0x0
def ksiNodePortTypeGate : PortType := 0x1
def ksiNodePortTypeInt32 : PortType := 0x2
def ksiNodePortTypeEventFlag : PortType := 0x8
def ksiNodePortTypeEventGate : PortType := 0x1 ||| 0x8
def ksiNodePortTypeMask : PortType := 0xF

/-- `type & ksiNodePortTypeEventFlag`. -/
def PortType.isEvent (type : PortType) : Bool := type &&& ksiNodePortTypeEventFlag != 0

/-- `ksiDataIsUnit`; of all floats only the bits `0x3F800000` compare equal to `1.0f`. -/
def ksiDataIsUnit (d : KsiData) (type : PortType) : Bool :=
  if type &&& ksiNodePortTypeMask = ksiNodePortTypeFloat then d == 0x3F800000
  else if type &&& ksiNodePortTypeMask = ksiNodePortTypeInt32 then d == 1
  else if type &&& ksiNodePortTypeMask = ksiNodePortTypeGate then d == 0
  else false

/-! ### Nodes -/

/-- The address of a `KsiNode`. -/
abbrev NodePtr := Nat

/-- The address of a buffer or of an event queue. -/
abbrev BufPtr := Nat

/-- `KsiMixerEnvEntry` and `KsiEventEnvEntry`; a bias has no source, an event entry no
gain. -/
structure Entry where
  src : Option NodePtr
  srcPort : Int
  gain : KsiData
  deriving DecidableEq, Repr

/-- An input port: `inputTypes[i]`, and `env[i].d->mixer` or `env[i].e->ees`. -/
structure InputPort where
  type : PortType
  entries : List Entry
  deriving DecidableEq, Repr

/-- `KsiNode`, less the buffers and what the audio threads use. -/
structure KsiNode where
  depNum : Int
  successors : List Nat
  id : Nat
  type : BitVec 32
  inputs : List InputPort
  outputs : List PortType
  deriving DecidableEq, Repr

def ksiNodeTypeOutputMask : BitVec 32 := 0xF0
def ksiNodeTypeOutputNormal : BitVec 32 := 0x00
def ksiNodeTypeOutputFinal : BitVec 32 := 0x10
def ksiNodeTypeScratchMask : BitVec 32 := 0xF00
def ksiNodeTypeScratchPredecessor : BitVec 32 := 0x100
def ksiNodeTypeDynamicInputType : BitVec 32 := 0x1000
def ksiNodeTypeDynamicOutputType : BitVec 32 := 0x2000
def ksiNodeTypeInlineNodeFuncMask : BitVec 32 := 0xFFFF0000

def ksiNodeTypeInlineId (t : BitVec 32) : Nat :=
  ((t &&& ksiNodeTypeInlineNodeFuncMask) >>> 16).toNat

/-- The node's type has the output type `ksiNodeTypeOutputNormal`. -/
def KsiNode.isNormal (n : KsiNode) : Bool :=
  n.type &&& ksiNodeTypeOutputMask == ksiNodeTypeOutputNormal

def KsiNode.isFinal (n : KsiNode) : Bool :=
  n.type &&& ksiNodeTypeOutputMask == ksiNodeTypeOutputFinal

/-- INLINE_LIST: the input and output ports of each plugin. -/
def inlinePorts : Nat → Option (List PortType × List PortType)
  | 1 => some ([ksiNodePortTypeFloat], [ksiNodePortTypeFloat])
  | 2 => some ([ksiNodePortTypeFloat], [ksiNodePortTypeFloat])
  | 3 => some ([], [ksiNodePortTypeFloat, ksiNodePortTypeEventGate])
  | 4 => some ([ksiNodePortTypeFloat, ksiNodePortTypeGate, ksiNodePortTypeInt32,
      ksiNodePortTypeFloat], [ksiNodePortTypeFloat, ksiNodePortTypeGate])
  | 5 => some ([ksiNodePortTypeEventGate, ksiNodePortTypeFloat, ksiNodePortTypeFloat,
      ksiNodePortTypeFloat, ksiNodePortTypeFloat], [ksiNodePortTypeFloat, ksiNodePortTypeGate])
  | 6 => some ([ksiNodePortTypeFloat, ksiNodePortTypeFloat], [ksiNodePortTypeFloat])
  | _ => none

/-! ### The state an edit works on -/

/-- The wiring of one version: `e->nodes[i]`, `e->finalNode[i]` and the nodes
themselves. -/
structure Graph where
  nodes : KsiVec NodePtr
  finalNode : Option NodePtr
  heap : NodePtr → Option KsiNode
  /-- the next address `ksiMalloc` gives to a node -/
  nextNode : NodePtr

/-- The buffers of a signal input port, `env[i].d`. -/
structure SignalEnv where
  buffer : Option BufPtr
  internalBufferPtr : Option BufPtr
  deriving DecidableEq, Repr

/-- A version of the graph, with its buffers. -/
structure Version where
  graph : Graph
  /-- `n->env[i].d`, the buffers of the signal ports -/
  env : NodePtr → Nat → SignalEnv
  /-- `n->outputBuffer[i]` -/
  outputBuffer : NodePtr → Nat → Option BufPtr

/-- `KsiEngine`: the version that `hotList` selects, and what the two versions share. -/
structure Engine extends Version where
  playing : Int
  mallocBufs : List BufPtr
  freeBufs : List BufPtr
  /-- the next address `ksiMalloc` gives to a buffer -/
  nextBuf : BufPtr
  /-- history: the buffers that have been freed -/
  freed : List BufPtr
  framesPerBuffer : Nat
  timeseqResources : KsiVec Nat

def ksiEngineNodesDefaultCapacity : Nat := 256

/-- A version without nodes. -/
def Version.empty : Version where
  graph :=
    { nodes := ksiVecInit NodePtr ksiEngineNodesDefaultCapacity
      finalNode := none
      heap := fun _ => none
      nextNode := 0 }
  env := fun _ _ => { buffer := none, internalBufferPtr := none }
  outputBuffer := fun _ _ => none

/-- `ksiEngineInit`. -/
def ksiEngineInit (framesPerBuffer : Nat) : Engine where
  toVersion := Version.empty
  playing := 0
  mallocBufs := []
  freeBufs := []
  nextBuf := 0
  freed := []
  framesPerBuffer := framesPerBuffer
  timeseqResources := ksiVecInit Nat ksiEngineNodesDefaultCapacity

/-- The kernels of the edits. -/
abbrev Edit := Prog Engine KsiError

/-- flag 0 for editing, flag 1 for committing. -/
inductive Flag
  | editing | committing
  deriving DecidableEq, Repr

/-! ### Reading and writing nodes -/

/-- `a[i]`, with nothing to read outside of the array. -/
def nth {α : Type} (a : List α) (i : Int) : Option α :=
  if i < 0 then none else a[i.toNat]?

/-- `*p`. -/
def load (p : NodePtr) : Edit KsiNode := Prog.read fun e => e.graph.heap p

/-- The graph with `f` done to the node at `p`. -/
def Graph.update (g : Graph) (p : NodePtr) (f : KsiNode → KsiNode) : Graph :=
  { g with heap := Function.update g.heap p ((g.heap p).map f) }

/-- Stores to the fields of `*p`. -/
def update (p : NodePtr) (f : KsiNode → KsiNode) : Edit Unit := do
  let _ ← load p
  Prog.modify fun e => { e with graph := e.graph.update p f }

/-- The node with `f` done to the entries of input port `i`. -/
def KsiNode.updateEntries (n : KsiNode) (i : Nat) (f : List Entry → List Entry) : KsiNode :=
  { n with inputs := n.inputs.modify i fun port => { port with entries := f port.entries } }

/-- `n->env[port]` and `n->inputTypes[port]`. -/
def loadInput (n : NodePtr) (port : Nat) : Edit InputPort :=
  Prog.read fun e => (e.graph.heap n).bind fun node => node.inputs[port]?

/-- `n->outputBuffer[port]`. -/
def loadOutput (n : NodePtr) (port : Int) : Edit (Option BufPtr) :=
  Prog.read fun e => (e.graph.heap n).bind fun node =>
    (nth node.outputs port).map fun _ => e.outputBuffer n port.toNat

/-- Stores to `n->env[port].d->buffer` and to `internalBufferPtr`. -/
def setEnv (n : NodePtr) (port : Nat) (f : SignalEnv → SignalEnv) : Edit Unit :=
  Prog.modify fun e => { e with
    env := Function.update e.env n (Function.update (e.env n) port (f (e.env n port))) }

def setOutput (n : NodePtr) (port : Nat) (b : Option BufPtr) : Edit Unit :=
  Prog.modify fun e => { e with
    outputBuffer := Function.update e.outputBuffer n (Function.update (e.outputBuffer n) port b) }

end Ksi.Dag

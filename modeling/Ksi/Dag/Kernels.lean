/-
The edit kernels of dagedit_kernels.h.

Each kernel works on the version that `hotList` selects, with flag 0 when a client edits
it and with flag 1 when the committer replays the edit on the other version.  An error
is returned from the place in the middle of the kernel where the C function returns it.
A kernel faults where the C function reads past an array, follows a pointer that is
NULL or freed, or fails one of its assertions (`debug_check_node` is one).

The memory of the lists and of the environments is not modelled, nor are the plugins:
their Init and Destroy functions and what they keep in `args` and `extArgs`.
-/
import Ksi.Scan
import Ksi.Dag.Data

namespace Ksi.Dag

open KsiError

/-! ### Shared buffers -/

/-- `ksiMVCCMonitoredMalloc`. -/
def ksiMVCCMonitoredMalloc (size : Nat) : Flag → Edit (Option BufPtr)
  | .editing => fun e =>
      if size = 0 then some (.ok none, e)
      else some (.ok (some e.nextBuf), { e with
        nextBuf := e.nextBuf + 1, mallocBufs := e.mallocBufs ++ [e.nextBuf] })
  | .committing => fun e =>
      if size = 0 then some (.ok none, e)
      else match e.mallocBufs with
        | [] => none
        | ret :: rest => some (.ok (some ret), { e with mallocBufs := rest })

/-- `ksiMVCCDeferredFree`. -/
def ksiMVCCDeferredFree (ptr : Option BufPtr) (flag : Flag) : Edit Unit := fun e =>
  match ptr, flag with
  | none, _ => some (.ok (), e)
  | some ptr, .editing => some (.ok (), { e with freeBufs := e.freeBufs ++ [ptr] })
  | some ptr, .committing =>
      match e.freeBufs with
      | [] => none
      | fptr :: rest =>
          if fptr = ptr then some (.ok (), { e with freeBufs := rest, freed := e.freed ++ [ptr] })
          else none

/-- `sizeof(KsiData)`. -/
def sizeofKsiData : Nat := 4

/-- `sizeof(KsiEventQueue)`, two pointers. -/
def sizeofKsiEventQueue : Nat := 16

/-- The buffer of an output port: an event queue, or `framesPerBuffer` values. -/
def mallocOutput (type : PortType) (flag : Flag) : Edit (Option BufPtr) :=
  if type.isEvent then ksiMVCCMonitoredMalloc sizeofKsiEventQueue flag
  else do
    let framesPerBuffer ← Prog.read fun e => some e.framesPerBuffer
    ksiMVCCMonitoredMalloc (sizeofKsiData * framesPerBuffer) flag

def impl_delete_env (n : NodePtr) (flag : Flag) (i : Nat) : Edit Unit := do
  let input ← loadInput n i
  if input.type.isEvent then pure ()
  else do
    let env ← Prog.read fun e => some (e.env n i)
    ksiMVCCDeferredFree env.buffer flag

def impl_delete_output (n : NodePtr) (flag : Flag) (i : Nat) : Edit Unit := do
  let output ← loadOutput n i
  ksiMVCCDeferredFree output flag

/-- The last branch of `refreshCopying`: the port mixes into a buffer of its own. -/
def refreshMixing (n : NodePtr) (port : Nat) (flag : Flag) : Edit Unit := do
  let env ← Prog.read fun e => some (e.env n port)
  match env.buffer with
  | some _ => setEnv n port fun env => { env with internalBufferPtr := env.buffer }
  | none => do
      let framesPerBuffer ← Prog.read fun e => some e.framesPerBuffer
      let buffer ← ksiMVCCMonitoredMalloc (sizeofKsiData * framesPerBuffer) flag
      setEnv n port fun _ => { buffer := buffer, internalBufferPtr := buffer }

def refreshCopying (n : NodePtr) (port : Nat) (flag : Flag) : Edit Unit := do
  let input ← loadInput n port
  if input.type.isEvent then pure ()
  else match input.entries with
    | [] => setEnv n port fun env => { env with internalBufferPtr := none }
    | [me] =>
        if ksiDataIsUnit me.gain input.type then do
          let env ← Prog.read fun e => some (e.env n port)
          ksiMVCCDeferredFree env.buffer flag
          setEnv n port fun env => { env with buffer := none }
          match me.src with
          | none => pure ()
          | some src => do
              let output ← loadOutput src me.srcPort
              setEnv n port fun env => { env with internalBufferPtr := output }
        else refreshMixing n port flag
    | _ => refreshMixing n port flag

/-! ### Checks -/

/-- CHECK_INITIALIED. -/
def checkInitialized : Edit Unit := do
  let playing ← Prog.read fun e => some e.playing
  Prog.require (playing ≠ -2) ksiErrorUninitialized

/-- CHECK_VEC. -/
def checkVec (id : Int) (err : KsiError) : Edit NodePtr := do
  let slot ← Prog.read fun e => e.graph.nodes.check id
  Prog.orError slot err

/-- `debug_check_node`. -/
def debug_check_node (n : NodePtr) : Edit Unit := do
  let node ← load n
  Prog.assert fun e => e.graph.nodes.data node.id = some n

/-- CHECK_DES_PORT, and the port's input type. -/
def checkDesPort (des : NodePtr) (port : Int) (err : KsiError) : Edit PortType := do
  let node ← load des
  Prog.require (port < node.inputs.length) err
  Prog.read fun _ => (nth node.inputs port).map (·.type)

/-! ### Adding a node -/

/-- The loop over the outputs of a new node. -/
def newOutputs (n : NodePtr) (flag : Flag) : Nat → List PortType → Edit Unit
  | _, [] => pure ()
  | i, type :: rest => do
      let buffer ← mallocOutput type flag
      setOutput n i buffer
      newOutputs n flag (i + 1) rest

/-- `ksiMalloc(sizeof(KsiNode))` and the stores to the new node, its environments among
them. -/
def newNode (node : KsiNode) : Edit NodePtr := fun e =>
  let n := e.graph.nextNode
  some (.ok n, { e with
    graph := { e.graph with
      heap := Function.update e.graph.heap n (some node), nextNode := n + 1 }
    env := Function.update e.env n fun _ => { buffer := none, internalBufferPtr := none } })

def insertNode (n : NodePtr) : Edit Nat := fun e =>
  let inserted := ksiVecInsert e.graph.nodes n
  some (.ok inserted.1, { e with graph := { e.graph with nodes := inserted.2 } })

def setFinalNode (n : Option NodePtr) : Edit Unit :=
  Prog.modify fun e => { e with graph := { e.graph with finalNode := n } }

/-- Returns the id; the node that is given up with `ksiErrorNoPlugin` is not in the
version, and left out. -/
def impl_ksiEngineAddNode (typeFlags : BitVec 32) (flag : Flag) : Edit Nat := do
  checkInitialized
  let finalNode ← Prog.read fun e => some e.graph.finalNode
  Prog.require (¬ (typeFlags &&& ksiNodeTypeOutputMask = ksiNodeTypeOutputFinal ∧
    finalNode.isSome)) ksiErrorMultipleFinal
  let ports ← Prog.orError (inlinePorts (ksiNodeTypeInlineId typeFlags)) ksiErrorNoPlugin
  let n ← newNode
    { depNum := 0
      successors := []
      id := 0
      type := typeFlags
      inputs := ports.1.map fun type => { type := type, entries := [] }
      outputs := ports.2 }
  Prog.when (typeFlags &&& ksiNodeTypeOutputMask = ksiNodeTypeOutputNormal)
    (newOutputs n flag 0 ports.2)
  Prog.when (typeFlags &&& ksiNodeTypeOutputMask = ksiNodeTypeOutputFinal)
    (setFinalNode (some n))
  let ret ← insertNode n
  update n fun node => { node with id := ret }
  pure ret

/-! ### Wires and biases -/

/-- The entry is a wire from this output port. -/
def Entry.isFrom (e : Entry) (src : NodePtr) (srcPort : Int) : Bool :=
  e.src == some src && e.srcPort == srcPort

/-- `me->gain = gain` for the first entry that meets `p`. -/
def setGain (p : Entry → Bool) (gain : KsiData) : List Entry → List Entry
  | [] => []
  | me :: rest => if p me then { me with gain := gain } :: rest else me :: setGain p gain rest

/-- The part of MakeWire that links the two nodes. -/
def link (src des : NodePtr) (desId : Nat) : Edit Unit := do
  let node ← load src
  if desId ∈ node.successors then pure ()
  else do
    update src fun node => { node with successors := desId :: node.successors }
    update des fun node => { node with depNum := node.depNum + 1 }

def impl_ksiEngineMakeWire (srcId srcPort desId desPort : Int) (gain : KsiData) (flag : Flag) :
    Edit Unit := do
  checkInitialized
  let src ← checkVec srcId ksiErrorSrcIdNotFound
  let des ← checkVec desId ksiErrorDesIdNotFound
  let srcNode ← load src
  Prog.require (srcPort < srcNode.outputs.length) ksiErrorSrcPortNotFound
  let desType ← checkDesPort des desPort ksiErrorDesPortNotFound
  let srcType ← Prog.read fun _ => nth srcNode.outputs srcPort
  Prog.require (desType &&& ksiNodePortTypeMask = srcType &&& ksiNodePortTypeMask) ksiErrorType
  link src des desId.toNat
  let input ← loadInput des desPort.toNat
  if desType.isEvent then do
    Prog.require (¬ input.entries.any (·.isFrom src srcPort)) ksiErrorAlreadyWire
    update des (·.updateEntries desPort.toNat
      ({ src := some src, srcPort := srcPort, gain := 0 } :: ·))
  else if input.entries.any (·.isFrom src srcPort) then do
    debug_check_node src
    update des (·.updateEntries desPort.toNat (setGain (·.isFrom src srcPort) gain))
    refreshCopying des desPort.toNat flag
  else do
    update des (·.updateEntries desPort.toNat
      ({ src := some src, srcPort := srcPort, gain := gain } :: ·))
    refreshCopying des desPort.toNat flag

/-- The search of MakeBias for a bias, with its check of the entries before it. -/
def findBias : List Entry → Edit Bool
  | [] => pure false
  | me :: rest =>
      match me.src with
      | none => pure true
      | some src => do
          debug_check_node src
          findBias rest

def impl_ksiEngineMakeBias (desId desPort : Int) (bias : KsiData) (flag : Flag) : Edit Unit := do
  checkInitialized
  let des ← checkVec desId ksiErrorIdNotFound
  let type ← checkDesPort des desPort ksiErrorPortNotFound
  Prog.require (¬ type.isEvent) ksiErrorNeedSignal
  let input ← loadInput des desPort.toNat
  let found ← findBias input.entries
  update des (·.updateEntries desPort.toNat fun mixer =>
    if found then setGain (·.src.isNone) bias mixer
    else { src := none, srcPort := 0, gain := bias } :: mixer)
  refreshCopying des desPort.toNat flag

/-! ### Detaching and removing -/

def delete_src (des : NodePtr) (src : NodePtr) (flag : Flag) (i : Nat) : Edit Unit := do
  let _ ← loadInput des i
  update des (·.updateEntries i (·.filter fun e => e.src != some src))
  refreshCopying des i flag

/-- The loop over the input ports of `des`. -/
def deleteSrcs (des src : NodePtr) (flag : Flag) : Edit Unit := do
  let node ← load des
  Prog.forEach (List.range node.inputs.length) (delete_src des src flag)

def impl_ksiEngineDetachNodes (srcId desId : Int) (flag : Flag) : Edit Unit := do
  checkInitialized
  let src ← checkVec srcId ksiErrorSrcIdNotFound
  let des ← checkVec desId ksiErrorDesIdNotFound
  update des fun node => { node with depNum := node.depNum - 1 }
  deleteSrcs des src flag
  update src fun node => { node with successors := node.successors.erase desId.toNat }

/-- Every successor of a removed node is counted down and loses its entries. -/
def releaseSuccessor (n : NodePtr) (flag : Flag) (loc : Nat) : Edit Unit := do
  let s ← Prog.read fun e => e.graph.nodes.data loc
  update s fun node => { node with depNum := node.depNum - 1 }
  deleteSrcs s n flag

/-- REG_PRECS over a list of entries: the predecessors found so far, each marked. -/
def regPrecs : List Entry → List NodePtr → Edit (List NodePtr)
  | [], precs => pure precs
  | me :: rest, precs =>
      match me.src with
      | none => regPrecs rest precs
      | some p => do
          debug_check_node p
          let node ← load p
          if node.type &&& ksiNodeTypeScratchPredecessor = 0 then do
            update p fun node => { node with type := node.type ||| ksiNodeTypeScratchPredecessor }
            regPrecs rest (p :: precs)
          else regPrecs rest precs

/-- A marked predecessor is unmarked and loses the successor. -/
def releasePrec (id : Nat) (p : NodePtr) : Edit Unit := do
  update p fun node => { node with type := node.type &&& ~~~ ksiNodeTypeScratchPredecessor }
  update p fun node => { node with successors := node.successors.erase id }

def impl_ksiEngineRemoveNode (id : Int) (flag : Flag) : Edit NodePtr := do
  checkInitialized
  let n ← checkVec id ksiErrorIdNotFound
  Prog.modify fun e => { e with
    graph := { e.graph with nodes := ksiVecDelete e.graph.nodes id.toNat } }
  let node ← load n
  Prog.forEach node.successors (releaseSuccessor n flag)
  let node ← load n
  let precs ← regPrecs (node.inputs.flatMap (·.entries)) []
  Prog.forEach precs (releasePrec node.id)
  let node ← load n
  Prog.when node.isFinal (setFinalNode none)
  pure n

/-- The search of RemoveWire: what it leaves of the entries, how many other entries from
`src` it has met, and whether it has deleted one. -/
def unwire (src : NodePtr) (srcPort : Int) :
    List Entry → Nat → Bool → Edit (List Entry × Nat × Bool)
  | [], foundEntries, deleted => pure ([], foundEntries, deleted)
  | me :: rest, foundEntries, deleted =>
      if me.src = some src then do
        debug_check_node src
        if me.srcPort = srcPort then
          if foundEntries ≠ 0 then pure (rest, foundEntries, true)
          else unwire src srcPort rest foundEntries true
        else if deleted then pure (me :: rest, foundEntries + 1, deleted)
        else do
          let (rest, foundEntries, deleted) ← unwire src srcPort rest (foundEntries + 1) deleted
          pure (me :: rest, foundEntries, deleted)
      else do
        let (rest, foundEntries, deleted) ← unwire src srcPort rest foundEntries deleted
        pure (me :: rest, foundEntries, deleted)

def impl_ksiEngineRemoveWire (srcId srcPort desId desPort : Int) (flag : Flag) : Edit Unit := do
  checkInitialized
  let src ← checkVec srcId ksiErrorSrcIdNotFound
  let des ← checkVec desId ksiErrorDesIdNotFound
  let srcNode ← load src
  Prog.require (srcPort < srcNode.outputs.length) ksiErrorSrcPortNotFound
  let type ← checkDesPort des desPort ksiErrorDesPortNotFound
  let input ← loadInput des desPort.toNat
  let (entries, foundEntries, deleted) ← unwire src srcPort input.entries 0 false
  update des (·.updateEntries desPort.toNat fun _ => entries)
  Prog.when (foundEntries = 0 ∧ deleted) do
    let desNode ← load des
    update src fun node => { node with successors := node.successors.erase desNode.id }
    update des fun node => { node with depNum := node.depNum - 1 }
  if deleted ∧ ¬ type.isEvent then refreshCopying des desPort.toNat flag
  else Prog.error ksiErrorWireNotFound

/-- `ksiEngineDestroyNode`, and the `free` of the node that its callers add. -/
def ksiEngineDestroyNode (n : NodePtr) (flag : Flag) : Edit Unit := do
  let node ← load n
  Prog.forEach (List.range node.inputs.length) (impl_delete_env n flag)
  Prog.when node.isNormal
    (Prog.forEach (List.range node.outputs.length) (impl_delete_output n flag))
  Prog.modify fun e => { e with
    graph := { e.graph with heap := Function.update e.graph.heap n none } }

/-! ### Changing the number of ports -/

/-- The indices from `i` to `j`. -/
def indices (i j : Nat) : List Nat := List.range' i (j - i)

/-- `impl_ksiNodeChangeInputPortCount`.  The first change copies the plugin's types into
an array of the new length, and then reads the types of the ports to delete from it. -/
def impl_ksiNodeChangeInputPortCount (n : NodePtr) (port_count : Nat) (newTypes : List PortType)
    (flag : Flag) : Edit Unit := do
  let node ← load n
  let inputCount := node.inputs.length
  let dynamic := node.type &&& ksiNodeTypeDynamicInputType ≠ 0
  Prog.assert fun _ => dynamic ∨ inputCount ≤ port_count
  Prog.assert fun _ => port_count - inputCount ≤ newTypes.length ∧ newTypes.all (! ·.isEvent)
  update n fun node => { node with type := node.type ||| ksiNodeTypeDynamicInputType }
  Prog.forEach (indices port_count inputCount) (impl_delete_env n flag)
  update n fun node => { node with
    inputs := node.inputs.take port_count ++
      (newTypes.take (port_count - inputCount)).map fun type => { type := type, entries := [] } }
  Prog.forEach (indices inputCount port_count) fun i =>
    setEnv n i fun _ => { buffer := none, internalBufferPtr := none }

/-- `impl_ksiNodeChangeOutputPortCount`. -/
def impl_ksiNodeChangeOutputPortCount (n : NodePtr) (port_count : Nat) (newTypes : List PortType)
    (flag : Flag) : Edit Unit := do
  let node ← load n
  let outputCount := node.outputs.length
  let dynamic := node.type &&& ksiNodeTypeDynamicOutputType ≠ 0
  Prog.assert fun _ => dynamic ∨ ¬ node.isNormal ∨ outputCount ≤ port_count
  Prog.assert fun _ => port_count - outputCount ≤ newTypes.length
  update n fun node => { node with type := node.type ||| ksiNodeTypeDynamicOutputType }
  Prog.when node.isNormal
    (Prog.forEach (indices port_count outputCount) (impl_delete_output n flag))
  update n fun node => { node with
    outputs := node.outputs.take port_count ++ newTypes.take (port_count - outputCount) }
  Prog.when node.isNormal
    (newOutputs n flag outputCount (newTypes.take (port_count - outputCount)))

/-- `sscanf(args, "%d", &i)`: the number, if there is one. -/
def scanInt (args : String) : Option Int := (scanD args.toList).map (·.1)

/-- `ksiBuiltinNodeFuncIdEditCmd`. -/
def ksiBuiltinNodeFuncIdEditCmd (n : NodePtr) (args : String) (flag : Flag) : Edit Unit := do
  let port_count ← Prog.orError (scanInt args) ksiErrorSyntax
  Prog.require (0 < port_count) ksiErrorPlugin
  let node ← load n
  let newTypes := List.replicate (port_count.toNat - node.inputs.length) ksiNodePortTypeFloat
  impl_ksiNodeChangeInputPortCount n port_count.toNat newTypes flag
  impl_ksiNodeChangeOutputPortCount n port_count.toNat newTypes flag

/-- `kscarletMidiSegEditCmd`, less the sequence it sets in the plugin's own data. -/
def kscarletMidiSegEditCmd (args : String) : Edit Unit :=
  match args.toList with
  | 'm' :: rest => do
      let mid ← Prog.orError (scanInt (String.ofList rest)) ksiErrorSyntax
      let slot ← Prog.read fun e => e.timeseqResources.check mid
      let _ ← Prog.orError slot ksiErrorTimeSeqIdNotFound
      pure ()
  | 'p' :: _ | 'P' :: _ => pure ()
  | _ => Prog.error ksiErrorSyntax

def impl_ksiEngineSendEditingCommand (id : Int) (args : String) (flag : Flag) : Edit Unit := do
  checkInitialized
  let n ← checkVec id ksiErrorIdNotFound
  let node ← load n
  match ksiNodeTypeInlineId node.type with
  | 1 => ksiBuiltinNodeFuncIdEditCmd n args flag
  | 3 => kscarletMidiSegEditCmd args
  | 2 | 4 | 5 | 6 => Prog.error ksiErrorNoEditCmd
  | _ => pure ()

end Ksi.Dag

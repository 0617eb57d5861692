/-
What the kernels are made of.

But for the nodes that AddNode and RemoveNode bring in and take out, and for the port
counts, a kernel reads, checks, stores to fields that do not change what a node is, and
refreshes the buffers of ports.  A property of programs that these parts have, and that
a program has when its parts have it, is one of the kernels.  The walk through each of
them is made here once.  No error of a kernel is `ksiErrorNone`.
-/
import Ksi.Proofs.Dag.Spec
import Ksi.Dag.Commit

namespace Ksi.Dag

open Prog

variable {p n src des : NodePtr} {i port : Nat} {flag : Flag}

/-- What of a node decides which buffers it has: whether its outputs are its own, how many
there are, and the types of its inputs. -/
def KsiNode.shape (node : KsiNode) : Bool × Nat × List PortType :=
  (node.isNormal, node.outputs.length, node.inputs.map (·.type))

/-- A store that leaves a node the id, the plugin and the ports it had, and gives it no
successor. -/
structure Mild (f : KsiNode → KsiNode) : Prop where
  id : ∀ node, (f node).id = node.id
  inline : ∀ node, ksiNodeTypeInlineId (f node).type = ksiNodeTypeInlineId node.type
  shape : ∀ node, (f node).shape = node.shape
  outputs : ∀ node, (f node).outputs = node.outputs
  successors : ∀ node, ∀ b ∈ (f node).successors, b ∈ node.successors
  /-- the flags of the ports stay set -/
  dynamic : ∀ node, ∀ t ∈ [ksiNodeTypeDynamicInputType, ksiNodeTypeDynamicOutputType],
    (f node).type &&& t = 0 → node.type &&& t = 0

theorem mild_depNum (f : Int → Int) : Mild fun node => { node with depNum := f node.depNum } :=
  ⟨fun _ => rfl, fun _ => rfl, fun _ => rfl, fun _ => rfl, fun _ _ hb => hb, fun _ _ _ h => h⟩

theorem mild_erase (id : Nat) :
    Mild fun node => { node with successors := node.successors.erase id } :=
  ⟨fun _ => rfl, fun _ => rfl, fun _ => rfl, fun _ => rfl, fun _ _ hb => List.mem_of_mem_erase hb,
    fun _ _ _ h => h⟩

theorem updateEntries_types (f : List Entry → List Entry) (node : KsiNode) :
    (node.updateEntries i f).inputs.map (·.type) = node.inputs.map (·.type) := by
  refine List.ext_getElem (by simp [KsiNode.updateEntries]) fun j _ _ => ?_
  simp only [KsiNode.updateEntries, List.getElem_map, List.getElem_modify]
  split <;> rfl

theorem mild_updateEntries (f : List Entry → List Entry) : Mild (·.updateEntries i f) := by
  refine ⟨fun _ => rfl, fun _ => rfl, fun node => ?_, fun _ => rfl, fun _ _ hb => hb,
    fun _ _ _ h => h⟩
  unfold KsiNode.shape
  rw [updateEntries_types]
  rfl

/-- Flags outside of the output type and of the plugin's id. -/
theorem mild_type {f : BitVec 32 → BitVec 32}
    (houtput : ∀ t, f t &&& ksiNodeTypeOutputMask = t &&& ksiNodeTypeOutputMask)
    (hinline : ∀ t, f t &&& ksiNodeTypeInlineNodeFuncMask = t &&& ksiNodeTypeInlineNodeFuncMask)
    (hdynamic : ∀ type, ∀ t ∈ [ksiNodeTypeDynamicInputType, ksiNodeTypeDynamicOutputType],
      f type &&& t = 0 → type &&& t = 0) :
    Mild fun node => { node with type := f node.type } := by
  refine ⟨fun _ => rfl, fun node => ?_, fun node => ?_, fun _ => rfl, fun _ _ hb => hb,
    fun _ => hdynamic _⟩
  · unfold ksiNodeTypeInlineId
    rw [hinline]
  · unfold KsiNode.shape KsiNode.isNormal
    rw [houtput]

theorem or_and_of_disjoint {t flag mask : BitVec 32} (hflag : flag &&& mask = 0) :
    (t ||| flag) &&& mask = t &&& mask := by
  rw [BitVec.and_comm, BitVec.and_or_distrib_left, BitVec.and_comm _ flag, hflag, BitVec.and_comm]
  exact BitVec.or_zero

theorem and_eq_zero_of_or {t flag mask : BitVec 32} (h : (t ||| flag) &&& mask = 0) :
    t &&& mask = 0 := by
  rw [BitVec.and_comm, BitVec.and_or_distrib_left] at h
  rw [BitVec.and_comm]
  exact (BitVec.or_eq_zero_iff.mp h).1

theorem mild_flag {flag : BitVec 32} (houtput : flag &&& ksiNodeTypeOutputMask = 0)
    (hinline : flag &&& ksiNodeTypeInlineNodeFuncMask = 0) :
    Mild fun node => { node with type := node.type ||| flag } :=
  mild_type (fun _ => or_and_of_disjoint houtput) (fun _ => or_and_of_disjoint hinline)
    fun _ _ _ h =>
    and_eq_zero_of_or h

theorem mild_unmark :
    Mild fun node => { node with type := node.type &&& ~~~ksiNodeTypeScratchPredecessor } := by
  refine mild_type (f := (· &&& ~~~ksiNodeTypeScratchPredecessor)) (fun t => ?_) (fun t => ?_)
    fun type t ht h => ?_
  · rw [BitVec.and_assoc, show ~~~ksiNodeTypeScratchPredecessor &&& ksiNodeTypeOutputMask =
      ksiNodeTypeOutputMask by decide]
  · rw [BitVec.and_assoc, show ~~~ksiNodeTypeScratchPredecessor &&& ksiNodeTypeInlineNodeFuncMask =
      ksiNodeTypeInlineNodeFuncMask by decide]
  · have hkeep : ∀ t ∈ [ksiNodeTypeDynamicInputType, ksiNodeTypeDynamicOutputType],
        ~~~ksiNodeTypeScratchPredecessor &&& t = t := by
      simp only [List.forall_mem_cons]
      exact ⟨by decide, by decide, fun _ h => absurd h List.not_mem_nil⟩
    rwa [BitVec.and_assoc, hkeep t ht] at h

/-- What RemoveNode does once it has emptied the slot of `n`. -/
def removeRest (flag : Flag) (n : NodePtr) : Edit NodePtr := do
  let node ← load n
  Prog.forEach node.successors (releaseSuccessor n flag)
  let node ← load n
  let precs ← regPrecs (node.inputs.flatMap (·.entries)) []
  Prog.forEach precs (releasePrec node.id)
  let node ← load n
  Prog.when node.isFinal (setFinalNode none)
  pure n

theorem impl_ksiEngineRemoveNode_eq (id : Int) :
    impl_ksiEngineRemoveNode id flag = checkInitialized >>= fun _ =>
      checkVec id .ksiErrorIdNotFound >>= fun n => (Prog.modify fun e => { e with
        graph := { e.graph with nodes := ksiVecDelete e.graph.nodes id.toNat } }) >>= fun _ =>
          removeRest flag n := rfl

/-! ### The walk -/

/-- A property that the parts of the kernels have. -/
structure Walks (flag : Flag) (K : ∀ {α : Type}, Edit α → Prop) : Prop
    extends Compositional (· ≠ KsiError.ksiErrorNone) K where
  update : ∀ {p : NodePtr} {f : KsiNode → KsiNode}, Mild f → K (update p f)
  refreshCopying : ∀ n port, K (refreshCopying n port flag)

namespace Walks

variable {K : ∀ {α : Type}, Edit α → Prop} (hK : Walks flag K)
include hK

theorem load : K (load p) := hK.read _

theorem checkInitialized : K checkInitialized := hK.bind (hK.read _) fun _ => hK.require (by decide)

theorem checkVec (id : Int) {err : KsiError} (herr : err ≠ .ksiErrorNone) : K (checkVec id err) :=
  hK.bind (hK.read _) fun _ => hK.orError _ herr

theorem checkDesPort (port : Int) {err : KsiError} (herr : err ≠ .ksiErrorNone) :
    K (checkDesPort des port err) :=
  hK.bind hK.load fun _ => hK.bind (hK.require herr) fun _ => hK.read _

theorem debug_check_node : K (debug_check_node n) := hK.bind hK.load fun _ => hK.assert _

/-! #### Wires and biases -/

theorem delete_src : K (delete_src des src flag i) :=
  hK.bind (hK.read _) fun _ => hK.bind (hK.update (mild_updateEntries _)) fun _ =>
    hK.refreshCopying _ _

theorem deleteSrcs : K (deleteSrcs des src flag) :=
  hK.bind hK.load fun _ => hK.forEach (fun _ => hK.delete_src) _

/-- MakeWire, but for the part that links the nodes. -/
theorem impl_ksiEngineMakeWire {srcId srcPort desId desPort : Int} {gain : KsiData}
    (hlink : ∀ src des, K (link src des desId.toNat)) :
    K (impl_ksiEngineMakeWire srcId srcPort desId desPort gain flag) := by
  have hentries : ∀ (des : NodePtr) (f : List Entry → List Entry),
      K (Dag.update des (·.updateEntries desPort.toNat f)) := fun _ f =>
    hK.update (mild_updateEntries f)
  refine hK.bind hK.checkInitialized fun _ => hK.bind (hK.checkVec _ (by decide)) fun src =>
    hK.bind (hK.checkVec _ (by decide)) fun des => hK.bind hK.load fun srcNode =>
      hK.bind (hK.require (by decide)) fun _ =>
        hK.bind (hK.checkDesPort _ (by decide)) fun desType =>
        hK.bind (hK.read _) fun srcType => hK.bind (hK.require (by decide)) fun _ =>
          hK.bind (hlink src des) fun _ => hK.bind (hK.read _) fun input => ?_
  refine hK.ite (hK.bind (hK.require (by decide)) fun _ => hentries des _) (hK.ite ?_ ?_)
  · exact hK.bind hK.debug_check_node fun _ => hK.bind (hentries des _) fun _ =>
      hK.refreshCopying _ _
  · exact hK.bind (hentries des _) fun _ => hK.refreshCopying _ _

theorem findBias : ∀ entries : List Entry, K (findBias entries) := by
  intro entries
  induction entries with
  | nil => exact hK.pure false
  | cons me rest ih =>
      unfold Dag.findBias
      cases me.src with
      | none => exact hK.pure true
      | some src => exact hK.bind hK.debug_check_node fun _ => ih

theorem impl_ksiEngineMakeBias (desId desPort : Int) (bias : KsiData) :
    K (impl_ksiEngineMakeBias desId desPort bias flag) :=
  hK.bind hK.checkInitialized fun _ => hK.bind (hK.checkVec _ (by decide)) fun _ =>
    hK.bind (hK.checkDesPort _ (by decide)) fun _ => hK.bind (hK.require (by decide)) fun _ =>
      hK.bind (hK.read _) fun _ => hK.bind (hK.findBias _) fun _ =>
        hK.bind (hK.update (mild_updateEntries _)) fun _ => hK.refreshCopying _ _

/-! #### Detaching and removing -/

theorem impl_ksiEngineDetachNodes (srcId desId : Int) :
    K (impl_ksiEngineDetachNodes srcId desId flag) :=
  hK.bind hK.checkInitialized fun _ => hK.bind (hK.checkVec _ (by decide)) fun _ =>
    hK.bind (hK.checkVec _ (by decide)) fun _ => hK.bind (hK.update (mild_depNum (· - 1))) fun _ =>
      hK.bind hK.deleteSrcs fun _ => hK.update (mild_erase _)

theorem unwire (srcPort : Int) : ∀ (entries : List Entry) (foundEntries : Nat) (deleted : Bool),
    K (unwire src srcPort entries foundEntries deleted) := by
  intro entries
  induction entries with
  | nil => exact fun foundEntries deleted => hK.pure _
  | cons me rest ih =>
      intro foundEntries deleted
      unfold Dag.unwire
      refine hK.ite (hK.bind hK.debug_check_node fun _ => hK.ite ?_ (hK.ite (hK.pure _) ?_)) ?_
      · exact hK.ite (hK.pure _) (ih _ _)
      · exact hK.bind (ih _ _) fun _ => hK.pure _
      · exact hK.bind (ih _ _) fun _ => hK.pure _

theorem impl_ksiEngineRemoveWire (srcId srcPort desId desPort : Int) :
    K (impl_ksiEngineRemoveWire srcId srcPort desId desPort flag) :=
  hK.bind hK.checkInitialized fun _ => hK.bind (hK.checkVec _ (by decide)) fun _ =>
    hK.bind (hK.checkVec _ (by decide)) fun _ =>
      hK.bind hK.load fun _ => hK.bind (hK.require (by decide)) fun _ =>
      hK.bind (hK.checkDesPort _ (by decide)) fun _ => hK.bind (hK.read _) fun _ =>
        hK.bind (hK.unwire _ _ _ _) fun _ => hK.bind (hK.update (mild_updateEntries _)) fun _ =>
          hK.bind (hK.when (hK.bind hK.load fun _ => hK.bind (hK.update (mild_erase _)) fun _ =>
            hK.update (mild_depNum (· - 1)))) fun _ =>
              hK.ite (hK.refreshCopying _ _) (hK.error _ (by decide))

theorem releaseSuccessor {loc : Nat} : K (releaseSuccessor n flag loc) :=
  hK.bind (hK.read _) fun _ => hK.bind (hK.update (mild_depNum (· - 1))) fun _ => hK.deleteSrcs

theorem regPrecs :
    ∀ (entries : List Entry) (precs : List NodePtr), K (regPrecs entries precs) := by
  intro entries
  induction entries with
  | nil => exact fun precs => hK.pure precs
  | cons me rest ih =>
      intro precs
      unfold Dag.regPrecs
      cases me.src with
      | none => exact ih precs
      | some p =>
          exact hK.bind hK.debug_check_node fun _ => hK.bind hK.load fun _ =>
            hK.ite (hK.bind (hK.update (mild_flag (by decide) (by decide))) fun _ => ih _) (ih _)

theorem releasePrec {id : Nat} : K (releasePrec id p) :=
  hK.bind (hK.update mild_unmark) fun _ => hK.update (mild_erase id)

/-- What RemoveNode does once it has emptied the slot, given the store to `finalNode`. -/
theorem removeRest (hfinal : K (setFinalNode none)) : K (removeRest flag n) :=
  hK.bind hK.load fun _ => hK.bind (hK.forEach (fun _ => hK.releaseSuccessor) _) fun _ =>
    hK.bind hK.load fun _ => hK.bind (hK.regPrecs _ _) fun _ =>
      hK.bind (hK.forEach (fun _ => hK.releasePrec) _) fun _ => hK.bind hK.load fun _ =>
        hK.bind (hK.when hfinal) fun _ => hK.pure n

/-- RemoveNode, given the deletion from the vector too. -/
theorem impl_ksiEngineRemoveNode {id : Int}
    (hdelete : K (modify fun e : Engine => { e with
      graph := { e.graph with nodes := ksiVecDelete e.graph.nodes id.toNat } }))
    (hfinal : K (setFinalNode none)) : K (impl_ksiEngineRemoveNode id flag) :=
  hK.bind hK.checkInitialized fun _ => hK.bind (hK.checkVec _ (by decide)) fun _ =>
    hK.bind hdelete fun _ => hK.removeRest hfinal

/-- MidiSeg's command touches no graph. -/
theorem kscarletMidiSegEditCmd (args : String) : K (kscarletMidiSegEditCmd args) := by
  unfold Dag.kscarletMidiSegEditCmd
  split
  · exact hK.bind (hK.orError _ (by decide)) fun _ => hK.bind (hK.read _) fun _ =>
      hK.bind (hK.orError _ (by decide)) fun _ => hK.pure ()
  · exact hK.pure ()
  · exact hK.pure ()
  · exact hK.error _ (by decide)

/-- SendEditingCommand, given the command of Id. -/
theorem impl_ksiEngineSendEditingCommand {id : Int} {args : String}
    (hId : ∀ n, K (ksiBuiltinNodeFuncIdEditCmd n args flag)) :
    K (impl_ksiEngineSendEditingCommand id args flag) := by
  refine hK.bind hK.checkInitialized fun _ => hK.bind (hK.checkVec _ (by decide)) fun n =>
    hK.bind hK.load fun node => ?_
  split
  · exact hId n
  · exact hK.kscarletMidiSegEditCmd args
  · exact hK.error _ (by decide)
  · exact hK.error _ (by decide)
  · exact hK.error _ (by decide)
  · exact hK.error _ (by decide)
  · exact hK.pure ()

end Walks

/-! ### The kernels that bring buffers in or take them away -/

/-- A store that leaves a node its id and its plugin, and gives it no successor. -/
structure Renews (f : KsiNode → KsiNode) : Prop where
  id : ∀ node, (f node).id = node.id
  inline : ∀ node, ksiNodeTypeInlineId (f node).type = ksiNodeTypeInlineId node.type
  successors : ∀ node, ∀ b ∈ (f node).successors, b ∈ node.successors

theorem Mild.renews {f : KsiNode → KsiNode} (hf : Mild f) : Renews f :=
  ⟨hf.id, hf.inline, hf.successors⟩

/-- A property that the parts of the kernels have whatever they do to the ports. -/
structure PortWalks (flag : Flag) (K : ∀ {α : Type}, Edit α → Prop) : Prop
    extends Walks flag K where
  renew : ∀ {p : NodePtr} {f : KsiNode → KsiNode}, Renews f → K (Dag.update p f)
  setEnv : ∀ n i f, K (setEnv n i f)
  free : ∀ ptr, K (ksiMVCCDeferredFree ptr flag)
  newOutputs : ∀ n i types, K (newOutputs n flag i types)

namespace PortWalks

variable {K : ∀ {α : Type}, Edit α → Prop} (hK : PortWalks flag K)
include hK

theorem impl_delete_env : K (impl_delete_env n flag i) :=
  hK.bind (hK.read _) fun _ => hK.ite (hK.pure ()) (hK.bind (hK.read _) fun _ => hK.free _)

theorem impl_delete_output : K (impl_delete_output n flag i) :=
  hK.bind (hK.read _) fun _ => hK.free _

/-- The end of a node, given the `free` of the node. -/
theorem ksiEngineDestroyNode
    (hfree : K (modify fun e : Engine => { e with
      graph := { e.graph with heap := Function.update e.graph.heap n none } })) :
    K (ksiEngineDestroyNode n flag) :=
  hK.bind (hK.read _) fun _ => hK.bind (hK.forEach (fun _ => hK.impl_delete_env) _) fun _ =>
    hK.bind (hK.when (hK.forEach (fun _ => hK.impl_delete_output) _)) fun _ => hfree

theorem impl_ksiNodeChangeInputPortCount (k : Nat) (types : List PortType) :
    K (impl_ksiNodeChangeInputPortCount n k types flag) :=
  hK.bind (hK.read _) fun _ => hK.bind (hK.assert _) fun _ => hK.bind (hK.assert _) fun _ =>
    hK.bind (hK.update (mild_flag (by decide) (by decide))) fun _ =>
      hK.bind (hK.forEach (fun _ => hK.impl_delete_env) _) fun _ =>
        hK.bind (hK.renew ⟨fun _ => rfl, fun _ => rfl, fun _ _ hb => hb⟩) fun _ =>
          hK.forEach (fun i => hK.setEnv n i _) _

theorem impl_ksiNodeChangeOutputPortCount (k : Nat) (types : List PortType) :
    K (impl_ksiNodeChangeOutputPortCount n k types flag) :=
  hK.bind (hK.read _) fun _ => hK.bind (hK.assert _) fun _ => hK.bind (hK.assert _) fun _ =>
    hK.bind (hK.update (mild_flag (by decide) (by decide))) fun _ =>
      hK.bind (hK.when (hK.forEach (fun _ => hK.impl_delete_output) _)) fun _ =>
        hK.bind (hK.renew ⟨fun _ => rfl, fun _ => rfl, fun _ _ hb => hb⟩) fun _ =>
          hK.when (hK.newOutputs _ _ _)

theorem ksiBuiltinNodeFuncIdEditCmd (args : String) :
    K (ksiBuiltinNodeFuncIdEditCmd n args flag) :=
  hK.bind (hK.orError _ (by decide)) fun _ => hK.bind (hK.require (by decide)) fun _ =>
    hK.bind (hK.read _) fun _ => hK.bind (hK.impl_ksiNodeChangeInputPortCount _ _) fun _ =>
      hK.impl_ksiNodeChangeOutputPortCount _ _

theorem impl_ksiEngineSendEditingCommand (id : Int) (args : String) :
    K (impl_ksiEngineSendEditingCommand id args flag) :=
  hK.toWalks.impl_ksiEngineSendEditingCommand fun _ => hK.ksiBuiltinNodeFuncIdEditCmd args

end PortWalks

/-! ### Properties of the wiring alone -/

/-- A property that the parts of the kernels have whatever they do to the buffers, and to
the ports. -/
structure GraphWalks (K : ∀ {α : Type}, Edit α → Prop) : Prop
    extends Compositional (· ≠ KsiError.ksiErrorNone) K where
  update : ∀ {p : NodePtr} {f : KsiNode → KsiNode}, Renews f → K (update p f)
  quiet : ∀ {α : Type} {x : Edit α}, (∀ s, Quiet True x s) → K x

theorem GraphWalks.ports {K : ∀ {α : Type}, Edit α → Prop} (hK : GraphWalks K) :
    PortWalks flag K where
  toCompositional := hK.toCompositional
  update := fun hf => hK.update hf.renews
  refreshCopying := fun _ _ =>
    hK.quiet fun _ => refreshCopying_quiet (absurd trivial) (absurd trivial)
  renew := hK.update
  setEnv := fun _ _ _ => hK.quiet fun _ => modify_quiet rfl
  free := fun _ => hK.quiet fun s => free_quiet (absurd trivial) _ s
  newOutputs := fun n _ _ => hK.quiet fun s => newOutputs_quiet (absurd trivial) n _ _ s

/-! ### Properties of whatever a kernel does -/

/-- What no kernel changes. -/
structure Fixed (s s' : Engine) : Prop where
  playing : s'.playing = s.playing
  framesPerBuffer : s'.framesPerBuffer = s.framesPerBuffer
  timeseqResources : s'.timeseqResources = s.timeseqResources

theorem Fixed.refl (s : Engine) : Fixed s s := ⟨rfl, rfl, rfl⟩

theorem Fixed.trans {s s' s'' : Engine} (h : Fixed s s') (h' : Fixed s' s'') : Fixed s s'' :=
  ⟨h'.playing.trans h.playing, h'.framesPerBuffer.trans h.framesPerBuffer,
    h'.timeseqResources.trans h.timeseqResources⟩

/-- A property that every part of a kernel has. -/
structure EngineWalks (flag : Flag) (K : ∀ {α : Type}, Edit α → Prop) : Prop
    extends Compositional (· ≠ KsiError.ksiErrorNone) K where
  modify : ∀ {f : Engine → Engine}, (∀ s, Fixed s (f s)) → K (Prog.modify f)
  malloc : ∀ size, K (ksiMVCCMonitoredMalloc size flag)
  free : ∀ ptr, K (ksiMVCCDeferredFree ptr flag)
  newNode : ∀ node, K (newNode node)
  insertNode : ∀ n, K (insertNode n)

namespace EngineWalks

variable {K : ∀ {α : Type}, Edit α → Prop} (hK : EngineWalks flag K)
include hK

theorem update (f : KsiNode → KsiNode) : K (update p f) :=
  hK.bind (hK.read _) fun _ => hK.modify fun _ => ⟨rfl, rfl, rfl⟩

theorem setEnv (f : SignalEnv → SignalEnv) : K (setEnv n i f) := hK.modify fun _ => ⟨rfl, rfl, rfl⟩

theorem refreshMixing : K (refreshMixing n port flag) := by
  refine hK.bind (hK.read _) fun env => ?_
  cases env.buffer with
  | some b => exact hK.setEnv _
  | none => exact hK.bind (hK.read _) fun _ => hK.bind (hK.malloc _) fun _ => hK.setEnv _

theorem refreshCopying : K (refreshCopying n port flag) := by
  refine hK.bind (hK.read _) fun input => hK.ite (hK.pure ()) ?_
  match input.entries with
  | [] => exact hK.setEnv _
  | [me] =>
      refine hK.ite (hK.bind (hK.read _) fun _ => hK.bind (hK.free _) fun _ =>
        hK.bind (hK.setEnv _) fun _ => ?_) hK.refreshMixing
      cases me.src with
      | none => exact hK.pure ()
      | some src => exact hK.bind (hK.read _) fun _ => hK.setEnv _
  | _ :: _ :: _ => exact hK.refreshMixing

theorem newOutputs : ∀ (types : List PortType) (i : Nat), K (newOutputs n flag i types) := by
  intro types
  induction types with
  | nil => exact fun _ => hK.pure ()
  | cons type rest ih =>
      intro i
      refine hK.bind (hK.ite (hK.malloc _) (hK.bind (hK.read _) fun _ => hK.malloc _)) fun _ =>
        hK.bind (hK.modify fun _ => ⟨rfl, rfl, rfl⟩) fun _ => ih _

theorem ports : PortWalks flag K where
  toCompositional := hK.toCompositional
  update := fun _ => hK.update _
  refreshCopying := fun _ _ => hK.refreshCopying
  renew := fun _ => hK.update _
  setEnv := fun _ _ _ => hK.setEnv _
  free := hK.free
  newOutputs := fun _ _ _ => hK.newOutputs _ _

theorem setFinalNode (ptr : Option NodePtr) : K (setFinalNode ptr) :=
  hK.modify fun _ => ⟨rfl, rfl, rfl⟩

theorem link {k : Nat} : K (link src des k) :=
  hK.bind (hK.read _) fun _ => hK.ite (hK.pure ()) (hK.bind (hK.update _) fun _ => hK.update _)

theorem impl_ksiEngineAddNode (typeFlags : BitVec 32) : K (impl_ksiEngineAddNode typeFlags flag) :=
  hK.bind hK.ports.checkInitialized fun _ => hK.bind (hK.read _) fun _ =>
    hK.bind (hK.require (by decide)) fun _ => hK.bind (hK.orError _ (by decide)) fun _ =>
      hK.bind (hK.newNode _) fun _ => hK.bind (hK.when (hK.newOutputs _ _)) fun _ =>
        hK.bind (hK.when (hK.setFinalNode _)) fun _ => hK.bind (hK.insertNode _) fun _ =>
          hK.bind (hK.update _) fun _ => hK.pure _

/-- **What every part of a kernel has, the kernels have.** -/
theorem kernel (c : Call) : K (c.kernel flag) := by
  have hports := hK.ports
  cases c with
  | addNode typeFlags => exact hK.bind (hK.impl_ksiEngineAddNode _) fun _ => hK.pure _
  | makeWire srcId srcPort desId desPort gain =>
      exact hK.bind (hports.impl_ksiEngineMakeWire fun _ _ => hK.link) fun _ => hK.pure _
  | makeBias desId desPort bias =>
      exact hK.bind (hports.impl_ksiEngineMakeBias _ _ _) fun _ => hK.pure _
  | detachNodes srcId desId =>
      exact hK.bind (hports.impl_ksiEngineDetachNodes _ _) fun _ => hK.pure _
  | removeNode id =>
      exact hK.bind (hports.impl_ksiEngineRemoveNode (hK.modify fun _ => ⟨rfl, rfl, rfl⟩)
        (hK.setFinalNode _)) fun _ => hK.bind (hports.ksiEngineDestroyNode
          (hK.modify fun _ => ⟨rfl, rfl, rfl⟩)) fun _ => hK.pure _
  | removeWire srcId srcPort desId desPort =>
      exact hK.bind (hports.impl_ksiEngineRemoveWire _ _ _ _) fun _ => hK.pure _
  | sendEditingCommand id args =>
      exact hK.bind (hports.impl_ksiEngineSendEditingCommand _ _) fun _ => hK.pure _

end EngineWalks

/-- No kernel returns `ksiErrorNone` as an error. -/
theorem errors_engineWalks :
    EngineWalks flag fun {α} (x : Edit α) => Errors (· ≠ KsiError.ksiErrorNone) x where
  toCompositional := errors_compositional _
  modify := fun _ => (Unfailing.modify _).errors
  malloc := fun _ s => (malloc_quiet (absurd trivial) _ s).wp fun _ _ _ => trivial
  free := fun _ s => (free_quiet (absurd trivial) _ s).wp fun _ _ _ => trivial
  newNode := fun _ _ => trivial
  insertNode := fun _ _ => trivial

theorem fixed_engineWalks : EngineWalks flag fun {α} (x : Edit α) => Within Fixed x where
  toCompositional := within_compositional Fixed.refl fun _ _ _ h h' => h.trans h'
  modify := Within.modify
  malloc := by
    intro size s
    unfold Prog.wp ksiMVCCMonitoredMalloc
    cases flag with
    | editing =>
        by_cases hsize : size = 0 <;> simp only [hsize, if_true, if_false] <;> exact ⟨rfl, rfl, rfl⟩
    | committing =>
        by_cases hsize : size = 0
        · simp only [hsize, if_true]
          exact .refl s
        · simp only [hsize, if_false]
          cases s.mallocBufs with
          | nil => trivial
          | cons ret rest => exact ⟨rfl, rfl, rfl⟩
  free := by
    intro ptr s
    unfold Prog.wp ksiMVCCDeferredFree
    cases ptr with
    | none => exact .refl s
    | some ptr =>
        cases flag with
        | editing => exact ⟨rfl, rfl, rfl⟩
        | committing =>
            cases s.freeBufs with
            | nil => trivial
            | cons fptr rest =>
                by_cases heq : fptr = ptr
                · simp only [heq, if_true]
                  exact ⟨rfl, rfl, rfl⟩
                · simp only [heq, if_false]
  newNode := fun _ _ => ⟨rfl, rfl, rfl⟩
  insertNode := fun _ _ => ⟨rfl, rfl, rfl⟩

/-! ### The replay -/

/-- A replay keeps what each of its calls keeps, whatever they return. -/
theorem commitLoop_keeps {Inv : Engine → Prop}
    (hcall : ∀ c : Call, Keeps Inv (c.kernel .committing)) :
    ∀ (cmds : List Call) {e e' : Engine} {rs : List (KsiError × Option Nat)},
      commitLoop cmds e = some (rs, e') → Inv e → Inv e' := by
  intro cmds
  induction cmds with
  | nil =>
      intro e e' rs hloop he
      cases hloop
      exact he
  | cons c rest ih =>
      intro e e' rs hloop he
      unfold commitLoop at hloop
      split at hloop
      · cases hloop
      · rename_i err e₁ hr
        obtain ⟨⟨rs', e₂⟩, hrest, heq⟩ := Option.map_eq_some_iff.mp hloop
        cases heq
        exact ih hrest (of_wp_error (hcall c e he) hr)
      · rename_i id e₁ hr
        obtain ⟨⟨rs', e₂⟩, hrest, heq⟩ := Option.map_eq_some_iff.mp hloop
        cases heq
        exact ih hrest (of_wp_ok (hcall c e he) hr)

/-! ### The functions that edit nothing -/

/-- What no function of engine.c that takes an id or a port changes. -/
abbrev SameGraph (s s' : Engine) : Prop := s'.graph = s.graph ∧ s'.playing = s.playing

theorem sameGraph_compositional :
    Compositional (fun _ => True) fun {α} (x : Edit α) => Within SameGraph x :=
  within_compositional (fun _ => ⟨rfl, rfl⟩) fun _ _ _ h h' => ⟨h'.1.trans h.1, h'.2.trans h.2⟩

theorem getInputType_same (id port : Int) : Within SameGraph (ksiEngineGetInputType id port) := by
  have hK := sameGraph_compositional
  exact hK.bind (hK.bind (hK.read _) fun _ => hK.orError _ trivial) fun _ =>
    hK.bind (hK.read _) fun _ => hK.bind (hK.require trivial) fun _ => hK.read _

theorem unload_same (id : Int) : Within SameGraph (ksiTimeSeqUnloadFromEngine id) := by
  have hK := sameGraph_compositional
  exact hK.bind (hK.bind (hK.read _) fun _ => hK.require trivial) fun _ => hK.bind (hK.read _)
    fun _ => hK.bind (hK.orError _ trivial) fun _ => Within.modify fun _ => ⟨rfl, rfl⟩

end Ksi.Dag

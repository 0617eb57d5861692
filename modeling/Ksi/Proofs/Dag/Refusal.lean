/-
What a refused edit leaves behind.

The wrappers of dagedit.c do not queue an edit that returned an error, so it should have
changed nothing.  Two kernels return an error after a change: MakeWire links the nodes
before it looks for the wire among the entries of an event port, and RemoveWire removes
the wire from an event port and then reports that there is none.  `ChangesFirst` says
when that happens, and in every other case the error leaves the engine as it was.
-/
import Ksi.Proofs.Dag.Unwire

namespace Ksi.Dag

open Prog

variable {s s' : Engine} {srcId srcPort desId desPort : Int} {src des : NodePtr}

/-! ### The condition -/

/-- The kernel changes the engine before it returns an error. -/
def ChangesFirst (s : Engine) : Call → Prop
  | .makeWire srcId srcPort desId desPort _ => s.playing ≠ -2 ∧
      ∃ src des srcNode desNode input,
        Ports s.graph srcId srcPort desId desPort src des srcNode desNode input ∧
        SameType srcNode srcPort input ∧ input.type.isEvent = true ∧
        input.entries.any (·.isFrom src srcPort) = true ∧ desId.toNat ∉ srcNode.successors
  | .removeWire srcId srcPort desId desPort => s.playing ≠ -2 ∧
      ∃ src des srcNode desNode input,
        Ports s.graph srcId srcPort desId desPort src des srcNode desNode input ∧
        input.type.isEvent = true ∧ input.entries.any (·.isFrom src srcPort) = true
  | _ => False

/-! ### What returns no error -/

variable {n p : NodePtr} {i port : Nat} {flag : Flag}

theorem load_unfailing : (load p).Unfailing := .read _

theorem update_unfailing {f : KsiNode → KsiNode} : (update p f).Unfailing :=
  load_unfailing.bind fun _ => .modify _

theorem setEnv_unfailing {f : SignalEnv → SignalEnv} : (setEnv n port f).Unfailing := .modify _

theorem malloc_unfailing (size : Nat) (flag : Flag) :
    (ksiMVCCMonitoredMalloc size flag).Unfailing := by
  intro s
  unfold wp ksiMVCCMonitoredMalloc
  cases flag with
  | editing => by_cases h : size = 0 <;> simp [h]
  | committing =>
      by_cases h : size = 0
      · simp [h]
      · cases hbufs : s.mallocBufs <;> simp [h, hbufs]

theorem free_unfailing (ptr : Option BufPtr) (flag : Flag) :
    (ksiMVCCDeferredFree ptr flag).Unfailing := by
  intro s
  cases ptr with
  | none => trivial
  | some ptr =>
      cases flag with
      | editing => trivial
      | committing =>
          unfold wp ksiMVCCDeferredFree
          cases hbufs : s.freeBufs with
          | nil => simp
          | cons fptr rest => by_cases h : fptr = ptr <;> simp [h]

theorem mallocOutput_unfailing (type : PortType) : (mallocOutput type flag).Unfailing :=
  .ite (malloc_unfailing _ _) ((Unfailing.read _).bind fun _ => malloc_unfailing _ _)

theorem newOutputs_unfailing (n : NodePtr) :
    ∀ (types : List PortType) (i : Nat), (newOutputs n flag i types).Unfailing := by
  intro types
  induction types with
  | nil => exact fun _ => .pure ()
  | cons type rest ih =>
      exact fun i => (mallocOutput_unfailing type).bind fun _ =>
        (Unfailing.modify _).bind fun _ => ih (i + 1)

theorem refreshMixing_unfailing : (refreshMixing n port flag).Unfailing := by
  refine (Unfailing.read _).bind fun env => ?_
  cases env.buffer with
  | some b => exact setEnv_unfailing
  | none =>
      exact (Unfailing.read _).bind fun _ => (malloc_unfailing _ _).bind fun _ => setEnv_unfailing

theorem refreshCopying_unfailing : (refreshCopying n port flag).Unfailing := by
  refine (Unfailing.read _).bind fun input => .ite (.pure ()) ?_
  match input.entries with
  | [] => exact setEnv_unfailing
  | [me] =>
      refine .ite ((Unfailing.read _).bind fun _ => (free_unfailing _ _).bind fun _ =>
        setEnv_unfailing.bind fun _ => ?_) refreshMixing_unfailing
      cases me.src with
      | none => exact .pure ()
      | some src => exact (Unfailing.read _).bind fun _ => setEnv_unfailing
  | _ :: _ :: _ => exact refreshMixing_unfailing

theorem debug_check_node_unfailing : (debug_check_node n).Unfailing :=
  load_unfailing.bind fun _ => .assert _

theorem delete_src_unfailing : (delete_src des src flag i).Unfailing :=
  (Unfailing.read _).bind fun _ => update_unfailing.bind fun _ => refreshCopying_unfailing

theorem deleteSrcs_unfailing : (deleteSrcs des src flag).Unfailing :=
  load_unfailing.bind fun _ => .forEach (fun _ => delete_src_unfailing) _

theorem findBias_unfailing : ∀ entries : List Entry, (findBias entries).Unfailing := by
  intro entries
  induction entries with
  | nil => exact .pure false
  | cons me rest ih =>
      unfold findBias
      cases me.src with
      | none => exact .pure true
      | some src => exact debug_check_node_unfailing.bind fun _ => ih

theorem regPrecs_unfailing :
    ∀ (entries : List Entry) (precs : List NodePtr), (regPrecs entries precs).Unfailing := by
  intro entries
  induction entries with
  | nil => exact fun precs => .pure precs
  | cons me rest ih =>
      intro precs
      unfold regPrecs
      cases me.src with
      | none => exact ih precs
      | some p =>
          exact debug_check_node_unfailing.bind fun _ => load_unfailing.bind fun _ =>
            .ite (update_unfailing.bind fun _ => ih _) (ih _)

theorem impl_delete_env_unfailing : (impl_delete_env n flag i).Unfailing :=
  (Unfailing.read _).bind fun _ =>
    .ite (.pure ()) ((Unfailing.read _).bind fun _ => free_unfailing _ _)

theorem impl_delete_output_unfailing : (impl_delete_output n flag i).Unfailing :=
  (Unfailing.read _).bind fun _ => free_unfailing _ _

theorem ksiEngineDestroyNode_unfailing : (ksiEngineDestroyNode n flag).Unfailing :=
  load_unfailing.bind fun _ => (Unfailing.forEach (fun _ => impl_delete_env_unfailing) _).bind
    fun _ => (Unfailing.when (.forEach (fun _ => impl_delete_output_unfailing) _)).bind
      fun _ => .modify _

theorem impl_ksiNodeChangeInputPortCount_unfailing {k : Nat} {types : List PortType} :
    (impl_ksiNodeChangeInputPortCount n k types flag).Unfailing :=
  load_unfailing.bind fun _ => (Unfailing.assert _).bind fun _ => (Unfailing.assert _).bind fun _ =>
    update_unfailing.bind fun _ => (Unfailing.forEach (fun _ => impl_delete_env_unfailing) _).bind
      fun _ => update_unfailing.bind fun _ => .forEach (fun _ => setEnv_unfailing) _

theorem impl_ksiNodeChangeOutputPortCount_unfailing {k : Nat} {types : List PortType} :
    (impl_ksiNodeChangeOutputPortCount n k types flag).Unfailing :=
  load_unfailing.bind fun _ => (Unfailing.assert _).bind fun _ => (Unfailing.assert _).bind fun _ =>
    update_unfailing.bind fun _ =>
      (Unfailing.when (.forEach (fun _ => impl_delete_output_unfailing) _)).bind fun _ =>
        update_unfailing.bind fun _ => .when (newOutputs_unfailing _ _ _)

/-! ### Kernels that check first -/

/-- An error leaves the engine as it was. -/
def ChecksFirst {α : Type} (x : Edit α) (s : Engine) : Prop :=
  wp True x s (fun _ _ => True) fun _ s' => s' = s

theorem impl_ksiEngineAddNode_checksFirst (typeFlags : BitVec 32) :
    ChecksFirst (impl_ksiEngineAddNode typeFlags flag) s := by
  have hrest : ∀ node types, (newNode node >>= fun n => (do
      Prog.when (typeFlags &&& ksiNodeTypeOutputMask = ksiNodeTypeOutputNormal)
        (newOutputs n flag 0 types)
      Prog.when (typeFlags &&& ksiNodeTypeOutputMask = ksiNodeTypeOutputFinal)
        (setFinalNode (some n))
      let ret ← insertNode n
      update n fun node => { node with id := ret }
      pure ret : Edit Nat)).Unfailing := by
    intro node types
    have hnew : (newNode node).Unfailing := fun _ => trivial
    have hinsert : ∀ n, (insertNode n).Unfailing := fun _ _ => trivial
    exact hnew.bind fun n => (newOutputs_unfailing n types 0).when.bind fun _ =>
      (Unfailing.modify _).when.bind fun _ => (hinsert n).bind fun _ =>
        update_unfailing.bind fun _ => .pure _
  unfold ChecksFirst impl_ksiEngineAddNode
  rw [wp_bind, wp_checkInitialized]
  refine ⟨fun _ => ?_, fun _ => rfl⟩
  rw [wp_bind, wp_read]
  refine ⟨fun _ => trivial, fun finalNode _ => ?_⟩
  rw [wp_bind, wp_require]
  refine ⟨fun _ => ?_, fun _ => rfl⟩
  rw [wp_bind, wp_orError]
  exact ⟨fun ports _ => (hrest _ ports.2).wp s, fun _ => rfl⟩

theorem impl_ksiEngineMakeBias_checksFirst (bias : KsiData) :
    ChecksFirst (impl_ksiEngineMakeBias desId desPort bias flag) s := by
  unfold ChecksFirst impl_ksiEngineMakeBias
  rw [wp_bind, wp_checkInitialized]
  refine ⟨fun _ => ?_, fun _ => rfl⟩
  rw [wp_bind, wp_checkVec]
  refine ⟨fun _ => trivial, fun _ => rfl, fun des _ => ?_⟩
  rw [wp_bind, wp_checkDesPort]
  refine ⟨fun _ => trivial, fun node _ => ⟨fun _ => rfl, fun _ => ⟨fun _ => trivial, ?_⟩⟩⟩
  intro input _
  rw [wp_bind, wp_require]
  refine ⟨fun _ => ?_, fun _ => rfl⟩
  have hrest : (loadInput des desPort.toNat >>= fun input => findBias input.entries >>= fun found =>
      (do
        update des (·.updateEntries desPort.toNat fun mixer =>
          if found then setGain (·.src.isNone) bias mixer
          else { src := none, srcPort := 0, gain := bias } :: mixer)
        refreshCopying des desPort.toNat flag : Edit Unit)).Unfailing :=
    (Unfailing.read _).bind fun input => (findBias_unfailing _).bind fun _ =>
      update_unfailing.bind fun _ => refreshCopying_unfailing
  exact hrest.wp s

theorem impl_ksiEngineDetachNodes_checksFirst :
    ChecksFirst (impl_ksiEngineDetachNodes srcId desId flag) s := by
  unfold ChecksFirst impl_ksiEngineDetachNodes
  rw [wp_bind, wp_checkInitialized]
  refine ⟨fun _ => ?_, fun _ => rfl⟩
  rw [wp_bind, wp_checkVec]
  refine ⟨fun _ => trivial, fun _ => rfl, fun src _ => ?_⟩
  rw [wp_bind, wp_checkVec]
  refine ⟨fun _ => trivial, fun _ => rfl, fun des _ => ?_⟩
  have hrest : (update des (fun node => { node with depNum := node.depNum - 1 }) >>= fun _ => (do
      deleteSrcs des src flag
      update src fun node => { node with
        successors := node.successors.erase desId.toNat } : Edit Unit)).Unfailing :=
    update_unfailing.bind fun _ => deleteSrcs_unfailing.bind fun _ => update_unfailing
  exact hrest.wp s

theorem impl_ksiEngineRemoveNode_checksFirst (id : Int) :
    ChecksFirst (impl_ksiEngineRemoveNode id flag) s := by
  unfold ChecksFirst impl_ksiEngineRemoveNode
  rw [wp_bind, wp_checkInitialized]
  refine ⟨fun _ => ?_, fun _ => rfl⟩
  rw [wp_bind, wp_checkVec]
  refine ⟨fun _ => trivial, fun _ => rfl, fun n _ => ?_⟩
  have hsucc : ∀ loc, (releaseSuccessor n flag loc).Unfailing := fun _ =>
    (Unfailing.read _).bind fun _ => update_unfailing.bind fun _ => deleteSrcs_unfailing
  have hprec : ∀ id p, (releasePrec id p).Unfailing := fun _ _ =>
    update_unfailing.bind fun _ => update_unfailing
  exact ((Unfailing.modify _).bind fun _ => load_unfailing.bind fun node =>
    (Unfailing.forEach hsucc _).bind fun _ => load_unfailing.bind fun node =>
      (regPrecs_unfailing _ _).bind fun precs => (Unfailing.forEach (hprec node.id) _).bind fun _ =>
        load_unfailing.bind fun _ => (Unfailing.modify _).when.bind fun _ => .pure n).wp s

theorem ksiBuiltinNodeFuncIdEditCmd_checksFirst (args : String) :
    ChecksFirst (ksiBuiltinNodeFuncIdEditCmd n args flag) s := by
  unfold ChecksFirst ksiBuiltinNodeFuncIdEditCmd
  rw [wp_bind, wp_orError]
  refine ⟨fun port_count _ => ?_, fun _ => rfl⟩
  rw [wp_bind, wp_require]
  refine ⟨fun _ => ?_, fun _ => rfl⟩
  exact (load_unfailing.bind fun _ => impl_ksiNodeChangeInputPortCount_unfailing.bind fun _ =>
    impl_ksiNodeChangeOutputPortCount_unfailing).wp s

theorem kscarletMidiSegEditCmd_checksFirst (args : String) :
    ChecksFirst (kscarletMidiSegEditCmd args) s := by
  unfold ChecksFirst kscarletMidiSegEditCmd
  split
  · rw [wp_bind, wp_orError]
    refine ⟨fun mid _ => ?_, fun _ => rfl⟩
    rw [wp_bind, wp_read]
    refine ⟨fun _ => trivial, fun slot _ => ?_⟩
    rw [wp_bind, wp_orError]
    exact ⟨fun _ _ => trivial, fun _ => rfl⟩
  · trivial
  · trivial
  · rfl

theorem impl_ksiEngineSendEditingCommand_checksFirst (id : Int) (args : String) :
    ChecksFirst (impl_ksiEngineSendEditingCommand id args flag) s := by
  unfold ChecksFirst impl_ksiEngineSendEditingCommand
  rw [wp_bind, wp_checkInitialized]
  refine ⟨fun _ => ?_, fun _ => rfl⟩
  rw [wp_bind, wp_checkVec]
  refine ⟨fun _ => trivial, fun _ => rfl, fun n _ => ?_⟩
  rw [wp_bind, wp_load]
  refine ⟨fun _ => trivial, fun node _ => ?_⟩
  split
  · exact ksiBuiltinNodeFuncIdEditCmd_checksFirst args
  · exact kscarletMidiSegEditCmd_checksFirst args
  · rfl
  · rfl
  · rfl
  · rfl
  · trivial

/-! ### Kernels that change first -/

/-- Linking changes a node, unless the two are linked. -/
theorem Graph.link_eq_self {g : Graph} (des : NodePtr) (k : Nat) {srcNode : KsiNode}
    (hsrc : g.heap src = some srcNode) :
    g.link src des k srcNode = g ↔ k ∈ srcNode.successors := by
  unfold Graph.link
  split
  · simp [*]
  · rename_i hmem
    refine iff_of_false (fun heq => ?_) hmem
    have hheap := congrFun (congrArg Graph.heap heq) src
    simp only [heap_update, hsrc] at hheap
    have hlen := congrArg (fun o => (o.map fun n : KsiNode => n.successors.length)) hheap
    split at hlen <;> simp at hlen

theorem impl_ksiEngineMakeWire_refused (gain : KsiData) :
    wp True (impl_ksiEngineMakeWire srcId srcPort desId desPort gain flag) s (fun _ _ => True)
      fun _ s' => s' = s ↔ ¬ ChangesFirst s (.makeWire srcId srcPort desId desPort gain) := by
  unfold impl_ksiEngineMakeWire
  rw [wp_bind, wp_checkInitialized]
  refine ⟨fun hplaying => ?_, fun hplaying => iff_of_true rfl fun h => h.1 hplaying⟩
  rw [wp_bind, wp_checkVec]
  refine ⟨fun _ => trivial, fun hnone => iff_of_true rfl ?_, fun src hsrcId => ?_⟩
  · rintro ⟨-, src, des, srcNode, desNode, input, hports, -⟩
    exact absurd hports.srcId (by simp [hnone])
  rw [wp_bind, wp_checkVec]
  refine ⟨fun _ => trivial, fun hnone => iff_of_true rfl ?_, fun des hdesId => ?_⟩
  · rintro ⟨-, src, des, srcNode, desNode, input, hports, -⟩
    exact absurd hports.desId (by simp [hnone])
  rw [wp_bind, wp_load]
  refine ⟨fun _ => trivial, fun srcNode hsrc => ?_⟩
  rw [wp_bind, wp_require]
  refine ⟨fun hsrcPort => ?_, fun hsrcPort => iff_of_true rfl ?_⟩
  rotate_left
  · rintro ⟨-, src', des', srcNode', desNode', input, hports, -⟩
    obtain rfl : src' = src := by simpa [hsrcId] using hports.srcId.symm
    obtain rfl : srcNode' = srcNode := by simpa [hsrc] using hports.atSrc.symm
    exact hsrcPort hports.hasOutput
  rw [wp_bind, wp_checkDesPort]
  refine ⟨fun _ => trivial, fun desNode hdes => ⟨fun hdesPort => iff_of_true rfl ?_, fun hdesPort =>
    ⟨fun _ => trivial, fun input hinput => ?_⟩⟩⟩
  · rintro ⟨-, src', des', srcNode', desNode', input, hports, -⟩
    obtain rfl : des' = des := by simpa [hdesId] using hports.desId.symm
    obtain rfl : desNode' = desNode := by simpa [hdes] using hports.atDes.symm
    exact hdesPort (nth_some hports.hasInput).2.2
  have hports : Ports s.graph srcId srcPort desId desPort src des srcNode desNode input :=
    ⟨hsrcId, hdesId, hsrc, hdes, hsrcPort, hinput⟩
  rw [wp_bind, wp_read]
  refine ⟨fun _ => trivial, fun type htype => ?_⟩
  rw [wp_bind, wp_require]
  refine ⟨fun hsame => ?_, fun hdiff => iff_of_true rfl ?_⟩
  rotate_left
  · rintro ⟨-, src', des', srcNode', desNode', input', hports', ⟨type', htype', hsame⟩, -⟩
    obtain ⟨rfl, rfl, rfl, rfl, rfl⟩ := hports.unique hports'
    obtain rfl : type' = type := by simpa [htype] using htype'.symm
    exact hdiff hsame
  rw [wp_bind]
  refine link_wp hsrc (by simp [hdes]) ?_
  rw [wp_bind, wp_loadInput]
  refine ⟨fun _ => trivial, fun input' hinput' => ?_⟩
  -- the port is still what it was before the two were linked
  obtain rfl : input' = input := by
    have hmap := Graph.link_inputs s.graph src des desId.toNat srcNode des
    obtain ⟨node, hnode, hget⟩ := Option.bind_eq_some_iff.mp hinput'
    simp only at hnode
    rw [hnode, hdes] at hmap
    have hinputs : node.inputs = desNode.inputs := by simpa using hmap
    rw [hinputs, (nth_some hinput).1] at hget
    exact (Option.some.inj hget).symm
  refine (wp_ite _ _ _).mpr ⟨fun hevent => ?_, fun _ => ?_⟩
  · rw [wp_bind, wp_require]
    refine ⟨fun _ => update_unfailing.wp _, fun hany => ?_⟩
    have hany : input'.entries.any (·.isFrom src srcPort) = true := by simpa using hany
    have hself := Graph.link_eq_self des desId.toNat hsrc
    constructor
    · rintro heq ⟨-, src', des', srcNode', desNode', input'', hports', -, -, -, hmem⟩
      obtain ⟨rfl, rfl, rfl, rfl, rfl⟩ := hports.unique hports'
      exact hmem (hself.mp (congrArg (fun e : Engine => e.graph) heq))
    · intro hno
      have hmem : desId.toNat ∈ srcNode.successors := by
        by_contra hmem
        exact hno ⟨hplaying, src, des, srcNode, desNode, input', hports, ⟨type, htype, hsame⟩,
          hevent, hany, hmem⟩
      rw [hself.mpr hmem]
  · have hrest : (if input'.entries.any (·.isFrom src srcPort) then (do
          debug_check_node src
          update des (·.updateEntries desPort.toNat (setGain (·.isFrom src srcPort) gain))
          refreshCopying des desPort.toNat flag : Edit Unit)
        else do
          update des (·.updateEntries desPort.toNat
            ({ src := some src, srcPort := srcPort, gain := gain } :: ·))
          refreshCopying des desPort.toNat flag).Unfailing :=
      .ite (debug_check_node_unfailing.bind fun _ => update_unfailing.bind fun _ =>
        refreshCopying_unfailing) (update_unfailing.bind fun _ => refreshCopying_unfailing)
    exact hrest.wp _

/-! ### RemoveWire -/

theorem impl_ksiEngineRemoveWire_refused :
    wp True (impl_ksiEngineRemoveWire srcId srcPort desId desPort flag) s (fun _ _ => True)
      fun _ s' => s' = s ↔ ¬ ChangesFirst s (.removeWire srcId srcPort desId desPort) := by
  rw [impl_ksiEngineRemoveWire_eq, wp_bind, wp_checkInitialized]
  refine ⟨fun hplaying => ?_, fun hplaying => iff_of_true rfl fun h => h.1 hplaying⟩
  rw [wp_bind, wp_checkVec]
  refine ⟨fun _ => trivial, fun hnone => iff_of_true rfl ?_, fun src hsrcId => ?_⟩
  · rintro ⟨-, src, des, srcNode, desNode, input, hports, -⟩
    exact absurd hports.srcId (by simp [hnone])
  rw [wp_bind, wp_checkVec]
  refine ⟨fun _ => trivial, fun hnone => iff_of_true rfl ?_, fun des hdesId => ?_⟩
  · rintro ⟨-, src, des, srcNode, desNode, input, hports, -⟩
    exact absurd hports.desId (by simp [hnone])
  rw [wp_bind, wp_load]
  refine ⟨fun _ => trivial, fun srcNode hsrc => ?_⟩
  rw [wp_bind, wp_require]
  refine ⟨fun hsrcPort => ?_, fun hsrcPort => iff_of_true rfl ?_⟩
  rotate_left
  · rintro ⟨-, src', des', srcNode', desNode', input, hports, -⟩
    obtain rfl : src' = src := by simpa [hsrcId] using hports.srcId.symm
    obtain rfl : srcNode' = srcNode := by simpa [hsrc] using hports.atSrc.symm
    exact hsrcPort hports.hasOutput
  rw [wp_bind, wp_checkDesPort]
  refine ⟨fun _ => trivial, fun desNode hdes => ⟨fun hdesPort => iff_of_true rfl ?_, fun hdesPort =>
    ⟨fun _ => trivial, fun input hinput => ?_⟩⟩⟩
  · rintro ⟨-, src', des', srcNode', desNode', input, hports, -⟩
    obtain rfl : des' = des := by simpa [hdesId] using hports.desId.symm
    obtain rfl : desNode' = desNode := by simpa [hdes] using hports.atDes.symm
    exact hdesPort (nth_some hports.hasInput).2.2
  have hports : Ports s.graph srcId srcPort desId desPort src des srcNode desNode input :=
    ⟨hsrcId, hdesId, hsrc, hdes, hsrcPort, hinput⟩
  have hget := (nth_some hinput).1
  refine unwireRest_wp (absurd trivial) hsrc hdes hget (absurd trivial) (absurd trivial)
    (fun hno => ?_)
    fun _ _ _ _ _ => trivial
  cases hany : input.entries.any (·.isFrom src srcPort) with
  | false =>
      rw [Graph.unwire_absent hdes hget hany]
      refine iff_of_true rfl ?_
      rintro ⟨-, src', des', srcNode', desNode', input', hports', -, hany'⟩
      obtain ⟨rfl, rfl, rfl, rfl, rfl⟩ := hports.unique hports'
      rw [hany] at hany'
      cases hany'
  | true =>
      have hevent : input.type.isEvent = true := hno.resolve_right (by simp [hany])
      refine iff_of_false (fun heq => ?_) fun hno =>
        hno ⟨hplaying, src, des, srcNode, desNode, input, hports, hevent, hany⟩
      exact Graph.unwire_present hdes hget hany (congrArg (·.graph) heq)

/-! ### Every kernel -/

theorem ChecksFirst.refused {α β : Type} {x : Edit α} {f : α → Edit β} (h : ChecksFirst x s)
    (hf : ∀ a, (f a).Unfailing) {c : Call} (hc : ¬ ChangesFirst s c) :
    wp True (x >>= f) s (fun _ _ => True) fun _ s' => s' = s ↔ ¬ ChangesFirst s c := by
  rw [wp_bind]
  exact wp_mono h (fun a s'' _ => (hf a).wp s'') fun _ _ hE => iff_of_true hE hc

theorem refused_wp (c : Call) :
    wp True (c.kernel flag) s (fun _ _ => True) fun _ s' => s' = s ↔ ¬ ChangesFirst s c := by
  have hno : ¬ False := id
  cases c with
  | addNode typeFlags =>
      exact (impl_ksiEngineAddNode_checksFirst typeFlags).refused (fun _ => .pure _) hno
  | makeWire srcId srcPort desId desPort gain =>
      unfold Call.kernel
      rw [wp_bind]
      exact wp_mono (impl_ksiEngineMakeWire_refused gain) (fun _ _ _ => trivial) fun _ _ hE => hE
  | makeBias desId desPort bias =>
      exact (impl_ksiEngineMakeBias_checksFirst bias).refused (fun _ => .pure _) hno
  | detachNodes srcId desId =>
      exact impl_ksiEngineDetachNodes_checksFirst.refused (fun _ => .pure _) hno
  | removeNode id =>
      exact (impl_ksiEngineRemoveNode_checksFirst id).refused
        (fun _ => ksiEngineDestroyNode_unfailing.bind fun _ => .pure _) hno
  | removeWire srcId srcPort desId desPort =>
      unfold Call.kernel
      rw [wp_bind]
      exact wp_mono impl_ksiEngineRemoveWire_refused (fun _ _ _ => trivial) fun _ _ hE => hE
  | sendEditingCommand id args =>
      exact (impl_ksiEngineSendEditingCommand_checksFirst id args).refused (fun _ => .pure _) hno

/-- **A refused edit leaves the engine as it was, unless it changes it first.** -/
theorem refused_iff {c : Call} {err : KsiError} (h : c.kernel .editing s = some (.error err, s')) :
    s' = s ↔ ¬ ChangesFirst s c :=
  of_wp_error (refused_wp c) h

/-! ### A refused edit that changes the engine -/

/-- A sequencer and an envelope, the gate wired to the envelope's event port. -/
def gateRun : List Call := [.addNode 0x30000, .addNode 0x50000, .makeWire 0 1 1 0 0]

/-- How many entries the first port of the node at address 1 has. -/
def gateEntries (g : Graph) : Option Nat :=
  (g.heap 1).bind fun node => node.inputs[0]?.map (·.entries.length)

/-- The wire is removed, and reported as not found. -/
theorem gateRun_removeWire : ∃ s s', Runs.Reaches step Runs.Free (ksiEngineInit 64) s ∧
    (Call.removeWire 0 1 1 0).kernel .editing s = some (.error .ksiErrorWireNotFound, s') ∧
    gateEntries s.graph = some 1 ∧ gateEntries s'.graph = some 0 := by
  have hrun : ((Runs.run step (ksiEngineInit 64) gateRun).bind fun s =>
      ((Call.removeWire 0 1 1 0).kernel .editing s).map fun r =>
        (match r.1 with
          | .error err => some err
          | .ok _ => none, gateEntries s.graph, gateEntries r.2.graph)) =
      some (some .ksiErrorWireNotFound, some 1, some 0) := by
    decide +kernel
  obtain ⟨s, hs, hcall⟩ := Option.bind_eq_some_iff.mp hrun
  obtain ⟨⟨r, s'⟩, hr, heq⟩ := Option.map_eq_some_iff.mp hcall
  simp only [Prod.mk.injEq] at heq
  obtain ⟨herr, hbefore, hafter⟩ := heq
  cases r with
  | ok a => cases herr
  | error err =>
      cases herr
      exact ⟨s, s', Runs.reaches_of_run gateRun hs, hr, hbefore, hafter⟩

theorem refused_gateRun : ∃ s s', Runs.Reaches step Runs.Free (ksiEngineInit 64) s ∧
    (s' = s ↔ ¬ ChangesFirst s (.removeWire 0 1 1 0)) ∧ gateEntries s.graph = some 1 ∧
    gateEntries s'.graph = some 0 := by
  obtain ⟨s, s', hreach, hcall, hbefore, hafter⟩ := gateRun_removeWire
  exact ⟨s, s', hreach, refused_iff hcall, hbefore, hafter⟩

/-- **Not every refused edit leaves the engine as it was.** -/
theorem not_refused : ¬ ∀ s, Runs.Reaches step Runs.Free (ksiEngineInit 64) s →
    ∀ (c : Call) (err : KsiError) (s' : Engine),
      c.kernel .editing s = some (.error err, s') → s' = s := by
  intro h
  obtain ⟨s, s', hreach, hcall, hbefore, hafter⟩ := gateRun_removeWire
  rw [h s hreach _ _ s' hcall, hbefore] at hafter
  cases hafter

end Ksi.Dag

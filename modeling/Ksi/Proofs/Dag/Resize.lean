/-
Changing the port counts of an Id node.

Id's command brings the inputs and the outputs of a node to the same number.  The
functions that it calls fail an assertion if the first change is one to fewer ports.  That
never comes up: an Id node starts with one input and one output, and from its first
change on it has the flags of dynamic ports.
-/
import Ksi.Proofs.Dag.Effect
import Ksi.Proofs.Dag.Walk

namespace Ksi.Dag

open Prog

variable {d : Prop} {s : Engine} {E : KsiError → Engine → Prop} {g : Graph} {n p : NodePtr}
  {node : KsiNode} {flag : Flag} {k : Nat} {types : List PortType}

/-! ### The two changes -/

/-- The node with `k` input ports, the new ones without entries. -/
def KsiNode.resizeInputs (k : Nat) (types : List PortType) (node : KsiNode) : KsiNode :=
  { node with
    type := node.type ||| ksiNodeTypeDynamicInputType
    inputs := node.inputs.take k ++
      (types.take (k - node.inputs.length)).map fun type => { type := type, entries := [] } }

/-- The node with `k` output ports. -/
def KsiNode.resizeOutputs (k : Nat) (types : List PortType) (node : KsiNode) : KsiNode :=
  { node with
    type := node.type ||| ksiNodeTypeDynamicOutputType
    outputs := node.outputs.take k ++ types.take (k - node.outputs.length) }

theorem forIndices_quiet {x : Nat → Edit Unit} {i j : Nat}
    (h : ∀ l s', l < j → s'.graph = s.graph → Quiet d (x l) s') :
    Quiet d (forEach (indices i j) x) s := by
  refine wp_forRange' (fun _ (s' : Engine) => s'.graph = s.graph) (fun l s' hge hlt hs' => ?_) rfl
  exact (h l s' (by omega) hs').wp fun _ _ hs'' => hs''.trans hs'

theorem impl_ksiNodeChangeInputPortCount_wp {Q : Unit → Engine → Prop}
    (hflag : ¬ d → flag = .editing)
    (hn : s.graph.heap n = some node)
    (hassert : ¬ d → (node.type &&& ksiNodeTypeDynamicInputType ≠ 0 ∨ node.inputs.length ≤ k) ∧
      k - node.inputs.length ≤ types.length ∧ types.all (! ·.isEvent))
    (hQ : ∀ s', s'.graph = s.graph.update n (·.resizeInputs k types) → Q () s') :
    wp d (impl_ksiNodeChangeInputPortCount n k types flag) s Q E := by
  unfold impl_ksiNodeChangeInputPortCount
  rw [wp_bind, wp_load]
  refine ⟨fun hnone => absurd hn (by simp [hnone]), fun node' hnode' => ?_⟩
  obtain rfl : node = node' := Option.some.inj (hn.symm.trans hnode')
  simp only [wp_bind, wp_assert]
  refine ⟨fun _ => ⟨fun _ => ?_, fun hno => by_contra fun hd => hno (hassert hd).2⟩,
    fun hno => by_contra fun hd => hno (hassert hd).1⟩
  rw [wp_update]
  refine ⟨fun hnone => absurd hn (by simp [hnone]), fun _ _ => ?_⟩
  have hflagged : ∀ s' : Engine, s'.graph = s.graph.update n (fun m =>
      { m with type := m.type ||| ksiNodeTypeDynamicInputType }) →
      s'.graph.heap n = some { node with type := node.type ||| ksiNodeTypeDynamicInputType } :=
    fun _ hs' => heap_of_eq hn hs'
  refine Quiet.wp (forIndices_quiet fun i s' hi hs' => ?_) fun _ s₁ hs₁ => ?_
  · exact impl_delete_env_quiet hflag ⟨_, hflagged s' hs', hi⟩
  rw [wp_update]
  refine ⟨fun hnone => absurd (hflagged s₁ hs₁) (by simp [hnone]), fun _ _ => ?_⟩
  refine Quiet.wp (forIndices_quiet fun i s' _ _ => modify_quiet rfl) fun _ s₂ hs₂ => hQ s₂ ?_
  rw [hs₂]
  show s₁.graph.update n _ = _
  rw [hs₁, Graph.update_update]
  refine Graph.update_congr fun m hm => ?_
  obtain rfl : node = m := Option.some.inj (hn.symm.trans hm)
  rfl

theorem impl_ksiNodeChangeOutputPortCount_wp {Q : Unit → Engine → Prop}
    (hflag : ¬ d → flag = .editing)
    (hn : s.graph.heap n = some node)
    (hassert : ¬ d → (node.type &&& ksiNodeTypeDynamicOutputType ≠ 0 ∨ ¬ node.isNormal ∨
      node.outputs.length ≤ k) ∧ k - node.outputs.length ≤ types.length)
    (hQ : ∀ s', s'.graph = s.graph.update n (·.resizeOutputs k types) → Q () s') :
    wp d (impl_ksiNodeChangeOutputPortCount n k types flag) s Q E := by
  unfold impl_ksiNodeChangeOutputPortCount
  rw [wp_bind, wp_load]
  refine ⟨fun hnone => absurd hn (by simp [hnone]), fun node' hnode' => ?_⟩
  obtain rfl : node = node' := Option.some.inj (hn.symm.trans hnode')
  simp only [wp_bind, wp_assert]
  refine ⟨fun _ => ⟨fun _ => ?_, fun hno => by_contra fun hd => hno (hassert hd).2⟩,
    fun hno => by_contra fun hd => hno (hassert hd).1⟩
  rw [wp_update]
  refine ⟨fun hnone => absurd hn (by simp [hnone]), fun _ _ => ?_⟩
  have hflagged : ∀ s' : Engine, s'.graph = s.graph.update n (fun m =>
      { m with type := m.type ||| ksiNodeTypeDynamicOutputType }) →
      s'.graph.heap n = some { node with type := node.type ||| ksiNodeTypeDynamicOutputType } :=
    fun _ hs' => heap_of_eq hn hs'
  refine Quiet.wp (ite_quiet (fun _ => forIndices_quiet fun i s' hi hs' => ?_)
    fun _ => pure_quiet ())
    fun _ s₁ hs₁ => ?_
  · exact impl_delete_output_quiet hflag (hflagged s' hs') hi
  rw [wp_update]
  refine ⟨fun hnone => absurd (hflagged s₁ hs₁) (by simp [hnone]), fun _ _ => ?_⟩
  refine Quiet.wp (ite_quiet (fun _ => newOutputs_quiet hflag _ _ _ _) fun _ => pure_quiet ())
    fun _ s₂ hs₂ => hQ s₂ ?_
  rw [hs₂]
  show s₁.graph.update n _ = _
  rw [hs₁, Graph.update_update]
  refine Graph.update_congr fun m hm => ?_
  obtain rfl : node = m := Option.some.inj (hn.symm.trans hm)
  rfl

/-! ### Id nodes -/

/-- An Id node has as many inputs as outputs, and no more than one of each before the first
change of the port counts. -/
structure IdShape (node : KsiNode) : Prop where
  balanced : node.inputs.length = node.outputs.length
  inputs : node.type &&& ksiNodeTypeDynamicInputType = 0 → node.inputs.length ≤ 1
  outputs : node.type &&& ksiNodeTypeDynamicOutputType = 0 → node.outputs.length ≤ 1

def IdShaped (g : Graph) : Prop :=
  ∀ p node, g.heap p = some node → ksiNodeTypeInlineId node.type = 1 → IdShape node

/-- The node that Id's command leaves. -/
def KsiNode.resize (k : Nat) (node : KsiNode) : KsiNode :=
  (node.resizeInputs k (List.replicate (k - node.inputs.length) ksiNodePortTypeFloat)).resizeOutputs
    k
    (List.replicate (k - node.inputs.length) ksiNodePortTypeFloat)

theorem KsiNode.resize_inputs (k : Nat) (node : KsiNode) :
    (node.resize k).inputs = node.inputs.take k ++
    List.replicate (k - node.inputs.length) { type := ksiNodePortTypeFloat, entries := [] } := by
  show node.inputs.take k ++ _ = _
  simp

theorem KsiNode.resize_outputs (k : Nat) (hbalanced : node.inputs.length = node.outputs.length) :
    (node.resize k).outputs =
      node.outputs.take k ++ List.replicate (k - node.outputs.length) ksiNodePortTypeFloat := by
  show node.outputs.take k ++ _ = _
  rw [hbalanced]
  show node.outputs.take k ++ List.take (k - node.outputs.length) _ = _
  simp

theorem KsiNode.resize_inputs_length (k : Nat) (node : KsiNode) :
    (node.resize k).inputs.length = k := by
  rw [resize_inputs, List.length_append, List.length_take, List.length_replicate]
  omega

theorem KsiNode.resize_outputs_length (k : Nat)
    (hbalanced : node.inputs.length = node.outputs.length) :
    (node.resize k).outputs.length = k := by
  rw [resize_outputs k hbalanced, List.length_append, List.length_take, List.length_replicate]
  omega

theorem or_and_self (t flag : BitVec 32) : (t ||| flag) &&& flag = flag := by
  ext i hi
  simp only [BitVec.getElem_and, BitVec.getElem_or]
  cases t[i] <;> cases flag[i] <;> rfl

/-- An Id node that has been resized. -/
theorem idShape_resize (k : Nat) (hbalanced : node.inputs.length = node.outputs.length) :
    IdShape (node.resize k) := by
  have htype : (node.resize k).type =
      node.type ||| ksiNodeTypeDynamicInputType ||| ksiNodeTypeDynamicOutputType := rfl
  refine ⟨?_, fun hzero => ?_, fun hzero => ?_⟩
  · rw [KsiNode.resize_inputs_length, KsiNode.resize_outputs_length k hbalanced]
  · rw [htype] at hzero
    have hset := and_eq_zero_of_or hzero
    rw [or_and_self] at hset
    exact absurd hset (by decide)
  · rw [htype, or_and_self] at hzero
    exact absurd hzero (by decide)

theorem KsiNode.resize_inline (k : Nat) (node : KsiNode) :
    ksiNodeTypeInlineId (node.resize k).type = ksiNodeTypeInlineId node.type := by
  have hinline : ∀ t flag : BitVec 32, flag &&& ksiNodeTypeInlineNodeFuncMask = 0 →
      ksiNodeTypeInlineId (t ||| flag) = ksiNodeTypeInlineId t := fun t flag hflag => by
    unfold ksiNodeTypeInlineId
    rw [or_and_of_disjoint hflag]
  exact (hinline _ _ (by decide)).trans (hinline _ _ (by decide))

/-- **Id's command** brings the two counts to the number that it is given. -/
theorem ksiBuiltinNodeFuncIdEditCmd_wp {Q : Unit → Engine → Prop} {args : String}
    (hflag : ¬ d → flag = .editing) (hn : s.graph.heap n = some node) (hid : IdShape node)
    (hE : (scanInt args = none → E .ksiErrorSyntax s) ∧
      ∀ i, scanInt args = some i → ¬ 0 < i → E .ksiErrorPlugin s)
    (hQ : ∀ i, scanInt args = some i → 0 < i →
      ∀ s', s'.graph = s.graph.update n (·.resize i.toNat) → Q () s') :
    wp d (ksiBuiltinNodeFuncIdEditCmd n args flag) s Q E := by
  unfold ksiBuiltinNodeFuncIdEditCmd
  rw [wp_bind, wp_orError]
  refine ⟨fun port_count hargs => ?_, hE.1⟩
  rw [wp_bind, wp_require]
  refine ⟨fun hpos => ?_, hE.2 port_count hargs⟩
  rw [wp_bind, wp_load]
  refine ⟨fun hnone => absurd hn (by simp [hnone]), fun node' hnode' => ?_⟩
  obtain rfl : node = node' := Option.some.inj (hn.symm.trans hnode')
  have hfew : ∀ {t : BitVec 32} {len : Nat}, (node.type &&& t = 0 → len ≤ 1) →
      node.type &&& t ≠ 0 ∨ len ≤ port_count.toNat := by
    intro t len hlen
    by_cases hzero : node.type &&& t = 0
    · exact .inr (Nat.le_trans (hlen hzero) (by omega))
    · exact .inl hzero
  dsimp only
  generalize htypes : List.replicate (port_count.toNat - node.inputs.length)
    ksiNodePortTypeFloat = types
  rw [wp_bind]
  refine impl_ksiNodeChangeInputPortCount_wp hflag hn
    (fun _ => ⟨hfew hid.inputs, by simp [← htypes], ?_⟩)
    fun s₁ hs₁ => ?_
  · rw [← htypes]
    exact List.all_eq_true.mpr fun type htype => by rw [List.eq_of_mem_replicate htype]; decide
  refine impl_ksiNodeChangeOutputPortCount_wp hflag (heap_of_eq hn hs₁) (fun _ => ⟨?_, ?_⟩)
    fun s₂ hs₂ => hQ port_count hargs hpos s₂ ?_
  · rcases hfew hid.outputs with hset | hle
    · exact .inl fun hzero => hset (and_eq_zero_of_or hzero)
    · exact .inr (.inr hle)
  · simp [KsiNode.resizeInputs, ← htypes, hid.balanced]
  · rw [hs₂, hs₁, Graph.update_update]
    refine Graph.update_congr fun m hm => ?_
    obtain rfl : node = m := Option.some.inj (hn.symm.trans hm)
    unfold KsiNode.resize
    rw [htypes]
    rfl

/-! ### Every call keeps the shape -/

/-- A change of one node that keeps the shape of an Id node. -/
theorem IdShaped.update (h : IdShaped g) {f : KsiNode → KsiNode}
    (hf : ∀ node, g.heap p = some node →
      ksiNodeTypeInlineId (f node).type = ksiNodeTypeInlineId node.type ∧
      (ksiNodeTypeInlineId node.type = 1 → IdShape node → IdShape (f node))) :
    IdShaped (g.update p f) := by
  intro q m hq hid
  rw [Graph.heap_update] at hq
  split at hq
  · rename_i hqp
    obtain ⟨node, hnode, rfl⟩ := Option.map_eq_some_iff.mp hq
    obtain ⟨hinline, hshape⟩ := hf node (hqp ▸ hnode)
    rw [hinline] at hid
    exact hshape hid (h q node hnode hid)
  · exact h q m hq hid

theorem Mild.idShape {f : KsiNode → KsiNode} (hf : Mild f) (h : IdShape node) :
    IdShape (f node) := by
  have hinputs : (f node).inputs.length = node.inputs.length := by
    have hshape := congrArg (fun shape => shape.2.2.length) (hf.shape node)
    simpa [KsiNode.shape] using hshape
  refine ⟨?_, fun hzero => ?_, fun hzero => ?_⟩
  · rw [hinputs, hf.outputs]
    exact h.balanced
  · rw [hinputs]
    exact h.inputs (hf.dynamic node _ (by simp) hzero)
  · rw [hf.outputs]
    exact h.outputs (hf.dynamic node _ (by simp) hzero)

abbrev KeepsIdShaped {α : Type} (x : Edit α) : Prop := Keeps (fun s => IdShaped s.graph) x

theorem idShaped_walks : Walks flag fun {α} (x : Edit α) => KeepsIdShaped x where
  toCompositional := keeps_compositional _
  update := by
    intro p f hf s h
    rw [wp_update]
    exact ⟨fun _ => trivial,
      fun _ _ => h.update fun node _ => ⟨hf.inline node, fun _ => hf.idShape⟩⟩
  refreshCopying := fun n port s h =>
    (refreshCopying_quiet (absurd trivial) (absurd trivial)).wp fun _ s' hs' => by
      show IdShaped s'.graph
      rwa [hs']

/-- A store to the successors or to the count keeps the shape. -/
theorem link_idShaped {src des : NodePtr} : KeepsIdShaped (link src des k) := by
  have hK : Walks .editing fun {α} (x : Edit α) => KeepsIdShaped x := idShaped_walks
  refine hK.bind hK.load fun _ => hK.ite (hK.pure ()) (hK.bind (fun s h => ?_) fun _ =>
    hK.update (mild_depNum (· + 1)))
  rw [wp_update]
  exact ⟨fun _ => trivial, fun _ _ => h.update fun node _ => ⟨rfl, fun _ hnode =>
    ⟨hnode.balanced, hnode.inputs, hnode.outputs⟩⟩⟩

theorem IdShaped.add (h : IdShaped g) {typeFlags : BitVec 32}
    {ports : List PortType × List PortType}
    (hports : inlinePorts (ksiNodeTypeInlineId typeFlags) = some ports) :
      IdShaped (g.add typeFlags ports) := by
  intro q m hq hid
  unfold Graph.add at hq
  dsimp only at hq
  by_cases heq : q = g.nextNode
  · rw [heq, Function.update_self, Option.some.injEq] at hq
    subst hq
    rw [show (freshNode typeFlags ports _).type = typeFlags from rfl] at hid
    rw [hid] at hports
    cases hports
    exact ⟨rfl, fun _ => Nat.le_refl 1, fun _ => Nat.le_refl 1⟩
  · rw [Function.update_of_ne heq] at hq
    exact h q m hq hid

/-- **A call keeps the shape of Id nodes.** -/
theorem IdShaped.call (h : IdShaped s.graph) (c : Call) :
    wp True (c.kernel flag) s (fun _ s' => IdShaped s'.graph) fun _ s' => IdShaped s'.graph := by
  have hK : Walks flag fun {α} (x : Edit α) => KeepsIdShaped x := idShaped_walks
  have hstore : ∀ {f : Engine → Engine}, (∀ s, (f s).graph.heap = s.graph.heap) →
      KeepsIdShaped (Prog.modify f) := fun {f} hf s h q m hq => h q m (by rwa [← hf s])
  cases c with
  | addNode typeFlags =>
      unfold Call.kernel
      rw [wp_bind]
      refine impl_ksiEngineAddNode_wp (absurd trivial) typeFlags (fun _ _ => h)
        fun _ ports s' hports _ hs' => ?_
      show IdShaped s'.graph
      rw [hs']
      exact h.add hports
  | makeWire srcId srcPort desId desPort gain =>
      exact hK.bind (hK.impl_ksiEngineMakeWire fun _ _ => link_idShaped)
        (fun _ => hK.pure none) s h
  | makeBias desId desPort bias =>
      exact hK.bind (hK.impl_ksiEngineMakeBias _ _ _) (fun _ => hK.pure none) s h
  | detachNodes srcId desId =>
      exact hK.bind (hK.impl_ksiEngineDetachNodes _ _) (fun _ => hK.pure none) s h
  | removeNode id =>
      refine hK.bind (hK.impl_ksiEngineRemoveNode (hstore fun _ => rfl) (hstore fun _ => rfl))
        (fun n => hK.bind (fun s h => ?_) fun _ => hK.pure none) s h
      refine ksiEngineDestroyNode_wp (absurd trivial) (absurd trivial) fun s' hs' q m hq => ?_
      rw [hs'] at hq
      by_cases hqn : q = n
      · simp [hqn] at hq
      · exact h q m (by simpa [hqn] using hq)
  | removeWire srcId srcPort desId desPort =>
      exact hK.bind (hK.impl_ksiEngineRemoveWire _ _ _ _) (fun _ => hK.pure none) s h
  | sendEditingCommand id args =>
      unfold Call.kernel
      rw [wp_bind]
      unfold impl_ksiEngineSendEditingCommand
      rw [wp_bind, wp_checkInitialized]
      refine ⟨fun _ => ?_, fun _ => h⟩
      rw [wp_bind, wp_checkVec]
      refine ⟨fun _ => trivial, fun _ => h, fun n _ => ?_⟩
      rw [wp_bind, wp_load]
      refine ⟨fun _ => trivial, fun node hnode => ?_⟩
      split
      · rename_i hid
        refine ksiBuiltinNodeFuncIdEditCmd_wp (absurd trivial) hnode (h n node hnode hid)
          ⟨fun _ => h, fun _ _ _ => h⟩ fun i _ _ s' hs' => ?_
        show IdShaped s'.graph
        rw [hs']
        exact h.update fun node _ =>
          ⟨node.resize_inline _, fun _ hshape => idShape_resize _ hshape.balanced⟩
      · exact hK.kscarletMidiSegEditCmd args s h
      all_goals exact h

end Ksi.Dag

/-
Changing the port counts of an Id node in a consistent graph.

A wire is recorded at both of its ends, and Id's command works on one end only.  An output
port that is dropped may still be named by the entries of other nodes, and pointed to by
their ports; an input port that is dropped takes its entries along and leaves the id of the
node in the successor lists of their sources, and counted in `depNum`.  What stays is
coherent exactly if none of the dropped ports had such wires.
-/
import Ksi.Proofs.Dag.Parting
import Ksi.Proofs.Dag.Resize

namespace Ksi.Dag

open Prog

variable {s s' : Engine} {g : Graph} {n p q : NodePtr} {node m : KsiNode} {flag : Flag}
  {i j k : Nat}
  {types : List PortType}

/-! ### The buffers of the ports that stay -/

/-- The buffers of all ports stay, but for those of `n` from `j` on. -/
structure SameBuffers (n : NodePtr) (j : Nat) (s s' : Engine) : Prop where
  env : ∀ q i, (q = n → i < j) → s'.env q i = s.env q i
  outputBuffer : ∀ q i, (q = n → i < j) → s'.outputBuffer q i = s.outputBuffer q i

theorem sameBuffers_compositional {P : KsiError → Prop} (n : NodePtr) (j : Nat) :
    Compositional P fun {α} (x : Edit α) => Within (SameBuffers n j) x :=
  within_compositional (fun _ => ⟨fun _ _ _ => rfl, fun _ _ _ => rfl⟩) fun _ _ _ h h' =>
    ⟨fun q i hi => (h'.env q i hi).trans (h.env q i hi),
      fun q i hi => (h'.outputBuffer q i hi).trans (h.outputBuffer q i hi)⟩

theorem modify_sameBuffers {f : Engine → Engine} (henv : ∀ s, (f s).env = s.env)
    (houtput : ∀ s, (f s).outputBuffer = s.outputBuffer) :
    Within (SameBuffers n j) (modify f : Edit Unit) :=
  .modify fun s => ⟨fun _ _ _ => by rw [henv], fun _ _ _ => by rw [houtput]⟩

theorem update_sameBuffers {f : KsiNode → KsiNode} : Within (SameBuffers n j) (update p f) :=
  (sameBuffers_compositional (P := fun _ => True) n j).bind
    ((sameBuffers_compositional (P := fun _ => True) n j).read _) fun _ =>
      modify_sameBuffers (fun _ => rfl) fun _ => rfl

theorem malloc_sameBuffers (size : Nat) :
    Within (SameBuffers n j) (ksiMVCCMonitoredMalloc size flag) := by
  intro s
  unfold Prog.wp ksiMVCCMonitoredMalloc
  by_cases hsize : size = 0
  · cases flag <;> simp only [hsize, if_true] <;> exact ⟨fun _ _ _ => rfl, fun _ _ _ => rfl⟩
  · cases flag with
    | editing =>
        simp only [hsize, if_false]
        exact ⟨fun _ _ _ => rfl, fun _ _ _ => rfl⟩
    | committing =>
        simp only [hsize, if_false]
        cases s.mallocBufs with
        | nil => trivial
        | cons ret rest => exact ⟨fun _ _ _ => rfl, fun _ _ _ => rfl⟩

theorem free_sameBuffers (ptr : Option BufPtr) :
    Within (SameBuffers n j) (ksiMVCCDeferredFree ptr flag) := by
  intro s
  unfold Prog.wp ksiMVCCDeferredFree
  cases ptr with
  | none => exact ⟨fun _ _ _ => rfl, fun _ _ _ => rfl⟩
  | some ptr =>
      cases flag with
      | editing => exact ⟨fun _ _ _ => rfl, fun _ _ _ => rfl⟩
      | committing =>
          cases s.freeBufs with
          | nil => trivial
          | cons fptr rest =>
              by_cases heq : fptr = ptr
              · simp only [heq, if_true]
                exact ⟨fun _ _ _ => rfl, fun _ _ _ => rfl⟩
              · simp only [heq, if_false]

theorem setEnv_sameBuffers {f : SignalEnv → SignalEnv} (hi : j ≤ i) :
    Within (SameBuffers n j) (setEnv n i f) := by
  refine Within.modify fun s => ⟨fun q l hl => ?_, fun _ _ _ => rfl⟩
  dsimp only
  by_cases hq : q = n
  · subst hq
    have hne : l ≠ i := by
      have := hl rfl
      omega
    rw [Function.update_self, Function.update_of_ne hne]
  · rw [Function.update_of_ne hq]

theorem setOutput_sameBuffers {ptr : Option BufPtr} (hi : j ≤ i) :
    Within (SameBuffers n j) (setOutput n i ptr) := by
  refine Within.modify fun s => ⟨fun _ _ _ => rfl, fun q l hl => ?_⟩
  dsimp only
  by_cases hq : q = n
  · subst hq
    have hne : l ≠ i := by
      have := hl rfl
      omega
    rw [Function.update_self, Function.update_of_ne hne]
  · rw [Function.update_of_ne hq]

theorem newOutputs_sameBuffers : ∀ (types : List PortType) (i : Nat), j ≤ i →
    Within (SameBuffers n j) (newOutputs n flag i types) := by
  have hK := sameBuffers_compositional (P := fun _ => True) n j
  intro types
  induction types with
  | nil => exact fun _ _ => hK.pure ()
  | cons type rest ih =>
      intro i hi
      exact hK.bind (hK.ite (malloc_sameBuffers _)
        (hK.bind (hK.read _) fun _ => malloc_sameBuffers _))
        fun _ => hK.bind (setOutput_sameBuffers hi) fun _ => ih (i + 1) (by omega)

theorem changeInputs_sameBuffers (hn : s.graph.heap n = some node) (hj : j ≤ node.inputs.length) :
    wp True (impl_ksiNodeChangeInputPortCount n k types flag) s (fun _ s' => SameBuffers n j s s')
      fun _ s' => SameBuffers n j s s' := by
  have hK := sameBuffers_compositional (P := fun _ => True) n j
  unfold impl_ksiNodeChangeInputPortCount
  rw [wp_bind, wp_load]
  refine ⟨fun _ => trivial, fun node' hnode' => ?_⟩
  obtain rfl : node = node' := Option.some.inj (hn.symm.trans hnode')
  have hdelete : ∀ i, Within (SameBuffers n j) (impl_delete_env n flag i) := fun i =>
    hK.bind (hK.read _) fun _ =>
      hK.ite (hK.pure ()) (hK.bind (hK.read _) fun _ => free_sameBuffers _)
  refine hK.bind (hK.assert _)
    (fun _ => hK.bind (hK.assert _) fun _ => hK.bind update_sameBuffers fun _ =>
    hK.bind (hK.forEach hdelete _) fun _ => hK.bind update_sameBuffers fun _ =>
      hK.forEach_mem _ fun i hi => setEnv_sameBuffers ?_) s
  exact Nat.le_trans hj (List.mem_range'_1.mp hi).1

theorem changeOutputs_sameBuffers (hn : s.graph.heap n = some node) (hj : j ≤ node.outputs.length) :
    wp True (impl_ksiNodeChangeOutputPortCount n k types flag) s (fun _ s' => SameBuffers n j s s')
      fun _ s' => SameBuffers n j s s' := by
  have hK := sameBuffers_compositional (P := fun _ => True) n j
  unfold impl_ksiNodeChangeOutputPortCount
  rw [wp_bind, wp_load]
  refine ⟨fun _ => trivial, fun node' hnode' => ?_⟩
  obtain rfl : node = node' := Option.some.inj (hn.symm.trans hnode')
  have hdelete : ∀ i, Within (SameBuffers n j) (impl_delete_output n flag i) := fun i =>
    hK.bind (hK.read _) fun _ => free_sameBuffers _
  exact hK.bind (hK.assert _)
    (fun _ => hK.bind (hK.assert _) fun _ => hK.bind update_sameBuffers fun _ =>
    hK.bind (hK.when (hK.forEach hdelete _)) fun _ => hK.bind update_sameBuffers fun _ =>
      hK.when (newOutputs_sameBuffers _ _ hj)) s

/-! ### The buffers that are given up -/

/-- The buffers of the output ports from `k` on; a final node has none of its own. -/
def droppedOutputs (s : Engine) (n : NodePtr) (node : KsiNode) (k : Nat) : List BufPtr :=
  if node.isNormal then (indices k node.outputs.length).filterMap (s.outputBuffer n) else []

theorem deleteOutputs_freeBufs (hn : s.graph.heap n = some node) (hj : j ≤ node.outputs.length)
    {E : KsiError → Engine → Prop} :
    wp True (forEach (indices k j) (impl_delete_output n .editing)) s
      (fun _ s' => s'.graph = s.graph ∧
        s'.freeBufs = s.freeBufs ++ (indices k j).filterMap (s.outputBuffer n)) E := by
  unfold indices
  refine wp_mono (wp_forRange' (fun l s' => s'.graph = s.graph ∧ s'.outputBuffer = s.outputBuffer ∧
    s'.freeBufs = s.freeBufs ++ (List.range' k (l - k)).filterMap (s.outputBuffer n)) ?_ ?_) ?_
    fun _ _ hE => hE
  · rintro l s' hge hlt ⟨hgraph, hbuffer, hfree⟩
    have hrange : List.range' k (l + 1 - k) = List.range' k (l - k) ++ [l] := by
      rw [show l + 1 - k = l - k + 1 by omega, List.range'_concat]
      congr 2
      omega
    have hout : nth node.outputs l ≠ none := nth_ne_none (by omega) (by omega)
    unfold impl_delete_output loadOutput
    rw [wp_bind, wp_read, hgraph, hn]
    refine ⟨fun _ => trivial, fun ptr hptr => ?_⟩
    obtain ⟨type, -, rfl⟩ := Option.map_eq_some_iff.mp hptr
    rw [hrange, List.filterMap_append, ← List.append_assoc, ← hfree, hbuffer]
    simp only [Int.toNat_natCast]
    cases hat : s.outputBuffer n l with
    | none => exact ⟨hgraph, hbuffer, by simp [hat]⟩
    | some b => exact ⟨hgraph, hbuffer, by simp [hat]⟩
  · exact ⟨rfl, rfl, by simp⟩
  · rintro _ s' ⟨hgraph, -, hfree⟩
    refine ⟨hgraph, ?_⟩
    rw [hfree, Nat.add_sub_cancel_left]

theorem newOutputs_freeBufs : ∀ (types : List PortType) (i : Nat),
    Within (fun s s' : Engine => s'.freeBufs = s.freeBufs) (newOutputs n .editing i types) := by
  have hK : Compositional (fun _ => True) fun {α} (x : Edit α) =>
      Within (fun s s' : Engine => s'.freeBufs = s.freeBufs) x :=
    within_compositional (fun _ => rfl) fun _ _ _ h h' => h'.trans h
  have hmalloc : ∀ size, Within (fun s s' : Engine => s'.freeBufs = s.freeBufs)
      (ksiMVCCMonitoredMalloc size .editing) := by
    intro size s
    unfold Prog.wp ksiMVCCMonitoredMalloc
    by_cases hsize : size = 0 <;> simp [hsize]
  intro types
  induction types with
  | nil => exact fun _ => hK.pure ()
  | cons type rest ih =>
      intro i
      exact hK.bind (hK.ite (hmalloc _) (hK.bind (hK.read _) fun _ => hmalloc _)) fun _ =>
        hK.bind (Within.modify fun _ => rfl) fun _ => ih (i + 1)

theorem changeInputs_freeBufs : Within (fun s s' : Engine => s.freeBufs <+: s'.freeBufs)
    (impl_ksiNodeChangeInputPortCount n k types .editing) := by
  have hK : Compositional (fun _ => True) fun {α} (x : Edit α) =>
      Within (fun s s' : Engine => s.freeBufs <+: s'.freeBufs) x :=
    within_compositional (fun s => List.prefix_refl _) fun _ _ _ h h' => h.trans h'
  have hfree : ∀ ptr, Within (fun s s' : Engine => s.freeBufs <+: s'.freeBufs)
      (ksiMVCCDeferredFree ptr .editing) := by
    intro ptr s
    cases ptr with
    | none => exact List.prefix_refl s.freeBufs
    | some ptr => exact List.prefix_append _ _
  have hmodify : ∀ {f : Engine → Engine}, (∀ s, (f s).freeBufs = s.freeBufs) →
      Within (fun s s' : Engine => s.freeBufs <+: s'.freeBufs) (modify f : Edit Unit) :=
    fun hf => .modify fun s => by rw [hf]
  have hupdate : ∀ f : KsiNode → KsiNode,
      Within (fun s s' : Engine => s.freeBufs <+: s'.freeBufs) (update n f) :=
    fun f => hK.bind (hK.read _) fun _ => hmodify fun _ => rfl
  have hdelete : ∀ i, Within (fun s s' : Engine => s.freeBufs <+: s'.freeBufs)
      (impl_delete_env n .editing i) := fun i =>
    hK.bind (hK.read _) fun _ => hK.ite (hK.pure ()) (hK.bind (hK.read _) fun _ => hfree _)
  have hset : ∀ i, Within (fun s s' : Engine => s.freeBufs <+: s'.freeBufs)
      (setEnv n i fun _ => { buffer := none, internalBufferPtr := none }) :=
        fun i => hmodify fun _ => rfl
  exact hK.bind (hK.read _) fun _ => hK.bind (hK.assert _) fun _ => hK.bind (hK.assert _) fun _ =>
    hK.bind (hupdate _) fun _ => hK.bind (hK.forEach hdelete _) fun _ =>
      hK.bind (hupdate _) fun _ =>
      hK.forEach hset _

theorem changeOutputs_freeBufs (hn : s.graph.heap n = some node) :
    wp True (impl_ksiNodeChangeOutputPortCount n k types .editing) s
      (fun _ s' => s'.freeBufs = s.freeBufs ++ droppedOutputs s n node k) fun _ _ => True := by
  unfold impl_ksiNodeChangeOutputPortCount
  rw [wp_bind, wp_load]
  refine ⟨fun _ => trivial, fun node' hnode' => ?_⟩
  obtain rfl : node = node' := Option.some.inj (hn.symm.trans hnode')
  simp only [wp_bind, wp_assert]
  refine ⟨fun _ => ⟨fun _ => ?_, fun _ => trivial⟩, fun _ => trivial⟩
  rw [wp_update]
  refine ⟨fun _ => trivial, fun _ _ => ?_⟩
  unfold droppedOutputs
  -- the new outputs come after the old ones have been given up
  have hlast : ∀ s' : Engine, ∀ bufs, s'.freeBufs = s.freeBufs ++ bufs → wp True
      (update n fun m => { m with
        outputs := m.outputs.take k ++ types.take (k - node.outputs.length) }) s'
      (fun _ s' => wp True (Prog.when node.isNormal (newOutputs n .editing node.outputs.length
        (types.take (k - node.outputs.length)))) s' (fun _ s' => s'.freeBufs = s.freeBufs ++ bufs)
        fun _ _ => True) fun _ _ => True := by
    intro s' bufs hs'
    rw [wp_update]
    refine ⟨fun _ => trivial, fun _ _ => ?_⟩
    rw [wp_when]
    refine ⟨fun _ => ?_, fun _ => hs'⟩
    exact wp_mono (newOutputs_freeBufs _ _ _) (fun _ s'' hs'' => hs''.trans hs')
      fun _ _ _ => trivial
  rw [wp_when]
  refine ⟨fun hnormal => ?_, fun hfinal => ?_⟩
  · rw [if_pos hnormal]
    have hat :
      (s.graph.update n fun m => { m with type := m.type ||| ksiNodeTypeDynamicOutputType }).heap
        n =
        some { node with type := node.type ||| ksiNodeTypeDynamicOutputType } := heap_of_eq hn rfl
    have hle : node.outputs.length ≤
        ({ node with type := node.type ||| ksiNodeTypeDynamicOutputType } :
          KsiNode).outputs.length := Nat.le_refl _
    exact wp_mono (deleteOutputs_freeBufs (E := fun _ _ => True) hat hle)
      (fun _ s' hs' => hlast s' _ hs'.2) fun _ _ _ => trivial
  · rw [if_neg hfinal]
    exact hlast _ [] (List.append_nil _).symm

/-- **The buffers**: the ports that stay keep theirs, and those of the dropped outputs are
given up last. -/
theorem idEdit_buffers {args : String} (hn : s.graph.heap n = some node) (hid : IdShape node) :
    wp True (ksiBuiltinNodeFuncIdEditCmd n args flag) s
      (fun _ s' => SameBuffers n node.inputs.length s s' ∧
        ∀ i, scanInt args = some i → flag = .editing →
          ∃ l, s'.freeBufs = s.freeBufs ++ l ++ droppedOutputs s n node i.toNat)
            fun _ _ => True := by
  unfold ksiBuiltinNodeFuncIdEditCmd
  rw [wp_bind, wp_orError]
  refine ⟨fun port_count hargs => ?_, fun _ => trivial⟩
  rw [wp_bind, wp_require]
  refine ⟨fun _ => ?_, fun _ => trivial⟩
  rw [wp_bind, wp_load]
  refine ⟨fun _ => trivial, fun node' hnode' => ?_⟩
  obtain rfl : node = node' := Option.some.inj (hn.symm.trans hnode')
  dsimp only
  generalize List.replicate (port_count.toNat - node.inputs.length) ksiNodePortTypeFloat = types
  rw [wp_bind]
  have hgraph : wp True (impl_ksiNodeChangeInputPortCount n port_count.toNat types flag) s
      (fun _ s' => s'.graph = s.graph.update n (·.resizeInputs port_count.toNat types))
        fun _ _ => True :=
    impl_ksiNodeChangeInputPortCount_wp (absurd trivial) hn (absurd trivial) fun _ hs' => hs'
  have hfree : wp True (impl_ksiNodeChangeInputPortCount n port_count.toNat types flag) s
      (fun _ s' => flag = .editing → s.freeBufs <+: s'.freeBufs) fun _ _ => True := by
    cases flag with
    | editing => exact wp_mono (changeInputs_freeBufs s) (fun _ _ h _ => h) fun _ _ _ => trivial
    | committing => exact wp_mono hgraph (fun _ _ _ => nofun) fun _ _ _ => trivial
  refine wp_mono (wp_and (wp_and hgraph (changeInputs_sameBuffers hn (Nat.le_refl _))) hfree) ?_
    fun _ _ _ => trivial
  rintro _ s₁ ⟨⟨hgraph₁, hsame₁⟩, hfree₁⟩
  have hat := heap_of_eq hn hgraph₁
  -- the outputs to drop are still there, with their buffers
  have hdropped : droppedOutputs s₁ n (node.resizeInputs port_count.toNat types) port_count.toNat =
      droppedOutputs s n node port_count.toNat := by
    have hnormal : (node.resizeInputs port_count.toNat types).isNormal = node.isNormal := by
      unfold KsiNode.isNormal KsiNode.resizeInputs
      rw [or_and_of_disjoint (by decide)]
    unfold droppedOutputs
    rw [hnormal]
    split
    · refine List.filterMap_congr fun l hl => hsame₁.outputBuffer n l fun _ => ?_
      have hrange := List.mem_range'_1.mp hl
      have hlen : (node.resizeInputs port_count.toNat types).outputs.length =
        node.outputs.length := rfl
      have hbalanced := hid.balanced
      omega
    · rfl
  have hlast : wp True (impl_ksiNodeChangeOutputPortCount n port_count.toNat types flag) s₁
      (fun _ s' => flag = .editing → s'.freeBufs = s₁.freeBufs ++
        droppedOutputs s n node port_count.toNat)
      fun _ _ => True := by
    cases flag with
    | editing =>
        rw [← hdropped]
        exact wp_mono (changeOutputs_freeBufs hat) (fun _ _ h _ => h) fun _ _ h => h
    | committing =>
        exact wp_mono (changeOutputs_sameBuffers hat (Nat.zero_le _)) (fun _ _ _ => nofun)
          fun _ _ _ => trivial
  refine wp_mono (wp_and (changeOutputs_sameBuffers hat (Nat.le_of_eq hid.balanced)) hlast) ?_
    fun _ _ _ => trivial
  rintro _ s₂ ⟨hsame₂, hfree₂⟩
  refine ⟨⟨fun q i hi => (hsame₂.env q i hi).trans (hsame₁.env q i hi),
    fun q i hi => (hsame₂.outputBuffer q i hi).trans (hsame₁.outputBuffer q i hi)⟩,
    fun i hi hflag => ?_⟩
  obtain rfl : port_count = i := Option.some.inj (hargs.symm.trans hi)
  obtain ⟨l, hl⟩ := hfree₁ hflag
  exact ⟨l, by rw [hfree₂ hflag, hl]⟩

/-! ### What stays -/

/-- What Id's command is to leave behind when the port count of `n` becomes `k`. -/
structure PortsKept (s s' : Engine) (n : NodePtr) (node : KsiNode) (k : Nat) : Prop where
  /-- every entry is from an output port of a live node -/
  entries : EntriesLive s'.graph
  /-- no port points to an output buffer that has been given up -/
  pointers : ∀ q m, s'.graph.heap q = some m → ∀ i port, m.inputs[i]? = some port →
    port.type.isEvent = false → ∀ b ∈ droppedOutputs s n node k,
      (s'.env q i).internalBufferPtr ≠ some b
  successors : ∀ p m, s'.graph.heap p = some m → ∀ q m', s'.graph.heap q = some m' →
    (m'.id ∈ m.successors ↔ p ∈ m'.preds)
  depNum : ∀ q m, s'.graph.heap q = some m → m.depNum = m.preds.card
  /-- the first ports keep what they had -/
  ports : ∃ node', s'.graph.heap n = some node' ∧ node'.inputs.length = k ∧
    node'.outputs.length = k ∧
    ∀ i, i < k → i < node.inputs.length → node'.inputs[i]? = node.inputs[i]? ∧
      node'.outputs[i]? = node.outputs[i]? ∧ s'.env n i = s.env n i ∧
        s'.outputBuffer n i = s.outputBuffer n i

/-- The ports of `n` from `k` on can be dropped: nothing that stays is wired to them. -/
structure Droppable (s : Engine) (n : NodePtr) (node : KsiNode) (k : Nat) : Prop where
  /-- no port that stays has an entry from a dropped output port -/
  outputs : ∀ q m, s.graph.heap q = some m → ∀ i port, m.inputs[i]? = some port → (q = n → i < k) →
    ∀ e ∈ port.entries, e.src = some n → e.srcPort < (k : Int)
  /-- nor points to the buffer of one -/
  pointers : ∀ q m, s.graph.heap q = some m → ∀ i port, m.inputs[i]? = some port → (q = n → i < k) →
    port.type.isEvent = false → ∀ b ∈ droppedOutputs s n node k,
      (s.env q i).internalBufferPtr ≠ some b
  /-- each source of a dropped input port is the source of one that stays -/
  inputs : ∀ i port, k ≤ i → node.inputs[i]? = some port → ∀ e ∈ port.entries, ∀ src,
    e.src = some src →
    ∃ j port', j < k ∧ node.inputs[j]? = some port' ∧ ∃ e' ∈ port'.entries, e'.src = some src

theorem KsiNode.resize_input {port : InputPort} (h : (node.resize k).inputs[i]? = some port) :
    (i < k ∧ node.inputs[i]? = some port) ∨ port.entries = [] := by
  rw [resize_inputs, List.getElem?_append] at h
  split at h
  · rename_i hi
    rw [List.length_take] at hi
    rw [List.getElem?_take_of_lt (by omega)] at h
    exact .inl ⟨by omega, h⟩
  · rw [List.getElem?_replicate] at h
    split at h
    · cases h
      exact .inr rfl
    · cases h

theorem KsiNode.resize_input_of_lt {port : InputPort} (hi : i < k)
    (h : node.inputs[i]? = some port) : (node.resize k).inputs[i]? = some port := by
  have hlt := (List.getElem?_eq_some_iff.mp h).1
  rw [resize_inputs, List.getElem?_append_left (by rw [List.length_take]; omega),
    List.getElem?_take_of_lt hi, h]

theorem nth_ne_none_iff {α : Type} {a : List α} {l : Int} :
    nth a l ≠ none ↔ 0 ≤ l ∧ l < a.length := by
  refine ⟨fun h => ?_, fun h => nth_ne_none h.1 h.2⟩
  obtain ⟨x, hx⟩ := Option.ne_none_iff_exists'.mp h
  exact (nth_some hx).2

/-- The sources of a node after the change. -/
theorem resize_preds_subset : (node.resize k).preds ⊆ node.preds := by
  intro q hq
  obtain ⟨port, hport, e, he, hsrc⟩ := KsiNode.mem_preds.mp hq
  obtain ⟨i, hi, rfl⟩ := List.mem_iff_getElem.mp hport
  rcases KsiNode.resize_input (List.getElem?_eq_getElem hi) with ⟨-, hget⟩ | hnil
  · exact KsiNode.mem_preds.mpr ⟨_, List.mem_of_getElem? hget, e, he, hsrc⟩
  · rw [hnil] at he
    cases he

theorem mem_resize_preds : q ∈ (node.resize k).preds ↔
    ∃ j port, j < k ∧ node.inputs[j]? = some port ∧ ∃ e ∈ port.entries, e.src = some q := by
  constructor
  · intro hq
    obtain ⟨port, hport, e, he, hsrc⟩ := KsiNode.mem_preds.mp hq
    obtain ⟨i, hi, rfl⟩ := List.mem_iff_getElem.mp hport
    rcases KsiNode.resize_input (List.getElem?_eq_getElem hi) with ⟨hlt, hget⟩ | hnil
    · exact ⟨i, _, hlt, hget, e, he, hsrc⟩
    · rw [hnil] at he
      cases he
  · rintro ⟨j, port, hlt, hget, e, he, hsrc⟩
    exact KsiNode.mem_preds.mpr ⟨port, List.mem_of_getElem? (KsiNode.resize_input_of_lt hlt hget),
      e, he, hsrc⟩

/-- No source is lost if the dropped ports have none of their own. -/
theorem resize_preds (hinputs : ∀ i port, k ≤ i → node.inputs[i]? = some port → ∀ e ∈ port.entries,
    ∀ src, e.src = some src →
      ∃ j port', j < k ∧ node.inputs[j]? = some port' ∧ ∃ e' ∈ port'.entries, e'.src = some src) :
    (node.resize k).preds = node.preds := by
  refine Finset.Subset.antisymm resize_preds_subset fun q hq => ?_
  obtain ⟨port, hport, e, he, hsrc⟩ := KsiNode.mem_preds.mp hq
  obtain ⟨i, hi, rfl⟩ := List.mem_iff_getElem.mp hport
  rw [mem_resize_preds]
  by_cases hlt : i < k
  · exact ⟨i, _, hlt, List.getElem?_eq_getElem hi, e, he, hsrc⟩
  · exact hinputs i _ (by omega) (List.getElem?_eq_getElem hi) e he q hsrc

section Change

variable {args : String} (h : Consistent s.graph) (hid : IdShape node)
  (hn : s.graph.heap n = some node)
  (hgraph : s'.graph = s.graph.update n (·.resize k))
    (hsame : SameBuffers n node.inputs.length s s')
include hn hgraph

theorem heap_resized (q : NodePtr) :
    s'.graph.heap q = if q = n then some (node.resize k) else s.graph.heap q := by
  rw [hgraph, Graph.heap_update]
  split
  · rename_i hq
    rw [hq, hn, Option.map_some]
  · rfl

/-- A port after the change is one that was there, or has no entries. -/
theorem input_resized (hq : s'.graph.heap q = some m) {port : InputPort}
    (hget : m.inputs[i]? = some port) :
    (∃ m₀, s.graph.heap q = some m₀ ∧ m₀.inputs[i]? = some port ∧ (q = n → i < k)) ∨
    port.entries = [] := by
  rw [heap_resized hn hgraph] at hq
  split at hq
  · rename_i hqn
    cases hq
    rcases KsiNode.resize_input hget with ⟨hlt, hget⟩ | hnil
    · exact .inl ⟨node, hqn ▸ hn, hget, fun _ => hlt⟩
    · exact .inr hnil
  · rename_i hqn
    exact .inl ⟨m, hq, hget, fun heq => absurd heq hqn⟩

/-- A port that stays is there after the change. -/
theorem input_kept (hq : s.graph.heap q = some m) {port : InputPort}
    (hget : m.inputs[i]? = some port) (hlt : q = n → i < k) :
    ∃ m', s'.graph.heap q = some m' ∧ m'.inputs[i]? = some port := by
  rw [heap_resized hn hgraph]
  by_cases hqn : q = n
  · subst hqn
    obtain rfl : node = m := Option.some.inj (hn.symm.trans hq)
    exact ⟨_, if_pos rfl, KsiNode.resize_input_of_lt (hlt rfl) hget⟩
  · exact ⟨m, by rw [if_neg hqn, hq], hget⟩

include h hid hsame

/-- **What stays is coherent exactly if the ports could be dropped.** -/
theorem portsKept_iff : PortsKept s s' n node k ↔ Droppable s n node k := by
  have hheap := heap_resized hn hgraph
  have hat : s'.graph.heap n = some (node.resize k) := by rw [hheap, if_pos rfl]
  have hlen := hid.balanced
  have hout := KsiNode.resize_outputs_length k hlen
  constructor
  · intro hkept
    refine ⟨fun q m hq i port hget hlt e he hsrc => ?_,
      fun q m hq i port hget hlt hsignal b hb => ?_, fun i port hle hget e he src hsrc => ?_⟩
    · obtain ⟨m', hq', hget'⟩ := input_kept hn hgraph hq hget hlt
      obtain ⟨r, hr, hnth⟩ := hkept.entries q m' hq' port (List.mem_of_getElem? hget') e he n hsrc
      obtain rfl := Option.some.inj (hat.symm.trans hr)
      have hport := (nth_ne_none_iff.mp hnth).2
      rwa [hout] at hport
    · obtain ⟨m', hq', hget'⟩ := input_kept hn hgraph hq hget hlt
      have hpointer := hkept.pointers q m' hq' i port hget' hsignal b hb
      rwa [hsame.env q i fun hqn => ?_] at hpointer
      subst hqn
      obtain rfl : node = m := Option.some.inj (hn.symm.trans hq)
      exact (List.getElem?_eq_some_iff.mp hget).1
    · -- the source still lists the node
      have hmem : src ∈ node.preds :=
        KsiNode.mem_preds.mpr ⟨port, List.mem_of_getElem? hget, e, he, hsrc⟩
      obtain ⟨srcNode, hsrcNode, -⟩ := h.entriesLive n node hn port
        (List.mem_of_getElem? hget) e he src hsrc
      have hlisted := (h.successors src srcNode hsrcNode n node hn).mpr hmem
      have hstill : ∃ srcNode', s'.graph.heap src = some srcNode' ∧
        node.id ∈ srcNode'.successors := by
        rw [hheap]
        by_cases hsn : src = n
        · subst hsn
          obtain rfl : node = srcNode := Option.some.inj (hn.symm.trans hsrcNode)
          exact ⟨_, if_pos rfl, hlisted⟩
        · exact ⟨srcNode, by rw [if_neg hsn, hsrcNode], hlisted⟩
      obtain ⟨srcNode', hsrcNode', hlisted'⟩ := hstill
      exact mem_resize_preds.mp ((hkept.successors src srcNode' hsrcNode' n _ hat).mp hlisted')
  · intro hdrop
    have hpreds := resize_preds hdrop.inputs
    -- every node keeps its id, its successors, its count and its sources
    have hfields : ∀ q m', s'.graph.heap q = some m' → ∃ m, s.graph.heap q = some m ∧ m'.id = m.id ∧
        m'.successors = m.successors ∧ m'.depNum = m.depNum ∧ m'.preds = m.preds := by
      intro q m' hq
      rw [hheap] at hq
      split at hq
      · rename_i hqn
        cases hq
        exact ⟨node, hqn ▸ hn, rfl, rfl, rfl, hpreds⟩
      · exact ⟨m', hq, rfl, rfl, rfl, rfl⟩
    refine ⟨?_, ?_, ?_, ?_, ?_⟩
    · intro q m' hq port hport e he src hsrc
      obtain ⟨i, hi, rfl⟩ := List.mem_iff_getElem.mp hport
      rcases input_resized hn hgraph hq (List.getElem?_eq_getElem hi) with ⟨m, hm, hget, hlt⟩ | hnil
      · obtain ⟨r, hr, hnth⟩ := h.entriesLive q m hm _ (List.mem_of_getElem? hget) e he src hsrc
        rw [hheap]
        by_cases hsn : src = n
        · subst hsn
          refine ⟨_, if_pos rfl, nth_ne_none_iff.mpr ⟨(nth_ne_none_iff.mp hnth).1, ?_⟩⟩
          rw [hout]
          exact hdrop.outputs q m hm i _ hget hlt e he hsrc
        · exact ⟨r, by rw [if_neg hsn, hr], hnth⟩
      · rw [hnil] at he
        cases he
    · intro q m' hq i port hget hsignal b hb
      -- only where ports are dropped are there buffers to point to
      have hshrinks : k < node.outputs.length := by
        unfold droppedOutputs indices at hb
        split at hb
        · obtain ⟨l, hl, -⟩ := List.mem_filterMap.mp hb
          have := List.mem_range'_1.mp hl
          omega
        · cases hb
      have hthere : ∃ m, s.graph.heap q = some m ∧ m.inputs[i]? = some port ∧ (q = n → i < k) := by
        rw [hheap] at hq
        split at hq
        · rename_i hqn
          cases hq
          have hi : i < k := by
            have := (List.getElem?_eq_some_iff.mp hget).1
            rwa [KsiNode.resize_inputs_length] at this
          rw [KsiNode.resize_inputs, List.getElem?_append_left (by rw [List.length_take]; omega),
            List.getElem?_take_of_lt hi] at hget
          exact ⟨node, hqn ▸ hn, hget, fun _ => hi⟩
        · exact ⟨m', hq, hget, fun heq => absurd heq ‹_›⟩
      obtain ⟨m, hm, hget₀, hlt⟩ := hthere
      rw [hsame.env q i fun hqn => by have := hlt hqn; omega]
      exact hdrop.pointers q m hm i port hget₀ hlt hsignal b hb
    · intro p m hp q m' hq
      obtain ⟨m₀, hm₀, -, hsucc, -, -⟩ := hfields p m hp
      obtain ⟨m₁, hm₁, hmid, -, -, hmpreds⟩ := hfields q m' hq
      rw [hsucc, hmid, hmpreds]
      exact h.successors p m₀ hm₀ q m₁ hm₁
    · intro q m' hq
      obtain ⟨m, hm, -, -, hdep, hmpreds⟩ := hfields q m' hq
      rw [hdep, hmpreds]
      exact h.depNum q m hm
    · refine ⟨_, hat, KsiNode.resize_inputs_length k node, hout, fun i hik hi => ⟨?_, ?_,
        hsame.env n i fun _ => hi, hsame.outputBuffer n i fun _ => hi⟩⟩
      · rw [KsiNode.resize_inputs, List.getElem?_append_left (by rw [List.length_take]; omega),
          List.getElem?_take_of_lt hik]
      · rw [KsiNode.resize_outputs k hlen, List.getElem?_append_left
          (by rw [List.length_take]; omega), List.getElem?_take_of_lt hik]

end Change

/-- With a positive count Id's command returns no error. -/
theorem idEdit_graph {args : String} {d : Prop} (hid : IdShape node)
    (hn : s.graph.heap n = some node) (hargs : scanInt args = some (k : Int)) (hpos : 0 < k)
    (hflag : ¬ d → flag = .editing) :
    wp d (ksiBuiltinNodeFuncIdEditCmd n args flag) s
      (fun _ s' => s'.graph = s.graph.update n (·.resize k)) fun _ _ => False := by
  refine ksiBuiltinNodeFuncIdEditCmd_wp hflag hn hid ⟨fun hnone => ?_, fun i hi hneg => ?_⟩
    fun i hi _ s' hs' => ?_
  · rw [hargs] at hnone
    cases hnone
  · obtain rfl : (k : Int) = i := Option.some.inj (hargs.symm.trans hi)
    omega
  · obtain rfl : (k : Int) = i := Option.some.inj (hargs.symm.trans hi)
    exact hs'

theorem idEdit_returns {args : String} (hid : IdShape node) (hn : s.graph.heap n = some node)
    (hargs : scanInt args = some (k : Int)) (hpos : 0 < k) :
    ∃ s', ksiBuiltinNodeFuncIdEditCmd n args .editing s = some (.ok (), s') ∧
      s'.graph = s.graph.update n (·.resize k) := by
  obtain ⟨r, s', hrun, hok, herr⟩ := exists_of_wp (idEdit_graph hid hn hargs hpos fun _ => rfl)
  cases r with
  | error err => exact (herr err rfl).elim
  | ok u => exact ⟨s', hrun, hok u rfl⟩

/-- **The port count of an Id node**: Id's command returns without an error, and it leaves
behind what it is to leave exactly if the ports could be dropped.  The buffers of the dropped
outputs are the last ones that it queues. -/
theorem idEdit_portsKept_iff {args : String} (h : Consistent s.graph) (hshape : IdShaped s.graph)
    (hn : s.graph.heap n = some node) (hinline : ksiNodeTypeInlineId node.type = 1)
    (hargs : scanInt args = some (k : Int)) (hpos : 0 < k) :
    (∃ s', ksiBuiltinNodeFuncIdEditCmd n args .editing s = some (.ok (), s') ∧
      droppedOutputs s n node k <:+ s'.freeBufs) ∧
    ∀ flag r s', ksiBuiltinNodeFuncIdEditCmd n args flag s = some (r, s') →
      (r = .ok () ∧ PortsKept s s' n node k ↔ Droppable s n node k) := by
  have hid := hshape n node hn hinline
  constructor
  · obtain ⟨s', hrun, -⟩ := idEdit_returns hid hn hargs hpos
    obtain ⟨l, hl⟩ := (of_wp_ok (idEdit_buffers hn hid) hrun).2 k hargs rfl
    exact ⟨s', hrun, by rw [hl]; exact List.suffix_append _ _⟩
  intro flag r s' hrun
  have hwp : wp True (ksiBuiltinNodeFuncIdEditCmd n args flag) s
      (fun _ s' => s'.graph = s.graph.update n (·.resize k)) fun _ _ => False :=
    idEdit_graph hid hn hargs hpos (absurd trivial)
  cases r with
  | error err => exact (of_wp_error hwp hrun).elim
  | ok u =>
      have hsame := (of_wp_ok (idEdit_buffers hn hid) hrun).1
      rw [← portsKept_iff h hid hn (of_wp_ok hwp hrun) hsame]
      exact and_iff_right rfl

/-! ### A coherent graph stays coherent -/

theorem SameType.resize {port : InputPort} {l : Int}
    (hbalanced : node.inputs.length = node.outputs.length) (h : SameType node l port)
    (hlt : l < (k : Int)) : SameType (node.resize k) l port := by
  obtain ⟨type, hnth, hsame⟩ := h
  obtain ⟨hget, h0, hlen⟩ := nth_some hnth
  refine ⟨type, ?_, hsame⟩
  unfold nth
  rw [if_neg (by omega), KsiNode.resize_outputs k hbalanced,
    List.getElem?_append_left (by rw [List.length_take]; omega), List.getElem?_take_of_lt
      (by omega), hget]

theorem Coherent.resize (h : Coherent g) (hn : g.heap n = some node)
    (hbalanced : node.inputs.length = node.outputs.length)
    (houtputs : ∀ q m, g.heap q = some m → ∀ port ∈ m.inputs, ∀ e ∈ port.entries, e.src = some n →
      e.srcPort < (k : Int)) (hpreds : (node.resize k).preds = node.preds) :
    Coherent (g.update n (·.resize k)) := by
  have hheap : ∀ q, (g.update n (·.resize k)).heap q =
      if q = n then some (node.resize k) else g.heap q := by
    intro q
    rw [Graph.heap_update]
    split
    · rename_i hq
      rw [hq, hn, Option.map_some]
    · rfl
  have hscratch : (node.resize k).type &&& ksiNodeTypeScratchMask =
    node.type &&& ksiNodeTypeScratchMask :=
    (or_and_of_disjoint (by decide)).trans (or_and_of_disjoint (by decide))
  have hfinal : (node.resize k).isFinal = node.isFinal := by
    have htype : (node.resize k).type &&& ksiNodeTypeOutputMask =
      node.type &&& ksiNodeTypeOutputMask :=
      (or_and_of_disjoint (by decide)).trans (or_and_of_disjoint (by decide))
    unfold KsiNode.isFinal
    rw [htype]
  have hnew : ∀ q m', (g.update n (·.resize k)).heap q = some m' → ∃ m, g.heap q = some m ∧
      m'.id = m.id ∧ m'.successors = m.successors ∧ m'.depNum = m.depNum ∧ m'.preds = m.preds ∧
      m'.isFinal = m.isFinal ∧ m'.type &&& ksiNodeTypeScratchMask =
        m.type &&& ksiNodeTypeScratchMask ∧
      ∀ port ∈ m'.inputs, port ∈ m.inputs ∨ port.entries = [] := by
    intro q m' hq
    rw [hheap] at hq
    split at hq
    · rename_i hqn
      cases hq
      refine ⟨node, hqn ▸ hn, rfl, rfl, rfl, hpreds, hfinal, hscratch, fun port hport => ?_⟩
      obtain ⟨i, hi, rfl⟩ := List.mem_iff_getElem.mp hport
      rcases KsiNode.resize_input (List.getElem?_eq_getElem hi) with ⟨-, hget⟩ | hnil
      · exact .inl (List.mem_of_getElem? hget)
      · exact .inr hnil
    · exact ⟨m', hq, rfl, rfl, rfl, rfl, rfl, rfl, fun port hport => .inl hport⟩
  have hold : ∀ q m, g.heap q = some m → ∃ m', (g.update n (·.resize k)).heap q = some m' ∧
      m'.id = m.id ∧ m'.isFinal = m.isFinal := by
    intro q m hq
    rw [hheap]
    by_cases hqn : q = n
    · subst hqn
      obtain rfl : node = m := Option.some.inj (hn.symm.trans hq)
      exact ⟨_, if_pos rfl, rfl, hfinal⟩
    · exact ⟨m, by rw [if_neg hqn, hq], rfl, rfl⟩
  refine ⟨⟨?slots, ?named, ?ports, ?successors, ?successorsLive, ?nodup, ?depNum⟩, ?tidy, ?fresh,
    ?irreflexive, ?scratch, ?final⟩
  case tidy => exact h.tidy
  case slots =>
    intro i q hq
    obtain ⟨m, hm, hid⟩ := h.slots i q hq
    obtain ⟨m', hm', hid', -⟩ := hold q m hm
    exact ⟨m', hm', hid'.trans hid⟩
  case named =>
    intro q m' hq
    obtain ⟨m, hm, hid, -⟩ := hnew q m' hq
    rw [hid]
    exact h.named q m hm
  case fresh =>
    intro q m' hq
    obtain ⟨m, hm, -⟩ := hnew q m' hq
    exact h.fresh q m hm
  case ports =>
    intro q m' hq port hport
    obtain ⟨m, hm, -, -, -, -, -, -, hports⟩ := hnew q m' hq
    rcases hports port hport with hport | hnil
    · have hok := h.ports q m hm port hport
      refine ⟨fun e he src hsrc => ?_, hok.biases, hok.nodup⟩
      obtain ⟨r, hr, htype⟩ := hok.wires e he src hsrc
      rw [hheap]
      by_cases hsn : src = n
      · subst hsn
        obtain rfl : node = r := Option.some.inj (hn.symm.trans hr)
        exact ⟨_, if_pos rfl, htype.resize hbalanced (houtputs q m hm port hport e he hsrc)⟩
      · exact ⟨r, by rw [if_neg hsn, hr], htype⟩
    · refine ⟨?_, ?_, ?_⟩
      all_goals rw [hnil]
      · exact nofun
      · exact nofun
      · exact .nil
  case successors =>
    intro p m hp q m' hq
    obtain ⟨m₀, hm₀, -, hsucc, -⟩ := hnew p m hp
    obtain ⟨m₁, hm₁, hid, -, -, hmpreds, -⟩ := hnew q m' hq
    rw [hsucc, hid, hmpreds]
    exact h.successors p m₀ hm₀ q m₁ hm₁
  case successorsLive =>
    intro p m' hp d hd
    obtain ⟨m, hm, -, hsucc, -⟩ := hnew p m' hp
    obtain ⟨q, r, hr, hid⟩ := h.successorsLive p m hm d (hsucc ▸ hd)
    obtain ⟨r', hr', hid', -⟩ := hold q r hr
    exact ⟨q, r', hr', hid'.trans hid⟩
  case nodup =>
    intro p m' hp
    obtain ⟨m, hm, -, hsucc, -⟩ := hnew p m' hp
    rw [hsucc]
    exact h.nodup p m hm
  case depNum =>
    intro q m' hq
    obtain ⟨m, hm, -, -, hdep, hmpreds, -⟩ := hnew q m' hq
    rw [hdep, hmpreds]
    exact h.depNum q m hm
  case irreflexive =>
    intro q m' hq
    obtain ⟨m, hm, -, -, -, hmpreds, -⟩ := hnew q m' hq
    rw [hmpreds]
    exact h.irreflexive q m hm
  case scratch =>
    intro q m' hq
    obtain ⟨m, hm, -, -, -, -, -, hmask, -⟩ := hnew q m' hq
    rw [hmask]
    exact h.scratch q m hm
  case final =>
    intro q
    rw [Graph.finalNode_update, h.final q]
    constructor
    · rintro ⟨m, hm, hf⟩
      obtain ⟨m', hm', -, hf'⟩ := hold q m hm
      exact ⟨m', hm', hf'.trans hf⟩
    · rintro ⟨m', hm', hf⟩
      obtain ⟨m, hm, -, -, -, -, hf', -⟩ := hnew q m' hm'
      exact ⟨m, hm, hf'.symm.trans hf⟩

/-! ### Growing and shrinking -/

theorem droppedOutputs_of_le (hle : node.outputs.length ≤ k) : droppedOutputs s n node k = [] := by
  unfold droppedOutputs indices
  rw [Nat.sub_eq_zero_of_le hle]
  split <;> rfl

/-- Where the count does not shrink, nothing is dropped. -/
theorem Consistent.droppable (h : Consistent s.graph) (hn : s.graph.heap n = some node)
    (hbalanced : node.inputs.length = node.outputs.length) (hle : node.inputs.length ≤ k) :
    Droppable s n node k := by
  refine ⟨fun q m hq i port hget _ e he hsrc => ?_, fun _ _ _ _ _ _ _ _ b hb => ?_,
    fun i port hik hget => ?_⟩
  · obtain ⟨r, hr, hnth⟩ := h.entriesLive q m hq port (List.mem_of_getElem? hget) e he n hsrc
    obtain rfl : node = r := Option.some.inj (hn.symm.trans hr)
    have := (nth_ne_none_iff.mp hnth).2
    omega
  · rw [droppedOutputs_of_le (by omega)] at hb
    cases hb
  · have := (List.getElem?_eq_some_iff.mp hget).1
    omega

theorem IdShaped.run {calls : List Call} (h : IdShaped s.graph)
    (hs : Runs.run step s calls = some s') : IdShaped s'.graph := by
  refine (Runs.reaches_of_run calls hs).invariant (fun s => IdShaped s.graph) h
    fun s c s' hs _ hstep => ?_
  obtain ⟨⟨r, s''⟩, hr, rfl⟩ := Option.map_eq_some_iff.mp hstep
  have hwp : wp True (c.kernel .editing) s (fun _ s' => IdShaped s'.graph) fun _ s' =>
    IdShaped s'.graph :=
    hs.call c
  cases r with
  | ok a => exact of_wp_ok hwp hr
  | error err => exact of_wp_error hwp hr

theorem run_twoNodes : ∃ s, Runs.run step (ksiEngineInit 64) twoNodes = some s ∧ Coherent s.graph ∧
    IdShaped s.graph ∧ s.graph.heap 0 = some (freshNode 0x10000 ([0], [0]) 0) := by
  obtain ⟨s, hs, h⟩ := Coherent.run twoNodes (s := ksiEngineInit 64) .empty (by decide)
  have hobs : (Runs.run step (ksiEngineInit 64) twoNodes).map (·.graph.heap 0) =
      some (some (freshNode 0x10000 ([0], [0]) 0)) := by
    decide +kernel
  have hinit : IdShaped (ksiEngineInit 64).graph := fun _ _ hnode => by cases hnode
  rw [hs] at hobs
  exact ⟨s, hs, h, hinit.run hs, Option.some.inj hobs⟩

theorem portsKept_twoNodes : ∃ s s', Runs.run step (ksiEngineInit 64) twoNodes = some s ∧
    ksiBuiltinNodeFuncIdEditCmd 0 "2" .editing s = some (.ok (), s') ∧
    PortsKept s s' 0 (freshNode 0x10000 ([0], [0]) 0) 2 := by
  obtain ⟨s, hs, h, hshape, hn⟩ := run_twoNodes
  have hargs : scanInt "2" = some ((2 : Nat) : Int) := by decide +kernel
  have hedit := idEdit_portsKept_iff h.toConsistent hshape hn (by decide) hargs (by decide)
  obtain ⟨s', hs', -⟩ := hedit.1
  exact ⟨s, s', hs, hs', ((hedit.2 _ _ _ hs').mpr (h.toConsistent.droppable hn rfl (by decide))).2⟩

/-- The output port that a wire comes from is dropped: the wire dangles. -/
theorem not_portsKept : ¬ ∀ (s : Engine) (n : NodePtr) (node : KsiNode) (args : String) (k : Nat),
    Consistent s.graph → IdShaped s.graph → s.graph.heap n = some node →
    ksiNodeTypeInlineId node.type = 1 → scanInt args = some (k : Int) → 0 < k →
    ∃ s', ksiBuiltinNodeFuncIdEditCmd n args .editing s = some (.ok (), s') ∧
    PortsKept s s' n node k := by
  intro hclaim
  obtain ⟨s₀, hs₀, h₀, hshape₀, hn₀⟩ := run_twoNodes
  have htwo : scanInt "2" = some ((2 : Nat) : Int) := by decide +kernel
  have hone : scanInt "1" = some ((1 : Nat) : Int) := by decide +kernel
  -- the first node gets a second output port, and that one is wired
  obtain ⟨s₁, hs₁, hgraph₁⟩ := idEdit_returns (hshape₀ 0 _ hn₀ (by decide)) hn₀ htwo (by decide)
  have h₁ : Coherent s₁.graph := by
    rw [hgraph₁]
    refine h₀.resize hn₀ rfl (fun q m hq port hport e he hsrc => ?_) rfl
    obtain ⟨r, hr, hnth⟩ := h₀.entriesLive q m hq port hport e he 0 hsrc
    obtain rfl := Option.some.inj (hn₀.symm.trans hr)
    exact lt_trans (nth_ne_none_iff.mp hnth).2 (by decide)
  obtain ⟨s₂, hs₂, h₂⟩ := Coherent.run [.makeWire 0 1 1 0 0x3F800000] h₁ (by decide)
  have hshape₁ : IdShaped s₁.graph := by
    rw [hgraph₁]
    exact hshape₀.update fun node _ =>
      ⟨node.resize_inline 2, fun _ hnode => idShape_resize 2 hnode.balanced⟩
  have hobs : (Runs.run step (ksiEngineInit 64) twoNodes).bind (fun s₀ =>
      (ksiBuiltinNodeFuncIdEditCmd 0 "2" .editing s₀).bind fun r₁ =>
        (Runs.run step r₁.2 [.makeWire 0 1 1 0 0x3F800000]).bind fun s₂ =>
          (ksiBuiltinNodeFuncIdEditCmd 0 "1" .editing s₂).map fun r₃ =>
            [s₂.graph.heap 0, (r₃.2.graph.heap 0), (r₃.2.graph.heap 1)]) =
      some [some { wiredNode 0x13000 0 0 [1] [[], []] with outputs := [0, 0] },
        some (wiredNode 0x13000 0 0 [1] [[]]),
        some (wiredNode 0x10000 1 1 []
          [[{ src := some 0, srcPort := 1, gain := 0x3F800000 }]])] := by
    decide +kernel
  simp only [hs₀, hs₁, hs₂, Option.bind_some] at hobs
  obtain ⟨⟨r, s₃⟩, hs₃, hheaps⟩ := Option.map_eq_some_iff.mp hobs
  simp only [List.cons.injEq] at hheaps
  obtain ⟨hn₂, hsrc, hdes, -⟩ := hheaps
  obtain ⟨s', hs', hkept⟩ := hclaim s₂ 0 _ "1" 1 h₂.toConsistent (hshape₁.run hs₂) hn₂
    (by decide) hone
    (by decide)
  rw [hs'] at hs₃
  cases hs₃
  obtain ⟨m, hm, hport⟩ :=
    hkept.entries 1 _ hdes _ (List.mem_singleton_self _) _ (List.mem_singleton_self _)
    0 rfl
  obtain rfl := Option.some.inj (hsrc.symm.trans hm)
  exact hport rfl

end Ksi.Dag

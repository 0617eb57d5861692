/-
New nodes and new ports, and their replay.

A port that is being set up differs between the two versions until it has its buffer.  An
output of a new node, or a port that Id's command adds, is excused from then on, until the
loop over the ports has come to it.
-/
import Ksi.Proofs.Dag.Replay

namespace Ksi.Dag

open Prog Relator

variable {π : NodePtr → NodePtr → Prop} {good : NodePtr → Prop} {ex : Place → Prop}
  {e c : Engine} {p q n n' : NodePtr} {i j : Nat}

/-! ### The outputs get their buffers -/

/-- The loop over the outputs. -/
theorem newOutputs_replays (hπ : BiUnique π) (hpq : π p q) :
    ∀ (types : List PortType) {i : Nat} {e c : Engine}, Paired π good (outputsFrom p i) e c →
      Replays bufJournal (newOutputs p .editing i types) (newOutputs q .committing i types) e c
        fun _ _ e' c' => Paired π good (outputsFrom p (i + types.length)) e' c' ∧
        e'.graph = e.graph := by
  intro types
  induction types with
  | nil => exact fun h => .pure ⟨h, rfl⟩
  | cons type rest ih =>
      intro i e c h
      refine .bind (((mallocOutput_inStep type e c h).and_wp
        (mallocOutput_quiet (absurd trivial) type)).mono ?_)
      rintro b _ e₁ c₁ ⟨⟨h₁, rfl⟩, hgraph⟩
      refine .bind (.modify ⟨(List.append_nil _).symm, (List.append_nil _).symm⟩ (fun _ => rfl) ?_)
      have hput : Paired π good (outputsFrom p (i + 1)) (e₁.putOutput p i b) (c₁.putOutput q i b) :=
        h₁.putOutput hπ hpq b fun pl hpl hex => (outputsFrom_iff.mp hex).resolve_left hpl
      refine (ih hput).mono fun _ _ e₂ c₂ ⟨h₂, hgraph'⟩ => ⟨?_, hgraph'.trans hgraph⟩
      rw [List.length_cons, Nat.add_comm rest.length, ← Nat.add_assoc]
      exact h₂

/-- The outputs of a normal node have got their buffers. -/
theorem Paired.settle {node : KsiNode} (h : Paired π good (outputsFrom p i) e c)
    (hp : e.graph.heap p = some node) (hlen : node.isNormal = true → node.outputs.length ≤ i) :
    Steady π good e c := by
  refine h.weaken ?_ ?_
  · rintro _ _ _ _ _ ⟨_, _, ⟨⟩⟩
  · rintro _ node' j hp' hnormal hj ⟨_, hi, ⟨⟩⟩
    obtain rfl : node = node' := Option.some.inj (hp.symm.trans hp')
    exact absurd (Nat.lt_of_lt_of_le hj (hlen hnormal)) (Nat.not_lt.mpr hi)

/-! ### Adding a node -/

/-- A new node is in no slot. -/
theorem Engine.putNew_slot (node : KsiNode)
    (hgiven : ∀ i p, e.graph.nodes.data i = some p → p < e.graph.nextNode) (i : Nat) :
    (e.putNew node).graph.slot i = e.graph.slot i := by
  show (e.graph.nodes.data i).filter _ = (e.graph.nodes.data i).filter _
  cases hp : e.graph.nodes.data i with
  | none => rfl
  | some p =>
      rw [Option.filter_some, Option.filter_some, Engine.putNew_heap,
        if_neg (Nat.ne_of_lt (hgiven i p hp))]

/-- A new node on both sides; its outputs have no buffers yet. -/
theorem Paired.putNew (hπ : BiUnique π) (h : Steady π good e c) {node : KsiNode}
    (hinputs : ∀ input ∈ node.inputs, input.entries = []) :
    Paired π good (outputsFrom e.graph.nextNode 0) (e.putNew node) (c.putNew node) := by
  have hpair : π e.graph.nextNode c.graph.nextNode := h.next 0
  have hnew : ¬ good e.graph.nextNode := fun hgood => Nat.lt_irrefl _ (h.fresh _ hgood)
  have hsame : SameNode π node node := by
    refine ⟨rfl, rfl, rfl, rfl, rfl, List.forall₂_same.mpr fun input hinput => ⟨rfl, ?_⟩⟩
    rw [hinputs input hinput]
    exact .nil
  constructor
  case playing => exact h.playing
  case framesPerBuffer => exact h.framesPerBuffer
  case resources => exact h.resources
  case size => exact h.size
  case freelist => exact h.freelist
  case slots =>
    intro i
    rw [Engine.putNew_slot node h.given, Engine.putNew_slot node h.given']
    exact h.slots i
  case finalNode => exact h.finalNode
  case given => exact fun i p hp => Nat.lt_succ_of_lt (h.given i p hp)
  case given' => exact fun i q hq => Nat.lt_succ_of_lt (h.given' i q hq)
  case fresh => exact fun p hg => Nat.lt_succ_of_lt (h.fresh p hg)
  case heap =>
    intro p q hpq
    have hiff := pair_iff hπ hpq hpair
    rw [Engine.putNew_heap, Engine.putNew_heap]
    by_cases heq : p = e.graph.nextNode
    · rw [if_pos heq, if_pos (hiff.mp heq)]
      exact .some hsame
    · rw [if_neg heq, if_neg fun hq => heq (hiff.mpr hq)]
      exact h.heap p q hpq
  case env =>
    intro p q m j hpq hp hj _
    have hiff := pair_iff hπ hpq hpair
    rw [Engine.putNew_heap] at hp
    unfold Engine.putNew
    by_cases heq : p = e.graph.nextNode
    · simp only [heq, hiff.mp heq, Function.update_self]
    · rw [if_neg heq] at hp
      simp only [Function.update_of_ne heq, Function.update_of_ne fun hq => heq (hiff.mpr hq)]
      exact h.env p q m j hpq hp hj id
  case output =>
    intro p q m j hpq hp hn hj hnot
    rw [Engine.putNew_heap] at hp
    split at hp
    · rename_i heq
      exact absurd ⟨j, Nat.zero_le j, by rw [heq]⟩ hnot
    · exact h.output p q m j hpq hp hn hj id
  case next =>
    intro k
    have hk := h.next (k + 1)
    rwa [← Nat.add_assoc, ← Nat.add_assoc, Nat.add_right_comm, Nat.add_right_comm _ k] at hk
  case sound =>
    intro p m hg hp
    rw [Engine.putNew_heap] at hp
    split at hp
    · rename_i heq
      exact absurd (heq ▸ hg) hnew
    · exact h.sound p m hg hp
  case tracked =>
    intro p m hp
    rw [Engine.putNew_heap] at hp
    split at hp
    · cases hp
      intro input hinput me hme
      rw [hinputs input hinput] at hme
      cases hme
    · exact h.tracked p m hp

/-- Addresses that go together have both been given out, or neither. -/
theorem Paired.lt_next (hπ : BiUnique π) (h : Paired π good ex e c) (hpq : π p q) :
    p < e.graph.nextNode ↔ q < c.graph.nextNode := by
  constructor
  · intro hp
    by_contra hq
    obtain ⟨k, rfl⟩ := Nat.exists_eq_add_of_le (Nat.not_lt.mp hq)
    rw [hπ.1 hpq (h.next k)] at hp
    exact absurd hp (Nat.not_lt.mpr (Nat.le_add_right _ _))
  · intro hq
    by_contra hp
    obtain ⟨k, rfl⟩ := Nat.exists_eq_add_of_le (Nat.not_lt.mp hp)
    rw [hπ.2 hpq (h.next k)] at hq
    exact absurd hq (Nat.not_lt.mpr (Nat.le_add_right _ _))

theorem ksiVecInsert_data (v : KsiVec NodePtr) (n : NodePtr) :
    (ksiVecInsert v n).2.data = Function.update v.data (ksiVecInsert v n).1 (some n) := by
  unfold ksiVecInsert
  split <;> rfl

theorem Graph.slot_insert (g : Graph) (n : NodePtr) (i : Nat) :
    Graph.slot { g with nodes := (ksiVecInsert g.nodes n).2 } i =
      if i = (ksiVecInsert g.nodes n).1 then (some n).filter fun p => (g.heap p).isSome
        else g.slot i := by
  unfold Graph.slot
  dsimp only
  rw [ksiVecInsert_data, Function.update_apply]
  split <;> rfl

/-- Both vectors take up the node, under the same id. -/
theorem Paired.insert (hπ : BiUnique π) (h : Steady π good e c) (hn : π n n')
    (hlt : n < e.graph.nextNode) :
    (ksiVecInsert c.graph.nodes n').1 = (ksiVecInsert e.graph.nodes n).1 ∧
      Steady π good { e with graph := { e.graph with nodes := (ksiVecInsert e.graph.nodes n).2 } }
        { c with graph := { c.graph with nodes := (ksiVecInsert c.graph.nodes n').2 } } := by
  have hsize := h.size
  have hfreelist := h.freelist
  have hvec : (ksiVecInsert c.graph.nodes n').1 = (ksiVecInsert e.graph.nodes n).1 ∧
      (ksiVecInsert c.graph.nodes n').2.size = (ksiVecInsert e.graph.nodes n).2.size ∧
      (ksiVecInsert c.graph.nodes n').2.freelist = (ksiVecInsert e.graph.nodes n).2.freelist := by
    unfold ksiVecInsert
    rw [hfreelist, hsize]
    split <;> exact ⟨rfl, rfl, rfl⟩
  obtain ⟨hid, hsize', hfreelist'⟩ := hvec
  have hgiven : ∀ {v : KsiVec NodePtr} {r next i p : Nat}, (∀ i p, v.data i = some p → p < next) →
    r < next →
      (ksiVecInsert v r).2.data i = some p → p < next := by
    intro v r next i p hv hr hp
    rw [ksiVecInsert_data, Function.update_apply] at hp
    split at hp
    · cases hp
      exact hr
    · exact hv i p hp
  have hlt' := (h.lt_next hπ hn).mp hlt
  refine ⟨hid, h.playing, h.framesPerBuffer, h.resources, hsize', hfreelist', fun i => ?_,
    h.finalNode, h.heap, h.env,
    h.output, h.next, fun i p hp => hgiven h.given hlt hp, fun i q hq => hgiven h.given' hlt' hq,
    h.fresh, h.sound, h.tracked⟩
  show Option.Rel π (Graph.slot { e.graph with nodes := _ } i)
    (Graph.slot { c.graph with nodes := _ } i)
  rw [Graph.slot_insert, Graph.slot_insert, hid]
  split
  · exact rel_filter (.some hn) fun p q hpq => rel_isSome (h.heap p q hpq)
  · exact h.slots i

/-- The outputs of a node from `i` on, if it is a normal one. -/
theorem outputs_replays (hπ : BiUnique π) (hpq : π p q) (h : Paired π good (outputsFrom p i) e c)
    {node : KsiNode} (hp : e.graph.heap p = some node) {normal : Prop} [Decidable normal]
    (hnormal : node.isNormal = true ↔ normal) {types : List PortType}
    (hlen : node.outputs.length ≤ i + types.length) :
    Replays bufJournal (Prog.when normal (newOutputs p .editing i types))
      (Prog.when normal (newOutputs q .committing i types)) e c
      fun _ _ e' c' => Steady π good e' c' ∧ e'.graph = e.graph := by
  refine .ite Iff.rfl (fun _ => ?_) fun hn =>
    .pure ⟨h.settle hp fun hnode => absurd (hnormal.mp hnode) hn, rfl⟩
  exact (newOutputs_replays hπ hpq types h).mono fun _ _ e' c' ⟨h', hgraph⟩ =>
    ⟨h'.settle (hgraph ▸ hp) fun _ => hlen, hgraph⟩

theorem Engine.putNew_self (e : Engine) (node : KsiNode) :
    (e.putNew node).graph.heap e.graph.nextNode = some node := by
  rw [Engine.putNew_heap, if_pos rfl]

/-- The new node itself. -/
theorem newNode_replays (node : KsiNode) :
    Replays bufJournal (newNode node) (newNode node) e c fun n n' e' c' =>
      n = e.graph.nextNode ∧ n' = c.graph.nextNode ∧ e' = e.putNew node ∧ c' = c.putNew node := by
  refine .of_silent fun n e' hx => ?_
  cases hx
  exact ⟨c.graph.nextNode, c.putNew node, bufJournal.logged_one e, fun _ => rfl, rfl, rfl, rfl, rfl⟩

theorem setFinal_replays (h : Steady π good e c) (hn : π n n') {final : Prop} [Decidable final] :
    Replays bufJournal (Prog.when final (setFinalNode (some n)))
      (Prog.when final (setFinalNode (some n'))) e c
      fun _ _ e' c' => Steady π good e' c' ∧ e'.graph.nextNode = e.graph.nextNode := by
  refine .ite Iff.rfl (fun _ => ?_) fun _ => .pure ⟨h, rfl⟩
  have hnext : wp True (setFinalNode (some n)) e (fun _ e' => e'.graph.nextNode = e.graph.nextNode)
      fun _ _ => True := rfl
  exact ((setFinalNode_inStep (.some hn) e c h).and_wp hnext).mono fun _ _ _ _ ⟨⟨h', _⟩, hnext'⟩ =>
    ⟨h', hnext'⟩

theorem insertNode_replays (hπ : BiUnique π) (h : Steady π good e c) (hn : π n n')
    (hlt : n < e.graph.nextNode) :
    Replays bufJournal (insertNode n) (insertNode n') e c fun id id' e' c' =>
    Steady π good e' c' ∧ id = id' := by
  refine .of_silent fun id e' hx => ?_
  cases hx
  obtain ⟨hid, hinserted⟩ := h.insert hπ hn hlt
  exact ⟨_, { c with graph := { c.graph with nodes := (ksiVecInsert c.graph.nodes n').2 } },
    bufJournal.logged_one _, fun rest => rfl, hinserted, hid.symm⟩

/-- **A node is added**, under the same id. -/
theorem impl_ksiEngineAddNode_replays (hπ : BiUnique π) (h : Steady π good e c)
    (typeFlags : BitVec 32) :
    Replays bufJournal (impl_ksiEngineAddNode typeFlags .editing)
      (impl_ksiEngineAddNode typeFlags .committing) e c
      fun r r' e' c' => Steady π good e' c' ∧ r = r' := by
  refine .bind ((checkInitialized_replays h).mono ?_)
  rintro _ _ e₁ c₁ ⟨rfl, rfl⟩
  refine .bind (.read fun final hfinal => ⟨c₁.graph.finalNode, fun l => rfl, ?_⟩)
  obtain rfl : e₁.graph.finalNode = final := Option.some.inj hfinal
  refine .bind (.require (by rw [rel_isSome h.finalNode]; exact id) fun _ =>
    .bind (.orError fun ports hports =>
    ⟨ports, hports, .bind ((newNode_replays _).mono ?_)⟩))
  rintro _ _ e₂ c₂ ⟨rfl, rfl, rfl, rfl⟩
  have hn : π e₁.graph.nextNode c₁.graph.nextNode := h.next 0
  have hput : Paired π good (outputsFrom e₁.graph.nextNode 0)
      (e₁.putNew (freshNode typeFlags ports 0)) (c₁.putNew (freshNode typeFlags ports 0)) := by
    refine h.putNew hπ fun input hinput => ?_
    obtain ⟨type, -, rfl⟩ := List.mem_map.mp hinput
    rfl
  refine .bind ((outputs_replays hπ hn hput (e₁.putNew_self _) beq_iff_eq
    (Nat.le_add_left _ _)).mono ?_)
  rintro _ _ e₃ c₃ ⟨h₃, hgraph⟩
  refine .bind ((setFinal_replays h₃ hn).mono ?_)
  rintro _ _ e₄ c₄ ⟨h₄, hnext⟩
  have hlt : e₁.graph.nextNode < e₄.graph.nextNode := by
    rw [hnext, hgraph]
    exact Nat.lt_succ_self _
  refine .bind ((insertNode_replays hπ h₄ hn hlt).mono ?_)
  rintro id _ e₅ c₅ ⟨h₅, rfl⟩
  have hstored := h₅.update (f := fun node => { node with id := id })
    (g := fun node => { node with id := id }) hπ hn
    (fun _ _ _ hsame => ⟨hsame.depNum, hsame.successors, rfl, hsame.type, hsame.outputs,
      hsame.inputs⟩)
    (fun _ _ htracked => htracked) (fun _ _ _ hnormal => hnormal)
    (fun _ _ _ hj hnot => ⟨hj, hnot⟩) (fun _ _ _ hnormal hj hnot => ⟨⟨hnormal, hj⟩, hnot⟩)
      fun _ _ hex => hex
  refine .bind ((update_replays h₅ hn hstored).mono ?_)
  rintro _ _ e₆ c₆ ⟨rfl, h₆⟩
  exact .pure ⟨h₆, rfl⟩

/-! ### Changing the number of ports -/

variable {shape : Bool × Nat × List PortType}

/-- The input ports in `l` of `p`, which have not been set up yet. -/
def inputsIn (p : NodePtr) (l : List Nat) (pl : Place) : Prop := ∃ j ∈ l, pl = .input p j

/-- The loop over new input ports. -/
theorem setEnvs_replays (hπ : BiUnique π) (hpq : π p q) (v : SignalEnv) (l : List Nat) :
    ∀ {e c : Engine}, Paired π good (inputsIn p l) e c →
      Replays bufJournal (forEach l fun i => setEnv p i fun _ => v)
        (forEach l fun i => setEnv q i fun _ => v) e c
        fun _ _ e' c' => Steady π good e' c' ∧ Whatever () () := by
  induction l with
  | nil =>
      intro e c h
      refine .pure ⟨h.weaken ?_ ?_, trivial⟩
      · rintro _ _ _ _ _ ⟨_, ⟨⟩, _⟩
      · rintro _ _ _ _ _ _ ⟨_, ⟨⟩, _⟩
  | cons i rest ih =>
      intro e c h
      refine .bind (.modify ⟨(List.append_nil _).symm, (List.append_nil _).symm⟩ (fun _ => rfl)
        (ih ?_))
      refine h.putEnv hπ hpq (fun _ _ _ _ => rfl) ?_
      rintro _ hne ⟨j, hj, rfl⟩
      rcases List.mem_cons.mp hj with rfl | hj
      · exact absurd rfl hne
      · exact ⟨j, hj, rfl⟩

/-- A store that keeps the ports keeps the shape. -/
theorem update_ofShape {f : KsiNode → KsiNode} (hf : ∀ node, (f node).shape = node.shape) :
    Keeps (fun e => OfShape p shape e.graph) (Dag.update p f) := by
  rintro e ⟨node, hnode, hshape⟩
  rw [wp_update]
  refine ⟨fun _ => trivial, fun _ _ => ⟨f node, ?_, (hf node).trans hshape⟩⟩
  rw [Graph.heap_update, if_pos rfl, hnode, Option.map_some]

theorem flag_inStep (hπ : BiUnique π) (hpq : π p q) {flag : BitVec 32}
    (houtput : flag &&& ksiNodeTypeOutputMask = 0)
    (hinline : flag &&& ksiNodeTypeInlineNodeFuncMask = 0) :
    InStep bufJournal (SteadyAt π good p shape) Whatever
      (Dag.update p fun node => { node with type := node.type ||| flag })
      (Dag.update q fun node => { node with type := node.type ||| flag }) :=
  (update_inStep hπ hpq (tame_type (f := (· ||| flag)) (mild_flag houtput hinline))).keeps
    (update_ofShape (mild_flag houtput hinline).shape)

theorem mem_indices {k : Nat} : j ∈ indices i k ↔ i ≤ j ∧ j < k := by
  unfold indices
  rw [List.mem_range'_1]
  omega

/-- The first `k` input ports of a node, and new ones. -/
def KsiNode.keepInputs (k : Nat) (types : List PortType) (node : KsiNode) : KsiNode :=
  { node with inputs := node.inputs.take k ++ types.map fun type =>
    { type := type, entries := [] } }

/-- The first `k` output ports of a node, and new ones. -/
def KsiNode.keepOutputs (k : Nat) (types : List PortType) (node : KsiNode) : KsiNode :=
  { node with outputs := node.outputs.take k ++ types }

theorem keepInputs_replays (hπ : BiUnique π) (hpq : π p q) {k : Nat} {types : List PortType}
    (h : SteadyAt π good p shape e c) (htypes : types.length = k - shape.2.2.length) :
    Replays bufJournal (Dag.update p (·.keepInputs k types))
      (Dag.update q (·.keepInputs k types)) e c
      fun _ _ e' c' => Paired π good (inputsIn p (indices shape.2.2.length k)) e' c' := by
  obtain ⟨h, node, hnode, rfl⟩ := h
  have hcount : node.shape.2.2.length = node.inputs.length := List.length_map _
  rw [hcount] at htypes ⊢
  have hstored : Paired π good (inputsIn p (indices node.inputs.length k)) _ _ :=
    h.update (f := (·.keepInputs k types)) (g := (·.keepInputs k types)) hπ hpq
      (fun m m' _ hsame => ?_)
      (fun m _ htracked => ?_) (fun _ _ _ hm => hm) (fun m j hm hj hnot => ?_)
        (fun _ _ _ hn hj _ => ⟨⟨hn, hj⟩, id⟩)
      fun _ _ hex => hex.elim
  · exact (update_replays h hpq hstored).mono fun _ _ _ _ h' => h'.2
  · refine ⟨hsame.depNum, hsame.successors, hsame.id, hsame.type, hsame.outputs, ?_⟩
    refine List.rel_append (List.forall₂_take k hsame.inputs)
      (List.forall₂_same.mpr fun input hinput => ?_)
    obtain ⟨type, -, rfl⟩ := List.mem_map.mp hinput
    exact ⟨rfl, .nil⟩
  · intro input hinput
    rcases List.mem_append.mp hinput with hinput | hinput
    · exact htracked input (List.mem_of_mem_take hinput)
    · obtain ⟨type, -, rfl⟩ := List.mem_map.mp hinput
      exact fun _ hme => absurd hme List.not_mem_nil
  · obtain rfl : node = m := Option.some.inj (hnode.symm.trans hm)
    by_cases hlt : j < node.inputs.length
    · refine ⟨((hasSignal_resize node k types hlt fun hk => ?_).mp hj).1, id⟩
      exact List.length_eq_zero_iff.mp (by omega)
    · refine absurd ⟨j, mem_indices.mpr ⟨Nat.not_lt.mp hlt, ?_⟩, rfl⟩ hnot
      have hlen := hj.lt
      simp only [KsiNode.keepInputs, List.length_append, List.length_take, List.length_map] at hlen
      omega

/-- **The number of input ports changes.** -/
theorem impl_ksiNodeChangeInputPortCount_inStep (hπ : BiUnique π) (hpq : π p q) (k : Nat)
    (types : List PortType) :
    InStep bufJournal (Steady π good) Whatever (impl_ksiNodeChangeInputPortCount p k types .editing)
      (impl_ksiNodeChangeInputPortCount q k types .committing) := by
  intro e c h
  refine .bind ((load_replays h hpq).mono ?_)
  rintro node node' e₁ c₁ ⟨rfl, rfl, hnode, hsame⟩
  rw [hsame.inputs.length_eq]
  have hcount : node.shape.2.2.length = node'.inputs.length :=
    (List.length_map _).trans hsame.inputs.length_eq
  refine .bind (.assert fun hdynamic => ⟨fun _ => by rwa [hsame.type], ?_⟩)
  refine .bind (.assert fun hlen => ⟨fun _ => hlen, ?_⟩)
  refine .bind ((flag_inStep hπ hpq (by decide) (by decide) e₁ c₁ ⟨h, node, hnode, rfl⟩).mono
    fun _ _ e₂ c₂ ⟨h₂, _⟩ => ?_)
  refine .bind ((delete_envs_inStep hpq _ e₂ c₂ h₂).mono fun _ _ e₃ c₃ ⟨h₃, _⟩ => ?_)
  refine .bind ((keepInputs_replays hπ hpq h₃ ?_).mono fun _ _ e₄ c₄ h₄ => ?_)
  · rw [List.length_take, hcount]
    exact Nat.min_eq_left hlen.1
  · rw [hcount] at h₄
    exact setEnvs_replays hπ hpq _ _ h₄

theorem keepOutputs_replays (hπ : BiUnique π) (hpq : π p q) {k : Nat} {types : List PortType}
    (h : SteadyAt π good p shape e c) :
    Replays bufJournal (Dag.update p (·.keepOutputs k types))
      (Dag.update q (·.keepOutputs k types)) e c
      fun _ _ e' c' => Paired π good (outputsFrom p shape.2.1) e' c' ∧ ∃ node,
      e'.graph.heap p = some node ∧
        node.isNormal = shape.1 ∧ node.outputs.length ≤ shape.2.1 + types.length := by
  obtain ⟨h, node, hnode, rfl⟩ := h
  have hstored : Paired π good (outputsFrom p node.outputs.length) _ _ :=
    h.update (f := (·.keepOutputs k types)) (g := (·.keepOutputs k types)) hπ hpq
      (fun m m' _ hsame => ?_)
      (fun m _ htracked => htracked) (fun _ _ _ hm => hm)
      (fun m j _ hj _ => ⟨hj, id⟩) (fun m j hm hn hj hnot => ?_) fun _ _ hex => hex.elim
  · refine (update_replays h hpq hstored).mono fun _ _ e' c' ⟨he, h'⟩ =>
      ⟨h', node.keepOutputs k types, ?_, rfl, ?_⟩
    · rw [he, Graph.heap_update, if_pos rfl, hnode, Option.map_some]
    · unfold KsiNode.keepOutputs
      rw [List.length_append]
      exact Nat.add_le_add_right (List.length_take_le' ..) _
  · refine ⟨hsame.depNum, hsame.successors, hsame.id, hsame.type, ?_, hsame.inputs⟩
    unfold KsiNode.keepOutputs
    rw [hsame.outputs]
  · obtain rfl : node = m := Option.some.inj (hnode.symm.trans hm)
    rw [outputsFrom_output] at hnot
    exact ⟨⟨hn, Nat.not_le.mp hnot⟩, id⟩

/-- **The number of output ports changes.** -/
theorem impl_ksiNodeChangeOutputPortCount_inStep (hπ : BiUnique π) (hpq : π p q) (k : Nat)
    (types : List PortType) :
    InStep bufJournal (Steady π good) Whatever
      (impl_ksiNodeChangeOutputPortCount p k types .editing)
      (impl_ksiNodeChangeOutputPortCount q k types .committing) := by
  intro e c h
  refine .bind ((load_replays h hpq).mono ?_)
  rintro node node' e₁ c₁ ⟨rfl, rfl, hnode, hsame⟩
  have hnormal : node'.isNormal = node.isNormal := shape_isNormal hsame.shape
  rw [hsame.outputs, hnormal]
  refine .bind (.assert fun hdynamic => ⟨fun _ => by rwa [hsame.type], ?_⟩)
  refine .bind (.assert fun hlen => ⟨fun _ => hlen, ?_⟩)
  refine .bind ((flag_inStep hπ hpq (by decide) (by decide) e₁ c₁ ⟨h, node, hnode, rfl⟩).mono
    fun _ _ e₂ c₂ ⟨h₂, _⟩ => ?_)
  refine .bind ((delete_outputs_inStep hpq _ e₂ c₂ h₂).mono fun _ _ e₃ c₃ ⟨h₃, _⟩ => ?_)
  refine .bind ((keepOutputs_replays hπ hpq h₃).mono ?_)
  rintro _ _ e₄ c₄ ⟨h₄, node₄, hnode₄, hnormal₄, hlen₄⟩
  exact (outputs_replays hπ hpq h₄ hnode₄ (by rw [hnormal₄]; rfl) hlen₄).mono fun _ _ _ _ h' =>
    ⟨h'.1, trivial⟩

/-! ### Commands -/

theorem ksiBuiltinNodeFuncIdEditCmd_inStep (hπ : BiUnique π) (hpq : π p q) (args : String) :
    InStep bufJournal (Steady π good) Whatever (ksiBuiltinNodeFuncIdEditCmd p args .editing)
      (ksiBuiltinNodeFuncIdEditCmd q args .committing) := by
  refine .bind (V := Eq) (.orError fun k hk => ⟨k, hk, rfl⟩) fun k _ heq => ?_
  subst heq
  refine .bind (.require Iff.rfl) fun _ _ _ =>
    .bind (load_inStep hpq) fun node node' ⟨hsame, _⟩ => ?_
  rw [hsame.inputs.length_eq]
  exact .bind (impl_ksiNodeChangeInputPortCount_inStep hπ hpq _ _) fun _ _ _ =>
    impl_ksiNodeChangeOutputPortCount_inStep hπ hpq _ _

theorem kscarletMidiSegEditCmd_inStep (args : String) :
    InStep bufJournal (Steady π good) Whatever (kscarletMidiSegEditCmd args)
      (kscarletMidiSegEditCmd args) := by
  unfold kscarletMidiSegEditCmd
  split
  · refine .bind (V := Eq) (.orError fun mid hmid => ⟨mid, hmid, rfl⟩) fun mid _ heq => ?_
    subst heq
    -- what was loaded for the edit is still loaded
    refine .bind (V := fun slot slot' => ∀ n, slot = some n → slot' = some n)
      (.read fun e c h slot hslot => ?_)
      fun slot slot' hkept => .bind (V := Eq) (.orError fun n hn => ⟨n, hkept n hn, rfl⟩)
        fun _ _ _ => .pure trivial
    obtain ⟨slot', hslot'⟩ := Option.ne_none_iff_exists'.mp
      (KsiVec.check_ne_none (v := c.timeseqResources) (KsiVec.check_nonneg hslot))
    refine ⟨slot', fun _ => hslot', fun n hn => ?_⟩
    subst hn
    obtain ⟨hheld, hid⟩ := KsiVec.check_some hslot
    have hcheck := (h.resources _ _ hheld).check
    rw [Int.toNat_of_nonneg hid, hslot'] at hcheck
    exact Option.some.inj hcheck
  · exact .pure trivial
  · exact .pure trivial
  · exact .error

/-- **A node takes a command.** -/
theorem impl_ksiEngineSendEditingCommand_replays (hπ : BiUnique π) (h : Steady π good e c)
    (hslots : SlotsLive e.graph) (id : Int) (args : String) :
    Replays bufJournal (impl_ksiEngineSendEditingCommand id args .editing)
      (impl_ksiEngineSendEditingCommand id args .committing) e c
      fun _ _ e' c' => Steady π good e' c' ∧ Whatever () () := by
  refine .bind ((checkInitialized_replays h).mono ?_)
  rintro _ _ e₁ c₁ ⟨rfl, rfl⟩
  refine .bind ((checkVec_replays h hslots id _).mono ?_)
  rintro n n' e₂ c₂ ⟨rfl, rfl, -, hn⟩
  refine InStep.bind (load_inStep hn) (fun node node' ⟨hsame, _⟩ => ?_) _ _ h
  rw [hsame.type]
  split
  · exact ksiBuiltinNodeFuncIdEditCmd_inStep hπ hn args
  · exact kscarletMidiSegEditCmd_inStep args
  all_goals first | exact .error | exact .pure trivial

end Ksi.Dag

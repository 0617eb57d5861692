/-
The graph is coherent.

A wire is written down in four places: as an entry of the destination's port, as an id
in the source's successor list, in the destination's `depNum`, and by the ids in the
vector that both are found under.  `Coherent` says that the four agree, with the entries
as the reference: `preds` are the sources of a node's entries, and everything else is
compared with them.
-/
import Ksi.Proofs.Dag.Effect
import Mathlib.Data.Finset.Card

namespace Ksi.Dag

variable {g g' : Graph} {p q src des : NodePtr} {i : Nat} {node m : KsiNode} {input : InputPort}

/-! ### Predecessors -/

/-- The nodes that have a wire to `n`. -/
def KsiNode.preds (n : KsiNode) : Finset NodePtr :=
  (n.inputs.flatMap fun port => port.entries.filterMap (·.src)).toFinset

theorem KsiNode.mem_preds :
    q ∈ node.preds ↔ ∃ port ∈ node.inputs, ∃ e ∈ port.entries, e.src = some q := by
  simp [preds, List.mem_flatMap, List.mem_filterMap]

/-- The entries of one port change, the others stay. -/
theorem KsiNode.mem_preds_update {f : List Entry → List Entry}
    (hinput : node.inputs[i]? = some input) :
    q ∈ (node.updateEntries i f).preds ↔ (∃ e ∈ f input.entries, e.src = some q) ∨
      ∃ j port, j ≠ i ∧ node.inputs[j]? = some port ∧ ∃ e ∈ port.entries, e.src = some q := by
  rw [mem_preds]
  constructor
  · rintro ⟨port, hport, e, he, hq⟩
    obtain ⟨j, port', hj, rfl⟩ := mem_updateEntries hport
    by_cases hij : i = j
    · subst hij
      rw [hinput] at hj
      cases hj
      rw [if_pos rfl] at he
      exact .inl ⟨e, he, hq⟩
    · rw [if_neg hij] at he
      exact .inr ⟨j, port', Ne.symm hij, hj, e, he, hq⟩
  · have hlen : (node.updateEntries i f).inputs.length = node.inputs.length := by
      simp [updateEntries]
    rintro (⟨e, he, hq⟩ | ⟨j, port, hij, hj, e, he, hq⟩)
    · obtain ⟨hlt, hget⟩ := List.getElem?_eq_some_iff.mp hinput
      refine ⟨(node.updateEntries i f).inputs.get ⟨i, hlen ▸ hlt⟩, List.getElem_mem _, e, ?_, hq⟩
      simpa [updateEntries, List.getElem_modify, hget] using he
    · obtain ⟨hlt, hget⟩ := List.getElem?_eq_some_iff.mp hj
      refine ⟨(node.updateEntries i f).inputs.get ⟨j, hlen ▸ hlt⟩, List.getElem_mem _, e, ?_, hq⟩
      simpa [updateEntries, List.getElem_modify, hget, Ne.symm hij] using he

theorem KsiNode.mem_preds_port (hinput : node.inputs[i]? = some input) :
    q ∈ node.preds ↔ (∃ e ∈ input.entries, e.src = some q) ∨
      ∃ j port, j ≠ i ∧ node.inputs[j]? = some port ∧ ∃ e ∈ port.entries, e.src = some q := by
  have hself : node.updateEntries i (fun entries => entries) = node := by
    unfold updateEntries
    congr 1
    refine List.ext_getElem (by simp) fun j _ _ => ?_
    rw [List.getElem_modify]
    split <;> rfl
  have := mem_preds_update (q := q) (f := fun entries => entries) hinput
  rwa [hself] at this

/-! ### Ports -/

/-- What no port has twice. -/
def Entry.key (e : Entry) : Option NodePtr × Int := (e.src, e.srcPort)

/-- The entries of a port: wires from live nodes with an output of the port's type, no
two from one output, and on a signal port at most one bias. -/
structure PortOk (g : Graph) (port : InputPort) : Prop where
  wires : ∀ e ∈ port.entries, ∀ src, e.src = some src →
    ∃ m, g.heap src = some m ∧ SameType m e.srcPort port
  biases : ∀ e ∈ port.entries, e.src = none → port.type.isEvent = false ∧ e.srcPort = 0
  nodup : (port.entries.map Entry.key).Nodup

/-- There is at most one bias. -/
theorem PortOk.oneBias {port : InputPort} (h : PortOk g port) :
    (port.entries.filter (·.src.isNone)).length ≤ 1 := by
  have hkeys : ∀ k ∈ (port.entries.filter (·.src.isNone)).map Entry.key, k = (none, 0) := by
    intro k hk
    obtain ⟨e, he, rfl⟩ := List.mem_map.mp hk
    obtain ⟨hmem, hnone⟩ := List.mem_filter.mp he
    have hsrc : e.src = none := by simpa using hnone
    unfold Entry.key
    rw [hsrc, (h.biases e hmem hsrc).2]
  have hnodup : ((port.entries.filter (·.src.isNone)).map Entry.key).Nodup :=
    (h.nodup.sublist ((List.filter_sublist).map Entry.key))
  rw [← List.length_map (f := Entry.key)]
  by_contra hlt
  generalize (port.entries.filter (·.src.isNone)).map Entry.key = l at hkeys hnodup hlt
  match l with
  | [] => simp at hlt
  | [_] => simp at hlt
  | a :: b :: rest =>
      have ha := hkeys a List.mem_cons_self
      have hb := hkeys b (List.mem_cons_of_mem _ List.mem_cons_self)
      rw [ha, hb] at hnodup
      simp at hnodup

theorem PortOk.of_outputs {port : InputPort} (h : PortOk g port)
    (hout : ∀ q m, g.heap q = some m → (∃ e ∈ port.entries, e.src = some q) →
      ∃ m', g'.heap q = some m' ∧ m'.outputs = m.outputs) : PortOk g' port := by
  refine ⟨fun e he q hq => ?_, h.biases, h.nodup⟩
  obtain ⟨m, hm, type, htype, hsame⟩ := h.wires e he q hq
  obtain ⟨m', hm', houtputs⟩ := hout q m hm ⟨e, he, hq⟩
  exact ⟨m', hm', type, by rw [houtputs, htype], hsame⟩

/-! ### The invariant -/

/-- The records of the wires agree; a node may have a wire to itself. -/
structure Consistent (g : Graph) : Prop where
  /-- what the vector holds is live, under its own id -/
  slots : SlotsLive g
  /-- what is live is in the vector, under its id -/
  named : ∀ p node, g.heap p = some node → g.nodes.Holds node.id p
  ports : ∀ p node, g.heap p = some node → ∀ port ∈ node.inputs, PortOk g port
  /-- a live node is a successor exactly when it has a wire -/
  successors : ∀ p node, g.heap p = some node → ∀ q m, g.heap q = some m →
    (m.id ∈ node.successors ↔ p ∈ m.preds)
  /-- and nothing else is -/
  successorsLive : ∀ p node, g.heap p = some node → ∀ d ∈ node.successors,
    ∃ q m, g.heap q = some m ∧ m.id = d
  nodup : ∀ p node, g.heap p = some node → node.successors.Nodup
  depNum : ∀ p node, g.heap p = some node → node.depNum = node.preds.card

theorem Consistent.id_inj (h : Consistent g) (hp : g.heap p = some node) (hq : g.heap q = some m)
    (hid : node.id = m.id) : p = q := by
  have hp' := h.named p node hp
  have hq' := h.named q m hq
  rw [hid] at hp'
  exact hp'.unique hq'

theorem Consistent.liveNamed (h : Consistent g) : LiveNamed g :=
  fun p node hp => (h.named p node hp).2

theorem Consistent.entriesLive (h : Consistent g) : EntriesLive g := by
  intro p node hp port hport e he src hsrc
  obtain ⟨m, hm, type, htype, -⟩ := (h.ports p node hp port hport).wires e he src hsrc
  exact ⟨m, hm, by rw [htype]; simp⟩

/-- The records of the wires agree, no node has a wire to itself or a scratch flag left, and
`finalNode` is the final node. -/
structure Coherent (g : Graph) : Prop extends Consistent g where
  tidy : g.nodes.Tidy
  fresh : ∀ p node, g.heap p = some node → p < g.nextNode
  irreflexive : ∀ p node, g.heap p = some node → p ∉ node.preds
  scratch : ∀ p node, g.heap p = some node → node.type &&& ksiNodeTypeScratchMask = 0
  final : ∀ p, g.finalNode = some p ↔ ∃ node, g.heap p = some node ∧ node.isFinal = true

/-- The source of a wire is live. -/
theorem Coherent.pred_live (h : Coherent g) (hq : g.heap q = some m) (hp : p ∈ m.preds) :
    ∃ node, g.heap p = some node := by
  obtain ⟨port, hport, e, he, hsrc⟩ := KsiNode.mem_preds.mp hp
  obtain ⟨node, hnode, -⟩ := (h.ports q m hq port hport).wires e he p hsrc
  exact ⟨node, hnode⟩

theorem Coherent.empty : Coherent Version.empty.graph := by
  have hnone : ∀ i p, ¬ Version.empty.graph.nodes.Holds i p := fun _ _ h => Nat.not_lt_zero _ h.1
  refine ⟨⟨?slots, ?named, ?ports, ?successors, ?successorsLive, ?nodup, ?depNum⟩, ?tidy, ?fresh,
    ?irreflexive, ?scratch, ?final⟩
  case tidy => exact ⟨fun i hi => absurd hi (by simp [Version.empty, ksiVecInit]), .nil⟩
  case slots => exact fun i p h => absurd h (hnone i p)
  case final => exact fun p => ⟨fun h => (by cases h), fun ⟨_, h, _⟩ => (by cases h)⟩
  all_goals exact fun p node h => by cases h

/-! ### AddNode -/

theorem freshNode_preds (typeFlags : BitVec 32) (ports : List PortType × List PortType) (id : Nat) :
    (freshNode typeFlags ports id).preds = ∅ := by
  ext q
  simp [KsiNode.mem_preds, freshNode]

/-- A new node has no wires, and no list names its id. -/
theorem Coherent.add (h : Coherent g) {typeFlags : BitVec 32}
    {ports : List PortType × List PortType} (hscratch : typeFlags &&& ksiNodeTypeScratchMask = 0)
    (hsingle : ¬ (typeFlags &&& ksiNodeTypeOutputMask = ksiNodeTypeOutputFinal ∧
      g.finalNode.isSome)) : Coherent (g.add typeFlags ports) := by
  generalize hid : (ksiVecInsert g.nodes g.nextNode).1 = id
  have hheap : ∀ q, (g.add typeFlags ports).heap q =
      if q = g.nextNode then some (freshNode typeFlags ports id) else g.heap q := by
    intro q
    unfold Graph.add
    rw [hid]
    by_cases hq : q = g.nextNode
    · simp [hq]
    · simp [hq]
  have hholds : ∀ i q, (g.add typeFlags ports).nodes.Holds i q ↔
      (i = id ∧ q = g.nextNode) ∨ (i ≠ id ∧ g.nodes.Holds i q) := by
    intro i q
    rw [← hid]
    exact KsiVec.holds_insert h.tidy g.nextNode
  have hunused : ∀ q, ¬ g.nodes.Holds id q := by
    intro q
    rw [← hid]
    exact KsiVec.not_holds_insert h.tidy g.nextNode
  have hnew : ∀ q m, g.heap q = some m → q ≠ g.nextNode ∧ m.id ≠ id := by
    intro q m hq
    refine ⟨Nat.ne_of_lt (h.fresh q m hq), fun heq => ?_⟩
    have := h.named q m hq
    rw [heq] at this
    exact hunused q this
  have hold : ∀ q m, g.heap q = some m → g.nextNode ∉ m.preds := by
    intro q m hq hmem
    obtain ⟨n, hn⟩ := h.pred_live hq hmem
    exact Nat.lt_irrefl _ (h.fresh g.nextNode n hn)
  have hpreds := freshNode_preds typeFlags ports id
  have hfields : (freshNode typeFlags ports id).successors = [] ∧
      (freshNode typeFlags ports id).depNum = 0 ∧ (freshNode typeFlags ports id).id = id ∧
      (freshNode typeFlags ports id).type = typeFlags := ⟨rfl, rfl, rfl, rfl⟩
  have hkeep : ∀ q m, g.heap q = some m → (g.add typeFlags ports).heap q = some m := by
    intro q m hq
    rw [hheap, if_neg (hnew q m hq).1, hq]
  obtain ⟨⟨hslots, hnamed, hports, hsucc, hlive, hnodup, hdep⟩, htidy, hfresh, hirr, hscr,
    hfinal⟩ := h
  refine ⟨⟨?slots, ?named, ?ports, ?successors, ?successorsLive, ?nodup, ?depNum⟩, ?tidy, ?fresh,
    ?irreflexive, ?scratch, ?final⟩
  case tidy => exact htidy.insert g.nextNode
  case slots =>
    intro i q hq
    rcases (hholds i q).mp hq with ⟨rfl, rfl⟩ | ⟨hne, hq⟩
    · exact ⟨_, by rw [hheap, if_pos rfl], rfl⟩
    · obtain ⟨m, hm, hmid⟩ := hslots i q hq
      exact ⟨m, hkeep q m hm, hmid⟩
  case named => grind
  case fresh =>
    intro q m hq
    show q < g.nextNode + 1
    grind
  case ports =>
    intro q m hq port hport
    rw [hheap] at hq
    split at hq
    · cases hq
      obtain ⟨type, -, rfl⟩ := List.mem_map.mp hport
      exact ⟨fun e he => absurd he (by simp), fun e he => absurd he (by simp), .nil⟩
    · exact (hports q m hq port hport).of_outputs fun r n hr _ => ⟨n, hkeep r n hr, rfl⟩
  case successors => grind
  case successorsLive => grind
  case nodup => grind
  case depNum =>
    intro q m hq
    rw [hheap] at hq
    split at hq
    · cases hq
      rw [hpreds]
      rfl
    · exact hdep q m hq
  case irreflexive => grind
  case scratch => grind
  case final =>
    intro q
    have hfin : (g.add typeFlags ports).finalNode =
        if typeFlags &&& ksiNodeTypeOutputMask = ksiNodeTypeOutputFinal then some g.nextNode
        else g.finalNode := rfl
    have hisFinal : (freshNode typeFlags ports id).isFinal = true ↔
        typeFlags &&& ksiNodeTypeOutputMask = ksiNodeTypeOutputFinal := by
      simp [KsiNode.isFinal, freshNode]
    rw [hfin, hheap]
    grind

/-! ### Changes of the wiring -/

/-- The two graphs have the same nodes, which may be wired differently. -/
structure SameNodes (g g' : Graph) : Prop where
  nodes : g'.nodes = g.nodes
  finalNode : g'.finalNode = g.finalNode
  nextNode : g'.nextNode = g.nextNode
  of_new : ∀ q m', g'.heap q = some m' → ∃ m, g.heap q = some m ∧
    m'.id = m.id ∧ m'.type = m.type ∧ m'.outputs = m.outputs
  of_old : ∀ q m, g.heap q = some m → ∃ m', g'.heap q = some m' ∧
    m'.id = m.id ∧ m'.type = m.type ∧ m'.outputs = m.outputs

/-- What has to be shown of a change of the wiring. -/
theorem Coherent.rewire (h : Coherent g) (hsame : SameNodes g g')
    (ports : ∀ p node, g'.heap p = some node → ∀ port ∈ node.inputs, PortOk g port)
    (successors : ∀ p node, g'.heap p = some node → ∀ q m, g'.heap q = some m →
      (m.id ∈ node.successors ↔ p ∈ m.preds))
    (successorsLive : ∀ p node, g'.heap p = some node → ∀ d ∈ node.successors,
      ∃ q m, g.heap q = some m ∧ m.id = d)
    (nodup : ∀ p node, g'.heap p = some node → node.successors.Nodup)
    (depNum : ∀ p node, g'.heap p = some node → node.depNum = node.preds.card)
    (irreflexive : ∀ p node, g'.heap p = some node → p ∉ node.preds) : Coherent g' where
  successors := successors
  nodup := nodup
  depNum := depNum
  irreflexive := irreflexive
  tidy := by
    rw [hsame.nodes]
    exact h.tidy
  slots := by
    intro i q hq
    rw [hsame.nodes] at hq
    obtain ⟨m, hm, hid⟩ := h.slots i q hq
    obtain ⟨m', hm', hid', -⟩ := hsame.of_old q m hm
    exact ⟨m', hm', hid'.trans hid⟩
  named := by
    intro q m' hq
    obtain ⟨m, hm, hid, -⟩ := hsame.of_new q m' hq
    rw [hsame.nodes, hid]
    exact h.named q m hm
  fresh := by
    intro q m' hq
    obtain ⟨m, hm, -⟩ := hsame.of_new q m' hq
    rw [hsame.nextNode]
    exact h.fresh q m hm
  ports := by
    intro q m' hq port hport
    refine (ports q m' hq port hport).of_outputs fun r n hn _ => ?_
    obtain ⟨n', hn', -, -, hout⟩ := hsame.of_old r n hn
    exact ⟨n', hn', hout⟩
  successorsLive := by
    intro q m' hq d hd
    obtain ⟨r, n, hn, hid⟩ := successorsLive q m' hq d hd
    obtain ⟨n', hn', hid', -⟩ := hsame.of_old r n hn
    exact ⟨r, n', hn', hid'.trans hid⟩
  scratch := by
    intro q m' hq
    obtain ⟨m, hm, -, htype, -⟩ := hsame.of_new q m' hq
    rw [htype]
    exact h.scratch q m hm
  final := by
    intro q
    rw [hsame.finalNode, h.final q]
    constructor
    · rintro ⟨m, hm, hf⟩
      obtain ⟨m', hm', -, htype, -⟩ := hsame.of_old q m hm
      exact ⟨m', hm', by rwa [KsiNode.isFinal, htype]⟩
    · rintro ⟨m', hm', hf⟩
      obtain ⟨m, hm, -, htype, -⟩ := hsame.of_new q m' hm'
      exact ⟨m, hm, by rwa [KsiNode.isFinal, ← htype]⟩

/-- A node changes and keeps its id, type and outputs. -/
theorem SameNodes.update {f : KsiNode → KsiNode}
    (hf : ∀ n, (f n).id = n.id ∧ (f n).type = n.type ∧ (f n).outputs = n.outputs) :
    SameNodes g (g.update p f) := by
  refine ⟨rfl, rfl, rfl, fun q m' hq => ?_, fun q m hq => ?_⟩
  · rw [Graph.heap_update] at hq
    split at hq
    · obtain ⟨m, hm, rfl⟩ := Option.map_eq_some_iff.mp hq
      exact ⟨m, hm, hf m⟩
    · exact ⟨m', hq, rfl, rfl, rfl⟩
  · rw [Graph.heap_update]
    split
    · exact ⟨f m, by rw [hq]; rfl, hf m⟩
    · exact ⟨m, hq, rfl, rfl, rfl⟩

/-! ### The entries of one port -/

theorem setGain_keys {f : Entry → Bool} {gain : KsiData} (entries : List Entry) :
    (setGain f gain entries).map Entry.key = entries.map Entry.key := by
  induction entries with
  | nil => rfl
  | cons me rest ih =>
      unfold setGain
      split
      · rfl
      · rw [List.map_cons, List.map_cons, ih]

/-- What a port has is told by the keys. -/
theorem exists_src_iff {entries : List Entry} :
    (∃ e ∈ entries, e.src = some q) ↔ ∃ k ∈ entries.map Entry.key, k.1 = some q := by
  simp [Entry.key]

theorem PortOk.of_keys {entries : List Entry} (h : PortOk g input)
    (hkeys : entries.map Entry.key = input.entries.map Entry.key) :
    PortOk g { input with entries := entries } := by
  have hold : ∀ e ∈ entries, ∃ e' ∈ input.entries, e'.src = e.src ∧ e'.srcPort = e.srcPort := by
    intro e he
    have hmem : e.key ∈ input.entries.map Entry.key := hkeys ▸ List.mem_map_of_mem he
    obtain ⟨e', he', hkey⟩ := List.mem_map.mp hmem
    exact ⟨e', he', congrArg Prod.fst hkey, congrArg Prod.snd hkey⟩
  refine ⟨fun e he src hsrc => ?_, fun e he hsrc => ?_, by rw [hkeys]; exact h.nodup⟩
  · obtain ⟨e', he', hes, hep⟩ := hold e he
    obtain ⟨m, hm, htype⟩ := h.wires e' he' src (hes.trans hsrc)
    exact ⟨m, hm, by rw [← hep]; exact htype⟩
  · obtain ⟨e', he', hes, hep⟩ := hold e he
    obtain ⟨hevent, hport⟩ := h.biases e' he' (hes.trans hsrc)
    exact ⟨hevent, hep ▸ hport⟩

/-- A further entry, under a new key. -/
theorem PortOk.cons {e : Entry} (h : PortOk g input) (hnew : e.key ∉ input.entries.map Entry.key)
    (hwire : ∀ src, e.src = some src → ∃ m, g.heap src = some m ∧ SameType m e.srcPort input)
    (hbias : e.src = none → input.type.isEvent = false ∧ e.srcPort = 0) :
    PortOk g { input with entries := e :: input.entries } := by
  refine ⟨fun e' he' => ?_, fun e' he' => ?_, List.nodup_cons.mpr ⟨hnew, h.nodup⟩⟩
  · rcases List.mem_cons.mp he' with rfl | he'
    · exact hwire
    · exact h.wires e' he'
  · rcases List.mem_cons.mp he' with rfl | he'
    · exact hbias
    · exact h.biases e' he'

/-- A port after MakeWire. -/
theorem PortOk.wire {srcNode : KsiNode} {srcPort : Int} {gain : KsiData} (h : PortOk g input)
    (hsrc : g.heap src = some srcNode) (htype : SameType srcNode srcPort input) :
    PortOk g { input with
      entries := wireEntry input.type.isEvent src srcPort gain input.entries } := by
  unfold wireEntry
  split
  · exact h.of_keys (setGain_keys _)
  · rename_i hany
    refine h.cons (fun hmem => hany ?_) (fun q hq => ?_) fun hnone => by cases hnone
    · obtain ⟨e, he, hkey⟩ := List.mem_map.mp hmem
      simp only [Entry.key, Prod.mk.injEq] at hkey
      exact List.any_eq_true.mpr ⟨e, he, by simp [Entry.isFrom, hkey]⟩
    · cases hq
      exact ⟨srcNode, hsrc, htype⟩

theorem wireEntry_src {isEvent : Bool} {srcPort : Int} {gain : KsiData} {entries : List Entry} :
    (∃ e ∈ wireEntry isEvent src srcPort gain entries, e.src = some q) ↔
      q = src ∨ ∃ e ∈ entries, e.src = some q := by
  unfold wireEntry
  split
  · rename_i hany
    rw [exists_src_iff, setGain_keys, ← exists_src_iff]
    refine ⟨.inr, fun h => h.elim ?_ fun h => h⟩
    rintro rfl
    obtain ⟨e, he, hfrom⟩ := List.any_eq_true.mp hany
    simp only [Entry.isFrom, Bool.and_eq_true, beq_iff_eq] at hfrom
    exact ⟨e, he, hfrom.1⟩
  · simp [eq_comm]

/-! ### MakeWire -/

theorem KsiNode.preds_congr (h : node.inputs = m.inputs) : node.preds = m.preds := by
  unfold preds
  rw [h]

/-- One port has one more source, the others what they had. -/
theorem KsiNode.preds_insert {f : List Entry → List Entry} (hinput : node.inputs[i]? = some input)
    (hf : ∀ q, (∃ e ∈ f input.entries, e.src = some q) ↔
      q = src ∨ ∃ e ∈ input.entries, e.src = some q) :
    (node.updateEntries i f).preds = insert src node.preds := by
  ext q
  rw [mem_preds_update hinput, hf, Finset.mem_insert, mem_preds_port hinput, or_assoc]

section MakeWire

variable {srcId srcPort desId desPort : Int} {gain : KsiData} {srcNode desNode : KsiNode}

/-- The nodes of a graph after MakeWire. -/
theorem Graph.wire_heap (srcPort desId desPort : Int) (gain : KsiData) (input : InputPort)
    (hsrc : g.heap src = some srcNode) (hdes : g.heap des = some desNode) (hne : src ≠ des) :
    ∃ srcNode' desNode', (∀ q, (g.wire srcPort desId desPort gain src des srcNode input).heap q =
        if q = src then some srcNode' else if q = des then some desNode' else g.heap q) ∧
      srcNode' = { srcNode with successors :=
        if desId.toNat ∈ srcNode.successors then srcNode.successors
        else desId.toNat :: srcNode.successors } ∧
      desNode' = KsiNode.updateEntries { desNode with
        depNum := if desId.toNat ∈ srcNode.successors then desNode.depNum else desNode.depNum + 1 }
        desPort.toNat (wireEntry input.type.isEvent src srcPort gain) := by
  refine ⟨_, _, fun q => ?_, rfl, rfl⟩
  unfold Graph.wire Graph.link
  by_cases hmem : desId.toNat ∈ srcNode.successors
  · rw [if_pos hmem, heap_update]
    by_cases hqs : q = src
    · subst hqs
      rw [if_neg hne, if_pos rfl, hsrc, if_pos hmem]
    · rw [if_neg hqs]
      by_cases hqd : q = des
      · subst hqd
        rw [if_pos rfl, if_pos rfl, hdes, if_pos hmem]
        rfl
      · rw [if_neg hqd, if_neg hqd]
  · rw [if_neg hmem, heap_update, heap_update, heap_update]
    by_cases hqs : q = src
    · subst hqs
      rw [if_neg hne, if_neg hne, if_pos rfl, if_pos rfl, hsrc, if_neg hmem]
      rfl
    · rw [if_neg hqs, if_neg hqs]
      by_cases hqd : q = des
      · subst hqd
        rw [if_pos rfl, if_pos rfl, if_pos rfl, hdes, if_neg hmem]
        rfl
      · rw [if_neg hqd, if_neg hqd, if_neg hqd]

/-- **MakeWire** keeps the records together: a new source is counted, and listed, if
there was no wire between the two nodes yet. -/
theorem Coherent.wire (h : Coherent g)
    (hports : Ports g srcId srcPort desId desPort src des srcNode desNode input)
    (htype : SameType srcNode srcPort input) (hne : srcId ≠ desId) :
    Coherent (g.wire srcPort desId desPort gain src des srcNode input) := by
  obtain ⟨hsrcId, hdesId, hsrc, hdes, -, hinput⟩ := hports
  obtain ⟨hsrcHolds, hsrc0⟩ := KsiVec.check_some hsrcId
  obtain ⟨hdesHolds, hdes0⟩ := KsiVec.check_some hdesId
  have hget := (nth_some hinput).1
  have hid : desNode.id = desId.toNat := by
    obtain ⟨m, hm, hmid⟩ := h.slots _ _ hdesHolds
    rw [hdes] at hm
    cases hm
    exact hmid
  have hsd : src ≠ des := by
    rintro rfl
    obtain ⟨m, hm, hmid⟩ := h.slots _ _ hsrcHolds
    obtain ⟨m', hm', hmid'⟩ := h.slots _ _ hdesHolds
    rw [hm] at hm'
    cases hm'
    omega
  obtain ⟨srcNode', desNode', hheap, hsrc', hdes'⟩ := Graph.wire_heap srcPort desId desPort gain
    input hsrc hdes hsd
  have hlisted : desId.toNat ∈ srcNode.successors ↔ src ∈ desNode.preds := by
    rw [← hid]
    exact h.successors src srcNode hsrc des desNode hdes
  have hpredsDes : desNode'.preds = insert src desNode.preds := by
    rw [hdes', KsiNode.preds_insert (by exact hget) fun q => wireEntry_src]
    congr 1
  have hpredsSrc : srcNode'.preds = srcNode.preds := KsiNode.preds_congr (by rw [hsrc'])
  have hsucc : ∀ k, k ∈ srcNode'.successors ↔ k = desId.toNat ∨ k ∈ srcNode.successors := by
    intro k
    rw [hsrc']
    dsimp only
    split <;> grind
  have hface : SameNodes g (g.wire srcPort desId desPort gain src des srcNode input) := by
    refine ⟨?_, ?_, ?_, fun q m' hq => ?_, fun q m hq => ?_⟩
    · exact Graph.link_nodes
    · exact Graph.link_finalNode
    · exact Graph.link_nextNode
    · rw [hheap] at hq
      grind [KsiNode.updateEntries]
    · rw [hheap]
      grind [KsiNode.updateEntries]
  have hat : ∀ q m, g.heap q = some m → (m.id = desId.toNat ↔ q = des) := by
    intro q m hq
    refine ⟨fun heq => h.id_inj hq hdes (heq.trans hid.symm), fun heq => ?_⟩
    rw [heq, hdes] at hq
    cases hq
    exact hid
  have hnew : ∀ q m', (g.wire srcPort desId desPort gain src des srcNode input).heap q = some m' →
      ∃ m, g.heap q = some m ∧ m'.id = m.id ∧
        (∀ k, k ∈ m'.successors ↔ (q = src ∧ k = desId.toNat) ∨ k ∈ m.successors) ∧
        ∀ p, p ∈ m'.preds ↔ (q = des ∧ p = src) ∨ p ∈ m.preds := by
    intro q m' hq
    rw [hheap] at hq
    split at hq
    · rename_i hqs
      cases hq
      subst hqs
      refine ⟨srcNode, hsrc, by rw [hsrc'], fun k => ?_, fun p => ?_⟩
      · rw [hsucc]
        simp
      · rw [hpredsSrc]
        simp [hsd]
    · rename_i hqs
      split at hq
      · rename_i hqd
        cases hq
        subst hqd
        refine ⟨desNode, hdes, by rw [hdes']; rfl, fun k => ?_, fun p => ?_⟩
        · rw [hdes']
          simp [KsiNode.updateEntries, hqs]
        · rw [hpredsDes, Finset.mem_insert]
          simp
      · rename_i hqd
        exact ⟨m', hq, rfl, fun k => by simp [hqs], fun p => by simp [hqd]⟩
  refine h.rewire hface ?ports ?successors ?successorsLive ?nodup ?depNum ?irreflexive
  case ports =>
    intro q m hq port hport
    rw [hheap] at hq
    split at hq
    · cases hq
      rw [hsrc'] at hport
      exact h.ports src srcNode hsrc port hport
    · split at hq
      · cases hq
        rw [hdes'] at hport
        obtain ⟨j, port', hj, rfl⟩ := KsiNode.mem_updateEntries hport
        have hok := h.ports des desNode hdes port' (List.mem_of_getElem? hj)
        split
        · rename_i heq
          subst heq
          obtain rfl : port' = input := Option.some.inj (hj.symm.trans hget)
          exact hok.wire hsrc htype
        · exact hok
      · exact h.ports q m hq port hport
  case successors =>
    intro q m' hq r n' hr
    obtain ⟨m, hm, -, hmsucc, -⟩ := hnew q m' hq
    obtain ⟨n, hn, hnid, -, hnpreds⟩ := hnew r n' hr
    rw [hmsucc, hnpreds, hnid, hat r n hn, h.successors q m hm r n hn, and_comm]
  case successorsLive =>
    intro q m' hq d hd
    obtain ⟨m, hm, -, hmsucc, -⟩ := hnew q m' hq
    rcases (hmsucc d).mp hd with ⟨-, rfl⟩ | hd
    · exact ⟨des, desNode, hdes, hid⟩
    · exact h.successorsLive q m hm d hd
  case nodup =>
    intro q m hq
    rw [hheap] at hq
    split at hq
    · cases hq
      rw [hsrc']
      dsimp only
      split
      · exact h.nodup src srcNode hsrc
      · exact List.nodup_cons.mpr ⟨‹_›, h.nodup src srcNode hsrc⟩
    · split at hq
      · cases hq
        rw [hdes']
        exact h.nodup des desNode hdes
      · exact h.nodup q m hq
  case depNum =>
    intro q m hq
    rw [hheap] at hq
    split at hq
    · cases hq
      rw [hpredsSrc, ← h.depNum src srcNode hsrc, hsrc']
    · split at hq
      · cases hq
        have hcount : desNode'.depNum =
            if desId.toNat ∈ srcNode.successors then desNode.depNum else desNode.depNum + 1 := by
          rw [hdes']
          rfl
        rw [hcount, hpredsDes, h.depNum des desNode hdes]
        split
        · rename_i hmem
          rw [Finset.insert_eq_of_mem (hlisted.mp hmem)]
        · rename_i hmem
          rw [Finset.card_insert_of_notMem (fun hp => hmem (hlisted.mpr hp))]
          push_cast
          rfl
      · exact h.depNum q m hq
  case irreflexive =>
    intro q m' hq hmem
    obtain ⟨m, hm, -, -, hmpreds⟩ := hnew q m' hq
    rcases (hmpreds q).mp hmem with ⟨heq, heq'⟩ | hmem
    · exact hsd (heq'.symm.trans heq)
    · exact h.irreflexive q m hm hmem

end MakeWire

/-! ### MakeBias -/

/-- A port after MakeBias. -/
theorem PortOk.bias {bias : KsiData} (h : PortOk g input) (hsignal : input.type.isEvent = false) :
    PortOk g { input with entries := biasEntry bias input.entries } := by
  unfold biasEntry
  split
  · exact h.of_keys (setGain_keys _)
  · rename_i hany
    refine h.cons (fun hmem => hany ?_) (fun q hq => by cases hq) fun _ => ⟨hsignal, rfl⟩
    obtain ⟨e, he, hkey⟩ := List.mem_map.mp hmem
    simp only [Entry.key, Prod.mk.injEq] at hkey
    exact List.any_eq_true.mpr ⟨e, he, by simp [hkey]⟩

theorem biasEntry_src {bias : KsiData} {entries : List Entry} :
    (∃ e ∈ biasEntry bias entries, e.src = some q) ↔ ∃ e ∈ entries, e.src = some q := by
  unfold biasEntry
  split
  · rw [exists_src_iff, setGain_keys, ← exists_src_iff]
  · simp

/-- **MakeBias** changes no wire. -/
theorem Coherent.bias (h : Coherent g) {desPort : Int} {bias : KsiData}
    (hdes : g.heap des = some node) (hinput : nth node.inputs desPort = some input)
    (hsignal : input.type.isEvent = false) : Coherent (g.bias desPort bias des) := by
  have hget := (nth_some hinput).1
  have hpreds : (node.updateEntries desPort.toNat (biasEntry bias)).preds = node.preds := by
    ext q
    rw [KsiNode.mem_preds_update hget, biasEntry_src, ← KsiNode.mem_preds_port hget]
  -- a node has the fields it had, but for the inputs of `des`
  have hnew : ∀ q m', (g.bias desPort bias des).heap q = some m' → ∃ m, g.heap q = some m ∧
      m'.id = m.id ∧ m'.successors = m.successors ∧ m'.depNum = m.depNum ∧ m'.preds = m.preds ∧
      ∀ port ∈ m'.inputs, PortOk g port := by
    intro q m' hq
    unfold Graph.bias at hq
    rw [Graph.heap_update] at hq
    split at hq
    · rename_i heq
      subst heq
      rw [hdes] at hq
      cases hq
      refine ⟨node, hdes, rfl, rfl, rfl, hpreds, fun port hport => ?_⟩
      obtain ⟨j, port', hj, rfl⟩ := KsiNode.mem_updateEntries hport
      have hok := h.ports q node hdes port' (List.mem_of_getElem? hj)
      split
      · rename_i heq
        subst heq
        obtain rfl : port' = input := Option.some.inj (hj.symm.trans hget)
        exact hok.bias hsignal
      · exact hok
    · exact ⟨m', hq, rfl, rfl, rfl, rfl, h.ports q m' hq⟩
  refine h.rewire (.update fun _ => ⟨rfl, rfl, rfl⟩) ?ports ?successors ?successorsLive ?nodup
    ?depNum ?irreflexive
  case ports =>
    intro q m' hq
    obtain ⟨m, hm, -, -, -, -, hports⟩ := hnew q m' hq
    exact hports
  case successors =>
    intro q m' hq r n' hr
    obtain ⟨m, hm, -, hmsucc, -⟩ := hnew q m' hq
    obtain ⟨n, hn, hnid, -, -, hnpreds, -⟩ := hnew r n' hr
    rw [hmsucc, hnpreds, hnid]
    exact h.successors q m hm r n hn
  case successorsLive =>
    intro q m' hq d hd
    obtain ⟨m, hm, -, hmsucc, -⟩ := hnew q m' hq
    exact h.successorsLive q m hm d (hmsucc ▸ hd)
  case nodup =>
    intro q m' hq
    obtain ⟨m, hm, -, hmsucc, -⟩ := hnew q m' hq
    exact hmsucc ▸ h.nodup q m hm
  case depNum =>
    intro q m' hq
    obtain ⟨m, hm, -, -, hdep, hpreds, -⟩ := hnew q m' hq
    rw [hdep, hpreds]
    exact h.depNum q m hm
  case irreflexive =>
    intro q m' hq
    obtain ⟨m, hm, -, -, -, hpreds, -⟩ := hnew q m' hq
    exact hpreds ▸ h.irreflexive q m hm

end Ksi.Dag

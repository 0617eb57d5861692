/-
What AddNode, MakeWire and MakeBias do to the graph.

Each is a change of the graph written down once, with the checks that lead to it.  The
kernel does that change and nothing else, or it returns an error; MakeWire can return
one after it has linked the two nodes.
-/
import Ksi.Proofs.Dag.Spec

namespace Ksi.Dag

open Prog

variable {d : Prop} {s : Engine} {E : KsiError → Engine → Prop} {g : Graph} {p src des : NodePtr}
  {i : Nat} {srcId srcPort desId desPort : Int}

/-! ### AddNode -/

/-- The node that AddNode makes. -/
def freshNode (typeFlags : BitVec 32) (ports : List PortType × List PortType) (id : Nat) :
    KsiNode where
  depNum := 0
  successors := []
  id := id
  type := typeFlags
  inputs := ports.1.map fun type => { type := type, entries := [] }
  outputs := ports.2

/-- The graph with a new node. -/
def Graph.add (g : Graph) (typeFlags : BitVec 32) (ports : List PortType × List PortType) :
    Graph where
  nodes := (ksiVecInsert g.nodes g.nextNode).2
  finalNode := if typeFlags &&& ksiNodeTypeOutputMask = ksiNodeTypeOutputFinal then some g.nextNode
    else g.finalNode
  heap := Function.update g.heap g.nextNode
    (some (freshNode typeFlags ports (ksiVecInsert g.nodes g.nextNode).1))
  nextNode := g.nextNode + 1

/-- Storing the id in a node that has just been inserted. -/
theorem insert_wp {Q : Nat → Engine → Prop} {n : NodePtr} {node : KsiNode}
    (hnode : s.graph.heap n = some node)
    (hQ : Q (ksiVecInsert s.graph.nodes n).1 { s with
      graph := Graph.update { s.graph with nodes := (ksiVecInsert s.graph.nodes n).2 } n
        fun m => { m with id := (ksiVecInsert s.graph.nodes n).1 } }) :
    wp d (insertNode n >>= fun ret => update n (fun m => { m with id := ret }) >>=
      fun _ => pure ret)
      s Q E := by
  rw [wp_bind]
  show wp d (update n _ >>= _) _ Q E
  rw [wp_bind, wp_update]
  exact ⟨fun hnone => absurd hnode (by simp at hnone; simp [hnone]), fun _ _ => hQ⟩

/-- AddNode makes its checks first, and returns no error after them. -/
theorem impl_ksiEngineAddNode_wp {flag : Flag} (hflag : ¬ d → flag = .editing)
    (typeFlags : BitVec 32) {Q : Nat → Engine → Prop}
    (hE : ∀ err, s.playing = -2 ∨ (typeFlags &&& ksiNodeTypeOutputMask = ksiNodeTypeOutputFinal ∧
      s.graph.finalNode.isSome) ∨ inlinePorts (ksiNodeTypeInlineId typeFlags) = none → E err s)
    (hQ : s.playing ≠ -2 → ∀ ports s', inlinePorts (ksiNodeTypeInlineId typeFlags) = some ports →
      ¬ (typeFlags &&& ksiNodeTypeOutputMask = ksiNodeTypeOutputFinal ∧
        s.graph.finalNode.isSome) →
      s'.graph = s.graph.add typeFlags ports →
      Q (ksiVecInsert s.graph.nodes s.graph.nextNode).1 s') :
    wp d (impl_ksiEngineAddNode typeFlags flag) s Q E := by
  unfold impl_ksiEngineAddNode
  rw [wp_bind, wp_checkInitialized]
  refine ⟨fun hplaying => ?_, fun hplaying => hE _ (.inl hplaying)⟩
  rw [wp_bind, wp_read]
  refine ⟨fun h => (by simp at h), fun finalNode hfinal => ?_⟩
  obtain rfl : finalNode = s.graph.finalNode := (Option.some.inj hfinal).symm
  rw [wp_bind, wp_require]
  refine ⟨fun hsingle => ?_, fun hfinal => hE _ (.inr (.inl (not_not.mp hfinal)))⟩
  rw [wp_bind, wp_orError]
  refine ⟨fun ports hports => ?_, fun hnone => hE _ (.inr (.inr hnone))⟩
  rw [wp_bind]
  show wp d (when _ _ >>= _) _ Q E
  rw [wp_bind]
  refine Quiet.wp (ite_quiet (fun _ => newOutputs_quiet hflag _ _ _ _) fun _ => pure_quiet ())
    fun _ s₁ hs₁ => ?_
  have hnode : s₁.graph.heap s.graph.nextNode = some (freshNode typeFlags ports 0) := by
    rw [hs₁]
    exact Function.update_self ..
  -- the insertion gives the node its id, whatever has become of `finalNode`
  have hgraph : ∀ s₂ : Engine, s₂.graph.nodes = s.graph.nodes →
      s₂.graph.nextNode = s.graph.nextNode + 1 → s₂.graph.heap = s₁.graph.heap →
      s₂.graph.finalNode = (s.graph.add typeFlags ports).finalNode →
      wp d (insertNode s.graph.nextNode >>= fun ret =>
        update s.graph.nextNode (fun m => { m with id := ret }) >>= fun _ => pure ret) s₂ Q E := by
    intro s₂ hnodes hnext hheap hfin
    refine insert_wp (by rw [hheap]; exact hnode) ?_
    rw [hnodes]
    refine hQ hplaying ports _ hports hsingle (Graph.ext_heap ?_ hfin hnext fun q => ?_)
    · rfl
    · rw [Graph.heap_update]
      unfold Graph.add
      by_cases hq : q = s.graph.nextNode
      · subst hq
        rw [if_pos rfl]
        dsimp only
        rw [Function.update_self, hheap, hnode]
        rfl
      · rw [if_neg hq]
        dsimp only
        rw [Function.update_of_ne hq, hheap, hs₁]
        exact Function.update_of_ne hq _ _
  rw [wp_bind, wp_when]
  refine ⟨fun hf => ?_, fun hf => ?_⟩
  · refine hgraph { s₁ with graph := { s₁.graph with finalNode := some s.graph.nextNode } } ?_
      ?_ rfl ?_
    · exact congrArg (·.nodes) hs₁
    · exact congrArg (·.nextNode) hs₁
    · exact (if_pos hf).symm
  · refine hgraph s₁ ?_ ?_ rfl ?_
    · exact congrArg (·.nodes) hs₁
    · exact congrArg (·.nextNode) hs₁
    · exact (congrArg (·.finalNode) hs₁).trans (if_neg hf).symm

/-! ### MakeWire -/

/-- What the vector holds is live, under its own id. -/
def SlotsLive (g : Graph) : Prop :=
  ∀ i p, g.nodes.Holds i p → ∃ node, g.heap p = some node ∧ node.id = i

/-- The entries of a port with a wire from `src`. -/
def wireEntry (isEvent : Bool) (src : NodePtr) (srcPort : Int) (gain : KsiData)
    (entries : List Entry) : List Entry :=
  if entries.any (·.isFrom src srcPort) then setGain (·.isFrom src srcPort) gain entries
  else { src := some src, srcPort := srcPort, gain := if isEvent then 0 else gain } :: entries

theorem mem_setGain {f : Entry → Bool} {gain : KsiData} {e : Entry} :
    ∀ {entries : List Entry}, e ∈ setGain f gain entries →
      ∃ e' ∈ entries, e'.src = e.src ∧ e'.srcPort = e.srcPort := by
  intro entries
  induction entries with
  | nil => exact fun h => absurd h (by simp [setGain])
  | cons me rest ih =>
      intro h
      unfold setGain at h
      split at h
      · rcases List.mem_cons.mp h with rfl | h
        · exact ⟨me, List.mem_cons_self, rfl, rfl⟩
        · exact ⟨e, List.mem_cons_of_mem _ h, rfl, rfl⟩
      · rcases List.mem_cons.mp h with rfl | h
        · exact ⟨e, List.mem_cons_self, rfl, rfl⟩
        · obtain ⟨e', he', heq⟩ := ih h
          exact ⟨e', List.mem_cons_of_mem _ he', heq⟩

/-- A node of the graph after two nodes have been linked. -/
theorem Graph.link_heap {srcNode : KsiNode} {k : Nat} (q : NodePtr) {node : KsiNode}
    (h : (g.link src des k srcNode).heap q = some node) :
    ∃ node', g.heap q = some node' ∧ node.inputs = node'.inputs ∧ node.outputs = node'.outputs ∧
      node.id = node'.id ∧ node.type = node'.type := by
  unfold Graph.link at h
  split at h
  · exact ⟨node, h, rfl, rfl, rfl, rfl⟩
  · rw [heap_update] at h
    split at h
    · obtain ⟨node₁, hnode₁, rfl⟩ := Option.map_eq_some_iff.mp h
      rw [heap_update] at hnode₁
      split at hnode₁
      · obtain ⟨node₂, hnode₂, rfl⟩ := Option.map_eq_some_iff.mp hnode₁
        exact ⟨node₂, hnode₂, rfl, rfl, rfl, rfl⟩
      · exact ⟨node₁, hnode₁, rfl, rfl, rfl, rfl⟩
    · rw [heap_update] at h
      split at h
      · obtain ⟨node₂, hnode₂, rfl⟩ := Option.map_eq_some_iff.mp h
        exact ⟨node₂, hnode₂, rfl, rfl, rfl, rfl⟩
      · exact ⟨node, h, rfl, rfl, rfl, rfl⟩

theorem Graph.link_live (src des : NodePtr) (k : Nat) (srcNode : KsiNode) {q : NodePtr}
    {node : KsiNode} (h : g.heap q = some node) :
    ∃ node', (g.link src des k srcNode).heap q = some node' ∧
      node'.inputs = node.inputs ∧ node'.outputs = node.outputs ∧ node'.id = node.id := by
  have hsome : ∃ node', (g.link src des k srcNode).heap q = some node' := by
    unfold Graph.link
    split
    · exact ⟨node, h⟩
    · simp only [heap_update]
      split <;> split <;> simp [h]
  obtain ⟨node', hnode'⟩ := hsome
  obtain ⟨m, hm, hin, hout, hid, -⟩ := link_heap q hnode'
  rw [h] at hm
  cases hm
  exact ⟨node', hnode', hin, hout, hid⟩

@[simp] theorem Graph.link_nodes {srcNode : KsiNode} {k : Nat} :
    (g.link src des k srcNode).nodes = g.nodes := by
  unfold Graph.link
  split <;> rfl

@[simp] theorem Graph.link_finalNode {srcNode : KsiNode} {k : Nat} :
    (g.link src des k srcNode).finalNode = g.finalNode := by
  unfold Graph.link
  split <;> rfl

@[simp] theorem Graph.link_nextNode {srcNode : KsiNode} {k : Nat} :
    (g.link src des k srcNode).nextNode = g.nextNode := by
  unfold Graph.link
  split <;> rfl

/-- The graph after a successful MakeWire. -/
def Graph.wire (g : Graph) (srcPort desId desPort : Int) (gain : KsiData) (src des : NodePtr)
    (srcNode : KsiNode) (input : InputPort) : Graph :=
  (g.link src des desId.toNat srcNode).update des
    (·.updateEntries desPort.toNat (wireEntry input.type.isEvent src srcPort gain))

theorem nth_ne_none {α : Type} {a : List α} {j : Int} (h0 : 0 ≤ j) (hlt : j < a.length) :
    nth a j ≠ none := by
  unfold nth
  rw [if_neg (by omega)]
  simp only [ne_eq, List.getElem?_eq_none_iff]
  omega

/-- A port left with one wire by MakeWire is left with the new one. -/
theorem wireEntry_single {isEvent : Bool} {gain : KsiData} {entries : List Entry} {me : Entry}
    (h : wireEntry isEvent src srcPort gain entries = [me]) : me.src = some src ∧
    me.srcPort = srcPort := by
  unfold wireEntry at h
  split at h
  · rename_i hany
    match entries with
    | [] => cases hany
    | [e] =>
        have hfrom : e.isFrom src srcPort = true := by simpa using hany
        unfold setGain at h
        rw [if_pos hfrom] at h
        obtain ⟨hsrc, hport⟩ := (Bool.and_eq_true_iff.mp hfrom).imp beq_iff_eq.mp beq_iff_eq.mp
        cases h
        exact ⟨hsrc, hport⟩
    | e :: e' :: rest =>
        unfold setGain at h
        split at h
        · cases h
        · unfold setGain at h
          split at h <;> cases h
  · cases h
    exact ⟨rfl, rfl⟩

/-- MakeWire, once the ids, the ports and their types have been checked. -/
def wireRest (src des : NodePtr) (srcPort desId desPort : Int) (gain : KsiData) (desType : PortType)
    (flag : Flag) : Edit Unit := do
  link src des desId.toNat
  let input ← loadInput des desPort.toNat
  if desType.isEvent then do
    Prog.require (¬ input.entries.any (·.isFrom src srcPort)) .ksiErrorAlreadyWire
    update des (·.updateEntries desPort.toNat
      ({ src := some src, srcPort := srcPort, gain := 0 } :: ·))
  else if input.entries.any (·.isFrom src srcPort) then do
    debug_check_node src
    update des (·.updateEntries desPort.toNat (setGain (·.isFrom src srcPort) gain))
    refreshCopying des desPort.toNat flag
  else do
    update des (·.updateEntries desPort.toNat
      ({ src := some src, srcPort := srcPort, gain := gain } :: ·))
    refreshCopying des desPort.toNat flag

theorem impl_ksiEngineMakeWire_eq {gain : KsiData} {flag : Flag} :
    impl_ksiEngineMakeWire srcId srcPort desId desPort gain flag = (do
      checkInitialized
      let src ← checkVec srcId .ksiErrorSrcIdNotFound
      let des ← checkVec desId .ksiErrorDesIdNotFound
      let srcNode ← load src
      Prog.require (srcPort < srcNode.outputs.length) .ksiErrorSrcPortNotFound
      let desType ← checkDesPort des desPort .ksiErrorDesPortNotFound
      let srcType ← Prog.read fun _ => nth srcNode.outputs srcPort
      Prog.require (desType &&& ksiNodePortTypeMask = srcType &&& ksiNodePortTypeMask) .ksiErrorType
      wireRest src des srcPort desId desPort gain desType flag) := rfl

/-- The wire is made, or it is there already. -/
theorem wireRest_wp {gain : KsiData} {Q : Unit → Engine → Prop} {srcNode desNode : KsiNode}
    {input : InputPort}
    (hsrc : s.graph.heap src = some srcNode) (hdes : s.graph.heap des = some desNode)
    (hdata : ¬ d → s.graph.nodes.data srcNode.id = some src)
    (hout : nth srcNode.outputs srcPort ≠ none)
    (hget : desNode.inputs[desPort.toNat]? = some input)
    (halready : ∀ s', s'.graph = s.graph.link src des desId.toNat srcNode →
      input.type.isEvent = true →
      input.entries.any (·.isFrom src srcPort) = true → E .ksiErrorAlreadyWire s')
    (hwire : ∀ s', s'.graph = s.graph.wire srcPort desId desPort gain src des srcNode input →
      Q () s') :
    wp d (wireRest src des srcPort desId desPort gain input.type .editing) s Q E := by
  unfold wireRest
  rw [wp_bind]
  refine link_wp hsrc (by simp [hdes]) ?_
  obtain ⟨desNode', hdes', hin, -⟩ := Graph.link_live src des desId.toNat srcNode hdes
  obtain ⟨srcNode', hsrc', -, hsrcOut, hid⟩ := Graph.link_live src des desId.toNat srcNode hsrc
  have hport : ((s.graph.link src des desId.toNat srcNode).heap des).bind
      (fun node => node.inputs[desPort.toNat]?) = some input := by
    rw [hdes', Option.bind_some, hin, hget]
  rw [wp_bind, wp_loadInput]
  refine ⟨fun hnone => absurd hport (by simp only at hnone; simp [hnone]), fun input' hinput' => ?_⟩
  obtain rfl : input' = input := Option.some.inj (hinput'.symm.trans hport)
  -- the update of the entries and the refresh, for the two branches that make the wire
  have hrefresh : ∀ f : List Entry → List Entry,
      (∀ n : KsiNode, n.inputs[desPort.toNat]? = some input' →
        n.updateEntries desPort.toNat f =
          n.updateEntries desPort.toNat (wireEntry input'.type.isEvent src srcPort gain)) →
      wp d (update des (·.updateEntries desPort.toNat f) >>= fun _ =>
        refreshCopying des desPort.toNat .editing)
        { s with graph := s.graph.link src des desId.toNat srcNode } Q E := by
    intro f hf
    have hupdate : (s.graph.link src des desId.toNat srcNode).update des
        (·.updateEntries desPort.toNat f) =
        s.graph.wire srcPort desId desPort gain src des srcNode input' := by
      refine Graph.update_congr fun n hn => hf n ?_
      rw [hdes'] at hn
      cases hn
      rw [hin, hget]
    rw [wp_bind, wp_update]
    refine ⟨fun hnone => absurd hdes' (by simp only at hnone; simp [hnone]), fun _ _ => ?_⟩
    rw [hupdate]
    refine Quiet.wp (refreshCopying_quiet (fun _ => rfl) fun _ =>
      ⟨{ input' with entries := wireEntry input'.type.isEvent src srcPort gain input'.entries },
        ?_, ?_⟩)
      fun _ s' hs' => hwire s' hs'
    · show ((Graph.update _ _ _).heap des).bind _ = _
      rw [Graph.heap_update, if_pos rfl, hdes', Option.map_some, Option.bind_some]
      unfold KsiNode.updateEntries
      rw [List.getElem?_modify, hin, hget]
      simp
    · -- one wire is the new one
      intro _ me hme _ q hq
      obtain ⟨hmesrc, hmeport⟩ := wireEntry_single hme
      obtain rfl : src = q := Option.some.inj (hmesrc.symm.trans hq)
      have houtputs := Graph.update_outputs (g := s.graph.link src des desId.toNat srcNode)
        (p := des)
        (f := (·.updateEntries desPort.toNat (wireEntry input'.type.isEvent src srcPort gain)))
          (fun _ => rfl) src
      rw [hsrc', Option.map_some] at houtputs
      obtain ⟨m, hm, hmout⟩ := Option.map_eq_some_iff.mp houtputs
      exact ⟨m, hm, by rw [hmout, hsrcOut, hmeport]; exact hout⟩
  refine (wp_ite _ _ _).mpr
    ⟨fun hevent => ?_, fun hsignal => (wp_ite _ _ _).mpr ⟨fun hany => ?_, ?_⟩⟩
  · rw [wp_bind, wp_require]
    refine ⟨fun hnew => ?_, fun hany => halready _ rfl hevent (by simpa using hany)⟩
    rw [wp_update]
    refine ⟨fun hnone => absurd hdes' (by simp only at hnone; simp [hnone]), fun _ _ => hwire _ ?_⟩
    refine Graph.update_congr fun n hn => ?_
    rw [hdes'] at hn
    cases hn
    refine KsiNode.updateEntries_congr (by rw [hin, hget]) ?_
    unfold wireEntry
    rw [if_neg hnew, hevent]
    rfl
  · rw [wp_bind, wp_debug_check_node]
    refine ⟨fun hnone => absurd hsrc' (by simp only at hnone; simp [hnone]), fun node hnode =>
      ⟨fun _ => ?_, fun hno => by_contra fun h => ?_⟩⟩
    · refine hrefresh _ fun n hn => KsiNode.updateEntries_congr hn ?_
      unfold wireEntry
      rw [if_pos hany]
    · obtain rfl : srcNode' = node := Option.some.inj (hsrc'.symm.trans hnode)
      refine hno ?_
      simp only [Graph.link_nodes]
      rw [hid]
      exact hdata h
  · intro hany
    refine hrefresh _ fun n hn => KsiNode.updateEntries_congr hn ?_
    unfold wireEntry
    rw [if_neg hany, if_neg hsignal]

theorem impl_ksiEngineMakeWire_wp {gain : KsiData} {Q : Unit → Engine → Prop}
    (hd : ¬ d → 0 ≤ srcId ∧ 0 ≤ srcPort ∧ 0 ≤ desId ∧ 0 ≤ desPort ∧ SlotsLive s.graph)
    (hE : ∀ err, E err s)
    (hQ : ∀ src des srcNode desNode input,
      Ports s.graph srcId srcPort desId desPort src des srcNode desNode input →
      SameType srcNode srcPort input →
      (∀ s', s'.graph = s.graph.link src des desId.toNat srcNode → input.type.isEvent = true →
        input.entries.any (·.isFrom src srcPort) = true → E .ksiErrorAlreadyWire s') ∧
      (∀ s', s'.graph = s.graph.wire srcPort desId desPort gain src des srcNode input → Q () s')) :
    wp d (impl_ksiEngineMakeWire srcId srcPort desId desPort gain .editing) s Q E := by
  rw [impl_ksiEngineMakeWire_eq, wp_bind, wp_checkInitialized]
  refine ⟨fun _ => ?_, fun _ => hE _⟩
  rw [wp_bind, wp_checkVec]
  refine ⟨fun hnone => by_contra fun h => KsiVec.check_ne_none (hd h).1 hnone, fun _ => hE _,
    fun src hsrcId => ?_⟩
  rw [wp_bind, wp_checkVec]
  refine ⟨fun hnone => by_contra fun h => KsiVec.check_ne_none (hd h).2.2.1 hnone, fun _ => hE _,
    fun des hdesId => ?_⟩
  obtain ⟨hsrcHolds, -⟩ := KsiVec.check_some hsrcId
  obtain ⟨hdesHolds, -⟩ := KsiVec.check_some hdesId
  rw [wp_bind, wp_load]
  refine ⟨fun hnone => by_contra fun h => ?_, fun srcNode hsrc => ?_⟩
  · obtain ⟨node, hnode, -⟩ := (hd h).2.2.2.2 _ _ hsrcHolds
    rw [hnone] at hnode
    cases hnode
  rw [wp_bind, wp_require]
  refine ⟨fun hsrcPort => ?_, fun _ => hE _⟩
  rw [wp_bind, wp_checkDesPort]
  refine ⟨fun hnone => by_contra fun h => ?_, fun desNode hdes => ⟨fun _ => hE _, fun hdesPort =>
    ⟨fun hnone => by_contra fun h => nth_ne_none (hd h).2.2.2.1 hdesPort hnone,
      fun input hinput => ?_⟩⟩⟩
  · obtain ⟨node, hnode, -⟩ := (hd h).2.2.2.2 _ _ hdesHolds
    rw [hnone] at hnode
    cases hnode
  rw [wp_bind, wp_read]
  refine ⟨fun hnone => by_contra fun h => nth_ne_none (hd h).2.1 hsrcPort hnone,
    fun type htype => ?_⟩
  rw [wp_bind, wp_require]
  refine ⟨fun hsame => ?_, fun _ => hE _⟩
  obtain ⟨halready, hwire⟩ := hQ src des srcNode desNode input
    ⟨hsrcId, hdesId, hsrc, hdes, hsrcPort, hinput⟩ ⟨type, htype, hsame⟩
  refine wireRest_wp hsrc hdes (fun h => ?_) (by rw [htype]; simp)
    (nth_some hinput).1 halready hwire
  obtain ⟨node, hnode, hid⟩ := (hd h).2.2.2.2 _ _ hsrcHolds
  obtain rfl : srcNode = node := Option.some.inj (hsrc.symm.trans hnode)
  rw [hid]
  exact hsrcHolds.2

/-! ### MakeBias -/

/-- What is live is in the vector, under its id. -/
def LiveNamed (g : Graph) : Prop := ∀ p node, g.heap p = some node → g.nodes.data node.id = some p

/-- The search for a bias meets no dangling wire. -/
def BiasSearchable (g : Graph) (entries : List Entry) : Prop :=
  ∀ me ∈ entries.takeWhile (·.src.isSome), ∀ src, me.src = some src → g.heap src ≠ none

/-- The search finds a bias if there is one, and faults at a dangling wire. -/
theorem findBias_wp (hnamed : ¬ d → LiveNamed s.graph) :
    ∀ entries : List Entry, (¬ d → BiasSearchable s.graph entries) →
      wp d (findBias entries) s (fun found s' => found = entries.any (·.src.isNone) ∧ s' = s ∧
        BiasSearchable s.graph entries) E := by
  intro entries
  induction entries with
  | nil => exact fun _ => ⟨rfl, rfl, fun _ hme => absurd hme (by simp)⟩
  | cons me rest ih =>
      intro hsearch
      unfold findBias
      cases hsrc : me.src with
      | none =>
          refine ⟨by simp [hsrc], rfl, fun me' hme' => ?_⟩
          simp [hsrc] at hme'
      | some src =>
          have hcons : (me :: rest).takeWhile (·.src.isSome) = me :: rest.takeWhile
            (·.src.isSome) := by
            simp [hsrc]
          simp only [wp_bind, wp_debug_check_node]
          refine ⟨fun hnone => by_contra fun h => ?_, fun node hnode => ⟨fun _ => ?_, fun hdata =>
            by_contra fun h => hdata (hnamed h src node hnode)⟩⟩
          · exact hsearch h me (by rw [hcons]; exact List.mem_cons_self) src hsrc hnone
          · refine wp_mono (ih fun h e he =>
              hsearch h e (by rw [hcons]; exact List.mem_cons_of_mem _ he)) ?_
              fun _ _ hE => hE
            rintro found s' ⟨rfl, rfl, hrest⟩
            refine ⟨by simp [hsrc], rfl, ?_⟩
            unfold BiasSearchable
            rw [hcons]
            intro me' hme' src' hsrc'
            rcases List.mem_cons.mp hme' with rfl | hme'
            · obtain rfl : src = src' := Option.some.inj (hsrc.symm.trans hsrc')
              rw [hnode]
              simp
            · exact hrest me' hme' src' hsrc'

/-- The entries of a port with a bias. -/
def biasEntry (bias : KsiData) (entries : List Entry) : List Entry :=
  if entries.any (·.src.isNone) then setGain (·.src.isNone) bias entries
  else { src := none, srcPort := 0, gain := bias } :: entries

/-- The graph after a successful MakeBias. -/
def Graph.bias (g : Graph) (desPort : Int) (bias : KsiData) (des : NodePtr) : Graph :=
  g.update des (·.updateEntries desPort.toNat (biasEntry bias))

/-- A port left with one entry by MakeBias is left with the bias. -/
theorem biasEntry_single {bias : KsiData} {entries : List Entry} {me : Entry}
    (h : biasEntry bias entries = [me]) : me.src = none := by
  unfold biasEntry at h
  split at h
  · rename_i hany
    match entries with
    | [] => cases hany
    | [e] =>
        have hnone : e.src.isNone = true := by simpa using hany
        unfold setGain at h
        rw [if_pos hnone] at h
        cases h
        exact Option.isNone_iff_eq_none.mp hnone
    | e :: e' :: rest =>
        unfold setGain at h
        split at h
        · cases h
        · unfold setGain at h
          split at h <;> cases h
  · cases h
    rfl

/-- MakeBias, once the id and the port have been checked. -/
def biasRest (des : NodePtr) (desPort : Int) (bias : KsiData) (flag : Flag) : Edit Unit := do
  let input ← loadInput des desPort.toNat
  let found ← findBias input.entries
  update des (·.updateEntries desPort.toNat fun mixer =>
    if found then setGain (·.src.isNone) bias mixer
    else { src := none, srcPort := 0, gain := bias } :: mixer)
  refreshCopying des desPort.toNat flag

theorem impl_ksiEngineMakeBias_eq {bias : KsiData} {flag : Flag} :
    impl_ksiEngineMakeBias desId desPort bias flag = (do
      checkInitialized
      let des ← checkVec desId .ksiErrorIdNotFound
      let type ← checkDesPort des desPort .ksiErrorPortNotFound
      Prog.require (¬ type.isEvent) .ksiErrorNeedSignal
      biasRest des desPort bias flag) := rfl

/-- The bias is made, if the search for one gets through. -/
theorem biasRest_wp {bias : KsiData} {Q : Unit → Engine → Prop} {desNode : KsiNode}
    {input : InputPort}
    (hdes : s.graph.heap des = some desNode) (hget : desNode.inputs[desPort.toNat]? = some input)
    (hnamed : ¬ d → LiveNamed s.graph) (hsearch : ¬ d → BiasSearchable s.graph input.entries)
    (hQ : BiasSearchable s.graph input.entries → ∀ s', s'.graph = s.graph.bias desPort bias des →
      Q () s') :
    wp d (biasRest des desPort bias .editing) s Q E := by
  unfold biasRest
  rw [wp_bind, wp_loadInput]
  refine ⟨fun hnone => (by simp [hdes, hget] at hnone), fun input' hinput' => ?_⟩
  obtain rfl : input' = input := by simpa [hdes, hget] using hinput'.symm
  rw [wp_bind]
  refine wp_mono (findBias_wp hnamed _ hsearch) ?_ fun _ _ hE => hE
  rintro found s' ⟨rfl, rfl, hsearched⟩
  have hupdate : s'.graph.update des (·.updateEntries desPort.toNat fun mixer =>
      if input'.entries.any (·.src.isNone) then setGain (·.src.isNone) bias mixer
      else { src := none, srcPort := 0, gain := bias } :: mixer) = s'.graph.bias desPort bias
        des := by
    refine Graph.update_congr fun n hn => ?_
    rw [hdes] at hn
    cases hn
    exact KsiNode.updateEntries_congr hget rfl
  rw [wp_bind, wp_update]
  refine ⟨fun hnone => (by simp [hdes] at hnone), fun _ _ => ?_⟩
  rw [hupdate]
  refine Quiet.wp (refreshCopying_quiet (fun _ => rfl) fun _ =>
    ⟨{ input' with entries := biasEntry bias input'.entries }, ?_, ?_⟩) fun _ s'' hs'' =>
      hQ hsearched s'' hs''
  · show ((Graph.bias _ _ _ _).heap des).bind _ = _
    unfold Graph.bias
    rw [Graph.heap_update, if_pos rfl, hdes, Option.map_some, Option.bind_some]
    unfold KsiNode.updateEntries
    rw [List.getElem?_modify, hget]
    simp
  · intro _ me hme _ q hq
    rw [biasEntry_single hme] at hq
    cases hq

theorem impl_ksiEngineMakeBias_wp {bias : KsiData} {Q : Unit → Engine → Prop}
    (hd : ¬ d → 0 ≤ desId ∧ 0 ≤ desPort ∧ SlotsLive s.graph ∧ LiveNamed s.graph ∧
      EntriesLive s.graph)
    (hE : ∀ err, E err s)
    (hQ : ∀ des desNode input s', s.graph.nodes.check desId = some (some des) →
      s.graph.heap des = some desNode → nth desNode.inputs desPort = some input →
      input.type.isEvent = false → s'.graph = s.graph.bias desPort bias des → Q () s') :
    wp d (impl_ksiEngineMakeBias desId desPort bias .editing) s Q E := by
  rw [impl_ksiEngineMakeBias_eq, wp_bind, wp_checkInitialized]
  refine ⟨fun _ => ?_, fun _ => hE _⟩
  rw [wp_bind, wp_checkVec]
  refine ⟨fun hnone => by_contra fun h => KsiVec.check_ne_none (hd h).1 hnone, fun _ => hE _,
    fun des hdesId => ?_⟩
  rw [wp_bind, wp_checkDesPort]
  refine ⟨fun hnone => by_contra fun h => ?_, fun desNode hdes => ⟨fun _ => hE _, fun hdesPort =>
    ⟨fun hnone => by_contra fun h => nth_ne_none (hd h).2.1 hdesPort hnone,
      fun input hinput => ?_⟩⟩⟩
  · obtain ⟨node, hnode, -⟩ := (hd h).2.2.1 _ _ (KsiVec.check_some hdesId).1
    rw [hnone] at hnode
    cases hnode
  rw [wp_bind, wp_require]
  refine ⟨fun hsignal => ?_, fun _ => hE _⟩
  have hget := (nth_some hinput).1
  refine biasRest_wp hdes hget (fun h => (hd h).2.2.2.1) (fun h me hme src hsrc => ?_)
    fun _ s' hs' =>
    hQ des desNode input s' hdesId hdes hinput (by simpa using hsignal) hs'
  obtain ⟨m, hm, -⟩ := (hd h).2.2.2.2 des desNode hdes input (List.mem_of_getElem? hget) me
    (List.takeWhile_subset _ hme) src hsrc
  rw [hm]
  simp

/-! ### Destroying a node -/

theorem forRange_quiet {x : Nat → Edit Unit} {k : Nat}
    (h : ∀ i s', i < k → s'.graph = s.graph → Quiet d (x i) s') :
    Quiet d (forEach (List.range k) x) s :=
  wp_forRange (fun _ (s' : Engine) => s'.graph = s.graph)
    (fun i s' hi hs' => (h i s' hi hs').wp fun _ _ hs'' => hs''.trans hs') rfl

theorem impl_delete_env_quiet {flag : Flag} (hflag : ¬ d → flag = .editing) {n : NodePtr} {i : Nat}
    (h : HasInput s.graph n i) : Quiet d (impl_delete_env n flag i) s := by
  unfold impl_delete_env Quiet
  rw [wp_bind, wp_loadInput]
  refine ⟨fun hnone => absurd hnone h.bind_ne_none, fun input _ => ?_⟩
  refine ite_quiet (fun _ => pure_quiet ()) fun _ => ?_
  exact (read_quiet fun _ => by simp).bind fun _ s' _ => free_quiet hflag _ s'

theorem impl_delete_output_quiet {flag : Flag} (hflag : ¬ d → flag = .editing) {n : NodePtr}
    {node : KsiNode} {i : Nat} (hn : s.graph.heap n = some node) (hi : i < node.outputs.length) :
    Quiet d (impl_delete_output n flag i) s := by
  unfold impl_delete_output
  refine Quiet.bind (read_quiet fun _ => ?_) fun _ s' _ => free_quiet hflag _ s'
  have hnth : nth node.outputs i ≠ none := nth_ne_none (by omega) (by omega)
  simpa [hn] using hnth

theorem ksiEngineDestroyNode_wp {flag : Flag} (hflag : ¬ d → flag = .editing) {n : NodePtr}
    {Q : Unit → Engine → Prop}
    (hn : ¬ d → s.graph.heap n ≠ none)
    (hQ : ∀ s', s'.graph = { s.graph with heap := Function.update s.graph.heap n none } → Q () s') :
    wp d (ksiEngineDestroyNode n flag) s Q E := by
  unfold ksiEngineDestroyNode
  rw [wp_bind, wp_load]
  refine ⟨fun hnone => of_not_not fun hd => hn hd hnone, fun node hnode => ?_⟩
  rw [wp_bind]
  refine Quiet.wp (forRange_quiet fun i s' hi hs' => ?_) fun _ s₁ hs₁ => ?_
  · exact impl_delete_env_quiet hflag ⟨node, by rw [hs', hnode], hi⟩
  rw [wp_bind]
  refine Quiet.wp (ite_quiet (fun _ => forRange_quiet fun i s' hi hs' => ?_) fun _ => pure_quiet ())
    fun _ s₂ hs₂ => ?_
  · exact impl_delete_output_quiet hflag (by rw [hs', hs₁, hnode]) hi
  rw [wp_modify]
  refine hQ _ ?_
  rw [hs₂, hs₁]

end Ksi.Dag

/-
Where the input ports point.

`refreshCopying` brings the two pointers of a port into line with its entries, but for one
case: it does not write to `internalBufferPtr` where a bias of the neutral gain is all that
is left, and the port then goes on pointing to what it pointed to before.  And what it
writes stays right as long as the source of a lone wire is live: RemoveNode takes the
entries from the successors that the node lists, and RemoveWire takes a successor from
the list while another port still has an entry.

A run that keeps away from the two, with calls that are `Prudent`, leaves every signal port
pointing to what its entries stand for, and never to a buffer that has been given up.
-/
import Ksi.Proofs.Dag.Ownership
import Ksi.Proofs.Dag.Unwire

namespace Ksi.Dag

open Prog Runs

variable {s s' : Engine} {g : Graph} {n p q src des : NodePtr} {i : Nat} {flag : Flag}
  {E : KsiError → Engine → Prop} {ex : NodePtr → Nat → Prop} {input : InputPort}

/-! ### Ports and their pointers -/

/-- All that the port has is a bias of the neutral gain. -/
def InputPort.UnitBias (input : InputPort) : Prop :=
  ∃ me, input.entries = [me] ∧ me.src = none ∧ ksiDataIsUnit me.gain input.type = true

/-- The pointers of a signal port are those that its entries call for. -/
structure PortMatch (e : Engine) (input : InputPort) (env : SignalEnv) : Prop where
  empty : input.entries = [] → env.internalBufferPtr = none
  unitWire : ∀ me src, input.entries = [me] → ksiDataIsUnit me.gain input.type = true →
    me.src = some src → env.buffer = none ∧
      env.internalBufferPtr = e.outputBuffer src me.srcPort.toNat
  unitBias : input.UnitBias → env.buffer = none ∧ env.internalBufferPtr = none
  mixing : input.entries ≠ [] →
    (∀ me, input.entries = [me] → ksiDataIsUnit me.gain input.type = false) →
    env.buffer ≠ none ∧ env.internalBufferPtr = env.buffer

/-- The port is not left with a bias of the neutral gain alone, unless it had no entry or just
such a bias before. -/
def InputPort.Spared (input input' : InputPort) : Prop :=
  input.type.isEvent = false → input'.UnitBias → input.entries = [] ∨ input.UnitBias

/-- All that the port has is a wire of the neutral gain from `src`. -/
def InputPort.UnitWire (input : InputPort) (src : NodePtr) : Prop :=
  ∃ me, input.entries = [me] ∧ me.src = some src ∧ ksiDataIsUnit me.gain input.type = true

/-- Every other node that reads the outputs of `n` as they are is a successor of it. -/
def Lists (g : Graph) (n : NodePtr) (node : KsiNode) : Prop :=
  ∀ q m, g.heap q = some m → q ≠ n → ∀ input ∈ m.inputs, input.type.isEvent = false →
    input.UnitWire n → m.id ∈ node.successors

/-- The call spares the ports whose entries it takes or adds, and a node that it removes has
listed those that read its outputs. -/
def Prudent (s : Engine) : Call → Prop
  | .addNode _ => True
  | .makeWire .. => True
  | .makeBias desId desPort bias =>
      ∀ des desNode input, s.graph.nodes.check desId = some (some des) →
      s.graph.heap des = some desNode → nth desNode.inputs desPort = some input →
        input.Spared { input with entries := biasEntry bias input.entries }
  | .detachNodes srcId desId => ∀ src des desNode, s.graph.nodes.check srcId = some (some src) →
      s.graph.nodes.check desId = some (some des) → s.graph.heap des = some desNode →
        ∀ input ∈ desNode.inputs, input.Spared (input.without src)
  | .removeNode id =>
      ∀ n node, s.graph.nodes.check id = some (some n) → s.graph.heap n = some node →
      Lists s.graph n node ∧ ∀ loc ∈ node.successors, ∀ q m, s.graph.nodes.data loc = some q →
        s.graph.heap q = some m → ∀ input ∈ m.inputs, input.Spared (input.without n)
  | .removeWire srcId srcPort desId desPort => ∀ src des srcNode desNode input,
      Ports s.graph srcId srcPort desId desPort src des srcNode desNode input →
        input.Spared (input.unwired src srcPort)
  | .sendEditingCommand _ _ => False

/-! ### The state in which all ports but some match -/

/-- The source of a lone wire of the neutral gain is live, with that port. -/
def InputPort.Sourced (g : Graph) (input : InputPort) : Prop :=
  ∀ me, input.entries = [me] → ksiDataIsUnit me.gain input.type = true → me.Live g

/-- All ports but those of `ex` match. -/
structure Tended (ex : NodePtr → Nat → Prop) (s : Engine) : Prop where
  matched : ∀ n node i input, ¬ ex n i → s.graph.heap n = some node → node.inputs[i]? = some input →
    input.type.isEvent = false → PortMatch s input (s.env n i) ∧ input.Sourced s.graph
  /-- a node that is not normal has no output buffers, and neither has an address that has
  not been given out -/
  bare : ∀ q j, (s.graph.nextNode ≤ q ∨ ∃ node, s.graph.heap q = some node ∧
    node.isNormal = false) →
    s.outputBuffer q j = none
  fresh : ∀ q node, s.graph.heap q = some node → q < s.graph.nextNode
  frames : 0 < s.framesPerBuffer

/-- All ports match. -/
abbrev Tidied (s : Engine) : Prop := Tended (fun _ _ => False) s

theorem PortMatch.congr {env : SignalEnv} (h : PortMatch s input env)
    (hout : ∀ src, input.UnitWire src → s'.outputBuffer src = s.outputBuffer src) :
    PortMatch s' input env := by
  refine ⟨h.empty, fun me src hme hunit hsrc => ?_, h.unitBias, h.mixing⟩
  rw [hout src ⟨me, hme, hsrc, hunit⟩]
  exact h.unitWire me src hme hunit hsrc

theorem InputPort.Sourced.congr {g' : Graph} (h : input.Sourced g)
    (houtputs : ∀ q, (g'.heap q).map (·.outputs) = (g.heap q).map (·.outputs)) :
    input.Sourced g' := fun me hme hunit => (Entry.live_congr houtputs).mpr (h me hme hunit)

/-- What the ports and the pointers are decides whether all match. -/
theorem Tended.of_same (h : Tended ex s)
    (hin : ∀ q, (s'.graph.heap q).map (·.inputs) = (s.graph.heap q).map (·.inputs))
    (hshape : SameShape s.graph s'.graph)
    (houtputs : ∀ q, (s'.graph.heap q).map (·.outputs) = (s.graph.heap q).map (·.outputs))
    (henv : s'.env = s.env) (hout : s'.outputBuffer = s.outputBuffer)
    (hframes : s'.framesPerBuffer = s.framesPerBuffer) : Tended ex s' := by
  have hheap : ∀ {q node'}, s'.graph.heap q = some node' → ∃ node, s.graph.heap q = some node ∧
      node.inputs = node'.inputs := by
    intro q node' hq
    have hmap := hin q
    rw [hq, Option.map_some] at hmap
    obtain ⟨node, hnode, heq⟩ := Option.map_eq_some_iff.mp hmap.symm
    exact ⟨node, hnode, heq⟩
  constructor
  case matched =>
    intro q node' j port hex hq hport hsignal
    obtain ⟨node, hnode, heq⟩ := hheap hq
    obtain ⟨hmatch, hsourced⟩ := h.matched q node j port hex hnode (heq ▸ hport) hsignal
    rw [henv]
    exact ⟨hmatch.congr fun _ _ => by rw [hout], hsourced.congr houtputs⟩
  case bare =>
    intro q j hq
    rw [hout]
    refine h.bare q j ?_
    rcases hq with hge | ⟨node', hnode', hnormal⟩
    · exact .inl (by rwa [← hshape.nextNode])
    · obtain ⟨node, hnode, heq⟩ := hshape.heap hnode'
      exact .inr ⟨node, hnode, (congrArg (·.1) heq).trans hnormal⟩
  case fresh =>
    intro q node' hq
    obtain ⟨node, hnode, -⟩ := hheap hq
    rw [hshape.nextNode]
    exact h.fresh q node hnode
  case frames =>
    rw [hframes]
    exact h.frames

/-- A store that leaves the ports of a node as they are. -/
theorem Tended.update {f : KsiNode → KsiNode} (h : Tended ex s)
    (hin : ∀ node, (f node).inputs = node.inputs) (hout : ∀ node, (f node).outputs = node.outputs)
    (hnormal : ∀ node, (f node).isNormal = node.isNormal) :
    Tended ex { s with graph := s.graph.update p f } := by
  refine h.of_same (fun q => Graph.update_inputs q hin) (.update fun node => ?_)
    (Graph.update_outputs hout) rfl rfl rfl
  unfold KsiNode.shape
  rw [hin, hout, hnormal]

theorem update_tended {f : KsiNode → KsiNode} (hin : ∀ node, (f node).inputs = node.inputs)
    (hout : ∀ node, (f node).outputs = node.outputs)
    (hnormal : ∀ node, (f node).isNormal = node.isNormal) : Keeps (Tended ex) (update p f) := by
  intro s h
  rw [wp_update]
  exact ⟨fun _ => trivial, fun _ _ => h.update hin hout hnormal⟩

/-! ### Refreshing a port -/

/-- Input port `i` of `n` has been refreshed, and nothing else has been touched. -/
structure Refreshed (n : NodePtr) (i : Nat) (input : InputPort) (s s' : Engine) : Prop where
  graph : s'.graph = s.graph
  outputBuffer : s'.outputBuffer = s.outputBuffer
  frames : s'.framesPerBuffer = s.framesPerBuffer
  others : ∀ m j, ¬ (m = n ∧ j = i) → s'.env m j = s.env m j
  matched : input.type.isEvent = false → (input.UnitBias → (s.env n i).internalBufferPtr = none) →
    PortMatch s input (s'.env n i) ∧ input.Sourced s.graph

/-- Storing the pointers that the entries call for. -/
theorem Refreshed.putEnv {v : SignalEnv} {e : Engine} (hgraph : e.graph = s.graph)
    (hout : e.outputBuffer = s.outputBuffer) (hframes : e.framesPerBuffer = s.framesPerBuffer)
    (henv : ∀ m j, ¬ (m = n ∧ j = i) → e.env m j = s.env m j)
    (hv : (input.UnitBias → (s.env n i).internalBufferPtr = none) → PortMatch s input v)
    (hsourced : input.Sourced s.graph) :
    Refreshed n i input s (e.putEnv n i v) := by
  refine ⟨hgraph, hout, hframes, fun m j hne => ?_, fun _ hbias => ?_⟩
  · rw [Engine.putEnv_env, if_neg hne]
    exact henv m j hne
  · rw [Engine.putEnv_env, if_pos ⟨rfl, rfl⟩]
    exact ⟨hv hbias, hsourced⟩

/-- A port that mixes has a buffer of its own. -/
theorem refreshMixing_refreshed (hframes : 0 < s.framesPerBuffer) (hne : input.entries ≠ [])
    (hunit : ∀ me, input.entries = [me] → ksiDataIsUnit me.gain input.type = false) :
    wp True (refreshMixing n i .editing) s (fun _ s' => Refreshed n i input s s') E := by
  have hmatch : ∀ b, PortMatch s input { buffer := some b, internalBufferPtr := some b } := by
    refine fun b => ⟨fun h => absurd h hne, fun me src hme hu => ?_, fun ⟨me, hme, _, hu⟩ => ?_,
      fun _ _ => ⟨by simp, rfl⟩⟩
    · rw [hunit me hme] at hu
      cases hu
    · rw [hunit me hme] at hu
      cases hu
  have hsourced : input.Sourced s.graph := by
    intro me hme hu
    rw [hunit me hme] at hu
    cases hu
  unfold refreshMixing
  rw [wp_bind, wp_read]
  refine ⟨fun _ => trivial, fun env henv => ?_⟩
  obtain rfl : s.env n i = env := Option.some.inj henv
  cases hbuffer : (s.env n i).buffer with
  | some b =>
      refine Refreshed.putEnv rfl rfl rfl (fun _ _ _ => rfl) (fun _ => ?_) hsourced
      show PortMatch s input
        { buffer := (s.env n i).buffer, internalBufferPtr := (s.env n i).buffer }
      rw [hbuffer]
      exact hmatch b
  | none =>
      rw [wp_bind, wp_read]
      refine ⟨fun _ => trivial, fun fpb hfpb => ?_⟩
      obtain rfl : s.framesPerBuffer = fpb := Option.some.inj hfpb
      rw [wp_bind, wp_malloc]
      refine ⟨fun hzero => ?_, fun _ => ?_⟩
      · unfold sizeofKsiData at hzero
        omega
      · exact Refreshed.putEnv (e := s.alloc) rfl rfl rfl (fun _ _ _ => rfl)
          (fun _ => hmatch _) hsourced

/-- **A refresh** brings the pointers into line, unless a neutral bias is left and the port
still points somewhere. -/
theorem refreshCopying_refreshed (hframes : 0 < s.framesPerBuffer)
    (hinput : (s.graph.heap n).bind (fun node => node.inputs[i]?) = some input) :
    wp True (refreshCopying n i .editing) s (fun _ s' => Refreshed n i input s s') E := by
  unfold refreshCopying
  rw [wp_bind, wp_loadInput]
  refine ⟨fun _ => trivial, fun input' hinput' => ?_⟩
  obtain rfl : input = input' := Option.some.inj (hinput.symm.trans hinput')
  refine (wp_ite _ _ _).mpr ⟨fun hevent => ?_, fun hsignal => ?_⟩
  · refine ⟨rfl, rfl, rfl, fun _ _ _ => rfl, fun hsignal => ?_⟩
    rw [hevent] at hsignal
    cases hsignal
  match hentries : input.entries with
  | [] =>
      refine Refreshed.putEnv rfl rfl rfl (fun _ _ _ => rfl) (fun _ =>
        ⟨fun _ => rfl, fun me src hme => ?_, fun ⟨me, hme, _⟩ => ?_,
          fun hne => absurd hentries hne⟩)
        fun me hme => ?_
      all_goals
        rw [hentries] at hme
        cases hme
  | [me] =>
      refine (wp_ite _ _ _).mpr ⟨fun hunit => ?_, fun hunit => ?_⟩
      · rw [wp_bind, wp_read]
        refine ⟨fun _ => trivial, fun env henv => ?_⟩
        obtain rfl : s.env n i = env := Option.some.inj henv
        rw [wp_bind, wp_free, wp_bind, wp_setEnv]
        have hne : input.entries ≠ [] := by rw [hentries]; simp
        have hone : ∀ me', input.entries = [me'] → me' = me := by
          intro me' hme'
          rw [hentries] at hme'
          exact (List.singleton_inj.mp hme').symm
        -- the port points to `ptr` and has no buffer
        have hmatch : ∀ ptr,
          (∀ src, me.src = some src → ptr = s.outputBuffer src me.srcPort.toNat) →
            (me.src = none → ptr = none) →
            PortMatch s input { buffer := none, internalBufferPtr := ptr } := by
          refine fun ptr hwire hnone =>
            ⟨fun h => absurd h hne, fun me' src hme' _ hsrc => ⟨rfl, ?_⟩,
            fun ⟨me', hme', hsrc, _⟩ => ⟨rfl, ?_⟩, fun _ h => ?_⟩
          · rw [hone me' hme'] at hsrc ⊢
            exact hwire src hsrc
          · rw [hone me' hme'] at hsrc
            exact hnone hsrc
          · have := h me hentries
            rw [hunit] at this
            cases this
        cases hsrc : me.src with
        | none =>
            refine Refreshed.putEnv (e := s.release _) rfl rfl rfl (fun _ _ _ => rfl)
              (fun hbias => ?_)
              fun me' hme' _ src hsrc' => ?_
            · refine hmatch _ (fun src hsrc' => ?_) fun _ => hbias ⟨me, hentries, hsrc, hunit⟩
              rw [hsrc] at hsrc'
              cases hsrc'
            · rw [hone me' hme', hsrc] at hsrc'
              cases hsrc'
        | some src =>
            dsimp only
            unfold loadOutput
            rw [wp_bind, wp_read]
            refine ⟨fun _ => trivial, fun output houtput => ?_⟩
            obtain ⟨m, hm, hport⟩ := Option.bind_eq_some_iff.mp houtput
            obtain ⟨type, htype, rfl⟩ := Option.map_eq_some_iff.mp hport
            refine Refreshed.putEnv (e := (s.release _).putEnv n i _) rfl rfl rfl
              (fun m j hne => ?_)
              (fun _ => ?_) fun me' hme' _ src' hsrc' => ?_
            · rw [Engine.putEnv_env, if_neg hne]
              rfl
            · rw [Engine.putEnv_env, if_pos ⟨rfl, rfl⟩]
              refine hmatch _ (fun src' hsrc' => ?_) fun hnone => ?_
              · obtain rfl : src = src' := Option.some.inj (hsrc.symm.trans hsrc')
                rfl
              · rw [hsrc] at hnone
                cases hnone
            · rw [hone me' hme'] at hsrc' ⊢
              obtain rfl : src = src' := Option.some.inj (hsrc.symm.trans hsrc')
              exact ⟨m, hm, by rw [htype]; simp⟩
      · refine refreshMixing_refreshed hframes (by rw [hentries]; simp) fun me' hme' => ?_
        rw [hentries] at hme'
        cases hme'
        simpa using hunit
  | me₁ :: me₂ :: rest =>
      refine refreshMixing_refreshed hframes (by rw [hentries]; simp) fun me' hme' => ?_
      rw [hentries] at hme'
      cases hme'

/-- A port that is refreshed matches again. -/
theorem Tended.refreshed (h : Tended (fun m j => ex m j ∨ (m = n ∧ j = i)) s)
    (hinput : (s.graph.heap n).bind (fun node => node.inputs[i]?) = some input)
    (hbias : ¬ ex n i → input.type.isEvent = false → input.UnitBias →
      (s.env n i).internalBufferPtr = none)
    (hr : Refreshed n i input s s') : Tended ex s' := by
  constructor
  case matched =>
    intro m node j port hex hm hport hsignal
    rw [hr.graph] at hm ⊢
    by_cases hat : m = n ∧ j = i
    · obtain ⟨rfl, rfl⟩ := hat
      rw [hm, Option.bind_some, hport, Option.some.injEq] at hinput
      subst hinput
      obtain ⟨hmatch, hsourced⟩ := hr.matched hsignal (hbias hex hsignal)
      exact ⟨hmatch.congr fun _ _ => by rw [hr.outputBuffer], hsourced⟩
    · obtain ⟨hmatch, hsourced⟩ :=
        h.matched m node j port (fun hex' => hex'.elim hex hat) hm hport hsignal
      rw [hr.others m j hat]
      exact ⟨hmatch.congr fun _ _ => by rw [hr.outputBuffer], hsourced⟩
  case bare =>
    rw [hr.graph, hr.outputBuffer]
    exact h.bare
  case fresh =>
    rw [hr.graph]
    exact h.fresh
  case frames =>
    rw [hr.frames]
    exact h.frames

/-! ### Changing the entries of a port -/

/-- A port after the entries of port `i` of `des` have changed: one of before, or that one. -/
theorem ports_updateEntries {f : List Entry → List Entry} {node m : KsiNode} {j : Nat}
    {port : InputPort} (hdes : g.heap des = some node) (hin : node.inputs[i]? = some input)
    (hm : (g.update des (·.updateEntries i f)).heap q = some m) (hport : m.inputs[j]? = some port) :
    (q = des ∧ j = i ∧ port = { input with entries := f input.entries }) ∨
      ¬ (q = des ∧ j = i) ∧ ∃ m₀, g.heap q = some m₀ ∧ m₀.inputs[j]? = some port := by
  rw [Graph.heap_update] at hm
  split at hm
  · rename_i heq
    subst heq
    rw [hdes, Option.map_some, Option.some.injEq] at hm
    subst hm
    unfold KsiNode.updateEntries at hport
    rw [List.getElem?_modify] at hport
    by_cases hj : i = j
    · subst hj
      rw [hin] at hport
      exact .inl ⟨rfl, rfl, by simpa using hport.symm⟩
    · refine .inr ⟨fun h => hj h.2.symm, node, hdes, ?_⟩
      simpa [hj] using hport
  · rename_i heq
    exact .inr ⟨fun h => heq h.1, m, hm, hport⟩

/-- The port whose entries have changed. -/
theorem port_updateEntries {f : List Entry → List Entry} {node : KsiNode}
    (hdes : g.heap des = some node) (hin : node.inputs[i]? = some input) :
    (g.update des (·.updateEntries i f)).heap des = some (node.updateEntries i f) ∧
      (node.updateEntries i f).inputs[i]? = some { input with entries := f input.entries } := by
  refine ⟨by rw [Graph.heap_update, if_pos rfl, hdes, Option.map_some], ?_⟩
  unfold KsiNode.updateEntries
  rw [List.getElem?_modify, hin]
  simp

/-- The entries of one port change, and that port may not match any more. -/
theorem Tended.updateEntries {f : List Entry → List Entry} {node : KsiNode} (h : Tended ex s)
    (hdes : s.graph.heap des = some node) (hin : node.inputs[i]? = some input) :
    Tended (fun m j => ex m j ∨ (m = des ∧ j = i))
      { s with graph := s.graph.update des (·.updateEntries i f) } := by
  have hshape : SameShape s.graph (s.graph.update des (·.updateEntries i f)) :=
    .update (mild_updateEntries f).shape
  constructor
  case matched =>
    intro m node' j port hex hm hport hsignal
    rcases ports_updateEntries hdes hin hm hport with ⟨rfl, rfl, -⟩ | ⟨-, node₀, hm₀, hport₀⟩
    · exact absurd (.inr ⟨rfl, rfl⟩) hex
    · obtain ⟨hmatch, hsourced⟩ :=
        h.matched m node₀ j port (fun h' => hex (.inl h')) hm₀ hport₀ hsignal
      exact ⟨hmatch.congr fun _ _ => rfl, hsourced.congr (Graph.update_outputs fun _ => rfl)⟩
  case bare =>
    intro q j hq
    refine h.bare q j (hq.imp_right fun ⟨node', hnode', hnormal⟩ => ?_)
    obtain ⟨node₀, hnode₀, heq⟩ := hshape.heap hnode'
    exact ⟨node₀, hnode₀, (congrArg (·.1) heq).trans hnormal⟩
  case fresh =>
    intro q node' hq
    obtain ⟨node₀, hnode₀, -⟩ := hshape.heap hq
    exact h.fresh q node₀ hnode₀
  case frames => exact h.frames

/-- Fewer exceptions, where the port is one of events. -/
theorem Tended.of_event {node : KsiNode} (h : Tended (fun m j => ex m j ∨ (m = des ∧ j = i)) s)
    (hdes : s.graph.heap des = some node) (hin : node.inputs[i]? = some input)
    (hevent : input.type.isEvent = true) : Tended ex s := by
  refine ⟨fun m node' j port hex hm hport hsignal => ?_, h.bare, h.fresh, h.frames⟩
  by_cases hat : m = des ∧ j = i
  · obtain ⟨rfl, rfl⟩ := hat
    obtain rfl : node = node' := Option.some.inj (hdes.symm.trans hm)
    obtain rfl : input = port := Option.some.inj (hin.symm.trans hport)
    rw [hevent] at hsignal
    cases hsignal
  · exact h.matched m node' j port (fun h' => h'.elim hex hat) hm hport hsignal

/-- **The entries of a port change and it is refreshed.** -/
theorem rewire_tended {f : List Entry → List Entry} {node : KsiNode} (h : Tended ex s)
    (hdes : s.graph.heap des = some node) (hin : node.inputs[i]? = some input)
    (hspared : ¬ ex des i → input.Spared { input with entries := f input.entries }) :
    wp True (update des (·.updateEntries i f) >>= fun _ => refreshCopying des i .editing) s
      (fun _ s' => Tended ex s') E := by
  rw [wp_bind, wp_update]
  refine ⟨fun _ => trivial, fun _ _ => ?_⟩
  have hafter := h.updateEntries (f := f) hdes hin
  obtain ⟨hat, hport⟩ := port_updateEntries (f := f) hdes hin
  have hinput : ((s.graph.update des (·.updateEntries i f)).heap des).bind
    (fun node => node.inputs[i]?) =
      some { input with entries := f input.entries } := by
    rw [hat, Option.bind_some, hport]
  refine wp_mono (refreshCopying_refreshed h.frames hinput) (fun _ s' hr => hafter.refreshed hinput
    (fun hex hsignal hbias => ?_) hr) fun _ _ hE => hE
  -- a port that is left with a neutral bias pointed nowhere before
  have hmatch := (h.matched des node i input hex hdes hin hsignal).1
  rcases hspared hex hsignal hbias with hnil | hunit
  · exact hmatch.empty hnil
  · exact (hmatch.unitBias hunit).2

/-! ### Wires and biases -/

theorem link_tidied {k : Nat} : Keeps Tidied (link src des k) := by
  have hK := keeps_compositional (P := (· ≠ KsiError.ksiErrorNone)) Tidied
  unfold link
  refine hK.bind (hK.read _) fun _ => hK.ite (hK.pure ()) (hK.bind (update_tended ?_ ?_ ?_) fun _ =>
    update_tended ?_ ?_ ?_)
  all_goals exact fun _ => rfl

/-- A wire is made. -/
theorem wireRest_tidied {srcPort desId desPort : Int} {gain : KsiData} {srcNode desNode : KsiNode}
    (h : Tidied s) (hsrc : s.graph.heap src = some srcNode) (hdes : s.graph.heap des = some desNode)
    (hget : desNode.inputs[desPort.toNat]? = some input) :
    wp True (wireRest src des srcPort desId desPort gain input.type .editing) s (fun _ => Tidied)
      fun _ => Tidied := by
  unfold wireRest
  rw [wp_bind]
  refine wp_mono (wp_and (link_tidied s h) (link_wp (Q := fun _ s' => s'.graph =
    s.graph.link src des desId.toNat srcNode) (E := fun _ _ => True) hsrc (by simp [hdes]) rfl)) ?_
    fun _ _ h' => h'.1
  rintro _ s₁ ⟨h₁, hs₁⟩
  obtain ⟨desNode', hdes', hin', -⟩ := Graph.link_live src des desId.toNat srcNode hdes
  rw [← hs₁] at hdes'
  have hget' : desNode'.inputs[desPort.toNat]? = some input := by rw [hin', hget]
  rw [wp_bind, wp_loadInput]
  refine ⟨fun _ => trivial, fun input' hinput' => ?_⟩
  obtain rfl : input = input' := by simpa [hdes', hget'] using hinput'
  -- no branch leaves a bias alone
  have hrewire : ∀ f : List Entry → List Entry,
      f input.entries = wireEntry input.type.isEvent src srcPort gain input.entries →
      wp True (update des (·.updateEntries desPort.toNat f) >>= fun _ =>
        refreshCopying des desPort.toNat .editing) s₁ (fun _ => Tidied) fun _ => Tidied := by
    refine fun f hf => rewire_tended h₁ hdes' hget' fun _ => ?_
    rintro - ⟨me, hme, hnone, -⟩
    rw [(wireEntry_single (hf.symm.trans hme)).1] at hnone
    cases hnone
  refine (wp_ite _ _ _).mpr
    ⟨fun hevent => ?_, fun hsignal => (wp_ite _ _ _).mpr ⟨fun hany => ?_, fun hany => ?_⟩⟩
  · rw [wp_bind, wp_require]
    refine ⟨fun hnew => ?_, fun _ => h₁⟩
    rw [wp_update]
    refine ⟨fun _ => trivial, fun _ _ => ?_⟩
    obtain ⟨hat, hport⟩ :=
      port_updateEntries (f := ({ src := some src, srcPort := srcPort, gain := 0 } :: ·))
      hdes' hget'
    exact (h₁.updateEntries hdes' hget').of_event hat hport hevent
  · rw [wp_bind, wp_debug_check_node]
    refine ⟨fun _ => trivial, fun _ _ => ⟨fun _ => hrewire _ ?_, fun _ => trivial⟩⟩
    unfold wireEntry
    rw [if_pos hany]
  · refine hrewire _ ?_
    unfold wireEntry
    rw [if_neg hany, if_neg hsignal]

theorem makeWire_tidied {srcId srcPort desId desPort : Int} (gain : KsiData) :
    Keeps Tidied (impl_ksiEngineMakeWire srcId srcPort desId desPort gain .editing) := by
  intro s h
  rw [impl_ksiEngineMakeWire_eq, wp_bind, wp_checkInitialized]
  refine ⟨fun _ => ?_, fun _ => h⟩
  rw [wp_bind, wp_checkVec]
  refine ⟨fun _ => trivial, fun _ => h, fun src _ => ?_⟩
  rw [wp_bind, wp_checkVec]
  refine ⟨fun _ => trivial, fun _ => h, fun des _ => ?_⟩
  rw [wp_bind, wp_load]
  refine ⟨fun _ => trivial, fun srcNode hsrc => ?_⟩
  rw [wp_bind, wp_require]
  refine ⟨fun _ => ?_, fun _ => h⟩
  rw [wp_bind, wp_checkDesPort]
  refine ⟨fun _ => trivial, fun desNode hdes =>
    ⟨fun _ => h, fun _ => ⟨fun _ => trivial, fun input hinput => ?_⟩⟩⟩
  rw [wp_bind, wp_read]
  refine ⟨fun _ => trivial, fun type _ => ?_⟩
  rw [wp_bind, wp_require]
  exact ⟨fun _ => wireRest_tidied h hsrc hdes (nth_some hinput).1, fun _ => h⟩

theorem makeBias_tidied {desId desPort : Int} {bias : KsiData} (h : Tidied s)
    (hprudent : Prudent s (.makeBias desId desPort bias)) :
    wp True (impl_ksiEngineMakeBias desId desPort bias .editing) s (fun _ => Tidied)
      fun _ => Tidied := by
  rw [impl_ksiEngineMakeBias_eq, wp_bind, wp_checkInitialized]
  refine ⟨fun _ => ?_, fun _ => h⟩
  rw [wp_bind, wp_checkVec]
  refine ⟨fun _ => trivial, fun _ => h, fun des hid => ?_⟩
  rw [wp_bind, wp_checkDesPort]
  refine ⟨fun _ => trivial, fun desNode hdes =>
    ⟨fun _ => h, fun _ => ⟨fun _ => trivial, fun input hinput => ?_⟩⟩⟩
  rw [wp_bind, wp_require]
  refine ⟨fun _ => ?_, fun _ => h⟩
  have hget := (nth_some hinput).1
  unfold biasRest
  rw [wp_bind, wp_loadInput]
  refine ⟨fun _ => trivial, fun input' hinput' => ?_⟩
  obtain rfl : input' = input := by simpa [hdes, hget] using hinput'.symm
  rw [wp_bind]
  refine wp_mono (findBias_wp (absurd trivial) _ (absurd trivial)) ?_ fun _ _ hE => hE
  rintro _ s' ⟨rfl, rfl, -⟩
  exact rewire_tended h hdes hget fun _ => hprudent des desNode input' hid hdes hinput

/-! ### Detaching and removing wires -/

/-- The ports of a node lose their entries from `src`, and are refreshed. -/
theorem deleteSrcs_tended {node : KsiNode} (h : Tended ex s) (hdes : s.graph.heap des = some node)
    (hspared : ∀ input ∈ node.inputs, input.Spared (input.without src)) :
    wp True (deleteSrcs des src .editing) s (fun _ s' => Tended ex s' ∧
      s'.graph = s.graph.update des (·.dropSrc src)) E := by
  unfold deleteSrcs
  rw [wp_bind, wp_load]
  refine ⟨fun _ => trivial, fun node' hnode' => ?_⟩
  obtain rfl : node = node' := Option.some.inj (hdes.symm.trans hnode')
  refine wp_mono (wp_forRange (fun i s' => Tended ex s' ∧
    s'.graph = s.graph.update des (·.dropBelow src i)) ?_ ?_) ?_ fun _ _ hE => hE
  · rintro i s' hi ⟨hs', hgraph⟩
    have hat : s'.graph.heap des = some (node.dropBelow src i) := by
      rw [hgraph, Graph.heap_update, if_pos rfl, hdes, Option.map_some]
    have hinput : (node.dropBelow src i).inputs[i]? = some node.inputs[i] := by
      unfold KsiNode.dropBelow
      rw [List.getElem?_mapIdx, List.getElem?_eq_getElem hi]
      simp
    have htended : wp True (delete_src des src .editing i) s' (fun _ => Tended ex) E := by
      unfold delete_src
      rw [wp_bind, wp_loadInput]
      exact ⟨fun _ => trivial, fun _ _ => rewire_tended hs' hat hinput fun _ =>
        hspared _ (List.getElem_mem hi)⟩
    refine wp_mono (wp_and htended (delete_src_wp (E := E) (absurd trivial) hat hinput
      (absurd trivial))) ?_
      fun _ _ hE => hE.1
    rintro _ s'' ⟨hs'', hgraph', -⟩
    refine ⟨hs'', ?_⟩
    rw [hgraph', hgraph, Graph.update_update]
    exact Graph.update_congr fun m _ => m.dropBelow_succ src i
  · exact ⟨h, (Graph.update_eq_self fun m _ => m.dropBelow_zero src).symm⟩
  · rintro _ s' ⟨hs', hgraph⟩
    refine ⟨hs', ?_⟩
    rw [hgraph]
    refine Graph.update_congr fun m hm => ?_
    obtain rfl : node = m := Option.some.inj (hdes.symm.trans hm)
    exact node.dropBelow_length src

theorem detachNodes_tidied {srcId desId : Int} (h : Tidied s)
    (hprudent : Prudent s (.detachNodes srcId desId)) :
    wp True (impl_ksiEngineDetachNodes srcId desId .editing) s (fun _ => Tidied)
      fun _ => Tidied := by
  rw [impl_ksiEngineDetachNodes_eq, wp_bind, wp_checkInitialized]
  refine ⟨fun _ => ?_, fun _ => h⟩
  rw [wp_bind, wp_checkVec]
  refine ⟨fun _ => trivial, fun _ => h, fun src hsrcId => ?_⟩
  rw [wp_bind, wp_checkVec]
  refine ⟨fun _ => trivial, fun _ => h, fun des hdesId => ?_⟩
  unfold detachRest
  rw [wp_bind, wp_update]
  refine ⟨fun _ => trivial, fun node hnode => ?_⟩
  have hcounted : Tidied { s with graph := s.graph.update des fun node =>
      { node with depNum := node.depNum - 1 } } := h.update (fun _ => rfl) (fun _ => rfl)
        fun _ => rfl
  rw [wp_bind]
  refine wp_mono (deleteSrcs_tended hcounted (heap_of_eq hnode rfl)
    (hprudent src des node hsrcId hdesId hnode)) ?_ fun _ _ hE => hE
  rintro _ s₂ ⟨h₂, -⟩
  rw [wp_update]
  exact ⟨fun _ => trivial, fun _ _ => h₂.update (fun _ => rfl) (fun _ => rfl) fun _ => rfl⟩

/-- A wire is taken out. -/
theorem unwireRest_tidied {srcPort desPort : Int} {desNode : KsiNode} (h : Tidied s)
    (hdes : s.graph.heap des = some desNode) (hget : desNode.inputs[desPort.toNat]? = some input)
    (hspared : input.Spared (input.unwired src srcPort)) :
    wp True (unwireRest src des srcPort desPort input.type .editing) s (fun _ => Tidied)
      fun _ => Tidied := by
  unfold unwireRest
  rw [wp_bind, wp_loadInput]
  refine ⟨fun _ => trivial, fun input' hinput' => ?_⟩
  obtain rfl : input' = input := by simpa [hdes, hget] using hinput'.symm
  rw [wp_bind]
  refine wp_mono (unwire_wp (absurd trivial) input'.entries 0 false) ?_ fun _ _ hE => hE
  rintro _ s' ⟨rfl, rfl⟩
  rw [wp_bind, wp_update]
  refine ⟨fun _ => trivial, fun _ _ => ?_⟩
  cases hany : input'.entries.any (·.isFrom src srcPort) with
  | false =>
      obtain ⟨hentries, hdeleted⟩ := unwired_of_absent input'.entries 0 hany
      have hsame : s'.graph.update des (·.updateEntries desPort.toNat fun _ =>
          (unwired src srcPort input'.entries 0 false).1) = s'.graph := by
        rw [hentries]
        refine Graph.update_eq_self fun node hnode => ?_
        obtain rfl : desNode = node := Option.some.inj (hdes.symm.trans hnode)
        exact (updateEntries_eq_self hget).mpr rfl
      rw [hsame, hdeleted, wp_bind, wp_when]
      refine ⟨fun hno => absurd hno.2 Bool.false_ne_true, fun _ => (wp_ite _ _ _).mpr
        ⟨fun hno => absurd hno.1 Bool.false_ne_true, fun _ => h⟩⟩
  | true =>
      have hdeleted := (unwired_of_present input'.entries 0 hany).2
      have hafter := h.updateEntries (f := fun _ => (unwired src srcPort input'.entries 0 false).1)
        hdes hget
      obtain ⟨hat, hport⟩ := port_updateEntries
        (f := fun _ => (unwired src srcPort input'.entries 0 false).1) hdes hget
      -- what is left to do, in the graph with or without the two nodes taken apart
      have hlast : ∀ (g' : Graph) (node : KsiNode), g'.heap des = some node →
          node.inputs[desPort.toNat]? = some (input'.unwired src srcPort) →
          Tended (fun m j => False ∨ (m = des ∧ j = desPort.toNat)) { s' with graph := g' } →
          wp True (if (unwired src srcPort input'.entries 0 false).2.2 = true ∧
            ¬ input'.type.isEvent = true then
              refreshCopying des desPort.toNat .editing
            else Prog.error .ksiErrorWireNotFound) { s' with graph := g' } (fun _ => Tidied)
              fun _ => Tidied := by
        intro g' node hnode hinput h'
        refine (wp_ite _ _ _).mpr ⟨fun hgo => ?_, fun hno => ?_⟩
        · have hbind : (g'.heap des).bind (fun node => node.inputs[desPort.toNat]?) =
              some (input'.unwired src srcPort) := by
            rw [hnode, Option.bind_some, hinput]
          refine wp_mono (refreshCopying_refreshed h'.frames hbind)
            (fun _ s'' hr => h'.refreshed hbind
            (fun _ hsignal hbias => ?_) hr) fun _ _ hE => hE
          have hmatch := (h.matched des desNode _ input' not_false hdes hget hsignal).1
          rcases hspared hsignal hbias with hnil | hunit
          · exact hmatch.empty hnil
          · exact (hmatch.unitBias hunit).2
        · refine h'.of_event hnode hinput ?_
          by_contra hsignal
          exact hno ⟨hdeleted, hsignal⟩
      rw [wp_bind, wp_when]
      refine ⟨fun _ => ?_, fun _ => hlast _ _ hat hport hafter⟩
      rw [wp_bind, wp_load]
      refine ⟨fun _ => trivial, fun node _ => ?_⟩
      rw [wp_bind, wp_update]
      refine ⟨fun _ => trivial, fun _ _ => ?_⟩
      rw [wp_update]
      refine ⟨fun _ => trivial, fun _ _ => ?_⟩
      let g := s'.graph.update des (·.updateEntries desPort.toNat fun _ =>
        (unwired src srcPort input'.entries 0 false).1)
      have hinputs : ((g.unlink src des node.id).heap des).map (·.inputs) = (g.heap des).map
        (·.inputs) :=
        Graph.unlink_inputs des node.id
      rw [hat, Option.map_some] at hinputs
      obtain ⟨node', hnode', heq⟩ := Option.map_eq_some_iff.mp hinputs
      refine hlast _ node' hnode' (by rw [heq]; exact hport) ?_
      refine Tended.update (Tended.update hafter ?_ ?_ ?_) ?_ ?_ ?_
      all_goals exact fun _ => rfl

theorem removeWire_tidied {srcId srcPort desId desPort : Int} (h : Tidied s)
    (hprudent : Prudent s (.removeWire srcId srcPort desId desPort)) :
    wp True (impl_ksiEngineRemoveWire srcId srcPort desId desPort .editing) s (fun _ => Tidied)
      fun _ => Tidied := by
  rw [impl_ksiEngineRemoveWire_eq, wp_bind, wp_checkInitialized]
  refine ⟨fun _ => ?_, fun _ => h⟩
  rw [wp_bind, wp_checkVec]
  refine ⟨fun _ => trivial, fun _ => h, fun src hsrcId => ?_⟩
  rw [wp_bind, wp_checkVec]
  refine ⟨fun _ => trivial, fun _ => h, fun des hdesId => ?_⟩
  rw [wp_bind, wp_load]
  refine ⟨fun _ => trivial, fun srcNode hsrc => ?_⟩
  rw [wp_bind, wp_require]
  refine ⟨fun hport => ?_, fun _ => h⟩
  rw [wp_bind, wp_checkDesPort]
  refine ⟨fun _ => trivial, fun desNode hdes =>
    ⟨fun _ => h, fun _ => ⟨fun _ => trivial, fun input hinput => ?_⟩⟩⟩
  exact unwireRest_tidied h hdes (nth_some hinput).1
    (hprudent src des srcNode desNode input ⟨hsrcId, hdesId, hsrc, hdes, hport, hinput⟩)

/-! ### Removing a node -/

/-- The slot of `n` has been emptied, and the successors `rest` have still to be released. -/
structure Releasing (n : NodePtr) (rest : List Nat) (s : Engine) : Prop where
  tidied : Tidied s
  /-- who still reads the outputs of `n` as they are -/
  listed : ∀ q m, s.graph.heap q = some m → q ≠ n → ∀ input ∈ m.inputs, input.type.isEvent = false →
    input.UnitWire n → m.id ∈ rest
  spared : ∀ loc ∈ rest, ∀ q m, s.graph.nodes.data loc = some q → s.graph.heap q = some m →
    ∀ input ∈ m.inputs, input.Spared (input.without n)
  named : ∀ q m, s.graph.heap q = some m → q ≠ n → s.graph.nodes.data m.id = some q

/-- A store that leaves the id and the ports of a node as they are. -/
theorem Releasing.update {rest : List Nat} {f : KsiNode → KsiNode} (h : Releasing n rest s)
    (hid : ∀ node, (f node).id = node.id) (hin : ∀ node, (f node).inputs = node.inputs)
    (hout : ∀ node, (f node).outputs = node.outputs)
    (hnormal : ∀ node, (f node).isNormal = node.isNormal) :
    Releasing n rest { s with graph := s.graph.update p f } := by
  have hheap : ∀ {q m}, (s.graph.update p f).heap q = some m →
      ∃ m₀, s.graph.heap q = some m₀ ∧ m.id = m₀.id ∧ m.inputs = m₀.inputs := by
    intro q m hm
    rw [Graph.heap_update] at hm
    split at hm
    · obtain ⟨m₀, hm₀, rfl⟩ := Option.map_eq_some_iff.mp hm
      exact ⟨m₀, hm₀, hid m₀, hin m₀⟩
    · exact ⟨m, hm, rfl, rfl⟩
  constructor
  case tidied => exact h.tidied.update hin hout hnormal
  case listed =>
    intro q m hm hq input hinput hsignal hwire
    obtain ⟨m₀, hm₀, heqid, heqin⟩ := hheap hm
    rw [heqid]
    exact h.listed q m₀ hm₀ hq input (heqin ▸ hinput) hsignal hwire
  case spared =>
    intro loc hloc q m hq hm input hinput
    obtain ⟨m₀, hm₀, -, heqin⟩ := hheap hm
    exact h.spared loc hloc q m₀ hq hm₀ input (heqin ▸ hinput)
  case named =>
    intro q m hm hq
    obtain ⟨m₀, hm₀, heqid, -⟩ := hheap hm
    rw [heqid]
    exact h.named q m₀ hm₀ hq

/-- A port that has lost its entries has nothing more to lose. -/
theorem InputPort.spared_without (src : NodePtr) (input : InputPort) :
    (input.without src).Spared ((input.without src).without src) := by
  rw [InputPort.without_without]
  exact fun _ => .inr

/-- **A successor is released.** -/
theorem releaseSuccessor_releasing {loc : Nat} {rest : List Nat} (h : Releasing n (loc :: rest) s) :
    wp True (releaseSuccessor n .editing loc) s (fun _ => Releasing n rest) E := by
  unfold releaseSuccessor
  rw [wp_bind, wp_read]
  refine ⟨fun _ => trivial, fun q hq => ?_⟩
  rw [wp_bind, wp_update]
  refine ⟨fun _ => trivial, fun m hm => ?_⟩
  have hcounted : Releasing n (loc :: rest) { s with graph := s.graph.update q fun node =>
      { node with depNum := node.depNum - 1 } } :=
    h.update (fun _ => rfl) (fun _ => rfl) (fun _ => rfl) fun _ => rfl
  have hat := heap_of_eq (f := fun node : KsiNode => { node with depNum := node.depNum - 1 }) hm rfl
  refine wp_mono (deleteSrcs_tended hcounted.tidied hat
    (hcounted.spared loc List.mem_cons_self q _ hq hat)) ?_ fun _ _ hE => hE
  rintro _ s' ⟨htidied, hgraph⟩
  -- a node after that: one of before, or `q` without its entries
  have hheap : ∀ {r m'}, s'.graph.heap r = some m' → ∃ m₀, s.graph.heap r = some m₀ ∧
    m'.id = m₀.id ∧
      ((r = q ∧ m'.inputs = m₀.inputs.map (·.without n)) ∨ r ≠ q ∧ m'.inputs = m₀.inputs) := by
    intro r m' hm'
    rw [hgraph, Graph.heap_update] at hm'
    split at hm'
    · rename_i heq
      subst heq
      rw [hat, Option.map_some, Option.some.injEq] at hm'
      subst hm'
      exact ⟨m, hm, rfl, .inl ⟨rfl, rfl⟩⟩
    · rename_i hne
      rw [Graph.heap_update, if_neg hne] at hm'
      exact ⟨m', hm', rfl, .inr ⟨hne, rfl⟩⟩
  have hnodes : s'.graph.nodes = s.graph.nodes := by
    rw [hgraph]
    rfl
  constructor
  case tidied => exact htidied
  case listed =>
    intro r m' hm' hr input hinput hsignal hwire
    obtain ⟨m₀, hm₀, hid, ⟨rfl, hin⟩ | ⟨hne, hin⟩⟩ := hheap hm'
    · rw [hin] at hinput
      obtain ⟨input₀, -, rfl⟩ := List.mem_map.mp hinput
      obtain ⟨me, hme, hsrc, -⟩ := hwire
      have hmem : me ∈ (input₀.without n).entries := by
        rw [hme]
        exact List.mem_singleton_self me
      have hnot := (List.mem_filter.mp hmem).2
      rw [hsrc] at hnot
      simp at hnot
    · rw [hid]
      rcases List.mem_cons.mp
        (h.listed r m₀ hm₀ hr input (hin ▸ hinput) hsignal hwire) with heq | hrest
      · have hdata := h.named r m₀ hm₀ hr
        rw [heq, hq] at hdata
        exact absurd (Option.some.inj hdata).symm hne
      · exact hrest
  case spared =>
    intro loc' hloc' r m' hr hm' input hinput
    obtain ⟨m₀, hm₀, -, ⟨rfl, hin⟩ | ⟨-, hin⟩⟩ := hheap hm'
    · rw [hin] at hinput
      obtain ⟨input₀, -, rfl⟩ := List.mem_map.mp hinput
      exact input₀.spared_without n
    · exact h.spared loc' (List.mem_cons_of_mem loc hloc') r m₀ (hnodes ▸ hr) hm₀ input
        (hin ▸ hinput)
  case named =>
    intro r m' hm' hr
    obtain ⟨m₀, hm₀, hid, -⟩ := hheap hm'
    rw [hnodes, hid]
    exact h.named r m₀ hm₀ hr

/-- The predecessors are marked. -/
theorem regPrecs_releasing : ∀ (entries : List Entry) (precs : List NodePtr),
    Keeps (Releasing n []) (regPrecs entries precs) := by
  have hK := keeps_compositional (P := (· ≠ KsiError.ksiErrorNone)) (Releasing n [])
  have hmark : ∀ p, Keeps (Releasing n []) (update p fun node =>
      { node with type := node.type ||| ksiNodeTypeScratchPredecessor }) := by
    intro p s h
    rw [wp_update]
    have hmild : Mild fun node =>
      { node with type := node.type ||| ksiNodeTypeScratchPredecessor } :=
      mild_flag (by decide) (by decide)
    exact ⟨fun _ => trivial, fun _ _ => h.update hmild.id (fun _ => rfl) hmild.outputs
      fun node => congrArg (·.1) (hmild.shape node)⟩
  intro entries
  induction entries with
  | nil => exact fun precs => hK.pure precs
  | cons me rest ih =>
      intro precs
      unfold Dag.regPrecs
      cases me.src with
      | none => exact ih precs
      | some p =>
          exact hK.bind (hK.bind (hK.read _) fun _ => hK.assert _) fun _ =>
            hK.bind (hK.read _) fun _ =>
            hK.ite (hK.bind (hmark p) fun _ => ih _) (ih _)

/-- ... and unmarked. -/
theorem releasePrec_releasing {id : Nat} : Keeps (Releasing n []) (releasePrec id p) := by
  have hmild := mild_unmark
  have hK := keeps_compositional (P := (· ≠ KsiError.ksiErrorNone)) (Releasing n [])
  refine hK.bind (fun s h => ?_) fun _ s h => ?_
  · rw [wp_update]
    exact ⟨fun _ => trivial, fun _ _ => h.update hmild.id (fun _ => rfl) hmild.outputs
      fun node => congrArg (·.1) (hmild.shape node)⟩
  · rw [wp_update]
    exact ⟨fun _ => trivial, fun _ _ => h.update (fun _ => rfl) (fun _ => rfl) (fun _ => rfl)
      fun _ => rfl⟩

/-- **A node is removed** from the graph. -/
theorem removeRest_releasing {node : KsiNode} (hn : s.graph.heap n = some node)
    (h : Releasing n node.successors s) :
    wp True (removeRest .editing n) s (fun _ => Releasing n []) fun _ => Releasing n [] := by
  have hK := keeps_compositional (P := (· ≠ KsiError.ksiErrorNone)) (Releasing n [])
  unfold removeRest
  rw [wp_bind, wp_load]
  refine ⟨fun _ => trivial, fun node' hn' => ?_⟩
  obtain rfl : node = node' := Option.some.inj (hn.symm.trans hn')
  rw [wp_bind]
  refine wp_mono (wp_forEach (fun rest => Releasing n rest)
    (fun loc rest s h => releaseSuccessor_releasing h)
    node.successors h) ?_ fun _ _ hE => hE
  intro _ s₁ h₁
  refine (hK.bind (hK.read _) fun _ => hK.bind (regPrecs_releasing _ _) fun _ =>
    hK.bind (hK.forEach (fun _ => releasePrec_releasing) _) fun _ => hK.bind (hK.read _) fun _ =>
      hK.bind (hK.when (.modify fun s h => ?_)) fun _ => hK.pure n) s₁ h₁
  exact ⟨h.tidied.of_same (fun _ => rfl) ⟨fun _ => rfl, rfl⟩ (fun _ => rfl) rfl rfl rfl, h.listed,
    h.spared, h.named⟩

/-- Nothing but `freeBufs` has changed. -/
def OnlyFrees (s s' : Engine) : Prop := ∃ freeBufs, s' = { s with freeBufs := freeBufs }

/-- The buffers of a node are given up. -/
theorem ksiEngineDestroyNode_frees {Q : Unit → Engine → Prop}
    (hQ : ∀ s', OnlyFrees s s' → Q () { s' with
      graph := { s'.graph with heap := Function.update s'.graph.heap n none } }) :
    wp True (ksiEngineDestroyNode n .editing) s Q E := by
  have hK := within_compositional (ε := KsiError) (P := (· ≠ KsiError.ksiErrorNone))
    (r := OnlyFrees)
    (fun s => ⟨s.freeBufs, rfl⟩) (by rintro s₁ s₂ s₃ ⟨l, rfl⟩ ⟨l', rfl⟩; exact ⟨l', rfl⟩)
  have hfree : ∀ ptr, Within OnlyFrees (ksiMVCCDeferredFree ptr .editing) := fun ptr s =>
    wp_free.mpr ⟨s.freeBufs ++ ptr.toList, rfl⟩
  have henv : ∀ i, Within OnlyFrees (impl_delete_env n .editing i) := fun i =>
    hK.bind (hK.read _) fun _ => hK.ite (hK.pure _) (hK.bind (hK.read _) fun _ => hfree _)
  have houtput : ∀ i, Within OnlyFrees (impl_delete_output n .editing i) := fun i =>
    hK.bind (hK.read _) fun _ => hfree _
  unfold ksiEngineDestroyNode
  rw [wp_bind, wp_load]
  refine ⟨fun _ => trivial, fun node _ => ?_⟩
  rw [wp_bind]
  refine wp_mono (wp_and (hK.forEach henv _ s)
    (Unfailing.forEach (fun _ => impl_delete_env_unfailing) _ s)) ?_
    fun _ _ h => h.2.elim
  rintro _ s₁ ⟨⟨l₁, rfl⟩, -⟩
  rw [wp_bind]
  refine wp_mono (wp_and (hK.when (hK.forEach houtput _) _)
    ((Unfailing.forEach (fun _ => impl_delete_output_unfailing) _).when _)) ?_ fun _ _ h => h.2.elim
  rintro _ s₂ ⟨⟨l₂, rfl⟩, -⟩
  exact hQ _ ⟨l₂, rfl⟩

/-- A node that nobody reads is taken off the heap. -/
theorem Releasing.erase (h : Releasing n [] s) (hframes : OnlyFrees s s') :
    Tidied { s' with graph := { s'.graph with heap := Function.update s'.graph.heap n none } } := by
  obtain ⟨l, rfl⟩ := hframes
  have hheap : ∀ {q m}, Function.update s.graph.heap n none q = some m →
    q ≠ n ∧ s.graph.heap q = some m := by
    intro q m hq
    rw [Function.update_apply] at hq
    split at hq
    · cases hq
    · rename_i hne
      exact ⟨hne, hq⟩
  constructor
  case matched =>
    intro q m i input _ hafter hinput hsignal
    obtain ⟨hne, hq⟩ := hheap hafter
    obtain ⟨hmatch, hsourced⟩ := h.tidied.matched q m i input not_false hq hinput hsignal
    refine ⟨hmatch.congr fun _ _ => rfl, fun me hme hunit src hsrc => ?_⟩
    obtain ⟨node, hnode, hport⟩ := hsourced me hme hunit src hsrc
    refine ⟨node, ?_, hport⟩
    show Function.update s.graph.heap n none src = some node
    rw [Function.update_of_ne, hnode]
    rintro rfl
    have hrest := h.listed q m hq hne input (List.mem_of_getElem? hinput) hsignal
      ⟨me, hme, hsrc, hunit⟩
    exact absurd hrest List.not_mem_nil
  case bare =>
    intro q j hq
    exact h.tidied.bare q j
      (hq.imp_right fun ⟨node, hnode, hnormal⟩ => ⟨node, (hheap hnode).2, hnormal⟩)
  case fresh =>
    intro q m hq
    exact h.tidied.fresh q m (hheap hq).2
  case frames => exact h.tidied.frames

theorem removeNode_tidied {id : Int} (h : Tidied s) (hreg : Registered s.graph)
    (hprudent : Prudent s (.removeNode id)) :
    wp True ((Call.removeNode id).kernel .editing) s (fun _ => Tidied) fun _ => Tidied := by
  unfold Call.kernel
  rw [wp_bind, impl_ksiEngineRemoveNode_eq, wp_bind, wp_checkInitialized]
  refine ⟨fun _ => ?_, fun _ => h⟩
  rw [wp_bind, wp_checkVec]
  refine ⟨fun _ => trivial, fun _ => h, fun n hcheck => ?_⟩
  have hholds := (KsiVec.check_some hcheck).1
  obtain ⟨node, hn, -⟩ := hreg.slots _ n hholds
  obtain ⟨hlists, hspared⟩ := hprudent n node hcheck hn
  rw [wp_bind, wp_modify]
  have hdata : ∀ {loc q}, (ksiVecDelete s.graph.nodes id.toNat).data loc = some q →
      s.graph.nodes.data loc = some q := by
    intro loc q hq
    unfold ksiVecDelete at hq
    split at hq
    · exact hq
    · by_cases hloc : loc = id.toNat
      · simp [hloc] at hq
      · simpa [hloc] using hq
  have hreleasing : Releasing n node.successors { s with
      graph := { s.graph with nodes := ksiVecDelete s.graph.nodes id.toNat } } := by
    refine ⟨h.of_same (fun _ => rfl) ⟨fun _ => rfl, rfl⟩ (fun _ => rfl) rfl rfl rfl, hlists,
      fun loc hloc q m hq => hspared loc hloc q m (hdata hq), fun q m hq hne => ?_⟩
    have hid := hreg.named q m hq
    exact ((KsiVec.holds_delete hholds).mpr ⟨fun heq => hne ((heq ▸ hid).unique hholds), hid⟩).2
  refine wp_mono (wp_and (removeRest_releasing hn hreleasing) (removeRest_returns _)) ?_
    fun _ _ h => h.2.elim
  rintro _ s₁ ⟨h₁, rfl⟩
  rw [wp_bind]
  exact ksiEngineDestroyNode_frees fun s' hs' => h₁.erase hs'

/-! ### A new node -/

/-- Nobody reads the outputs of `n` as they are. -/
def Unread (n : NodePtr) (s : Engine) : Prop :=
  ∀ q m, s.graph.heap q = some m → ∀ input ∈ m.inputs, input.type.isEvent = false →
    ¬ input.UnitWire n

/-- The buffers of a new node's outputs change nothing for the ports. -/
theorem newOutputs_tidied {types : List PortType} {i : Nat} (h : Tidied s) (hunread : Unread n s)
    (hnormal : ∀ node, s.graph.heap n = some node → node.isNormal = true)
    (hlt : n < s.graph.nextNode) :
    wp True (newOutputs n .editing i types) s (fun _ s' => Tidied s' ∧ s'.graph = s.graph)
      E := by
  induction types generalizing s i with
  | nil => exact ⟨h, rfl⟩
  | cons type types ih =>
      -- whether or not a buffer was allocated, it is stored
      have hnext : ∀ (ptr : Option BufPtr) (s₁ : Engine), s₁.graph = s.graph → s₁.env = s.env →
          s₁.outputBuffer = s.outputBuffer → s₁.framesPerBuffer = s.framesPerBuffer →
          wp True (setOutput n i ptr >>= fun _ => newOutputs n .editing (i + 1) types) s₁
            (fun _ s' => Tidied s' ∧ s'.graph = s.graph) E := by
        intro ptr s₁ hgraph henv hout hframes
        rw [wp_bind, wp_setOutput]
        have hstored : Tidied (s₁.putOutput n i ptr) := by
          constructor
          case matched =>
            intro q m j input _ hafter hinput hsignal
            have hq : s.graph.heap q = some m := hgraph ▸ hafter
            obtain ⟨hmatch, hsourced⟩ := h.matched q m j input not_false hq hinput hsignal
            refine ⟨?_, ?_⟩
            · show PortMatch _ input (s₁.env q j)
              rw [henv]
              refine hmatch.congr fun src hwire => ?_
              have hne : src ≠ n := by
                rintro rfl
                exact hunread q m hq input (List.mem_of_getElem? hinput) hsignal hwire
              funext k
              rw [Engine.putOutput_outputBuffer, if_neg fun hat => hne hat.1, hout]
            · show input.Sourced s₁.graph
              rwa [hgraph]
          case bare =>
            intro q j hafter
            have hq : s.graph.nextNode ≤ q ∨ ∃ node, s.graph.heap q = some node ∧
              node.isNormal = false :=
              hgraph ▸ hafter
            rw [Engine.putOutput_outputBuffer, if_neg, hout]
            · exact h.bare q j hq
            · rintro ⟨rfl, -⟩
              rcases hq with hge | ⟨node, hnode, hno⟩
              · exact Nat.lt_irrefl _ (Nat.lt_of_lt_of_le hlt hge)
              · rw [hnormal node hnode] at hno
                cases hno
          case fresh =>
            intro q m hq
            show q < s₁.graph.nextNode
            rw [hgraph]
            exact h.fresh q m (hgraph ▸ hq)
          case frames =>
            show 0 < s₁.framesPerBuffer
            rw [hframes]
            exact h.frames
        have hgraph' : (s₁.putOutput n i ptr).graph = s.graph := hgraph
        refine wp_mono (ih hstored (by unfold Unread; rwa [hgraph']) (by rwa [hgraph'])
          (by rwa [hgraph'])) ?_
          fun _ _ hE => hE
        rintro _ s' ⟨h', hg'⟩
        exact ⟨h', hg'.trans hgraph'⟩
      unfold newOutputs mallocOutput
      rw [wp_bind, wp_ite]
      refine ⟨fun _ => ?_, fun _ => ?_⟩
      · rw [wp_malloc]
        exact ⟨fun _ => hnext none s rfl rfl rfl rfl, fun _ => hnext _ s.alloc rfl rfl rfl rfl⟩
      · rw [wp_bind, wp_read]
        refine ⟨fun _ => trivial, fun _ _ => ?_⟩
        rw [wp_malloc]
        exact ⟨fun _ => hnext none s rfl rfl rfl rfl, fun _ => hnext _ s.alloc rfl rfl rfl rfl⟩

/-- A node without entries comes in under a new address. -/
theorem Tended.putNew {node : KsiNode} (h : Tidied s)
    (hempty : ∀ input ∈ node.inputs, input.entries = []) :
    Tidied (s.putNew node) ∧ Unread s.graph.nextNode (s.putNew node) := by
  have hne : ∀ {q m}, s.graph.heap q = some m → q ≠ s.graph.nextNode := fun hq heq =>
    Nat.lt_irrefl _ (heq ▸ h.fresh _ _ hq)
  constructor
  · constructor
    case matched =>
      intro q m j input _ hq hinput hsignal
      rw [Engine.putNew_heap] at hq
      split at hq
      · rename_i heq
        cases hq
        have hnil := hempty input (List.mem_of_getElem? hinput)
        have hnone : (s.putNew node).env q j = { buffer := none, internalBufferPtr := none } := by
          rw [heq]
          simp [Engine.putNew]
        rw [hnone]
        refine ⟨⟨fun _ => rfl, fun me src hme => ?_, ?_, fun hno => absurd hnil hno⟩,
          fun me hme => ?_⟩
        case refine_2 =>
          rintro ⟨me, hme, -⟩
          rw [hnil] at hme
          cases hme
        all_goals
          rw [hnil] at hme
          cases hme
      · rename_i hold
        obtain ⟨hmatch, hsourced⟩ := h.matched q m j input not_false hq hinput hsignal
        have hsame : (s.putNew node).env q j = s.env q j := by simp [Engine.putNew, hold]
        rw [hsame]
        refine ⟨hmatch.congr fun _ _ => rfl, fun me hme hunit src hsrc => ?_⟩
        obtain ⟨m', hm', hport⟩ := hsourced me hme hunit src hsrc
        exact ⟨m', by rw [Engine.putNew_heap, if_neg (hne hm'), hm'], hport⟩
    case bare =>
      intro q j hq
      refine h.bare q j ?_
      rcases hq with hge | ⟨m, hm, hnormal⟩
      · exact .inl (Nat.le_of_succ_le hge)
      · rw [Engine.putNew_heap] at hm
        split at hm
        · rename_i heq
          exact .inl (Nat.le_of_eq heq.symm)
        · exact .inr ⟨m, hm, hnormal⟩
    case fresh =>
      intro q m hq
      show q < s.graph.nextNode + 1
      rw [Engine.putNew_heap] at hq
      split at hq
      · rename_i heq
        exact Nat.lt_succ_of_le (Nat.le_of_eq heq)
      · exact Nat.lt_succ_of_lt (h.fresh q m hq)
    case frames => exact h.frames
  · rintro q m hq input hinput hsignal ⟨me, hme, hsrc, hunit⟩
    rw [Engine.putNew_heap] at hq
    split at hq
    · cases hq
      rw [hempty input hinput] at hme
      cases hme
    · obtain ⟨j, hj⟩ := List.mem_iff_getElem?.mp hinput
      obtain ⟨m', hm', -⟩ := (h.matched q m j input not_false hq hj hsignal).2 me hme hunit _ hsrc
      exact hne hm' rfl

/-- **A node is added.** -/
theorem addNode_tidied (typeFlags : BitVec 32) :
    Keeps Tidied (impl_ksiEngineAddNode typeFlags .editing) := by
  intro s h
  unfold impl_ksiEngineAddNode
  rw [wp_bind, wp_checkInitialized]
  refine ⟨fun _ => ?_, fun _ => h⟩
  rw [wp_bind, wp_read]
  refine ⟨fun _ => trivial, fun finalNode _ => ?_⟩
  rw [wp_bind, wp_require]
  refine ⟨fun _ => ?_, fun _ => h⟩
  rw [wp_bind, wp_orError]
  refine ⟨fun ports _ => ?_, fun _ => h⟩
  rw [wp_bind, wp_newNode]
  obtain ⟨hnew, hunread⟩ : Tidied (s.putNew (freshNode typeFlags ports 0)) ∧ _ :=
    h.putNew fun input hinput => by
    obtain ⟨type, -, rfl⟩ := List.mem_map.mp hinput
    rfl
  have hrest : ∀ s', Tidied s' → wp True (Prog.when (typeFlags &&& ksiNodeTypeOutputMask =
        ksiNodeTypeOutputFinal) (setFinalNode (some s.graph.nextNode)) >>= fun _ =>
      insertNode s.graph.nextNode >>= fun ret =>
        update s.graph.nextNode (fun node => { node with id := ret }) >>=
        fun _ => pure ret) s' (fun _ => Tidied) fun _ => Tidied := by
    have hK := keeps_compositional (P := (· ≠ KsiError.ksiErrorNone)) Tidied
    refine hK.bind (hK.when (.modify fun s h => ?_)) fun _ =>
      hK.bind (fun s h => ?_) fun ret => hK.bind
      (update_tended ?_ ?_ ?_) fun _ => hK.pure _
    · exact h.of_same (fun _ => rfl) ⟨fun _ => rfl, rfl⟩ (fun _ => rfl) rfl rfl rfl
    · exact h.of_same (fun _ => rfl) ⟨fun _ => rfl, rfl⟩ (fun _ => rfl) rfl rfl rfl
    all_goals exact fun _ => rfl
  rw [wp_bind, wp_when]
  refine ⟨fun hnormal => ?_, fun _ => hrest _ hnew⟩
  refine wp_mono (newOutputs_tidied hnew hunread (fun node hnode => ?_) (Nat.lt_succ_self _))
    (fun _ s' h' => hrest s' h'.1) fun _ _ hE => hE
  rw [Engine.putNew_heap, if_pos rfl] at hnode
  cases hnode
  exact beq_iff_eq.mpr hnormal

/-! ### Runs -/

theorem Tended.call {c : Call} (h : Tidied s) (hreg : Registered s.graph) (hprudent : Prudent s c) :
    wp True (c.kernel .editing) s (fun _ => Tidied) fun _ => Tidied := by
  have hret : ∀ {α : Type} {x : Edit α} {f : α → Option Nat},
      wp True x s (fun _ => Tidied) (fun _ => Tidied) →
      wp True (x >>= fun a => pure (f a)) s (fun _ => Tidied) fun _ =>
        Tidied := fun hx => (wp_bind _ _).mpr hx
  cases c with
  | addNode typeFlags => exact hret (addNode_tidied typeFlags s h)
  | makeWire srcId srcPort desId desPort gain => exact hret (makeWire_tidied gain s h)
  | makeBias desId desPort bias => exact hret (makeBias_tidied h hprudent)
  | detachNodes srcId desId => exact hret (detachNodes_tidied h hprudent)
  | removeNode id => exact removeNode_tidied h hreg hprudent
  | removeWire srcId srcPort desId desPort => exact hret (removeWire_tidied h hprudent)
  | sendEditingCommand id args => exact hprudent.elim

theorem Tended.init {framesPerBuffer : Nat} (hframes : 0 < framesPerBuffer) :
    Tidied (ksiEngineInit framesPerBuffer) where
  matched := fun _ _ _ _ _ hn => by cases hn
  bare := fun _ _ _ => rfl
  fresh := fun _ _ hn => by cases hn
  frames := hframes

end Ksi.Dag

/-
When the graph stays without rings.

No kernel looks for a ring, and none returns `ksiErrorRing`: MakeWire links any two
nodes whose ports have the same type.  Every other kernel leaves a node no successor it
did not have, so a ring can only come from a MakeWire whose destination already leads to
its source.  In a run without one the graph has no cycle.

Nothing is assumed of the graph here but that no two slots hold one node: the argument
also covers runs in which RemoveWire and DetachNodes have left the wiring incoherent.
-/
import Ksi.Proofs.Dag.Refusal
import Ksi.Proofs.Dag.Effect
import Ksi.Proofs.Dag.Walk
import Ksi.Lib.Acyclic

namespace Ksi.Dag

open Prog Relation Runs

variable {s s' : Engine} {g g' g'' : Graph} {p n des src : NodePtr} {a b i : Nat}

/-- The node with id `a` has `b` among its successors. -/
def Graph.Edge (g : Graph) (a b : Nat) : Prop :=
  ∃ p node, g.nodes.Holds a p ∧ g.heap p = some node ∧ b ∈ node.successors

/-! ### Kernels that add no successor -/

/-- No slot, no address and no successor has come in. -/
structure Narrower (g g' : Graph) : Prop where
  slots : ∀ i p, g'.nodes.Holds i p → g.nodes.Holds i p
  next : g'.nextNode = g.nextNode
  successors : ∀ p node', g'.heap p = some node' →
    ∃ node, g.heap p = some node ∧ ∀ b ∈ node'.successors, b ∈ node.successors

theorem Narrower.refl (g : Graph) : Narrower g g :=
  ⟨fun _ _ h => h, rfl, fun _ node h => ⟨node, h, fun _ hb => hb⟩⟩

theorem Narrower.trans (h : Narrower g g') (h' : Narrower g' g'') : Narrower g g'' := by
  refine ⟨fun i p hp => h.slots i p (h'.slots i p hp), h'.next.trans h.next, fun p node'' hp => ?_⟩
  obtain ⟨node', hnode', hsub'⟩ := h'.successors p node'' hp
  obtain ⟨node, hnode, hsub⟩ := h.successors p node' hnode'
  exact ⟨node, hnode, fun b hb => hsub b (hsub' b hb)⟩

theorem Narrower.edge (h : Narrower g g') (he : g'.Edge a b) : g.Edge a b := by
  obtain ⟨p, node', hp, hnode', hb⟩ := he
  obtain ⟨node, hnode, hsub⟩ := h.successors p node' hnode'
  exact ⟨p, node, h.slots a p hp, hnode, hsub b hb⟩

/-- `x` adds no successor. -/
def Narrows {α : Type} (x : Edit α) : Prop := Within (fun s s' => Narrower s.graph s'.graph) x

theorem narrower_refl (s : Engine) : Narrower s.graph s.graph := .refl _

theorem narrower_trans (s₁ s₂ s₃ : Engine) (h : Narrower s₁.graph s₂.graph)
    (h' : Narrower s₂.graph s₃.graph) : Narrower s₁.graph s₃.graph := h.trans h'

theorem Narrower.update {f : KsiNode → KsiNode}
    (hf : ∀ node, ∀ b ∈ (f node).successors, b ∈ node.successors) : Narrower g (g.update p f) := by
  refine ⟨fun _ _ h => h, rfl, fun q node' hnode' => ?_⟩
  rw [Graph.heap_update] at hnode'
  split at hnode'
  · obtain ⟨node, hnode, rfl⟩ := Option.map_eq_some_iff.mp hnode'
    exact ⟨node, hnode, hf node⟩
  · exact ⟨node', hnode', fun _ hb => hb⟩

theorem update_narrows {f : KsiNode → KsiNode}
    (hf : ∀ node, ∀ b ∈ (f node).successors, b ∈ node.successors) : Narrows (update p f) :=
  have hK := within_compositional (ε := KsiError) (P := (· ≠ .ksiErrorNone)) narrower_refl
    narrower_trans
  hK.bind (hK.read _) fun _ => Within.modify fun _ => .update hf

/-- No part of the kernels adds a successor, but for the one that links nodes. -/
theorem narrows_graphWalks : GraphWalks fun {α} (x : Edit α) => Narrows x where
  toCompositional := within_compositional narrower_refl narrower_trans
  update := fun hf => update_narrows hf.successors
  quiet := by
    intro α x hx s
    refine (hx s).wp fun _ s' hs => ?_
    show Narrower s.graph s'.graph
    rw [hs]
    exact .refl _

theorem impl_ksiEngineRemoveNode_narrows (id : Int) :
    Narrows (impl_ksiEngineRemoveNode id .editing) := by
  refine narrows_graphWalks.ports.impl_ksiEngineRemoveNode (Within.modify fun s => ?_)
    (Within.modify fun s => ?_)
  · exact ⟨fun _ _ h => KsiVec.holds_of_delete h, rfl, fun _ node h => ⟨node, h, fun _ hb => hb⟩⟩
  · exact ⟨fun _ _ h => h, rfl, fun _ node h => ⟨node, h, fun _ hb => hb⟩⟩

theorem ksiEngineDestroyNode_narrows : Narrows (ksiEngineDestroyNode n .editing) := by
  refine narrows_graphWalks.ports.ksiEngineDestroyNode (Within.modify fun s =>
    ⟨fun _ _ h => h, rfl, fun q node h => ?_⟩)
  by_cases hq : q = n
  · subst hq
    simp at h
  · exact ⟨node, by simpa [hq] using h, fun _ hb => hb⟩

/-! ### The invariant -/

/-- No two slots hold one node, no slot an address that has not been given out, and there
is no ring. -/
structure NoRing (g : Graph) : Prop where
  inj : ∀ i j p, g.nodes.Holds i p → g.nodes.Holds j p → i = j
  fresh : ∀ i p, g.nodes.Holds i p → p < g.nextNode
  acyclic : Rel.Acyclic g.Edge

theorem NoRing.narrower (h : NoRing g) (hn : Narrower g g') : NoRing g' := by
  refine ⟨fun i j p hi hj => ?_, fun i p hi => ?_, h.acyclic.mono fun _ _ he => hn.edge he⟩
  · exact h.inj i j p (hn.slots i p hi) (hn.slots j p hj)
  · rw [hn.next]
    exact h.fresh i p (hn.slots i p hi)

theorem Narrows.noRing {α : Type} {x : Edit α} (hx : Narrows x) (h : NoRing s.graph) :
    wp True x s (fun _ s' => NoRing s'.graph) fun _ s' => NoRing s'.graph :=
  wp_mono (hx s) (fun _ _ hn => h.narrower hn) fun _ _ hn => h.narrower hn

/-- A new node under a new address has no successors. -/
theorem NoRing.add (h : NoRing g) (typeFlags : BitVec 32)
    (ports : List PortType × List PortType) : NoRing (g.add typeFlags ports) := by
  have hslots : ∀ i p, (g.add typeFlags ports).nodes.Holds i p →
      (i = (ksiVecInsert g.nodes g.nextNode).1 ∧ p = g.nextNode) ∨ g.nodes.Holds i p :=
    fun i p hi => KsiVec.holds_of_insert hi
  have hold : ∀ i, ¬ g.nodes.Holds i g.nextNode :=
    fun i hi => Nat.lt_irrefl _ (h.fresh i _ hi)
  constructor
  case inj =>
    intro i j p hi hj
    rcases hslots i p hi with ⟨rfl, rfl⟩ | hi'
    · rcases hslots j _ hj with ⟨rfl, -⟩ | hj'
      · rfl
      · exact absurd hj' (hold j)
    · rcases hslots j p hj with ⟨-, rfl⟩ | hj'
      · exact absurd hi' (hold i)
      · exact h.inj i j p hi' hj'
  case fresh =>
    intro i p hi
    rcases hslots i p hi with ⟨-, rfl⟩ | hi'
    · exact Nat.lt_succ_self _
    · exact Nat.lt_succ_of_lt (h.fresh i p hi')
  case acyclic =>
    refine h.acyclic.mono fun a b he => ?_
    obtain ⟨p, node, hp, hnode, hb⟩ := he
    unfold Graph.add at hnode
    by_cases hpn : p = g.nextNode
    · subst hpn
      simp only [Function.update_self, Option.some.injEq] at hnode
      rw [← hnode] at hb
      cases hb
    · simp only [Function.update_of_ne hpn] at hnode
      rcases hslots a p hp with ⟨-, rfl⟩ | hp'
      · exact absurd rfl hpn
      · exact ⟨p, node, hp', hnode, hb⟩

/-- The new edge closes no ring if its end does not lead to its start. -/
theorem NoRing.link (h : NoRing g) {node : KsiNode} {k : Nat} (hsrc : g.nodes.Holds a src)
    (hfree : ¬ ReflTransGen g.Edge k a) : NoRing (g.link src des k node) := by
  have hedge : ∀ x y, (g.link src des k node).Edge x y → g.Edge x y ∨ (x = a ∧ y = k) := by
    rintro x y ⟨p, node', hp, hnode', hy⟩
    rw [Graph.link_nodes] at hp
    unfold Graph.link at hnode'
    split at hnode'
    · exact .inl ⟨p, node', hp, hnode', hy⟩
    · -- the second update touches no successor, the first one those of `src`
      obtain ⟨node₁, hnode₁, hsub⟩ := (Narrower.update (g := g.update src fun m =>
        { m with successors := k :: m.successors }) (p := des) (f := fun m =>
        { m with depNum := m.depNum + 1 }) fun _ _ hb => hb).successors p node' hnode'
      have hy := hsub y hy
      rw [Graph.heap_update] at hnode₁
      split at hnode₁
      · rename_i hps
        subst hps
        obtain ⟨node₀, hnode₀, rfl⟩ := Option.map_eq_some_iff.mp hnode₁
        rcases List.mem_cons.mp hy with rfl | hy
        · exact .inr ⟨h.inj x a p hp hsrc, rfl⟩
        · exact .inl ⟨p, node₀, hp, hnode₀, hy⟩
      · exact .inl ⟨p, node₁, hp, hnode₁, hy⟩
  constructor
  case inj => rw [Graph.link_nodes]; exact h.inj
  case fresh => rw [Graph.link_nodes, Graph.link_nextNode]; exact h.fresh
  case acyclic => exact (h.acyclic.insert hfree).mono hedge

/-! ### Every kernel -/

/-- The call is not a MakeWire that passes all checks and whose destination leads to its
source already. -/
def RingFree (s : Engine) : Call → Prop
  | .makeWire srcId srcPort desId desPort _ => ∀ src des srcNode desNode input,
      Ports s.graph srcId srcPort desId desPort src des srcNode desNode input →
      SameType srcNode srcPort input →
      ¬ ReflTransGen s.graph.Edge desId.toNat srcId.toNat
  | _ => True

/-- **A call keeps the graph free of rings** if it closes none. -/
theorem NoRing.call (h : NoRing s.graph) {c : Call} (hfree : RingFree s c) :
    wp True (c.kernel .editing) s (fun _ s' => NoRing s'.graph) fun _ s' => NoRing s'.graph := by
  have hK := narrows_graphWalks
  cases c with
  | addNode typeFlags =>
      unfold Call.kernel
      rw [wp_bind]
      refine impl_ksiEngineAddNode_wp (fun _ => rfl) typeFlags (fun _ _ => h)
        fun _ ports s' _ _ hs' => ?_
      show NoRing s'.graph
      rw [hs']
      exact h.add typeFlags ports
  | makeWire srcId srcPort desId desPort gain =>
      unfold Call.kernel
      rw [wp_bind]
      refine impl_ksiEngineMakeWire_wp (fun hd => absurd trivial hd) (fun _ => h) ?_
      intro src des srcNode desNode input hports htype
      have hlink : NoRing (s.graph.link src des desId.toNat srcNode) :=
        h.link (KsiVec.check_some hports.srcId).1
          (hfree src des srcNode desNode input hports htype)
      refine ⟨fun s' hs' _ _ => ?_, fun s' hs' => ?_⟩
      · rw [hs']
        exact hlink
      · show NoRing s'.graph
        rw [hs']
        exact hlink.narrower (.update fun _ _ hb => hb)
  | makeBias desId desPort bias =>
      exact Narrows.noRing (hK.bind (hK.ports.impl_ksiEngineMakeBias _ _ _) fun _ => hK.pure none) h
  | detachNodes srcId desId =>
      exact Narrows.noRing
        (hK.bind (hK.ports.impl_ksiEngineDetachNodes _ _) fun _ => hK.pure none) h
  | removeNode id =>
      exact Narrows.noRing (hK.bind (impl_ksiEngineRemoveNode_narrows _) fun _ =>
        hK.bind ksiEngineDestroyNode_narrows fun _ => hK.pure none) h
  | removeWire srcId srcPort desId desPort =>
      exact Narrows.noRing (hK.bind (hK.ports.impl_ksiEngineRemoveWire _ _ _ _) fun _ =>
        hK.pure none) h
  | sendEditingCommand id args =>
      exact Narrows.noRing (hK.bind (hK.ports.impl_ksiEngineSendEditingCommand _ _) fun _ =>
        hK.pure none) h

theorem NoRing.step (h : NoRing s.graph) {c : Call} (hfree : RingFree s c)
    (hs : step s c = some s') : NoRing s'.graph := by
  unfold Dag.step at hs
  obtain ⟨⟨r, t⟩, hr, rfl⟩ := Option.map_eq_some_iff.mp hs
  cases r with
  | ok a => exact of_wp_ok (h.call hfree) hr
  | error err => exact of_wp_error (h.call hfree) hr

/-! ### Runs -/

theorem NoRing.init (framesPerBuffer : Nat) : NoRing (ksiEngineInit framesPerBuffer).graph := by
  have hempty : ∀ i p, ¬ (ksiEngineInit framesPerBuffer).graph.nodes.Holds i p :=
    fun _ _ h => Nat.not_lt_zero _ h.1
  refine ⟨fun i j p hi => absurd hi (hempty i p), fun i p hi => absurd hi (hempty i p), ?_⟩
  refine Rel.Acyclic.of_rank (fun _ => 0) ?_
  rintro a b ⟨p, node, hp, -⟩
  exact absurd hp (hempty a p)

/-- **The graph has no ring** after a run in which no MakeWire closes one. -/
theorem acyclic_of_ringFree {framesPerBuffer : Nat}
    (h : Reaches step RingFree (ksiEngineInit framesPerBuffer) s) : Rel.Acyclic s.graph.Edge :=
  (h.invariant (fun s => NoRing s.graph) (.init framesPerBuffer)
    fun _ _ _ hi hf hs => hi.step hf hs).acyclic

/-! ### A run without rings and a ring -/

/-- The successors of the node with this id, if there is one. -/
def Graph.successors (g : Graph) (id : Nat) : List Nat :=
  match (g.nodes.check id).join.bind g.heap with
  | some node => node.successors
  | none => []

theorem Graph.edge_iff : g.Edge a b ↔ b ∈ g.successors a := by
  unfold Edge successors
  constructor
  · rintro ⟨p, node, hp, hnode, hb⟩
    rw [hp.check]
    simpa [hnode] using hb
  · intro hb
    cases hcheck : g.nodes.check a with
    | none => simp [hcheck] at hb
    | some slot =>
        cases slot with
        | none => simp [hcheck] at hb
        | some p =>
            cases hnode : g.heap p with
            | none => simp [hcheck, hnode] at hb
            | some node =>
                simp only [hcheck, Option.join_some, Option.bind_some, hnode] at hb
                exact ⟨p, node, by simpa using (KsiVec.check_some hcheck).1, hnode, hb⟩

instance : DecidableRel g.Edge := fun _ _ => decidable_of_iff _ Graph.edge_iff.symm

/-- The destination is another node and has no successors. -/
def IntoLeaf (s : Engine) : Call → Prop
  | .makeWire srcId _ desId _ _ => desId.toNat ≠ srcId.toNat ∧ s.graph.successors desId.toNat = []
  | _ => True

instance : DecidableRel IntoLeaf := fun s c =>
  match c with
  | .makeWire srcId _ desId _ _ =>
      inferInstanceAs (Decidable (desId.toNat ≠ srcId.toNat ∧ s.graph.successors desId.toNat = []))
  | .addNode _ | .makeBias .. | .detachNodes .. | .removeNode _ | .removeWire
      .. | .sendEditingCommand .. =>
      isTrue trivial

theorem IntoLeaf.ringFree {c : Call} (h : IntoLeaf s c) : RingFree s c := by
  unfold RingFree
  split
  · rename_i srcId srcPort desId desPort gain
    intro _ _ _ _ _ _ _ hpath
    rcases ReflTransGen.cases_head hpath with heq | ⟨b, hb, -⟩
    · exact h.1 heq
    · rw [Graph.edge_iff, h.2] at hb
      cases hb
  · trivial

/-- Three nodes in a row. -/
def chainRun : List Call :=
  [.addNode 0x10000, .addNode 0x10000, .addNode 0x10010, .makeWire 0 0 1 0 0x3F800000,
    .makeWire 1 0 2 0 0x3F800000]

theorem acyclic_chainRun : ∃ s, Reaches step RingFree (ksiEngineInit 64) s ∧
    s.graph.successors 0 = [1] ∧ s.graph.successors 1 = [2] ∧ Rel.Acyclic s.graph.Edge := by
  have hrun : (runChecked step IntoLeaf (ksiEngineInit 64) chainRun).map
      (fun s => (s.graph.successors 0, s.graph.successors 1)) = some ([1], [2]) := by
    decide +kernel
  obtain ⟨s, hs, hsucc⟩ := Option.map_eq_some_iff.mp hrun
  simp only [Prod.mk.injEq] at hsucc
  have hreach := (reaches_of_runChecked chainRun hs).mono fun _ _ h => IntoLeaf.ringFree h
  exact ⟨s, hreach, hsucc.1, hsucc.2, acyclic_of_ringFree hreach⟩

/-- Two nodes, each wired to the other. -/
def ringRun : List Call :=
  [.addNode 0x10000, .addNode 0x10000, .makeWire 0 0 1 0 0x3F800000, .makeWire 1 0 0 0 0x3F800000]

/-- **A ring can be built**, and every call that builds it succeeds. -/
theorem not_acyclic : ¬ ∀ s, Reaches step Free (ksiEngineInit 64) s → Rel.Acyclic s.graph.Edge := by
  intro h
  have hrun : (run step (ksiEngineInit 64) ringRun).map
      (fun s => (s.graph.successors 0, s.graph.successors 1)) = some ([1], [0]) := by
    decide +kernel
  obtain ⟨s, hs, hsucc⟩ := Option.map_eq_some_iff.mp hrun
  simp only [Prod.mk.injEq] at hsucc
  have h01 : s.graph.Edge 0 1 :=
    Graph.edge_iff.mpr (by rw [hsucc.1]; exact List.mem_singleton_self 1)
  have h10 : s.graph.Edge 1 0 :=
    Graph.edge_iff.mpr (by rw [hsucc.2]; exact List.mem_singleton_self 0)
  exact h s (reaches_of_run ringRun hs) 0 (.tail (.single h01) h10)

end Ksi.Dag

/-
The vector of nodes and the nodes.

Whatever the calls do to the wiring, a node is live exactly while the vector holds it
under the id that it has, and an address is not given out twice.  Nothing but AddNode
and RemoveNode matters to this, so it holds after every run.
-/
import Ksi.Proofs.Dag.Effect
import Ksi.Proofs.Dag.Refusal
import Ksi.Proofs.Dag.Walk
import Ksi.Dag.Commit

namespace Ksi.Dag

open Prog Runs

variable {s s' : Engine} {g g' g'' : Graph} {p q n : NodePtr} {i : Nat} {flag : Flag}

/-- The vector names the live nodes. -/
structure Registered (g : Graph) : Prop where
  tidy : g.nodes.Tidy
  /-- what the vector holds is live, under its own id -/
  slots : SlotsLive g
  /-- what is live is in the vector, under its id -/
  named : ∀ p node, g.heap p = some node → g.nodes.Holds node.id p
  fresh : ∀ p node, g.heap p = some node → p < g.nextNode

theorem Registered.liveNamed (h : Registered g) : LiveNamed g := fun p node hp =>
  (h.named p node hp).2

/-- The same nodes have the same ids and plugins. -/
structure SameIds (g g' : Graph) : Prop where
  nodes : g'.nodes = g.nodes
  nextNode : g'.nextNode = g.nextNode
  ids : ∀ q, (g'.heap q).map (fun m => (m.id, ksiNodeTypeInlineId m.type)) =
    (g.heap q).map fun m => (m.id, ksiNodeTypeInlineId m.type)

theorem SameIds.refl (g : Graph) : SameIds g g := ⟨rfl, rfl, fun _ => rfl⟩

theorem SameIds.symm (h : SameIds g g') : SameIds g' g :=
  ⟨h.nodes.symm, h.nextNode.symm, fun q => (h.ids q).symm⟩

theorem SameIds.trans (h : SameIds g g') (h' : SameIds g' g'') : SameIds g g'' :=
  ⟨h'.nodes.trans h.nodes, h'.nextNode.trans h.nextNode, fun q => (h'.ids q).trans (h.ids q)⟩

theorem SameIds.heap (h : SameIds g g') {m' : KsiNode} (hq : g'.heap q = some m') :
    ∃ m, g.heap q = some m ∧ m.id = m'.id ∧
      ksiNodeTypeInlineId m.type = ksiNodeTypeInlineId m'.type := by
  have hids := h.ids q
  rw [hq, Option.map_some] at hids
  obtain ⟨m, hm, heq⟩ := Option.map_eq_some_iff.mp hids.symm
  exact ⟨m, hm, congrArg Prod.fst heq, congrArg Prod.snd heq⟩

theorem SameIds.update {f : KsiNode → KsiNode} (hid : ∀ node, (f node).id = node.id)
    (hinline : ∀ node, ksiNodeTypeInlineId (f node).type = ksiNodeTypeInlineId node.type) :
    SameIds g (g.update p f) := by
  refine ⟨rfl, rfl, fun q => ?_⟩
  rw [Graph.heap_update]
  split
  · rw [Option.map_map]
    refine Option.map_congr fun node _ => ?_
    rw [Function.comp_apply, hid, hinline]
  · rfl

theorem Registered.congr (h : Registered g) (hsame : SameIds g g') : Registered g' := by
  constructor
  case tidy => rw [hsame.nodes]; exact h.tidy
  case slots =>
    intro i q hq
    rw [hsame.nodes] at hq
    obtain ⟨m, hm, hid⟩ := h.slots i q hq
    obtain ⟨m', hm', hid', -⟩ := hsame.symm.heap hm
    exact ⟨m', hm', hid'.trans hid⟩
  case named =>
    intro q m' hq
    obtain ⟨m, hm, hid, -⟩ := hsame.heap hq
    rw [hsame.nodes, ← hid]
    exact h.named q m hm
  case fresh =>
    intro q m' hq
    obtain ⟨m, hm, -⟩ := hsame.heap hq
    rw [hsame.nextNode]
    exact h.fresh q m hm

theorem Registered.empty : Registered Version.empty.graph where
  tidy := ⟨fun _ hi => absurd hi List.not_mem_nil, .nil⟩
  slots := fun _ _ h => absurd h.1 (Nat.not_lt_zero _)
  named := fun _ _ h => by cases h
  fresh := fun _ _ h => by cases h

/-! ### AddNode and RemoveNode -/

/-- The address of a new node and its id are new. -/
theorem Registered.add (h : Registered g) (typeFlags : BitVec 32)
    (ports : List PortType × List PortType) : Registered (g.add typeFlags ports) := by
  generalize hid : (ksiVecInsert g.nodes g.nextNode).1 = id
  have hheap : ∀ q, (g.add typeFlags ports).heap q =
      if q = g.nextNode then some (freshNode typeFlags ports id) else g.heap q := by
    intro q
    unfold Graph.add
    rw [hid]
    by_cases hq : q = g.nextNode
    · simp [hq]
    · simp [hq]
  have hholds : ∀ i q, (g.add typeFlags ports).nodes.Holds i q ↔
      (i = id ∧ q = g.nextNode) ∨ (i ≠ id ∧ g.nodes.Holds i q) := by
    intro i q
    rw [← hid]
    exact KsiVec.holds_insert h.tidy g.nextNode
  have hnew : ∀ q m, g.heap q = some m → q ≠ g.nextNode ∧ m.id ≠ id := by
    intro q m hq
    refine ⟨Nat.ne_of_lt (h.fresh q m hq), fun heq => ?_⟩
    have hused := h.named q m hq
    rw [heq, ← hid] at hused
    exact KsiVec.not_holds_insert h.tidy g.nextNode hused
  have hfreshId : (freshNode typeFlags ports id).id = id := rfl
  constructor
  case tidy => exact h.tidy.insert g.nextNode
  case slots =>
    intro i q hq
    rcases (hholds i q).mp hq with ⟨rfl, rfl⟩ | ⟨hne, hq⟩
    · exact ⟨_, by rw [hheap, if_pos rfl], hfreshId⟩
    · obtain ⟨m, hm, hmid⟩ := h.slots i q hq
      exact ⟨m, by rw [hheap, if_neg (hnew q m hm).1, hm], hmid⟩
  case named =>
    intro q m hq
    rw [hheap] at hq
    split at hq
    · rename_i heq
      cases hq
      exact (hholds _ q).mpr (.inl ⟨rfl, heq⟩)
    · exact (hholds _ q).mpr (.inr ⟨(hnew q m hq).2, h.named q m hq⟩)
  case fresh =>
    intro q m hq
    show q < g.nextNode + 1
    rw [hheap] at hq
    split at hq
    · rename_i heq
      rw [heq]
      exact Nat.lt_succ_self _
    · exact Nat.lt_succ_of_lt (h.fresh q m hq)

/-- A node goes with its slot. -/
theorem Registered.remove (h : Registered g) (hn : g.nodes.Holds i n)
    (hsame : SameIds { g with nodes := ksiVecDelete g.nodes i } g') :
    Registered { g' with heap := Function.update g'.heap n none } := by
  have hheap : ∀ q m', Function.update g'.heap n none q = some m' ↔
    q ≠ n ∧ g'.heap q = some m' := by
    intro q m'
    by_cases hq : q = n <;> simp [hq]
  have hvec : ∀ j q, g'.nodes.Holds j q ↔ j ≠ i ∧ g.nodes.Holds j q := by
    intro j q
    rw [hsame.nodes]
    exact KsiVec.holds_delete hn
  have hids : ∀ q m, g.heap q = some m → m.id = i → q = n := by
    rintro q m hm rfl
    exact (h.named q m hm).unique hn
  obtain ⟨node, hnode, hnid⟩ := h.slots i n hn
  constructor
  case tidy =>
    show g'.nodes.Tidy
    rw [hsame.nodes]
    exact h.tidy.delete hn
  case slots =>
    intro j q hq
    obtain ⟨hne, hold⟩ := (hvec j q).mp hq
    obtain ⟨m, hm, hid⟩ := h.slots j q hold
    obtain ⟨m', hm', hid', -⟩ := hsame.symm.heap hm
    refine ⟨m', (hheap q m').mpr ⟨?_, hm'⟩, hid'.trans hid⟩
    rintro rfl
    rw [hnode] at hm
    cases hm
    exact hne (hid.symm.trans hnid)
  case named =>
    intro q m' hq
    obtain ⟨hqn, hm'⟩ := (hheap q m').mp hq
    obtain ⟨m, hm, hid, -⟩ := hsame.heap hm'
    refine (hvec _ q).mpr ⟨fun heq => hqn (hids q m hm (hid.trans heq)), ?_⟩
    rw [← hid]
    exact h.named q m hm
  case fresh =>
    intro q m' hq
    obtain ⟨-, hm'⟩ := (hheap q m').mp hq
    obtain ⟨m, hm, -⟩ := hsame.heap hm'
    show q < g'.nextNode
    rw [hsame.nextNode]
    exact h.fresh q m hm

/-! ### The calls -/

/-- The ids stay as they are. -/
def KeepsIds {α : Type} (x : Edit α) : Prop := Within (fun s s' => SameIds s.graph s'.graph) x

theorem keepsIds_graphWalks : GraphWalks fun {α} (x : Edit α) => KeepsIds x where
  toCompositional := within_compositional (fun _ => .refl _) fun _ _ _ h h' => h.trans h'
  update := by
    intro p f hf s
    rw [wp_update]
    exact ⟨fun _ => trivial, fun _ _ => .update hf.id hf.inline⟩
  quiet := by
    intro α x hx s
    refine (hx s).wp fun _ s' hs => ?_
    show SameIds s.graph s'.graph
    rw [hs]
    exact .refl _

theorem KeepsIds.registered {α : Type} {x : Edit α} (hx : KeepsIds x) (h : Registered s.graph) :
    wp True x s (fun _ s' => Registered s'.graph) fun _ s' => Registered s'.graph :=
  wp_mono (hx s) (fun _ _ hsame => h.congr hsame) fun _ _ hsame => h.congr hsame

theorem link_keepsIds {src des : NodePtr} {k : Nat} : KeepsIds (link src des k) := by
  have hK := keepsIds_graphWalks
  have hstore : ∀ p f, (∀ node : KsiNode, (f node).id = node.id) →
      (∀ node : KsiNode, ksiNodeTypeInlineId (f node).type = ksiNodeTypeInlineId node.type) →
      KeepsIds (update p f) := by
    intro p f hid hinline s
    rw [wp_update]
    exact ⟨fun _ => trivial, fun _ _ => .update hid hinline⟩
  exact hK.bind (hK.read _) fun _ => hK.ite (hK.pure ()) (hK.bind
    (hstore src _ (fun _ => rfl) fun _ => rfl) fun _ => hstore des _ (fun _ => rfl) fun _ => rfl)

/-- The rest of RemoveNode returns the node, and no error. -/
theorem removeRest_returns (s : Engine) :
    wp True (removeRest flag n) s (fun ret _ => ret = n) fun _ _ => False := by
  have hsucc : ∀ loc, (releaseSuccessor n flag loc).Unfailing := fun _ =>
    (Unfailing.read _).bind fun _ => update_unfailing.bind fun _ => deleteSrcs_unfailing
  have hprec : ∀ id p, (releasePrec id p).Unfailing := fun _ _ =>
    update_unfailing.bind fun _ => update_unfailing
  refine load_unfailing.bind_wp s fun node s => (Unfailing.forEach hsucc _).bind_wp s fun _ s =>
    load_unfailing.bind_wp s fun node s => (regPrecs_unfailing _ _).bind_wp s fun precs s =>
      (Unfailing.forEach (hprec node.id) _).bind_wp s fun _ s => load_unfailing.bind_wp s fun _ s =>
        ((Unfailing.modify _).when).bind_wp s fun _ s => ?_
  exact rfl

theorem removeNode_registered (h : Registered s.graph) (id : Int) :
    wp True ((Call.removeNode id).kernel flag) s (fun _ s' => Registered s'.graph)
      fun _ s' => Registered s'.graph := by
  unfold Call.kernel
  rw [wp_bind, impl_ksiEngineRemoveNode_eq, wp_bind, wp_checkInitialized]
  refine ⟨fun _ => ?_, fun _ => h⟩
  rw [wp_bind, wp_checkVec]
  refine ⟨fun _ => trivial, fun _ => h, fun n hcheck => ?_⟩
  have hn := (KsiVec.check_some hcheck).1
  rw [wp_bind, wp_modify]
  refine wp_mono (wp_and (keepsIds_graphWalks.ports.removeRest
    (Within.modify fun _ => ⟨rfl, rfl, fun _ => rfl⟩) _) (removeRest_returns _))
      (fun ret s' hs' => ?_)
    fun _ _ hE => hE.2.elim
  obtain ⟨hsame, rfl⟩ := hs'
  rw [wp_bind]
  refine ksiEngineDestroyNode_wp (absurd trivial) (absurd trivial) fun s'' hs'' => ?_
  show Registered s''.graph
  rw [hs'']
  exact h.remove hn hsame

/-- **A call keeps the vector and the nodes together.** -/
theorem Registered.call (h : Registered s.graph) (c : Call) :
    wp True (c.kernel flag) s (fun _ s' => Registered s'.graph)
      fun _ s' => Registered s'.graph := by
  have hK := keepsIds_graphWalks
  cases c with
  | addNode typeFlags =>
      unfold Call.kernel
      rw [wp_bind]
      refine impl_ksiEngineAddNode_wp (absurd trivial) typeFlags (fun _ _ => h)
        fun _ ports s' _ _ hs' => ?_
      show Registered s'.graph
      rw [hs']
      exact h.add typeFlags ports
  | makeWire srcId srcPort desId desPort gain =>
      exact KeepsIds.registered (hK.bind (hK.ports.impl_ksiEngineMakeWire fun _ _ => link_keepsIds)
        fun _ => hK.pure none) h
  | makeBias desId desPort bias =>
      exact KeepsIds.registered (hK.bind (hK.ports.impl_ksiEngineMakeBias _ _ _) fun _ =>
        hK.pure none) h
  | detachNodes srcId desId =>
      exact KeepsIds.registered (hK.bind (hK.ports.impl_ksiEngineDetachNodes _ _) fun _ =>
        hK.pure none) h
  | removeNode id => exact removeNode_registered h id
  | removeWire srcId srcPort desId desPort =>
      exact KeepsIds.registered (hK.bind (hK.ports.impl_ksiEngineRemoveWire _ _ _ _) fun _ =>
        hK.pure none) h
  | sendEditingCommand id args =>
      exact KeepsIds.registered (hK.bind (hK.ports.impl_ksiEngineSendEditingCommand _ _) fun _ =>
        hK.pure none) h

/-- What a step leads to, by what the kernel does. -/
theorem step_wp {d : Prop} {Q : Option Nat → Engine → Prop} {E : KsiError → Engine → Prop}
    {c : Call} {P : Engine → Prop} (h : wp d (c.kernel .editing) s Q E) (hs : step s c = some s')
    (hQ : ∀ a s', Q a s' → P s') (hE : ∀ err s', E err s' → P s') : P s' := by
  unfold step at hs
  obtain ⟨⟨r, t⟩, hr, rfl⟩ := Option.map_eq_some_iff.mp hs
  cases r with
  | ok a => exact hQ a _ (of_wp_ok h hr)
  | error err => exact hE err _ (of_wp_error h hr)

/-- **The vector and the nodes are together after every run.** -/
theorem registered_of_reaches {framesPerBuffer : Nat}
    (h : Reaches step Free (ksiEngineInit framesPerBuffer) s) : Registered s.graph :=
  h.invariant (fun s => Registered s.graph) Registered.empty fun _ c _ hs _ hstep =>
    step_wp (hs.call c) hstep (fun _ _ h => h) fun _ _ h => h

end Ksi.Dag

/-
Which commands stay inside the graph.

CHECK_VEC and the checks of the ports compare with the upper bound only, so a negative id
or port is used as an index.  `InBounds` says of a command, from the state before it, that
it meets no negative one where the code would use it; and, as a refresh reads the output
port that the one wire left on a port comes from, that this wire comes from an output port
of a live node.  A kernel in a graph that a client can reach gets through, without a read
outside of an array, exactly where this is so.

Every check of a kernel adds a conjunct to the condition.  `Bounded` is a kernel with its
condition, and has a rule for each of the checks.
-/
import Ksi.Proofs.Dag.Registered
import Ksi.Proofs.Dag.Resize
import Ksi.Dag.Command

namespace Ksi.Dag

open Prog Runs

variable {d : Prop} {s : Engine} {g g' : Graph} {n p q src des : NodePtr} {node : KsiNode}
  {i : Nat} {id srcId srcPort desId desPort : Int}

/-! ### Commands that stay inside -/

/-- The errors for an id or a port that does not exist. -/
def KsiError.notFound : KsiError → Bool
  | .ksiErrorIdNotFound | .ksiErrorSrcIdNotFound | .ksiErrorDesIdNotFound
  | .ksiErrorTimeSeqIdNotFound | .ksiErrorResIdNotFound => true
  | .ksiErrorPortNotFound | .ksiErrorSrcPortNotFound | .ksiErrorDesPortNotFound => true
  | _ => false

/-- The slots that RemoveNode reads, after it has deleted its own: those of the successors,
and those of the sources. -/
def RemovedSlots (g : Graph) (id : Int) : Prop :=
  ∀ n node, g.nodes.check id = some (some n) → g.heap n = some node →
    (∀ k ∈ node.successors, ∃ p, (ksiVecDelete g.nodes id.toNat).Holds k p) ∧
    ∀ input ∈ node.inputs, ∀ e ∈ input.entries, ∀ p m, e.src = some p → g.heap p = some m →
      (ksiVecDelete g.nodes id.toNat).Holds m.id p

/-- The command returns, after reads inside of the vectors and of the arrays of ports only.
Where it reports an id or a port it has changed nothing. -/
def StaysInside (s : Engine) (c : Command) : Prop :=
  (∃ r s', c.kernel s = some (r, s') ∧ ∀ err, r = .error err → err.notFound = true → s' = s) ∧
    ∀ id, c = .call (.removeNode id) → s.playing ≠ -2 → RemovedSlots s.graph id

/-- The id is not negative, and `P` holds of the node that it names. -/
def CheckedId (g : Graph) (id : Int) (P : NodePtr → KsiNode → Prop) : Prop :=
  0 ≤ id ∧ ∀ n node, g.nodes.check id = some (some n) → g.heap n = some node → P n node

/-- A port number below the number of inputs is not negative, and `P` holds of the port. -/
def CheckedPort (node : KsiNode) (port : Int) (P : InputPort → Prop) : Prop :=
  port < node.inputs.length → 0 ≤ port ∧ ∀ input, nth node.inputs port = some input → P input

/-- The vector `v` has a successor `k`, and its ports can be refreshed without the entries
from `n`. -/
def Releasable (g : Graph) (v : KsiVec NodePtr) (n : NodePtr) (k : Nat) : Prop :=
  ∃ p m, v.Holds k p ∧ g.heap p = some m ∧ ∀ input ∈ m.inputs, (input.without n).Followable g

/-- RemoveNode gets through its loops over the successors and over the sources of `n`. -/
structure Removable (g : Graph) (id : Int) (n : NodePtr) (node : KsiNode) : Prop where
  successors : ∀ k ∈ node.successors, Releasable g (ksiVecDelete g.nodes id.toNat) n k
  sources : ∀ input ∈ node.inputs, ∀ e ∈ input.entries, ∀ p, e.src = some p →
    p ≠ n ∧ g.heap p ≠ none

/-- The condition under which a command stays inside. -/
def InBounds (s : Engine) : Command → Prop
  | .call (.addNode _) => True
  | .call (.makeWire srcId srcPort desId desPort _) => s.playing ≠ -2 →
      CheckedId s.graph srcId fun _ srcNode => CheckedId s.graph desId fun _ desNode =>
        srcPort < srcNode.outputs.length → CheckedPort desNode desPort fun _ => 0 ≤ srcPort
  | .call (.makeBias desId desPort _) => s.playing ≠ -2 →
      CheckedId s.graph desId fun _ desNode => CheckedPort desNode desPort fun input =>
        input.type.isEvent = false → BiasSearchable s.graph input.entries
  | .call (.detachNodes srcId desId) => s.playing ≠ -2 →
      CheckedId s.graph srcId fun src _ => CheckedId s.graph desId fun _ desNode =>
        ∀ input ∈ desNode.inputs, (input.without src).Followable s.graph
  | .call (.removeNode id) => s.playing ≠ -2 → CheckedId s.graph id (Removable s.graph id)
  | .call (.removeWire srcId srcPort desId desPort) => s.playing ≠ -2 →
      CheckedId s.graph srcId fun src srcNode => CheckedId s.graph desId fun _ desNode =>
        srcPort < srcNode.outputs.length → CheckedPort desNode desPort fun input =>
          input.entries.any (·.isFrom src srcPort) = true →
            (input.unwired src srcPort).Followable s.graph
  | .call (.sendEditingCommand id args) => s.playing ≠ -2 →
      CheckedId s.graph id fun _ node => ksiNodeTypeInlineId node.type = 3 →
        ∀ rest mid, args.toList = 'm' :: rest → scanInt (String.ofList rest) = some mid → 0 ≤ mid
  | .getInputType id port => CheckedId s.graph id fun _ node => CheckedPort node port fun _ => True
  | .unloadTimeSeq id => s.playing ≠ -2 → 0 ≤ id

/-! ### Kernels with a condition -/

/-- With `B` the rest `x` of a kernel gets through, and if it gets through `B` holds.  The
kernel began in the state `s₀`. -/
def Bounded {α : Type} (d : Prop) (s₀ : Engine) (B : Prop) (x : Edit α) (s : Engine) : Prop :=
  (¬ d → B) → wp d x s (fun _ _ => B) fun err s' => B ∧ (err.notFound = true → s' = s₀)

namespace Bounded

variable {α β : Type} {s₀ : Engine} {B B' : Prop} {x : Edit α} {err : KsiError}

theorem congr (h : Bounded d s₀ B x s) (hB : B ↔ B') : Bounded d s₀ B' x s := by
  intro hd
  exact wp_mono (h fun h' => hB.mpr (hd h')) (fun _ _ h' => hB.mp h') fun _ _ h' =>
    ⟨hB.mp h'.1, h'.2⟩

/-- From here on no error reports an id or a port. -/
theorem of_wp (h : (¬ d → B) → wp d x s (fun _ _ => B) fun err _ => B ∧ err.notFound = false) :
    Bounded d s₀ B x s := by
  intro hd
  refine wp_mono (h hd) (fun _ _ h' => h') fun err _ h' => ⟨h'.1, fun hfound => ?_⟩
  rw [h'.2] at hfound
  cases hfound

theorem map (h : Bounded d s₀ B x s) (f : α → β) :
    Bounded d s₀ B (x >>= fun a => pure (f a)) s := by
  intro hd
  rw [wp_bind]
  exact h hd

theorem checkInitialized {x : Edit α} (h : s.playing ≠ -2 → Bounded d s B x s) :
    Bounded d s (s.playing ≠ -2 → B) (Dag.checkInitialized >>= fun _ => x) s := by
  intro hd
  rw [wp_bind, wp_checkInitialized]
  refine ⟨fun hplaying => ?_, fun hplaying => ⟨fun hno => absurd hplaying hno, fun _ => rfl⟩⟩
  exact wp_mono (h hplaying fun h' => hd h' hplaying) (fun _ _ hB _ => hB) fun _ _ hB =>
    ⟨fun _ => hB.1, hB.2⟩

theorem checkVec {P : NodePtr → KsiNode → Prop} {f : NodePtr → Edit α} (hslots : SlotsLive s.graph)
    (h : ∀ n node, s.graph.nodes.check id = some (some n) → s.graph.heap n = some node →
      Bounded d s (P n node) (f n) s) :
    Bounded d s (CheckedId s.graph id P) (Dag.checkVec id err >>= f) s := by
  intro hd
  rw [wp_bind, wp_checkVec]
  refine ⟨fun hnone => by_contra fun h' => KsiVec.check_ne_none (hd h').1 hnone, fun hnone => ?_,
    fun n hn => ?_⟩
  · refine ⟨⟨KsiVec.check_nonneg hnone, fun n _ hn => ?_⟩, fun _ => rfl⟩
    rw [hnone] at hn
    cases hn
  · obtain ⟨hholds, h0⟩ := KsiVec.check_some hn
    obtain ⟨node, hnode, -⟩ := hslots _ _ hholds
    have hP : P n node → CheckedId s.graph id P := by
      refine fun hP => ⟨h0, fun n' node' hn' hnode' => ?_⟩
      obtain rfl : n = n' := by simpa [hn] using hn'
      obtain rfl : node = node' := by simpa [hnode] using hnode'
      exact hP
    exact wp_mono (h n node hn hnode fun h' => (hd h').2 n node hn hnode) (fun _ _ => hP)
      fun _ _ hE => ⟨hP hE.1, hE.2⟩

theorem load {f : KsiNode → Edit α} (hn : s.graph.heap n = some node)
    (h : Bounded d s₀ B (f node) s) : Bounded d s₀ B (Dag.load n >>= f) s := by
  intro hd
  rw [wp_bind, wp_load]
  refine ⟨fun hnone => absurd hn (by simp [hnone]), fun node' hnode' => ?_⟩
  obtain rfl : node = node' := Option.some.inj (hn.symm.trans hnode')
  exact h hd

theorem require {c : Prop} [Decidable c] {x : Edit α} (h : c → Bounded d s B x s) :
    Bounded d s (c → B) (Prog.require c err >>= fun _ => x) s := by
  intro hd
  rw [wp_bind, wp_require]
  refine ⟨fun hc => ?_, fun hc => ⟨fun hc' => absurd hc' hc, fun _ => rfl⟩⟩
  exact wp_mono (h hc fun h' => hd h' hc) (fun _ _ hB _ => hB) fun _ _ hB => ⟨fun _ => hB.1, hB.2⟩

theorem checkDesPort {P : InputPort → Prop} {f : PortType → Edit α}
    (hdes : s.graph.heap des = some node)
    (h : ∀ input, nth node.inputs desPort = some input → Bounded d s (P input) (f input.type) s) :
    Bounded d s (CheckedPort node desPort P) (Dag.checkDesPort des desPort err >>= f) s := by
  intro hd
  rw [wp_bind, wp_checkDesPort]
  refine ⟨fun hnone => absurd hdes (by simp [hnone]), fun node' hnode' => ?_⟩
  obtain rfl : node = node' := Option.some.inj (hdes.symm.trans hnode')
  refine ⟨fun hge => ⟨fun hlt => absurd hlt hge, fun _ => rfl⟩, fun hlt => ⟨fun hnone =>
    by_contra fun h' => nth_ne_none (hd h' hlt).1 hlt hnone, fun input hinput => ?_⟩⟩
  have hP : P input → CheckedPort node desPort P := by
    refine fun hP _ => ⟨(nth_some hinput).2.1, fun input' hinput' => ?_⟩
    obtain rfl : input = input' := Option.some.inj (hinput.symm.trans hinput')
    exact hP
  exact wp_mono (h input hinput fun h' => (hd h' hlt).2 input hinput) (fun _ _ => hP)
    fun _ _ hE => ⟨hP hE.1, hE.2⟩

end Bounded

/-! ### Wires and biases -/

theorem makeWire_bounded (h : Registered s.graph) (gain : KsiData) :
    Bounded d s (InBounds s (.call (.makeWire srcId srcPort desId desPort gain)))
      (impl_ksiEngineMakeWire srcId srcPort desId desPort gain .editing) s := by
  rw [impl_ksiEngineMakeWire_eq]
  refine .checkInitialized fun _ => .checkVec h.slots fun src srcNode hsrcId hsrc =>
    .checkVec h.slots
    fun des desNode _ hdes =>
      .load hsrc (.require fun hport => .checkDesPort hdes fun input hinput =>
      .of_wp fun hd => ?_)
  rw [wp_bind, wp_read]
  refine ⟨fun hnone => by_contra fun h' => nth_ne_none (hd h') hport hnone, fun type htype => ?_⟩
  have h0 := (nth_some htype).2.1
  rw [wp_bind, wp_require]
  refine ⟨fun _ => ?_, fun _ => ⟨h0, rfl⟩⟩
  refine wireRest_wp hsrc hdes (fun _ => h.liveNamed src srcNode hsrc) (by simp [htype])
    (nth_some hinput).1 (fun _ _ _ _ => ⟨h0, rfl⟩) fun _ _ => h0

theorem makeBias_bounded (h : Registered s.graph) (bias : KsiData) :
    Bounded d s (InBounds s (.call (.makeBias desId desPort bias)))
      (impl_ksiEngineMakeBias desId desPort bias .editing) s := by
  rw [impl_ksiEngineMakeBias_eq]
  have hsignal : ∀ input : InputPort,
    (¬ input.type.isEvent = true → BiasSearchable s.graph input.entries) ↔
      (input.type.isEvent = false → BiasSearchable s.graph input.entries) := by simp
  refine .checkInitialized fun _ => .checkVec h.slots fun des desNode _ hdes => .checkDesPort hdes
    fun input hinput => .congr (.require fun _ => .of_wp fun hd => ?_) (hsignal input)
  exact biasRest_wp hdes (nth_some hinput).1 (fun _ => h.liveNamed) hd fun hsearched _ _ =>
    hsearched

theorem detachNodes_bounded (h : Registered s.graph) :
    Bounded d s (InBounds s (.call (.detachNodes srcId desId)))
      (impl_ksiEngineDetachNodes srcId desId .editing) s := by
  rw [impl_ksiEngineDetachNodes_eq]
  refine .checkInitialized fun _ => .checkVec h.slots fun src srcNode _ hsrc => .checkVec h.slots
    fun des desNode _ hdes => .of_wp fun hd => ?_
  exact detachRest_wp (fun _ => rfl) hsrc hdes hd fun hfollow _ _ => hfollow

theorem removeWire_bounded (h : Registered s.graph) :
    Bounded d s (InBounds s (.call (.removeWire srcId srcPort desId desPort)))
      (impl_ksiEngineRemoveWire srcId srcPort desId desPort .editing) s := by
  rw [impl_ksiEngineRemoveWire_eq]
  refine .checkInitialized fun _ => .checkVec h.slots fun src srcNode hsrcId hsrc =>
    .checkVec h.slots
    fun des desNode _ hdes => .load hsrc (.require fun _ => .checkDesPort hdes fun input hinput =>
      .of_wp fun hd => ?_)
  refine unwireRest_wp (fun _ => rfl) hsrc hdes (nth_some hinput).1
    (fun _ => h.liveNamed src srcNode hsrc) hd (fun hno => ⟨fun hany hsignal => ?_, rfl⟩)
    fun _ _ hfollow _ _ _ => hfollow
  -- on an event port nothing is refreshed
  rcases hno with hevent | habsent
  · rw [show (input.unwired src srcPort).type = input.type from rfl, hevent] at hsignal
    cases hsignal
  · rw [habsent] at hany
    cases hany

/-! ### RemoveNode -/

/-- What RemoveNode does to the nodes, once the slot of `n` is empty: the ids and the output
ports stay, `n` stays, and the others may have lost their entries from `n`. -/
structure Released (n : NodePtr) (g g' : Graph) : Prop where
  ids : SameIds g g'
  outputs : ∀ q, (g'.heap q).map (·.outputs) = (g.heap q).map (·.outputs)
  removed : g'.heap n = g.heap n
  inputs : ∀ q m', g'.heap q = some m' → ∃ m, g.heap q = some m ∧
    (m'.inputs = m.inputs ∨ m'.inputs = (m.dropSrc n).inputs)

theorem Released.refl (n : NodePtr) (g : Graph) : Released n g g :=
  ⟨.refl g, fun _ => rfl, rfl, fun _ m hm => ⟨m, hm, .inl rfl⟩⟩

/-- A node other than `n` is counted down and loses its entries. -/
theorem Released.release (h : Released n g g') (hp : p ≠ n) :
    Released n g (g'.update p fun m => { m.dropSrc n with depNum := m.depNum - 1 }) := by
  refine ⟨h.ids.trans (.update (fun _ => rfl) fun _ => rfl), fun q => ?_, ?_, fun q m' hq => ?_⟩
  · refine (Graph.update_outputs ?_ q).trans (h.outputs q)
    exact fun _ => rfl
  · rw [Graph.heap_update, if_neg hp.symm]
    exact h.removed
  · rw [Graph.heap_update] at hq
    split at hq
    · obtain ⟨m₁, hm₁, rfl⟩ := Option.map_eq_some_iff.mp hq
      obtain ⟨m, hm, hin⟩ := h.inputs q m₁ hm₁
      refine ⟨m, hm, .inr ?_⟩
      show m₁.inputs.map (·.without n) = m.inputs.map (·.without n)
      rcases hin with hin | hin
      · rw [hin]
      · rw [hin]
        simp [KsiNode.dropSrc, InputPort.without_without, Function.comp_def]
    · exact h.inputs q m' hq

/-- Whether the ports of a node can be refreshed without the entries from `n` is the same
before and after it has lost them. -/
theorem Released.followable (h : Released n g g') {m m' : KsiNode} (hm : g.heap p = some m)
    (hm' : g'.heap p = some m') :
    (∀ input ∈ m'.inputs, (input.without n).Followable g') ↔
      ∀ input ∈ m.inputs, (input.without n).Followable g := by
  obtain ⟨m₁, hm₁, hin⟩ := h.inputs p m' hm'
  obtain rfl : m = m₁ := Option.some.inj (hm.symm.trans hm₁)
  simp only [InputPort.followable_congr h.outputs]
  rcases hin with hin | hin
  · rw [hin]
  · rw [hin]
    simp [KsiNode.dropSrc, InputPort.without_without]

/-- One step of the loop over the successors. -/
theorem releaseSuccessor_released {E : KsiError → Engine → Prop} {k : Nat}
    (hs : Released n g s.graph) (hslot : ∃ p m, g.nodes.Holds k p ∧ g.heap p = some m ∧ p ≠ n)
    (h : ¬ d → Releasable g g.nodes n k) :
    wp d (releaseSuccessor n .editing k) s
      (fun _ s' => Released n g s'.graph ∧ Releasable g g.nodes n k) E := by
  obtain ⟨p, m, hholds, hm, hpn⟩ := hslot
  have hdata : s.graph.nodes.data k = some p := by
    rw [hs.ids.nodes]
    exact hholds.2
  obtain ⟨m', hm', -⟩ := hs.ids.symm.heap hm
  unfold releaseSuccessor
  rw [wp_bind, wp_read]
  refine ⟨fun hnone => absurd hdata (by simp [hnone]), fun p' hp' => ?_⟩
  obtain rfl : p = p' := Option.some.inj (hdata.symm.trans hp')
  rw [wp_bind, wp_update]
  refine ⟨fun hnone => absurd hm' (by simp [hnone]), fun _ _ => ?_⟩
  have hcongr : ∀ input : InputPort, input.Followable (s.graph.update p fun node =>
      { node with depNum := node.depNum - 1 }) ↔ input.Followable s.graph :=
    fun input => InputPort.followable_congr (Graph.update_outputs fun _ => rfl)
  refine wp_mono (deleteSrcs_wp (fun _ => rfl) (heap_of_eq hm' rfl) fun h' input hinput => ?_) ?_
    fun _ _ hE => hE
  · obtain ⟨p', m₁, hholds', hm₁, hfollow⟩ := h h'
    obtain rfl : p = p' := hholds.unique hholds'
    exact (hcongr _).mpr ((hs.followable hm₁ hm').mpr hfollow input hinput)
  · rintro _ s' ⟨hs', hfollow⟩
    refine ⟨?_, p, m, hholds, hm, (hs.followable hm hm').mp fun input hinput =>
      (hcongr _).mp (hfollow input hinput)⟩
    rw [hs']
    show Released n g ((s.graph.update p _).update p _)
    rw [Graph.update_update]
    exact hs.release hpn

/-- The first loop gets through if all successors can be released. -/
theorem releaseSuccessors_released {E : KsiError → Engine → Prop} {successors : List Nat}
    (hs : Released n g s.graph)
    (hslots : ∀ k ∈ successors, ∃ p m, g.nodes.Holds k p ∧ g.heap p = some m ∧ p ≠ n)
    (h : ¬ d → ∀ k ∈ successors, Releasable g g.nodes n k) :
    wp d (forEach successors (releaseSuccessor n .editing)) s (fun _ s' => Released n g s'.graph ∧
      ∀ k ∈ successors, Releasable g g.nodes n k) E := by
  have hloop := wp_forEach (d := d) (E := E) (f := releaseSuccessor n .editing)
    (fun rest s' => ∃ done, successors = done ++ rest ∧ Released n g s'.graph ∧
      ∀ k ∈ done, Releasable g g.nodes n k) ?_ successors (s := s) ⟨[], rfl, hs, nofun⟩
  · refine wp_mono hloop ?_ fun _ _ hE => hE
    rintro _ s' ⟨done, hdone, hs', hall⟩
    rw [List.append_nil] at hdone
    exact ⟨hs', hdone ▸ hall⟩
  · rintro k rest s' ⟨done, hdone, hs', hall⟩
    have hk : k ∈ successors := by simp [hdone]
    refine wp_mono (releaseSuccessor_released hs' (hslots k hk) fun h' => h h' k hk) ?_
      fun _ _ hE => hE
    rintro _ s'' ⟨hs'', hthis⟩
    refine ⟨done ++ [k], by simp [hdone], hs'', fun j hj => ?_⟩
    rcases List.mem_append.mp hj with hj | hj
    · exact hall j hj
    · rw [List.mem_singleton.mp hj]
      exact hthis

/-- The second loop gets through if no source has been freed. -/
theorem regPrecs_sources {E : KsiError → Engine → Prop} :
    ∀ (entries : List Entry) (precs : List NodePtr) {s : Engine}, SameIds g s.graph →
      (∀ e ∈ entries, ∀ p m, e.src = some p → g.heap p = some m → g.nodes.data m.id = some p) →
      (¬ d → ∀ e ∈ entries, ∀ p, e.src = some p → g.heap p ≠ none) →
      (∀ p ∈ precs, g.heap p ≠ none) →
      wp d (regPrecs entries precs) s (fun precs' s' => SameIds g s'.graph ∧
        (∀ p ∈ precs', g.heap p ≠ none) ∧ ∀ e ∈ entries, ∀ p, e.src = some p →
        g.heap p ≠ none) E := by
  intro entries
  induction entries with
  | nil => exact fun precs s hs _ _ hprecs => ⟨hs, hprecs, nofun⟩
  | cons me rest ih =>
      intro precs s hs hslots hlive hprecs
      have hslots' := fun e he => hslots e (List.mem_cons_of_mem _ he)
      have hlive' := fun h' e he => hlive h' e (List.mem_cons_of_mem _ he)
      unfold regPrecs
      cases hsrc : me.src with
      | none =>
          refine wp_mono (ih precs hs hslots' hlive' hprecs)
            (fun precs' s' h' => ⟨h'.1, h'.2.1, ?_⟩)
            fun _ _ hE => hE
          refine List.forall_mem_cons.mpr ⟨fun p hp => ?_, h'.2.2⟩
          rw [hsrc] at hp
          cases hp
      | some p =>
          simp only [wp_bind, wp_debug_check_node, wp_load]
          have hgone : s.graph.heap p = none → d := by
            refine fun hnone => by_contra fun h' => hlive h' me List.mem_cons_self p hsrc ?_
            cases hp : g.heap p with
            | none => rfl
            | some m =>
                obtain ⟨m', hm', -⟩ := hs.symm.heap hp
                rw [hnone] at hm'
                cases hm'
          refine ⟨hgone, fun node hnode => ⟨fun _ => ⟨hgone, fun _ _ => ?_⟩, fun hdata => ?_⟩⟩
          · obtain ⟨m, hm, -⟩ := hs.heap hnode
            have hp : g.heap p ≠ none := by simp [hm]
            have hpost : ∀ (precs' : List NodePtr) (s' : Engine), (SameIds g s'.graph ∧
                (∀ p ∈ precs', g.heap p ≠ none) ∧ ∀ e ∈ rest, ∀ p, e.src = some p →
                g.heap p ≠ none) →
                SameIds g s'.graph ∧ (∀ p ∈ precs', g.heap p ≠ none) ∧
                  ∀ e ∈ me :: rest, ∀ p, e.src = some p → g.heap p ≠ none := by
              refine fun precs' s' h' =>
                ⟨h'.1, h'.2.1, List.forall_mem_cons.mpr ⟨fun q hq => ?_, h'.2.2⟩⟩
              obtain rfl : p = q := Option.some.inj (hsrc.symm.trans hq)
              exact hp
            refine (wp_ite _ _ _).mpr ⟨fun _ => ?_, fun _ => ?_⟩
            · rw [wp_bind, wp_update]
              refine ⟨hgone, fun _ _ => wp_mono (ih (p :: precs) ?_ hslots' hlive' ?_) hpost
                fun _ _ hE => hE⟩
              · refine hs.trans (.update (fun _ => rfl) fun m => ?_)
                exact (mild_flag (by decide) (by decide)).inline m
              · exact List.forall_mem_cons.mpr ⟨hp, hprecs⟩
            · exact wp_mono (ih precs hs hslots' hlive' hprecs) hpost fun _ _ hE => hE
          · obtain ⟨m, hm, hid, -⟩ := hs.heap hnode
            refine absurd ?_ hdata
            rw [hs.nodes, ← hid]
            exact hslots me List.mem_cons_self p m hsrc hm

/-- **What RemoveNode does once the slot of `n` is empty** gets through if the successors can
be released and no source has been freed. -/
theorem removeRest_sources {E : KsiError → Engine → Prop} (hs : s.graph = g)
    (hn : g.heap n = some node)
    (hslots : ∀ k ∈ node.successors, ∃ p m, g.nodes.Holds k p ∧ g.heap p = some m ∧ p ≠ n)
    (hsrcs : ∀ e ∈ node.inputs.flatMap (·.entries), ∀ p m, e.src = some p → g.heap p = some m →
      g.nodes.data m.id = some p)
    (h : ¬ d → (∀ k ∈ node.successors, Releasable g g.nodes n k) ∧
      ∀ e ∈ node.inputs.flatMap (·.entries), ∀ p, e.src = some p → g.heap p ≠ none) :
    wp d (removeRest .editing n) s (fun ret s' => ret = n ∧ s'.graph.heap n ≠ none ∧
      (∀ k ∈ node.successors, Releasable g g.nodes n k) ∧
      ∀ e ∈ node.inputs.flatMap (·.entries), ∀ p, e.src = some p → g.heap p ≠ none) E := by
  have hkept : ∀ {g' : Graph}, SameIds g g' → ∀ {p}, g.heap p ≠ none → g'.heap p ≠ none := by
    intro g' hs' p hp
    obtain ⟨m, hm⟩ := Option.ne_none_iff_exists'.mp hp
    obtain ⟨m', hm', -⟩ := hs'.symm.heap hm
    simp [hm']
  subst hs
  unfold removeRest
  rw [wp_bind, wp_load]
  refine ⟨fun hnone => absurd (hn.symm.trans hnone) (by simp), fun node' hnode' => ?_⟩
  obtain rfl : node = node' := Option.some.inj (hn.symm.trans hnode')
  rw [wp_bind]
  refine wp_mono (releaseSuccessors_released (.refl n _) hslots fun h' => (h h').1) ?_
    fun _ _ hE => hE
  rintro _ s₁ ⟨hs₁, hreleased⟩
  rw [wp_bind, wp_load, hs₁.removed]
  refine ⟨fun hnone => absurd (hn.symm.trans hnone) (by simp), fun node' hnode' => ?_⟩
  obtain rfl : node = node' := Option.some.inj (hn.symm.trans hnode')
  rw [wp_bind]
  refine wp_mono (regPrecs_sources _ [] hs₁.ids hsrcs (fun h' => (h h').2) nofun) ?_
    fun _ _ hE => hE
  rintro precs s₂ ⟨hs₂, hprecs, hsources⟩
  rw [wp_bind]
  refine wp_mono (wp_forEach (fun rest s' => (∀ p ∈ rest, p ∈ precs) ∧ SameIds s.graph s'.graph)
    ?_ precs
    ⟨fun _ hp => hp, hs₂⟩) ?_ fun _ _ hE => hE
  · rintro p rest s' ⟨hrest, hs'⟩
    have hp := hprecs p (hrest p List.mem_cons_self)
    unfold releasePrec
    rw [wp_bind, wp_update]
    refine ⟨fun hnone => absurd hnone (hkept hs' hp), fun _ _ => ?_⟩
    have hs'' := hs'.trans
      (SameIds.update (g := s'.graph) (p := p) mild_unmark.id mild_unmark.inline)
    rw [wp_update]
    exact ⟨fun hnone => absurd hnone (hkept hs'' hp), fun _ _ =>
      ⟨fun q hq => hrest q (List.mem_cons_of_mem _ hq),
        hs''.trans (.update (fun _ => rfl) fun _ => rfl)⟩⟩
  rintro _ s₃ ⟨-, hs₃⟩
  have hn₃ : s₃.graph.heap n ≠ none := hkept hs₃ (by simp [hn])
  rw [wp_bind, wp_load]
  refine ⟨fun hnone => absurd hnone hn₃, fun _ _ => ?_⟩
  rw [wp_bind, wp_when]
  exact ⟨fun _ => ⟨rfl, hn₃, hreleased, hsources⟩, fun _ => ⟨rfl, hn₃, hreleased, hsources⟩⟩

/-- After the deletion of the slot of `n`, a slot holds another node. -/
theorem Registered.ne_of_holds_delete (h : Registered g) (hn : g.nodes.Holds i n) {k : Nat}
    (hk : (ksiVecDelete g.nodes i).Holds k p) : ∃ m, g.heap p = some m ∧ p ≠ n := by
  obtain ⟨hki, hold⟩ := (KsiVec.holds_delete hn).mp hk
  obtain ⟨m, hm, hid⟩ := h.slots k p hold
  refine ⟨m, hm, ?_⟩
  rintro rfl
  obtain ⟨m', hm', hid'⟩ := h.slots i p hn
  rw [hm] at hm'
  cases hm'
  exact hki (hid.symm.trans hid')

theorem removeNode_bounded (h : Registered s.graph)
    (hslots : s.playing ≠ -2 → RemovedSlots s.graph id) :
    Bounded d s (InBounds s (.call (.removeNode id))) ((Call.removeNode id).kernel .editing) s := by
  suffices hgoal : Bounded d s (InBounds s (.call (.removeNode id))) (checkInitialized >>= fun _ =>
      checkVec id .ksiErrorIdNotFound >>= fun n => (Prog.modify fun e => { e with
        graph := { e.graph with nodes := ksiVecDelete e.graph.nodes id.toNat } }) >>= fun _ =>
          removeRest .editing n >>= fun n => ksiEngineDestroyNode n .editing >>= fun _ =>
            (pure none : Edit (Option Nat))) s by
    intro hd
    have hwp := hgoal hd
    unfold Call.kernel
    dsimp only
    rw [impl_ksiEngineRemoveNode_eq]
    simp only [wp_bind] at hwp ⊢
    exact hwp
  refine .checkInitialized fun hplaying => .checkVec h.slots fun n node hid hn =>
    .of_wp fun hd => ?_
  obtain ⟨hsuccs, hsrcs⟩ := hslots hplaying n node hid hn
  have hholds := (KsiVec.check_some hid).1
  have hcongr : ∀ input : InputPort, input.Followable { s.graph with
      nodes := ksiVecDelete s.graph.nodes id.toNat } ↔ input.Followable s.graph :=
    fun input => InputPort.followable_congr fun _ => rfl
  have hrel : ∀ k, Releasable { s.graph with nodes := ksiVecDelete s.graph.nodes id.toNat }
      (ksiVecDelete s.graph.nodes id.toNat) n k ↔
      Releasable s.graph (ksiVecDelete s.graph.nodes id.toNat) n k := by
    intro k
    unfold Releasable
    simp only [hcongr]
  rw [wp_bind, wp_modify, wp_bind]
  refine wp_mono (removeRest_sources rfl hn (fun k hk => ?_) (fun e he p m hp hm => ?_)
    fun h' => ⟨fun k hk =>
    (hrel k).mpr ((hd h').successors k hk), fun e he p hp => ?_⟩) ?_ fun _ _ hE => hE
  · obtain ⟨p, hp⟩ := hsuccs k hk
    obtain ⟨m, hm, hpn⟩ := h.ne_of_holds_delete hholds hp
    exact ⟨p, m, hp, hm, hpn⟩
  · obtain ⟨input, hinput, he⟩ := List.mem_flatMap.mp he
    exact (hsrcs input hinput e he p m hp hm).2
  · obtain ⟨input, hinput, he⟩ := List.mem_flatMap.mp he
    exact ((hd h').sources input hinput e he p hp).2
  rintro _ s' ⟨rfl, hlive, hreleased, hsources⟩
  rw [wp_bind]
  refine ksiEngineDestroyNode_wp (fun _ => rfl) (fun _ => hlive) fun _ _ => ?_
  refine ⟨fun k hk => (hrel k).mp (hreleased k hk), fun input hinput e he p hp => ?_⟩
  have hp' := hsources e (List.mem_flatMap.mpr ⟨input, hinput, he⟩) p hp
  obtain ⟨m, hm⟩ := Option.ne_none_iff_exists'.mp hp'
  obtain ⟨-, -, hpn⟩ := h.ne_of_holds_delete hholds (hsrcs input hinput e he p m hp hm)
  exact ⟨hpn, hp'⟩

/-! ### The other commands -/

/-- The id of a time sequence is checked like the id of a node. -/
theorem kscarletMidiSegEditCmd_bounded (args : String) :
    Bounded d s (∀ rest mid, args.toList = 'm' :: rest → scanInt (String.ofList rest) = some mid →
      0 ≤ mid)
      (kscarletMidiSegEditCmd args) s := by
  intro hd
  unfold kscarletMidiSegEditCmd
  split
  · rename_i rest hargs
    rw [wp_bind, wp_orError]
    refine ⟨fun mid hmid => ?_, fun hnone => ⟨fun rest' mid hargs' hmid => ?_, fun _ => rfl⟩⟩
    · have hB : 0 ≤ mid → ∀ rest mid, args.toList = 'm' :: rest →
        scanInt (String.ofList rest) = some mid →
          0 ≤ mid := by
        intro h0 rest' mid' hargs' hmid'
        obtain rfl : rest = rest' := (List.cons.inj (hargs.symm.trans hargs')).2
        obtain rfl : mid = mid' := Option.some.inj (hmid.symm.trans hmid')
        exact h0
      rw [wp_bind, wp_read]
      refine ⟨fun hnone =>
        by_contra fun h' => KsiVec.check_ne_none (hd h' rest mid hargs hmid) hnone,
        fun slot hslot => ?_⟩
      have h0 := KsiVec.check_nonneg hslot
      rw [wp_bind, wp_orError]
      exact ⟨fun _ _ => hB h0, fun _ => ⟨hB h0, fun _ => rfl⟩⟩
    · obtain rfl : rest = rest' := (List.cons.inj (hargs.symm.trans hargs')).2
      rw [hnone] at hmid
      cases hmid
  · rename_i hargs
    exact fun rest mid hargs' => by simp [hargs] at hargs'
  · rename_i hargs
    exact fun rest mid hargs' => by simp [hargs] at hargs'
  · rename_i hargs _ _
    exact ⟨fun rest mid hargs' => absurd hargs' (hargs rest), fun _ => rfl⟩

theorem sendEditingCommand_bounded (h : Registered s.graph) (hshape : IdShaped s.graph)
    (args : String) :
    Bounded d s (InBounds s (.call (.sendEditingCommand id args)))
      (impl_ksiEngineSendEditingCommand id args .editing) s := by
  unfold impl_ksiEngineSendEditingCommand
  refine .checkInitialized fun _ => .checkVec h.slots fun n node _ hn => .load hn fun hd => ?_
  split
  · rename_i hid
    have hB : ksiNodeTypeInlineId node.type = 3 → ∀ rest mid, args.toList = 'm' :: rest →
        scanInt (String.ofList rest) = some mid → 0 ≤ mid := by
      rw [hid]
      exact fun h3 => absurd h3 (by decide)
    exact ksiBuiltinNodeFuncIdEditCmd_wp (fun _ => rfl) hn (hshape n node hn hid)
      ⟨fun _ => ⟨hB, fun h' => nomatch h'⟩, fun _ _ _ => ⟨hB, fun h' => nomatch h'⟩⟩
        fun _ _ _ _ _ => hB
  · rename_i hid
    exact wp_mono (kscarletMidiSegEditCmd_bounded args fun h' => hd h' hid) (fun _ _ hB _ => hB)
      fun _ _ hB => ⟨fun _ => hB.1, hB.2⟩
  iterate 4
    rename_i hid
    exact ⟨fun h3 => absurd (hid.symm.trans h3) (by decide), fun h' => nomatch h'⟩
  rename_i h3 _ _ _ _
  exact fun h' => absurd h' h3

theorem getInputType_bounded (h : Registered s.graph) {port : Int} :
    Bounded d s (InBounds s (.getInputType id port)) (ksiEngineGetInputType id port) s := by
  refine .checkVec h.slots fun n node _ hn => ?_
  have hwp : Bounded d s (CheckedPort node port fun _ => True)
    (checkDesPort n port .ksiErrorPortNotFound >>=
      pure) s := .checkDesPort hn fun input hinput => .of_wp fun _ => trivial
  intro hd
  have hwp := hwp hd
  rwa [wp_bind] at hwp

theorem unloadTimeSeq_bounded :
    Bounded d s (InBounds s (.unloadTimeSeq id)) (ksiTimeSeqUnloadFromEngine id) s := by
  refine .checkInitialized fun _ hd => ?_
  rw [wp_bind, wp_read]
  refine ⟨fun hnone => by_contra fun h' => KsiVec.check_ne_none (hd h') hnone, fun slot hslot => ?_⟩
  have h0 := KsiVec.check_nonneg hslot
  rw [wp_bind, wp_orError]
  exact ⟨fun _ _ => h0, fun _ => ⟨h0, fun _ => rfl⟩⟩

theorem addNode_bounded (typeFlags : BitVec 32) :
    Bounded d s True (impl_ksiEngineAddNode typeFlags .editing) s :=
  fun _ => impl_ksiEngineAddNode_wp (fun _ => rfl) typeFlags
    (fun _ _ => ⟨trivial, fun _ => rfl⟩) fun _ _ _ _ _ _ => trivial

/-- **Every command gets through where its condition holds, and nowhere else.** -/
theorem kernel_bounded (h : Registered s.graph) (hshape : IdShaped s.graph) (c : Command)
    (hslots : ∀ id, c = .call (.removeNode id) → s.playing ≠ -2 → RemovedSlots s.graph id) :
    Bounded d s (InBounds s c) c.kernel s := by
  cases c with
  | call c =>
      suffices hcall : Bounded d s (InBounds s (.call c)) (c.kernel .editing) s from hcall.map _
      cases c with
      | addNode typeFlags => exact (addNode_bounded typeFlags).map _
      | makeWire srcId srcPort desId desPort gain => exact (makeWire_bounded h gain).map _
      | makeBias desId desPort bias => exact (makeBias_bounded h bias).map _
      | detachNodes srcId desId => exact (detachNodes_bounded h).map _
      | removeNode id => exact removeNode_bounded h (hslots id rfl)
      | removeWire srcId srcPort desId desPort => exact (removeWire_bounded h).map _
      | sendEditingCommand id args => exact (sendEditingCommand_bounded h hshape args).map _
  | getInputType id port => exact (getInputType_bounded h).map _
  | unloadTimeSeq id => exact unloadTimeSeq_bounded

/-- The slots that RemoveNode reads are in use where the condition holds. -/
theorem Registered.removedSlots (h : Registered s.graph) (hplaying : s.playing ≠ -2)
    (hin : InBounds s (.call (.removeNode id))) : RemovedSlots s.graph id := by
  intro n node hid hn
  obtain ⟨-, hremovable⟩ := hin hplaying
  have hholds := (KsiVec.check_some hid).1
  obtain ⟨hsuccs, hsrcs⟩ := hremovable n node hid hn
  refine ⟨fun k hk => ?_, fun input hinput e he p m hp hm =>
    (KsiVec.holds_delete hholds).mpr ⟨?_, h.named p m hm⟩⟩
  · obtain ⟨p, m, hp, -⟩ := hsuccs k hk
    exact ⟨p, hp⟩
  · intro hmid
    have hp' := h.named p m hm
    rw [hmid] at hp'
    exact (hsrcs input hinput e he p hp).1 (hp'.unique hholds)

/-- A command stays inside a graph if and only if its condition holds. -/
theorem staysInside_iff_of_registered (h : Registered s.graph) (hshape : IdShaped s.graph)
    (c : Command) : StaysInside s c ↔ InBounds s c := by
  constructor
  · rintro ⟨⟨r, s', hr, -⟩, hslots⟩
    have hwp := kernel_bounded (d := True) h hshape c hslots (absurd trivial)
    cases r with
    | ok a => exact of_wp_ok hwp hr
    | error err => exact (of_wp_error hwp hr).1
  · intro hin
    have hslots : ∀ id, c = .call (.removeNode id) → s.playing ≠ -2 → RemovedSlots s.graph id := by
      rintro id rfl hplaying
      exact h.removedSlots hplaying hin
    obtain ⟨r, s', hr, -, herr⟩ :=
      exists_of_wp (kernel_bounded (d := False) h hshape c hslots fun _ => hin)
    exact ⟨⟨r, s', hr, fun err he => (herr err he).2⟩, hslots⟩

/-! ### What a client can reach -/

/-- What holds of both versions. -/
structure Sound (g : Graph) : Prop where
  registered : Registered g
  idShaped : IdShaped g

theorem Sound.empty : Sound Version.empty.graph := ⟨.empty, fun _ _ h => by cases h⟩

theorem Sound.call {flag : Flag} (h : Sound s.graph) (c : Call) :
    wp True (c.kernel flag) s (fun _ s' => Sound s'.graph) fun _ s' => Sound s'.graph :=
  wp_mono (wp_and (h.registered.call c) (h.idShaped.call c)) (fun _ _ h' => ⟨h'.1, h'.2⟩)
    fun _ _ h' => ⟨h'.1, h'.2⟩

theorem sound_keeps (c : Call) : Keeps (fun s : Engine => Sound s.graph) (c.kernel .committing) :=
  fun _ hs => hs.call c

/-- A change of the engine that leaves the graph as it is. -/
theorem Versions.onEngine_sound {v v' : Versions} {x : Edit Unit} (hx : Within SameGraph x)
    (hv : Sound v.session.engine.graph ∧ Sound v.other.graph) (hs : v.onEngine x = some v') :
    Sound v'.session.engine.graph ∧ Sound v'.other.graph := by
  unfold Versions.onEngine at hs
  obtain ⟨⟨r, s'⟩, hr, rfl⟩ := Option.map_eq_some_iff.mp hs
  have hsame : s'.graph = v.session.engine.graph := by
    cases r with
    | ok a => exact (of_wp_ok (hx _) hr).1
    | error err => exact (of_wp_error (hx _) hr).1
  refine ⟨?_, hv.2⟩
  show Sound s'.graph
  rw [hsame]
  exact hv.1

theorem loadTimeSeq_same (n : Nat) : Within SameGraph (Dag.loadTimeSeq n) := by
  have hK := sameGraph_compositional
  exact hK.bind (hK.bind (hK.read _) fun _ => hK.require trivial) fun _ =>
    Within.modify fun _ => ⟨rfl, rfl⟩

/-- A step keeps both versions sound. -/
theorem Versions.step_sound {v v' : Versions} {a : Action}
    (hv : Sound v.session.engine.graph ∧ Sound v.other.graph) (hs : v.step a = some v') :
    Sound v'.session.engine.graph ∧ Sound v'.other.graph := by
  have hK := sameGraph_compositional
  cases a with
  | command c =>
      cases c with
      | call c =>
          obtain ⟨⟨r, session⟩, hr, rfl⟩ := Option.map_eq_some_iff.mp hs
          have hcall : wp True (c.kernel .editing) v.session.engine (fun _ s' => Sound s'.graph)
              fun _ s' => Sound s'.graph := hv.1.call c
          unfold Session.call at hr
          split at hr
          · cases hr
          · rename_i err s' hkernel
            cases hr
            exact ⟨of_wp_error hcall hkernel, hv.2⟩
          · rename_i a s' hkernel
            cases hr
            exact ⟨of_wp_ok hcall hkernel, hv.2⟩
      | getInputType id port =>
          exact onEngine_sound (hK.bind (getInputType_same id port) fun _ => hK.pure ()) hv hs
      | unloadTimeSeq id => exact onEngine_sound (unload_same id) hv hs
  | loadTimeSeq n => exact onEngine_sound (loadTimeSeq_same n) hv hs
  | setPlaying playing =>
      cases hs
      exact hv
  | commit =>
      obtain ⟨⟨session, other⟩, hr, rfl⟩ := Option.map_eq_some_iff.mp hs
      unfold ksiEngineCommit at hr
      split at hr
      · cases hr
        exact hv
      · obtain ⟨⟨rs, session⟩, hcommit, heq⟩ := Option.map_eq_some_iff.mp hr
        cases heq
        unfold ksiMVCCCommitter at hcommit
        obtain ⟨⟨rs', s'⟩, hloop, heq⟩ := Option.map_eq_some_iff.mp hcommit
        cases heq
        exact ⟨commitLoop_keeps sound_keeps _ hloop hv.2, hv.1⟩

theorem sound_of_reaches {framesPerBuffer : Nat} {v : Versions}
    (h : Reaches Versions.step Free (Versions.init framesPerBuffer) v) :
    Sound v.session.engine.graph ∧ Sound v.other.graph :=
  h.invariant _ ⟨.empty, .empty⟩ fun _ _ _ hv _ hs => Versions.step_sound hv hs

/-- **In every graph that a client can reach a command stays inside exactly if its ids and
ports are in bounds.** -/
theorem staysInside_iff_inBounds {framesPerBuffer : Nat} {v : Versions}
    (h : Reaches Versions.step Free (Versions.init framesPerBuffer) v) (c : Command) :
    StaysInside v.session.engine c ↔ InBounds v.session.engine c :=
  have hsound := (sound_of_reaches h).1
  staysInside_iff_of_registered hsound.registered hsound.idShaped c

/-- Two Id nodes, in both versions. -/
def pairRun : List Action :=
  [.command (.call (.addNode 0x10000)), .command (.call (.addNode 0x10000)), .commit]

theorem run_pairRun : ∃ v, run Versions.step (Versions.init 64) pairRun = some v ∧
    v.session.engine.playing = 0 := by
  have hrun : (run Versions.step (Versions.init 64) pairRun).map (·.session.engine.playing) =
    some 0 := by
    decide +kernel
  obtain ⟨v, hv, hplaying⟩ := Option.map_eq_some_iff.mp hrun
  exact ⟨v, hv, hplaying⟩

theorem staysInside_pairRun : ∃ v, Reaches Versions.step Free (Versions.init 64) v ∧
    StaysInside v.session.engine (.call (.makeWire 0 0 1 0 0x3F800000)) := by
  obtain ⟨v, hv, -⟩ := run_pairRun
  refine ⟨v, reaches_of_run pairRun hv,
    (staysInside_iff_inBounds (reaches_of_run pairRun hv) _).mpr ?_⟩
  exact fun _ => ⟨by decide,
    fun _ _ _ _ => ⟨by decide, fun _ _ _ _ _ _ => ⟨by decide, fun _ _ => Int.le_refl 0⟩⟩⟩

/-- The id `-1` passes CHECK_VEC, and the slot before the first one is read. -/
theorem not_staysInside : ¬ ∀ v, Reaches Versions.step Free (Versions.init 64) v →
    ∀ c, StaysInside v.session.engine c := by
  intro h
  obtain ⟨v, hv, hplaying⟩ := run_pairRun
  have hreach := reaches_of_run pairRun hv
  have hsound := (sound_of_reaches hreach).1
  have hin := (staysInside_iff_of_registered hsound.registered hsound.idShaped _).mp
    (h v hreach (.call (.detachNodes (-1) 0)))
  exact absurd (hin (by rw [hplaying]; decide)).1 (by decide)

end Ksi.Dag

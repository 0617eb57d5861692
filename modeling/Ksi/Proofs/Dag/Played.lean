/-
What the audio threads run.

They run either version, at the time of a commit the one that is about to be replayed.
`commit_agrees` says that the two are equal but for the addresses of their nodes, and the
scheduler does not see addresses.  So what an edit keeps of the edited version holds of
both: a client that closes no ring has every cycle of either version scheduled correctly.
-/
import Ksi.Proofs.Dag.Agreement
import Ksi.Proofs.Dag.Unwire
import Ksi.Proofs.Sched.Cycle

namespace Ksi.Dag

open Prog Relator Runs Relation

variable {π : NodePtr → NodePtr → Prop} {v w : Version} {p q : NodePtr} {node node' : KsiNode}
  {i : Nat}

/-! ### Coherence goes along -/

/-- The wires of nodes that go together come from nodes that do. -/
theorem SameNode.mem_preds (hπ : BiUnique π) (hpq : π p q) (h : SameNode π node node') :
    p ∈ node.preds ↔ q ∈ node'.preds := by
  rw [KsiNode.mem_preds, KsiNode.mem_preds]
  constructor
  · rintro ⟨port, hport, me, hme, hsrc⟩
    obtain ⟨port', hport', hsame⟩ := forall₂_mem (List.Forall₂.flip h.inputs) hport
    obtain ⟨me', hme', hsame'⟩ := forall₂_mem (List.Forall₂.flip hsame.entries) hme
    exact ⟨port', hport', me', hme', (hsame'.src_iff hπ hpq).mp hsrc⟩
  · rintro ⟨port', hport', me', hme', hsrc⟩
    obtain ⟨port, hport, hsame⟩ := forall₂_mem h.inputs hport'
    obtain ⟨me, hme, hsame'⟩ := forall₂_mem hsame.entries hme'
    exact ⟨port, hport, me, hme, (hsame'.src_iff hπ hpq).mpr hsrc⟩

/-- They are as many. -/
theorem SameNode.card_preds (hπ : BiUnique π) (htotal : BiTotal π) (h : SameNode π node node') :
    node'.preds.card = node.preds.card := by
  obtain ⟨F, hF⟩ := Classical.skolem.mp htotal.1
  have hinj : Function.Injective F := fun p p' heq => hπ.1 (hF p) (heq ▸ hF p')
  have himage : node'.preds = node.preds.image F := by
    ext q
    rw [Finset.mem_image]
    constructor
    · intro hq
      obtain ⟨p, hpq⟩ := htotal.2 q
      exact ⟨p, (h.mem_preds hπ hpq).mpr hq, hπ.2 (hF p) hpq⟩
    · rintro ⟨p, hp, rfl⟩
      exact (h.mem_preds hπ (hF p)).mp hp
  rw [himage, Finset.card_image_of_injective _ hinj]

theorem SameVersion.original (h : SameVersion π v w) (htotal : BiTotal π)
    (hq : w.graph.heap q = some node') :
    ∃ p node, π p q ∧ v.graph.heap p = some node ∧ SameNode π node node' := by
  obtain ⟨p, hpq⟩ := htotal.2 q
  obtain ⟨node, hnode, hsame⟩ := rel_some (rel_flip (h.heap p q hpq)) hq
  exact ⟨p, node, hpq, hnode, hsame⟩

theorem SameVersion.counterpart (h : SameVersion π v w) (htotal : BiTotal π)
    (hp : v.graph.heap p = some node) :
    ∃ q node', π p q ∧ w.graph.heap q = some node' ∧ SameNode π node node' := by
  obtain ⟨q, hpq⟩ := htotal.1 p
  obtain ⟨node', hnode', hsame⟩ := rel_some (h.heap p q hpq) hp
  exact ⟨q, node', hpq, hnode', hsame⟩

theorem SameVersion.portOk (h : SameVersion π v w) (hπ : BiUnique π) {port port' : InputPort}
    (hsame : SameInput π port port') (hport : PortOk v.graph port) : PortOk w.graph port' := by
  constructor
  case wires =>
    intro me' hme' src' hsrc'
    obtain ⟨me, hme, hsameEntry⟩ := forall₂_mem hsame.entries hme'
    obtain ⟨src, hsrc, hpair⟩ := rel_some (rel_flip hsameEntry.src) hsrc'
    obtain ⟨m, hm, type, htype, hmask⟩ := hport.wires me hme src hsrc
    obtain ⟨m', hm', hsameNode⟩ := rel_some (h.heap src src' hpair) hm
    exact ⟨m', hm', type, by rw [hsameNode.outputs, hsameEntry.srcPort, htype],
      by rw [hsame.type, hmask]⟩
  case biases =>
    intro me' hme' hnone
    obtain ⟨me, hme, hsameEntry⟩ := forall₂_mem hsame.entries hme'
    have hsrc : me.src = none := by
      cases hsrc : me.src with
      | none => rfl
      | some src =>
          obtain ⟨src', hsrc', -⟩ := rel_some hsameEntry.src hsrc
          rw [hnone] at hsrc'
          cases hsrc'
    rw [hsame.type, hsameEntry.srcPort]
    exact hport.biases me hme hsrc
  case nodup =>
    -- the keys of the two ports go together as the sources do
    have hrel : BiUnique fun k k' : Option NodePtr × Int => Option.Rel π k.1 k'.1 ∧ k'.2 = k.2 := by
      constructor
      · rintro ⟨o, a⟩ ⟨o'', b⟩ ⟨o', c⟩ ⟨ho, hc⟩ ⟨ho', hb⟩
        refine Prod.ext ?_ (hb.symm.trans hc).symm
        cases ho with
        | none => cases ho'; rfl
        | some hab =>
            cases ho' with
            | some hab' => exact congrArg some (hπ.1 hab hab')
      · rintro ⟨o, a⟩ ⟨o', b⟩ ⟨o'', c⟩ ⟨ho, hb⟩ ⟨ho', hc⟩
        refine Prod.ext ?_ (hb.trans hc.symm)
        cases ho with
        | none => cases ho'; rfl
        | some hab =>
            cases ho' with
            | some hab' => exact congrArg some (hπ.2 hab hab')
    refine (List.rel_nodup hrel ?_).mp hport.nodup
    exact List.forall₂_map_left_iff.mpr (List.forall₂_map_right_iff.mpr
      (hsame.entries.imp fun _ _ hme => ⟨hme.src, hme.srcPort⟩))

/-- **What agrees with a coherent version is coherent.** -/
theorem SameVersion.coherent (h : SameVersion π v w) (hπ : BiUnique π) (htotal : BiTotal π)
    (hw : Registered w.graph) (hv : Coherent v.graph) : Coherent w.graph := by
  refine ⟨⟨?slots, ?named, ?ports, ?successors, ?successorsLive, ?nodup, ?depNum⟩, ?tidy, ?fresh,
    ?irreflexive, ?scratch, ?final⟩
  case tidy => exact hw.tidy
  case slots => exact hw.slots
  case named => exact hw.named
  case fresh => exact hw.fresh
  case ports =>
    intro q node' hq port' hport'
    obtain ⟨p, node, -, hp, hsame⟩ := h.original htotal hq
    obtain ⟨port, hport, hsamePort⟩ := forall₂_mem hsame.inputs hport'
    exact h.portOk hπ hsamePort (hv.ports p node hp port hport)
  case successors =>
    intro q node' hq q₁ m' hq₁
    obtain ⟨p, node, hpq, hp, hsame⟩ := h.original htotal hq
    obtain ⟨p₁, m, -, hp₁, hsame₁⟩ := h.original htotal hq₁
    rw [hsame₁.id, hsame.successors, hv.successors p node hp p₁ m hp₁]
    exact hsame₁.mem_preds hπ hpq
  case successorsLive =>
    intro q node' hq d hd
    obtain ⟨p, node, -, hp, hsame⟩ := h.original htotal hq
    rw [hsame.successors] at hd
    obtain ⟨p₁, m, hm, rfl⟩ := hv.successorsLive p node hp d hd
    obtain ⟨q₁, m', -, hm', hsame₁⟩ := h.counterpart htotal hm
    exact ⟨q₁, m', hm', hsame₁.id⟩
  case nodup =>
    intro q node' hq
    obtain ⟨p, node, -, hp, hsame⟩ := h.original htotal hq
    rw [hsame.successors]
    exact hv.nodup p node hp
  case depNum =>
    intro q node' hq
    obtain ⟨p, node, -, hp, hsame⟩ := h.original htotal hq
    rw [hsame.depNum, hsame.card_preds hπ htotal]
    exact hv.depNum p node hp
  case irreflexive =>
    intro q node' hq
    obtain ⟨p, node, hpq, hp, hsame⟩ := h.original htotal hq
    rw [← hsame.mem_preds hπ hpq]
    exact hv.irreflexive p node hp
  case scratch =>
    intro q node' hq
    obtain ⟨p, node, -, hp, hsame⟩ := h.original htotal hq
    rw [hsame.type]
    exact hv.scratch p node hp
  case final =>
    intro q
    have hfinal : ∀ {node node' : KsiNode}, SameNode π node node' →
      node'.isFinal = node.isFinal := by
      intro node node' hsame
      unfold KsiNode.isFinal
      rw [hsame.type]
    constructor
    · intro hq
      obtain ⟨p, hp, hpq⟩ := rel_some (rel_flip h.finalNode) hq
      obtain ⟨node, hnode, hf⟩ := (hv.final p).mp hp
      obtain ⟨node', hnode', hsame⟩ := rel_some (h.heap p q hpq) hnode
      exact ⟨node', hnode', by rw [hfinal hsame, hf]⟩
    · rintro ⟨node', hnode', hf⟩
      obtain ⟨p, node, hpq, hnode, hsame⟩ := h.original htotal hnode'
      obtain ⟨q', hq', hpq'⟩ :=
        rel_some h.finalNode ((hv.final p).mpr ⟨node, hnode, by rw [← hfinal hsame, hf]⟩)
      rw [hq', hπ.2 hpq hpq']

/-- It has the same edges. -/
theorem SameVersion.noRing (h : SameVersion π v w) (htotal : BiTotal π) (hw : Registered w.graph)
    (hv : Registered v.graph) (hring : NoRing v.graph) : NoRing w.graph := by
  refine ⟨fun i j p hi hj => ?_, fun i p hp => ?_, hring.acyclic.mono fun a b hab => ?_⟩
  · obtain ⟨node, hnode, rfl⟩ := hw.slots i p hi
    obtain ⟨node', hnode', rfl⟩ := hw.slots j p hj
    rw [hnode] at hnode'
    cases hnode'
    rfl
  · obtain ⟨node, hnode, -⟩ := hw.slots i p hp
    exact hw.fresh p node hnode
  · obtain ⟨q, node', hq, hnode', hb⟩ := hab
    obtain ⟨p, node, -, hp, hsame⟩ := h.original htotal hnode'
    obtain ⟨m, hm, rfl⟩ := hw.slots a q hq
    rw [hnode'] at hm
    cases hm
    rw [hsame.id]
    exact ⟨p, node, hv.named p node hp, hp, by rwa [← hsame.successors]⟩

/-! ### What the scheduler gets -/

/-- Every cycle of the graph is scheduled correctly. -/
structure Playable (G : Sched.Graph) : Prop where
  coherent : G.Coherent
  acyclic : Rel.Acyclic G.Edge
  sink : G.FinalIsSink

theorem sched_edge {g : Graph} {a b : Nat} (h : g.sched.Edge a b) : g.Edge a b := by
  obtain ⟨ha, hb⟩ := h
  obtain ⟨node, hnode⟩ := Graph.mem_sched_nodes.mp ha
  obtain ⟨p, hp, hheap⟩ := Graph.node?_eq_some.mp hnode
  simp only [Graph.sched, hnode, Option.map_some, Option.getD_some] at hb
  exact ⟨p, node, hp, hheap, hb⟩

/-- A final node is the source of no wire. -/
theorem Paired.finalIsSink {e c : Engine} (h : Fitted π e c) (hg : Coherent e.graph) :
    e.graph.sched.FinalIsSink := by
  intro f hf
  simp only [Graph.sched, Option.map_eq_some_iff, Option.bind_eq_some_iff] at hf
  obtain ⟨node, ⟨p, hp, hnode⟩, rfl⟩ := hf
  obtain ⟨m, hm, hfinal⟩ := (hg.final p).mp hp
  rw [hnode] at hm
  cases hm
  have hat := hg.node?.mpr ⟨p, hnode, rfl⟩
  simp only [Graph.sched, hat, Option.map_some, Option.getD_some]
  refine List.eq_nil_iff_forall_not_mem.mpr fun d hd => ?_
  obtain ⟨q, m, hm, rfl⟩ := hg.successorsLive p node hnode d hd
  obtain ⟨port, hport, me, hme, hsrc⟩ :=
    KsiNode.mem_preds.mp ((hg.successors p node hnode q m hm).mp hd)
  have hnormal := (h.tracked q m hm port hport me hme p hsrc).2 node hnode
  unfold KsiNode.isNormal at hnormal
  unfold KsiNode.isFinal at hfinal
  rw [beq_iff_eq] at hnormal hfinal
  rw [hnormal] at hfinal
  cases hfinal

theorem Paired.playable {e c : Engine} (h : Fitted π e c) (hg : Coherent e.graph)
    (hring : NoRing e.graph) : Playable e.graph.sched :=
  ⟨hg.sched, hring.acyclic.mono fun _ _ => sched_edge, h.finalIsSink hg⟩

/-! ### Every run -/

/-- A client that adds nodes without a scratch flag in their types, wires, biases and removes
them, closes no ring, and takes no wire from a final node. -/
def Orderly (v : Versions) : Action → Prop
  | .command (.call c) =>
      Builds c ∧ RingFree v.session.engine c ∧ NormalSource v.session.engine.graph c
  | .command (.unloadTimeSeq _) => v.session.syncCmds = []
  | _ => True

/-- A wire that is there is listed. -/
theorem Coherent.not_changesFirst {e : Engine} (h : Coherent e.graph) {c : Call} (hc : Builds c) :
    ¬ ChangesFirst e c := by
  cases c with
  | makeWire srcId srcPort desId desPort gain =>
      rintro ⟨-, src, des, srcNode, desNode, input, hports, -, -, hfrom, hnot⟩
      obtain ⟨me, hme, hisFrom⟩ := List.any_eq_true.mp hfrom
      have hpred : src ∈ desNode.preds := KsiNode.mem_preds.mpr
        ⟨input, List.mem_of_getElem? (nth_some hports.hasInput).1, me, hme,
          ((isFrom_iff me).mp hisFrom).1⟩
      obtain ⟨m, hm, hid⟩ := h.slots _ des (KsiVec.check_some hports.desId).1
      rw [hports.atDes] at hm
      cases hm
      rw [← hid] at hnot
      exact hnot ((h.successors src srcNode hports.atSrc des desNode hports.atDes).mpr hpred)
  | removeWire => exact hc.elim
  | _ => exact id

/-- Both versions can be played. -/
structure Orderable (v : Versions) : Prop where
  coherent : Coherent v.session.engine.graph
  noRing : NoRing v.session.engine.graph
  other : Playable v.other.graph.sched

theorem Orderable.init (framesPerBuffer : Nat) : Orderable (Versions.init framesPerBuffer) where
  coherent := .empty
  noRing := .init framesPerBuffer
  other := ⟨Coherent.empty.sched, (NoRing.init framesPerBuffer).acyclic.mono
    fun _ _ => sched_edge, by
    intro f hf
    cases hf⟩

variable {x x' : Versions}

theorem Orderable.replayable (h : Orderable x) {a : Action} (ha : Orderly x a) :
    Replayable x a := by
  cases a with
  | command cmd =>
      cases cmd with
      | call c => exact ⟨h.coherent.not_changesFirst ha.1, ha.2.2⟩
      | unloadTimeSeq id => exact ha
      | getInputType id port => trivial
  | _ => trivial

theorem Orderable.aside (h : Orderable x) {e : Engine}
    (hversion : e.toVersion = x.session.engine.toVersion) :
    Orderable { x with session := { x.session with engine := e } } := by
  have hgraph : e.graph = x.session.engine.graph := congrArg Version.graph hversion
  refine ⟨?_, ?_, h.other⟩
  · show Coherent e.graph
    rw [hgraph]
    exact h.coherent
  · show NoRing e.graph
    rw [hgraph]
    exact h.noRing

theorem Orderable.call (h : Orderable x) {c : Call} (hc : Builds c)
    (hfree : RingFree x.session.engine c) {r : Except KsiError (Option Nat)} {e : Engine}
    (hcall : c.kernel .editing x.session.engine = some (r, e)) (cmds : List Call) :
    Orderable { x with session := { engine := e, syncCmds := cmds } } := by
  cases r with
  | ok a =>
      exact ⟨of_wp_ok (h.coherent.call hc) hcall, of_wp_ok (h.noRing.call hfree) hcall, h.other⟩
  | error err =>
      exact ⟨of_wp_error (h.coherent.call hc) hcall, of_wp_error (h.noRing.call hfree) hcall,
        h.other⟩

theorem Orderable.step (h : Orderable x) (hx : Followed π x) {a : Action} (ha : Orderly x a)
    (hs : x.step a = some x') : Orderable x' := by
  cases a with
  | command cmd =>
      cases cmd with
      | call call =>
          obtain ⟨hbuilds, hfree, -⟩ := ha
          obtain ⟨⟨r, session⟩, hr, rfl⟩ := Option.map_eq_some_iff.mp hs
          unfold Session.call at hr
          split at hr
          · cases hr
          · rename_i err e hkernel
            cases hr
            exact h.call hbuilds hfree hkernel x.session.syncCmds
          · rename_i id e hkernel
            cases hr
            exact h.call hbuilds hfree hkernel _
      | getInputType id port =>
          obtain ⟨e, rfl, rfl⟩ := onEngine_within (getInputType_within id port) hs
          exact h
      | unloadTimeSeq id =>
          obtain ⟨e, hside, rfl⟩ := onEngine_within (unload_aside id) hs
          exact h.aside hside.version
  | loadTimeSeq n =>
      obtain ⟨e, ⟨hside, -⟩, rfl⟩ := onEngine_within (load_aside n) hs
      exact h.aside hside.version
  | setPlaying playing =>
      cases hs
      exact h.aside rfl
  | commit =>
      obtain ⟨⟨session, other⟩, hr, rfl⟩ := Option.map_eq_some_iff.mp hs
      unfold ksiEngineCommit at hr
      split at hr
      · cases hr
        exact h
      · rename_i hready
        obtain ⟨hplaying, -⟩ := not_or.mp hready
        obtain ⟨rs, e, hcommit, -, -, -, hsound, hfit⟩ := hx.commit hplaying
        rw [hcommit] at hr
        cases hr
        have hsame := hfit.sameVersion hx.sound.registered.slots hsound.registered.slots
        exact ⟨hsame.coherent hx.unique hx.total hsound.registered h.coherent,
          hsame.noRing hx.total hsound.registered hx.sound.registered h.noRing,
          hfit.playable h.coherent h.noRing⟩

/-- A client whose wires all lead into leaves. -/
def Leafward (v : Versions) : Action → Prop
  | .command (.call c) => Builds c ∧ IntoLeaf v.session.engine c ∧ Evident v.session.engine.graph c
  | .command (.unloadTimeSeq _) => v.session.syncCmds = []
  | _ => True

instance decidableLeafward : DecidableRel Leafward := fun _ a =>
  match a with
  | .command (.call _) => inferInstanceAs (Decidable (_ ∧ _ ∧ _))
  | .command (.unloadTimeSeq _) => inferInstanceAs (Decidable (_ = _))
  | .command (.getInputType ..) | .loadTimeSeq _ | .commit | .setPlaying _ => isTrue trivial

end Ksi.Dag

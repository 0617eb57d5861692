/-
The graph that the scheduler gets.

The scheduler reads ids, successor lists and counts.  `Graph.sched` is what it reads of
a version; that of a coherent version is coherent in the scheduler's sense.  A version
need not lead to its final node, though, and then cycles overlap.
-/
import Ksi.Proofs.Dag.Remove
import Ksi.Proofs.Dag.Ring
import Ksi.Proofs.Sched.Overlap

namespace Ksi.Dag

open Runs

variable {g : Graph} {i : Nat} {p : NodePtr} {node : KsiNode}

/-- The node with this id. -/
def Graph.node? (g : Graph) (id : Nat) : Option KsiNode := (g.nodes.check id).join.bind g.heap

/-- What the scheduler reads of a version. -/
def Graph.sched (g : Graph) : Sched.Graph where
  nodes := (List.range g.nodes.size).filter fun i => (g.node? i).isSome
  successors := fun i => ((g.node? i).map (·.successors)).getD []
  depNum := fun i => ((g.node? i).map (·.depNum.toNat)).getD 0
  output := fun i => if (g.node? i).any (·.isFinal) then .final else .normal
  finalNode := (g.finalNode.bind g.heap).map (·.id)

theorem Graph.node?_eq_some : g.node? i = some node ↔ ∃ p, g.nodes.Holds i p ∧
    g.heap p = some node := by
  unfold node?
  constructor
  · intro h
    obtain ⟨p, hp, hnode⟩ := Option.bind_eq_some_iff.mp h
    have hcheck : g.nodes.check i = some (some p) := by
      cases hc : g.nodes.check i with
      | none => simp [hc] at hp
      | some slot => simpa [hc] using hp
    exact ⟨p, by simpa using (KsiVec.check_some hcheck).1, hnode⟩
  · rintro ⟨p, hp, hnode⟩
    rw [hp.check]
    exact hnode

theorem Graph.mem_sched_nodes : i ∈ g.sched.nodes ↔ ∃ node, g.node? i = some node := by
  unfold sched
  simp only [List.mem_filter, List.mem_range, Option.isSome_iff_exists]
  refine ⟨fun h => h.2, fun ⟨node, hnode⟩ => ⟨?_, node, hnode⟩⟩
  obtain ⟨p, hp, -⟩ := node?_eq_some.mp hnode
  exact hp.1

/-- The node at an id of a coherent graph. -/
theorem Coherent.node? (h : Coherent g) : g.node? i = some node ↔
    ∃ p, g.heap p = some node ∧ node.id = i := by
  rw [Graph.node?_eq_some]
  constructor
  · rintro ⟨p, hp, hnode⟩
    obtain ⟨m, hm, hid⟩ := h.slots i p hp
    obtain rfl : node = m := Option.some.inj (hnode.symm.trans hm)
    exact ⟨p, hnode, hid⟩
  · rintro ⟨p, hnode, rfl⟩
    exact ⟨p, h.named p node hnode, hnode⟩

/-- The nodes that list an id are as many as the sources of its node. -/
theorem Coherent.sched_preds (h : Coherent g) (hp : g.heap p = some node) :
    (g.sched.preds node.id).length = node.preds.card := by
  have hnodup : (g.sched.preds node.id).Nodup := (List.nodup_range.filter _).filter _
  -- the ids of the predecessors and their addresses
  rw [← List.toFinset_card_of_nodup hnodup]
  refine (Finset.card_bij (fun q _ => ((g.heap q).map (·.id)).getD 0) ?_ ?_ ?_).symm
  · intro q hq
    obtain ⟨m, hm⟩ := h.pred_live hp hq
    have hat := h.node?.mpr ⟨q, hm, rfl⟩
    rw [hm, List.mem_toFinset]
    simp only [Option.map_some, Option.getD_some]
    unfold Sched.Graph.preds
    refine List.mem_filter.mpr ⟨Graph.mem_sched_nodes.mpr ⟨m, hat⟩, ?_⟩
    simp only [Graph.sched, hat, Option.map_some, Option.getD_some, decide_eq_true_eq]
    exact (h.successors q m hm p node hp).mpr hq
  · intro q hq r hr heq
    obtain ⟨m, hm⟩ := h.pred_live hp hq
    obtain ⟨k, hk⟩ := h.pred_live hp hr
    rw [hm, hk] at heq
    exact h.id_inj hm hk heq
  · intro j hj
    rw [List.mem_toFinset] at hj
    unfold Sched.Graph.preds at hj
    obtain ⟨hlive, hlists⟩ := List.mem_filter.mp hj
    obtain ⟨m, hm⟩ := Graph.mem_sched_nodes.mp hlive
    obtain ⟨q, hq, rfl⟩ := h.node?.mp hm
    simp only [Graph.sched, hm, Option.map_some, Option.getD_some, decide_eq_true_eq] at hlists
    exact ⟨q, (h.successors q m hq p node hp).mp hlists, by rw [hq]; rfl⟩

/-- **A coherent version is a coherent graph for the scheduler.** -/
theorem Coherent.sched (h : Coherent g) : g.sched.Coherent := by
  constructor
  case nodup => exact List.nodup_range.filter _
  case closed =>
    intro i hi d hd
    obtain ⟨node, hnode⟩ := Graph.mem_sched_nodes.mp hi
    obtain ⟨p, hp, rfl⟩ := h.node?.mp hnode
    simp only [Graph.sched, hnode, Option.map_some, Option.getD_some] at hd
    obtain ⟨q, m, hm, rfl⟩ := h.successorsLive p node hp d hd
    exact Graph.mem_sched_nodes.mpr ⟨m, h.node?.mpr ⟨q, hm, rfl⟩⟩
  case successors_nodup =>
    intro i hi
    obtain ⟨node, hnode⟩ := Graph.mem_sched_nodes.mp hi
    obtain ⟨p, hp, -⟩ := h.node?.mp hnode
    simp only [Graph.sched, hnode, Option.map_some, Option.getD_some]
    exact h.nodup p node hp
  case depNum =>
    intro i hi
    obtain ⟨node, hnode⟩ := Graph.mem_sched_nodes.mp hi
    obtain ⟨p, hp, rfl⟩ := h.node?.mp hnode
    rw [h.sched_preds hp]
    simp only [Graph.sched, hnode, Option.map_some, Option.getD_some]
    rw [h.depNum p node hp]
    rfl
  case final =>
    intro i hi
    obtain ⟨node, hnode⟩ := Graph.mem_sched_nodes.mp hi
    obtain ⟨p, hp, rfl⟩ := h.node?.mp hnode
    simp only [Graph.sched, hnode, Option.any_some, Option.map_eq_some_iff, Option.bind_eq_some_iff]
    constructor
    · intro hf
      split at hf
      · exact ⟨node, ⟨p, (h.final p).mpr ⟨node, hp, ‹_›⟩, hp⟩, rfl⟩
      · cases hf
    · rintro ⟨m, ⟨q, hq, hm⟩, hid⟩
      obtain rfl := h.id_inj hm hp hid
      obtain ⟨k, hk, hf⟩ := (h.final q).mp hq
      obtain rfl : node = k := Option.some.inj (hp.symm.trans hk)
      rw [if_pos hf]
  case finalNode =>
    intro f hf
    simp only [Graph.sched, Option.map_eq_some_iff, Option.bind_eq_some_iff] at hf
    obtain ⟨m, ⟨q, -, hm⟩, rfl⟩ := hf
    exact Graph.mem_sched_nodes.mpr ⟨m, h.node?.mpr ⟨q, hm, rfl⟩⟩

/-! ### A version that does not lead to its final node -/

/-- A final node and a node without wires. -/
def strayCalls : List Call := [.addNode 0x10010, .addNode 0x10000]

theorem strayCalls_sched : ∃ s, run step (ksiEngineInit 64) strayCalls = some s ∧
    s.graph.sched = Sched.stray := by
  have hrun : (run step (ksiEngineInit 64) strayCalls).map (fun s => (s.graph.nodes.size,
      [s.graph.node? 0, s.graph.node? 1], (s.graph.finalNode.bind s.graph.heap).map (·.id))) =
      some (2, [some (freshNode 0x10010 ([0], [0]) 0), some (freshNode 0x10000 ([0], [0]) 1)],
        some 0) := by
    decide +kernel
  obtain ⟨s, hs, hobs⟩ := Option.map_eq_some_iff.mp hrun
  simp only [Prod.mk.injEq, List.cons.injEq] at hobs
  obtain ⟨hsize, ⟨h0, h1, -⟩, hfinal⟩ := hobs
  have hnone : ∀ i, 2 ≤ i → s.graph.node? i = none := by
    intro i hi
    unfold Graph.node? KsiVec.check
    rw [if_pos (by omega)]
    rfl
  refine ⟨s, hs, ?_⟩
  unfold Graph.sched Sched.stray
  congr 1
  · rw [hsize]
    simp [List.range_succ, h0, h1]
  · funext i
    match i with
    | 0 => simp [h0, freshNode]
    | 1 => simp [h1, freshNode]
    | i + 2 => simp [hnone (i + 2) (by omega)]
  · funext i
    match i with
    | 0 => simp [h0, freshNode]
    | 1 => simp [h1, freshNode]
    | i + 2 => simp [hnone (i + 2) (by omega)]
  · funext i
    match i with
    | 0 => rw [h0]; rfl
    | 1 => rw [h1]; rfl
    | i + 2 => simp [hnone (i + 2) (by omega)]

/-- **Cycles can overlap**: the callback returns while a node that the final node does
not wait for is still queued. -/
theorem not_cyclesApart : ¬ ∀ (calls : List Call), (∀ c ∈ calls, Builds c) →
    ∀ s, run step (ksiEngineInit 64) calls = some s → Rel.Acyclic s.graph.sched.Edge →
      s.graph.sched.finalNode.isSome → ∀ st : Sched.State (Fin 2),
        Reaches (Sched.step s.graph.sched) Free (Sched.init (Fin 2)) st →
          Sched.CyclesApart s.graph.sched st := by
  intro h
  obtain ⟨s, hs, hstray⟩ := strayCalls_sched
  have hapart := h strayCalls (by decide) s hs
  rw [hstray] at hapart
  obtain ⟨st, hreach, hret, hqueue, hfinished⟩ := Sched.stray_overlaps
  have := ((hapart Sched.stray_acyclic rfl st hreach).returned hret 1 (by decide)).1
  omega

end Ksi.Dag

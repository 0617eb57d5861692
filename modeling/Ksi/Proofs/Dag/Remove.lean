/-
RemoveNode in a coherent graph.

RemoveNode takes the node's entries out of its successors, marks the sources of its own
entries to find each once, and takes the id out of their successor lists.  In a coherent
graph the three loops meet only live nodes, and come to `Graph.remove`: every other node
forgets the removed one.
-/
import Ksi.Proofs.Dag.Coherent

namespace Ksi.Dag

open Prog

variable {s : Engine} {E : KsiError → Engine → Prop} {g : Graph} {n p q : NodePtr}
  {node m : KsiNode} {f f' : NodePtr → KsiNode → KsiNode}

/-! ### Changing every node -/

/-- The graph with a change of every node. -/
def Graph.mapNodes (g : Graph) (f : NodePtr → KsiNode → KsiNode) : Graph :=
  { g with heap := fun q => (g.heap q).map (f q) }

namespace Graph

@[simp] theorem heap_mapNodes (q : NodePtr) : (g.mapNodes f).heap q = (g.heap q).map (f q) := rfl

theorem mapNodes_of_heap (h : g.heap q = some m) : (g.mapNodes f).heap q = some (f q m) := by
  rw [heap_mapNodes, h, Option.map_some]

@[simp] theorem nodes_mapNodes : (g.mapNodes f).nodes = g.nodes := rfl

theorem mapNodes_congr (h : ∀ q m, g.heap q = some m → f q m = f' q m) :
    g.mapNodes f = g.mapNodes f' := by
  refine ext_heap rfl rfl rfl fun q => ?_
  simp only [heap_mapNodes]
  cases hheap : g.heap q with
  | none => rfl
  | some m => rw [Option.map_some, Option.map_some, h q m hheap]

theorem mapNodes_self (h : ∀ q m, g.heap q = some m → f q m = m) : g.mapNodes f = g := by
  refine ext_heap rfl rfl rfl fun q => ?_
  simp only [heap_mapNodes]
  cases hheap : g.heap q with
  | none => rfl
  | some m => rw [Option.map_some, h q m hheap]

theorem mapNodes_mapNodes : (g.mapNodes f).mapNodes f' = g.mapNodes fun q m => f' q (f q m) := by
  refine ext_heap rfl rfl rfl fun q => ?_
  simp only [heap_mapNodes, Option.map_map]
  rfl

/-- A further change of the node at `p`. -/
theorem mapNodes_update {h : KsiNode → KsiNode} :
    (g.mapNodes f).update p h = g.mapNodes fun q m => if q = p then h (f q m) else f q m := by
  refine ext_heap rfl rfl rfl fun q => ?_
  rw [heap_update, heap_mapNodes, heap_mapNodes]
  by_cases hq : q = p
  · subst hq
    simp [Option.map_map, Function.comp_def]
  · simp [hq]

end Graph

/-- Dropping entries leaves none dangling. -/
theorem EntriesLive.mapNodes (h : EntriesLive g)
    (houtputs : ∀ q m, g.heap q = some m → (f q m).outputs = m.outputs)
    (hentries : ∀ q m, g.heap q = some m → ∀ port ∈ (f q m).inputs, ∀ e ∈ port.entries,
      ∃ port' ∈ m.inputs, e ∈ port'.entries) : EntriesLive (g.mapNodes f) := by
  intro q m' hq port hport e he src hsrc
  obtain ⟨m, hm, rfl⟩ := Option.map_eq_some_iff.mp hq
  obtain ⟨port', hport', he'⟩ := hentries q m hm port hport e he
  obtain ⟨r, hr, hget⟩ := h q m hm port' hport' e he' src hsrc
  exact ⟨f src r, by rw [Graph.heap_mapNodes, hr]; rfl, by rwa [houtputs src r hr]⟩

/-! ### The successors of the removed node -/

/-- A successor without its wires from `n`. -/
def KsiNode.release (n : NodePtr) (m : KsiNode) : KsiNode :=
  { m.dropSrc n with depNum := m.depNum - 1 }

/-- The successors that the loop has met are released. -/
def releasing (n : NodePtr) (successors rest : List Nat) (_ : NodePtr) (m : KsiNode) : KsiNode :=
  if m.id ∈ successors ∧ m.id ∉ rest then m.release n else m

theorem releasing_id {successors rest : List Nat} :
    (releasing n successors rest q m).id = m.id := by
  unfold releasing
  split <;> rfl

theorem releasing_outputs {successors rest : List Nat} :
    (releasing n successors rest q m).outputs = m.outputs := by
  unfold releasing
  split <;> rfl

theorem releasing_entries {successors rest : List Nat} :
    ∀ port ∈ (releasing n successors rest q m).inputs, ∀ e ∈ port.entries,
      ∃ port' ∈ m.inputs, e ∈ port'.entries := by
  intro port hport e he
  unfold releasing at hport
  split at hport
  · obtain ⟨port', hport', rfl⟩ := List.mem_map.mp hport
    exact ⟨port', hport', (List.mem_filter.mp he).1⟩
  · exact ⟨port, hport, he⟩

/-- The vector has what is live, but for the removed node. -/
theorem Coherent.data_delete (h : Coherent g) (hn : g.heap n = some node) (hp : g.heap p = some m)
    (hne : p ≠ n) : (ksiVecDelete g.nodes node.id).data m.id = some p :=
  ((KsiVec.holds_delete (h.named n node hn)).mpr
    ⟨fun hid => hne (h.id_inj hp hn hid), h.named p m hp⟩).2

/-- One step of the loop over the successors. -/
theorem releaseSuccessor_wp (h : Coherent g) (hn : g.heap n = some node) {loc : Nat}
    {rest : List Nat} (hloc : loc ∈ node.successors) (hrest : loc ∉ rest)
    (hs : s.graph = Graph.mapNodes { g with nodes := ksiVecDelete g.nodes node.id }
      (releasing n node.successors (loc :: rest))) :
    wp False (releaseSuccessor n .editing loc) s (fun _ s' =>
      s'.graph = Graph.mapNodes { g with nodes := ksiVecDelete g.nodes node.id }
        (releasing n node.successors rest)) E := by
  obtain ⟨p, m, hp, rfl⟩ := h.successorsLive n node hn loc hloc
  have hpn : p ≠ n := by
    rintro rfl
    exact h.irreflexive p m hp ((h.successors p node hn p m hp).mp hloc)
  have hdata : s.graph.nodes.data m.id = some p := by
    rw [hs]
    exact h.data_delete hn hp hpn
  have hlive : s.graph.heap p = some m := by
    rw [hs, Graph.heap_mapNodes, hp, Option.map_some]
    unfold releasing
    rw [if_neg fun h => h.2 List.mem_cons_self]
  unfold releaseSuccessor
  rw [wp_bind, wp_read]
  refine ⟨fun hnone => absurd hnone (by rw [hdata]; simp), fun p' hp' => ?_⟩
  obtain rfl : p = p' := Option.some.inj (hdata.symm.trans hp')
  rw [wp_bind, wp_update]
  refine ⟨fun hnone => absurd hnone (by rw [hlive]; simp), fun _ _ => ?_⟩
  have hlives :
    EntriesLive (s.graph.update p fun node => { node with depNum := node.depNum - 1 }) := by
    rw [hs, Graph.mapNodes_update]
    refine EntriesLive.mapNodes (g := { g with nodes := ksiVecDelete g.nodes node.id })
      h.entriesLive (fun q r _ => ?_) fun q r _ => ?_
    · split <;> exact releasing_outputs
    · split <;> exact releasing_entries
  have hat : (s.graph.update p fun node => { node with depNum := node.depNum - 1 }).heap p =
      some { m with depNum := m.depNum - 1 } := by
    rw [Graph.heap_update, if_pos rfl, hlive]
    rfl
  refine wp_mono (deleteSrcs_wp (fun _ => rfl) hat fun _ input hinput => ?_) (fun _ s' hs' => ?_)
    fun _ _ hE => hE
  · exact hlives.followable hat hinput fun _ he => (List.mem_filter.mp he).1
  · rw [hs'.1]
    show (s.graph.update p _).update p _ = _
    rw [Graph.update_update, hs, Graph.mapNodes_update]
    refine Graph.mapNodes_congr fun q r hr => ?_
    have hid : r.id = m.id ↔ q = p :=
      ⟨fun hid => h.id_inj hr hp hid,
        fun hq => by subst hq; exact congrArg KsiNode.id (Option.some.inj (hr.symm.trans hp))⟩
    unfold releasing
    by_cases hq : q = p
    · have hrid := hid.mpr hq
      rw [if_pos hq, hrid, if_neg fun h => h.2 List.mem_cons_self, if_pos ⟨hloc, hrest⟩]
      rfl
    · have hrid : r.id ≠ m.id := fun heq => hq (hid.mp heq)
      rw [if_neg hq]
      simp [hrid]

/-- **The first loop**: every successor is released. -/
theorem releaseSuccessors_wp (h : Coherent g) (hn : g.heap n = some node)
    (hs : s.graph = { g with nodes := ksiVecDelete g.nodes node.id }) :
    wp False (forEach node.successors (releaseSuccessor n .editing)) s (fun _ s' =>
      s'.graph = Graph.mapNodes { g with nodes := ksiVecDelete g.nodes node.id }
        (releasing n node.successors [])) E := by
  have hloop := wp_forEach (d := False) (E := E) (f := releaseSuccessor n .editing)
    (fun rest s' => (∃ done, node.successors = done ++ rest) ∧
      s'.graph = Graph.mapNodes { g with nodes := ksiVecDelete g.nodes node.id }
        (releasing n node.successors rest)) ?_ node.successors (s := s) ⟨⟨[], rfl⟩, ?_⟩
  · exact wp_mono hloop (fun _ _ h' => h'.2) fun _ _ hE => hE
  · rintro loc rest s' ⟨⟨done, hdone⟩, hs'⟩
    have hnodup := h.nodup n node hn
    rw [hdone] at hnodup
    have hrest := (List.nodup_cons.mp (List.nodup_append.mp hnodup).2.1).1
    refine wp_mono (releaseSuccessor_wp h hn (by rw [hdone]; simp) hrest hs')
      (fun _ s'' hs'' => ⟨⟨done ++ [loc], by simp [hdone]⟩, hs''⟩) fun _ _ hE => hE
  · rw [hs]
    refine (Graph.mapNodes_self fun q m _ => ?_).symm
    unfold releasing
    rw [if_neg fun h => h.2 h.1]

/-! ### The predecessors of the removed node -/

/-- `p->type |= ksiNodeTypeScratchPredecessor`. -/
def KsiNode.mark (m : KsiNode) : KsiNode :=
  { m with type := m.type ||| ksiNodeTypeScratchPredecessor }

theorem mark_ne_zero (t : BitVec 32) :
    (t ||| ksiNodeTypeScratchPredecessor) &&& ksiNodeTypeScratchPredecessor ≠ 0 := by
  intro h
  have hbit := congrArg (fun b : BitVec 32 => b.getLsbD 8) h
  simp [ksiNodeTypeScratchPredecessor] at hbit

theorem and_predecessor_eq_zero {t : BitVec 32} (h : t &&& ksiNodeTypeScratchMask = 0) :
    t &&& ksiNodeTypeScratchPredecessor = 0 := by
  have hmask : ksiNodeTypeScratchPredecessor =
      ksiNodeTypeScratchMask &&& ksiNodeTypeScratchPredecessor := by decide
  rw [hmask, ← BitVec.and_assoc, h]
  decide

/-- Unmarking gives the type back. -/
theorem unmark_mark {t : BitVec 32} (h : t &&& ksiNodeTypeScratchMask = 0) :
    (t ||| ksiNodeTypeScratchPredecessor) &&& ~~~ksiNodeTypeScratchPredecessor = t := by
  have hzero := and_predecessor_eq_zero h
  ext i hi
  have hbit := congrArg (fun b : BitVec 32 => b.getLsbD i) hzero
  simp only [BitVec.getLsbD_and] at hbit
  simp only [BitVec.getElem_and, BitVec.getElem_or, BitVec.getElem_not]
  simp only [← BitVec.getLsbD_eq_getElem]
  cases ht : t.getLsbD i <;> cases hp : ksiNodeTypeScratchPredecessor.getLsbD i <;> simp_all

/-- The predecessors found so far are marked. -/
def marking (precs : List NodePtr) (q : NodePtr) (m : KsiNode) : KsiNode :=
  if q ∈ precs then m.mark else m

theorem marking_id {precs : List NodePtr} : (marking precs q m).id = m.id := by
  unfold marking
  split <;> rfl

/-- **The second loop**: every source of the entries is found once and marked. -/
theorem regPrecs_wp :
    ∀ (entries : List Entry) (precs : List NodePtr) {s : Engine},
      (∀ e ∈ entries, ∀ p, e.src = some p → ∃ m, g.heap p = some m ∧
        g.nodes.data m.id = some p ∧ m.type &&& ksiNodeTypeScratchMask = 0) →
      precs.Nodup → s.graph = g.mapNodes (marking precs) →
      wp False (regPrecs entries precs) s (fun precs' s' => precs'.Nodup ∧
        (∀ q, q ∈ precs' ↔ q ∈ precs ∨ ∃ e ∈ entries, e.src = some q) ∧
        s'.graph = g.mapNodes (marking precs')) E := by
  intro entries
  induction entries with
  | nil =>
      intro precs s _ hnodup hs
      exact ⟨hnodup, fun q => by simp, hs⟩
  | cons me rest ih =>
      intro precs s hlive hnodup hs
      have hlive' := fun e he => hlive e (List.mem_cons_of_mem _ he)
      unfold regPrecs
      cases hsrc : me.src with
      | none =>
          refine wp_mono (ih precs hlive' hnodup hs)
            (fun precs' s' h' => ⟨h'.1, fun q => ?_, h'.2.2⟩)
            fun _ _ hE => hE
          rw [h'.2.1]
          simp [hsrc]
      | some p =>
          obtain ⟨m, hm, hdata, hscratch⟩ := hlive me List.mem_cons_self p hsrc
          have hheap : s.graph.heap p = some (marking precs p m) := by
            rw [hs, Graph.heap_mapNodes, hm, Option.map_some]
          have hnodes : s.graph.nodes = g.nodes := by rw [hs]; rfl
          simp only [wp_bind, wp_debug_check_node, wp_load]
          refine ⟨fun hnone => absurd hnone (by rw [hheap]; simp), fun node hnode => ⟨fun _ =>
            ⟨fun hnone => absurd hnone (by rw [hheap]; simp), fun node' hnode' => ?_⟩,
              fun hno => ?_⟩⟩
          · obtain rfl : marking precs p m = node' := Option.some.inj (hheap.symm.trans hnode')
            rw [wp_ite]
            refine ⟨fun hunmarked => ?_, fun hmarked => ?_⟩
            · have hp : p ∉ precs := by
                intro hp
                unfold marking at hunmarked
                rw [if_pos hp] at hunmarked
                exact mark_ne_zero m.type hunmarked
              rw [wp_bind, wp_update]
              refine ⟨fun hnone => absurd hnone (by rw [hheap]; simp), fun _ _ => ?_⟩
              refine wp_mono (ih (p :: precs) hlive' (List.nodup_cons.mpr ⟨hp, hnodup⟩) ?_)
                (fun precs' s' h' => ⟨h'.1, fun q => ?_, h'.2.2⟩) fun _ _ hE => hE
              · show s.graph.update p _ = _
                rw [hs, Graph.mapNodes_update]
                refine Graph.mapNodes_congr fun q r _ => ?_
                unfold marking
                by_cases hq : q = p
                · subst hq
                  rw [if_pos rfl, if_neg hp, if_pos List.mem_cons_self]
                  rfl
                · simp [hq]
              · rw [h'.2.1, List.mem_cons]
                simp only [List.exists_mem_cons_iff, hsrc, Option.some.injEq]
                tauto
            · have hp : p ∈ precs := by
                by_contra hp
                unfold marking at hmarked
                rw [if_neg hp] at hmarked
                exact hmarked (and_predecessor_eq_zero hscratch)
              refine wp_mono (ih precs hlive' hnodup hs)
                (fun precs' s' h' => ⟨h'.1, fun q => ?_, h'.2.2⟩) fun _ _ hE => hE
              rw [h'.2.1]
              simp only [List.exists_mem_cons_iff, hsrc, Option.some.injEq]
              constructor
              · tauto
              · rintro (h | rfl | h)
                · exact .inl h
                · exact .inl hp
                · exact .inr h
          · obtain rfl : marking precs p m = node := Option.some.inj (hheap.symm.trans hnode)
            rw [marking_id, hnodes] at hno
            exact hno hdata

/-- The predecessors that the loop has met are unmarked, and do not list the id. -/
def unlisting (id : Nat) (precs rest : List NodePtr) (q : NodePtr) (m : KsiNode) : KsiNode :=
  if q ∈ rest then m.mark
  else if q ∈ precs then { m with successors := m.successors.erase id } else m

/-- **The third loop**: every predecessor found is unmarked and loses the successor. -/
theorem releasePrecs_wp {precs : List NodePtr} {id : Nat} (hnodup : precs.Nodup)
    (hlive : ∀ p ∈ precs, ∃ m, g.heap p = some m ∧ m.type &&& ksiNodeTypeScratchMask = 0)
    (hs : s.graph = g.mapNodes (marking precs)) :
    wp False (forEach precs (releasePrec id)) s
      (fun _ s' => s'.graph = g.mapNodes (unlisting id precs [])) E := by
  have hloop := wp_forEach (d := False) (E := E) (f := releasePrec id)
    (fun rest s' => (∃ done, precs = done ++ rest) ∧
      s'.graph = g.mapNodes (unlisting id precs rest)) ?_ precs (s := s) ⟨⟨[], rfl⟩, ?_⟩
  · exact wp_mono hloop (fun _ _ h' => h'.2) fun _ _ hE => hE
  · rintro p rest s' ⟨⟨done, hdone⟩, hs'⟩
    have hp : p ∈ precs := by simp [hdone]
    have hrest : p ∉ rest := by
      rw [hdone] at hnodup
      exact (List.nodup_cons.mp (List.nodup_append.mp hnodup).2.1).1
    obtain ⟨m, hm, hscratch⟩ := hlive p hp
    have hheap : s'.graph.heap p = some m.mark := by
      rw [hs', Graph.heap_mapNodes, hm, Option.map_some]
      unfold unlisting
      rw [if_pos List.mem_cons_self]
    unfold releasePrec
    rw [wp_bind, wp_update]
    refine ⟨fun hnone => absurd hnone (by rw [hheap]; simp), fun _ _ => ?_⟩
    rw [wp_update]
    refine ⟨fun hnone => absurd hnone ?_, fun _ _ => ⟨⟨done ++ [p], by simp [hdone]⟩, ?_⟩⟩
    · rw [Graph.heap_update, if_pos rfl, hheap]
      simp
    · show (s'.graph.update p _).update p _ = _
      rw [Graph.update_update, hs', Graph.mapNodes_update]
      refine Graph.mapNodes_congr fun q r hr => ?_
      unfold unlisting
      by_cases hq : q = p
      · subst hq
        obtain rfl : r = m := Option.some.inj (hr.symm.trans hm)
        rw [if_pos rfl, if_pos List.mem_cons_self, if_neg hrest, if_pos hp]
        simp only [Function.comp_apply, KsiNode.mark, unmark_mark hscratch]
      · simp [hq]
  · rw [hs]
    refine Graph.mapNodes_congr fun q r _ => ?_
    unfold marking unlisting
    split <;> rfl

/-! ### The whole of RemoveNode -/

/-- What is left of a node when `n`, whose id is `id`, has been removed. -/
def KsiNode.forget (n : NodePtr) (id : Nat) (m : KsiNode) : KsiNode :=
  { m.dropSrc n with
    successors := m.successors.erase id
    depNum := if n ∈ m.preds then m.depNum - 1 else m.depNum }

/-- The graph without `n`, which is still in the heap. -/
def Graph.detach (g : Graph) (n : NodePtr) (node : KsiNode) : Graph :=
  Graph.mapNodes { g with
    nodes := ksiVecDelete g.nodes node.id
    finalNode := if node.isFinal then none else g.finalNode } fun _ => KsiNode.forget n node.id

/-- The graph without `n`. -/
def Graph.remove (g : Graph) (n : NodePtr) (node : KsiNode) : Graph :=
  { g.detach n node with heap := Function.update (g.detach n node).heap n none }

/-- A node without wires from `n`. -/
theorem KsiNode.dropSrc_eq_self (h : n ∉ m.preds) : m.dropSrc n = m := by
  have hports : m.inputs.map (·.without n) = m.inputs := by
    refine (List.map_congr_left fun port hport => ?_).trans (List.map_id _)
    have hkeep : ∀ e ∈ port.entries, (e.src != some n) = true := by
      intro e he
      rw [bne_iff_ne]
      exact fun hsrc => h (mem_preds.mpr ⟨port, hport, e, he, hsrc⟩)
    unfold InputPort.without
    rw [List.filter_eq_self.mpr hkeep]
    rfl
  unfold dropSrc
  rw [hports]

/-- What the loops do to a node is to make it forget `n`. -/
theorem Coherent.forget_eq (h : Coherent g) (hn : g.heap n = some node) (hm : g.heap q = some m)
    {precs : List NodePtr} (hprecs : ∀ p, p ∈ precs ↔ p ∈ node.preds) :
    unlisting node.id precs [] q (releasing n node.successors [] q m) = m.forget n node.id := by
  have hsucc := h.successors n node hn q m hm
  have hlist := h.successors q m hm n node hn
  have hrelease : releasing n node.successors [] q m =
      { m.dropSrc n with depNum := if n ∈ m.preds then m.depNum - 1 else m.depNum } := by
    unfold releasing
    by_cases hmem : m.id ∈ node.successors
    · rw [if_pos ⟨hmem, List.not_mem_nil⟩, if_pos (hsucc.mp hmem)]
      rfl
    · have hno : n ∉ m.preds := fun hp => hmem (hsucc.mpr hp)
      rw [if_neg fun h => hmem h.1, if_neg hno, KsiNode.dropSrc_eq_self hno]
  rw [hrelease]
  unfold unlisting KsiNode.forget
  rw [if_neg List.not_mem_nil]
  by_cases hq : q ∈ precs
  · rw [if_pos hq]
    rfl
  · have hno : node.id ∉ m.successors := fun hmem => hq ((hprecs q).mpr (hlist.mp hmem))
    rw [if_neg hq, List.erase_of_not_mem hno]
    rfl

theorem impl_ksiEngineRemoveNode_wp {id : Int} {Q : NodePtr → Engine → Prop} (h : Coherent s.graph)
    (hid : 0 ≤ id) (hE : ∀ err, E err s)
    (hQ : ∀ n node s', s.graph.nodes.check id = some (some n) → s.graph.heap n = some node →
      s'.graph = s.graph.detach n node → Q n s') :
    wp False (impl_ksiEngineRemoveNode id .editing) s Q E := by
  unfold impl_ksiEngineRemoveNode
  rw [wp_bind, wp_checkInitialized]
  refine ⟨fun _ => ?_, fun _ => hE _⟩
  rw [wp_bind, wp_checkVec]
  refine ⟨fun hnone => KsiVec.check_ne_none hid hnone, fun _ => hE _, fun n hcheck => ?_⟩
  obtain ⟨node, hn, hnid⟩ := h.slots _ _ (KsiVec.check_some hcheck).1
  have hself : n ∉ node.preds := h.irreflexive n node hn
  have hnot : node.id ∉ node.successors := fun hmem =>
    hself ((h.successors n node hn n node hn).mp hmem)
  rw [wp_bind, wp_modify, wp_bind, wp_load, ← hnid]
  refine ⟨fun hnone => absurd hnone (by simp [hn]), fun node' hnode' => ?_⟩
  obtain rfl : node' = node := Option.some.inj (hnode'.symm.trans hn)
  rw [wp_bind]
  refine wp_mono (releaseSuccessors_wp h hn rfl) (fun _ s₁ hs₁ => ?_) fun _ _ hE => hE
  -- the node itself is not one of its successors
  have hnode₁ : s₁.graph.heap n = some node' := by
    rw [hs₁, Graph.heap_mapNodes]
    show (s.graph.heap n).map _ = _
    rw [hn, Option.map_some]
    unfold releasing
    rw [if_neg fun hmem => hnot hmem.1]
  rw [wp_bind, wp_load]
  refine ⟨fun hnone => absurd hnone (by rw [hnode₁]; simp), fun node₁ hnode => ?_⟩
  obtain rfl : node' = node₁ := Option.some.inj (hnode₁.symm.trans hnode)
  rw [wp_bind]
  have hpreds : ∀ q, (∃ e ∈ node'.inputs.flatMap (·.entries), e.src = some q) ↔
    q ∈ node'.preds := by
    intro q
    rw [KsiNode.mem_preds]
    simp only [List.mem_flatMap]
    constructor
    · rintro ⟨e, ⟨port, hport, he⟩, hsrc⟩
      exact ⟨port, hport, e, he, hsrc⟩
    · rintro ⟨port, hport, e, he, hsrc⟩
      exact ⟨e, ⟨port, hport, he⟩, hsrc⟩
  have hpred : ∀ p ∈ node'.preds, ∃ m, s₁.graph.heap p = some m ∧
      s₁.graph.nodes.data m.id = some p ∧ m.type &&& ksiNodeTypeScratchMask = 0 := by
    intro p hp
    obtain ⟨m, hm⟩ := h.pred_live hn hp
    have hpn : p ≠ n := fun heq => hself (heq ▸ hp)
    refine ⟨_, by rw [hs₁, Graph.heap_mapNodes]; exact congrArg _ hm, ?_, ?_⟩
    · rw [releasing_id, hs₁]
      exact h.data_delete hn hm hpn
    · have htype : (releasing n node'.successors [] p m).type = m.type := by
        unfold releasing
        split <;> rfl
      rw [htype]
      exact h.scratch p m hm
  refine wp_mono (regPrecs_wp (g := s₁.graph) (node'.inputs.flatMap (·.entries)) [] ?_ .nil ?_)
    (fun precs s₂ hs₂ => ?_) fun _ _ hE => hE
  · exact fun e he p hsrc => hpred p ((hpreds p).mp ⟨e, he, hsrc⟩)
  · exact (Graph.mapNodes_self fun q m _ => if_neg List.not_mem_nil).symm
  obtain ⟨hnodup, hmem, hs₂⟩ := hs₂
  have hprecs : ∀ p, p ∈ precs ↔ p ∈ node'.preds := by
    intro p
    rw [hmem, hpreds]
    simp
  rw [wp_bind]
  refine wp_mono (releasePrecs_wp hnodup (fun p hp => ?_) hs₂) (fun _ s₃ hs₃ => ?_) fun _ _ hE => hE
  · obtain ⟨m, hm, -, hscratch⟩ := hpred p ((hprecs p).mp hp)
    exact ⟨m, hm, hscratch⟩
  have hgraph₃ : s₃.graph = Graph.mapNodes
      { s.graph with nodes := ksiVecDelete s.graph.nodes node'.id } fun _ =>
        KsiNode.forget n node'.id := by
    rw [hs₃, hs₁, Graph.mapNodes_mapNodes]
    exact Graph.mapNodes_congr fun q m hm => h.forget_eq hn hm hprecs
  have hnode₃ : s₃.graph.heap n = some (node'.forget n node'.id) := by
    rw [hgraph₃, Graph.heap_mapNodes]
    exact congrArg _ hn
  rw [wp_bind, wp_load]
  refine ⟨fun hnone => absurd hnone (by rw [hnode₃]; simp), fun node₃ hnode' => ?_⟩
  obtain rfl : node'.forget n node'.id = node₃ := Option.some.inj (hnode₃.symm.trans hnode')
  have hfinal : (node'.forget n node'.id).isFinal = node'.isFinal := rfl
  rw [wp_bind, wp_when, hfinal]
  refine ⟨fun hf => hQ n node' _ hcheck hn ?_, fun hf => hQ n node' _ hcheck hn ?_⟩
  · show Graph.mk _ _ _ _ = _
    unfold Graph.detach
    rw [hgraph₃, if_pos hf]
    rfl
  · unfold Graph.detach
    rw [hgraph₃, if_neg hf]

/-! ### Coherence -/

theorem KsiNode.mem_forget_preds {id : Nat} :
    q ∈ (m.forget n id).preds ↔ q ≠ n ∧ q ∈ m.preds := by
  rw [mem_preds, mem_preds]
  constructor
  · rintro ⟨port, hport, e, he, hsrc⟩
    obtain ⟨port', hport', rfl⟩ := List.mem_map.mp hport
    obtain ⟨he', hne⟩ := List.mem_filter.mp he
    rw [bne_iff_ne, hsrc] at hne
    exact ⟨fun heq => hne (congrArg some heq), port', hport', e, he', hsrc⟩
  · rintro ⟨hne, port, hport, e, he, hsrc⟩
    refine ⟨port.without n, List.mem_map_of_mem hport, e, List.mem_filter.mpr ⟨he, ?_⟩, hsrc⟩
    rw [bne_iff_ne, hsrc]
    exact fun heq => hne (Option.some.inj heq)

/-- **RemoveNode** keeps the records together. -/
theorem Coherent.remove (h : Coherent g) (hn : g.heap n = some node) :
    Coherent (g.remove n node) := by
  have hholds := h.named n node hn
  have hheap : ∀ q m', (g.remove n node).heap q = some m' ↔
      q ≠ n ∧ ∃ m, g.heap q = some m ∧ m.forget n node.id = m' := by
    intro q m'
    unfold Graph.remove
    by_cases hq : q = n
    · simp [hq]
    · simp only [Function.update_of_ne hq, ne_eq, hq, not_false_eq_true, true_and]
      exact Option.map_eq_some_iff
  have hvec : ∀ i q, (g.remove n node).nodes.Holds i q ↔ i ≠ node.id ∧ g.nodes.Holds i q :=
    fun i q => KsiVec.holds_delete hholds
  have hids : ∀ q m, g.heap q = some m → (m.id = node.id ↔ q = n) := by
    intro q m hm
    refine ⟨fun hid => h.id_inj hm hn hid, fun hq => ?_⟩
    subst hq
    exact congrArg KsiNode.id (Option.some.inj (hm.symm.trans hn))
  refine ⟨⟨?slots, ?named, ?ports, ?successors, ?successorsLive, ?nodup, ?depNum⟩, ?tidy, ?fresh,
    ?irreflexive, ?scratch, ?final⟩
  case tidy => exact h.tidy.delete hholds
  case slots =>
    intro i q hq
    obtain ⟨hne, hold⟩ := (hvec i q).mp hq
    obtain ⟨m, hm, hid⟩ := h.slots i q hold
    have hqn : q ≠ n := fun heq => hne (hid.symm.trans ((hids q m hm).mpr heq))
    exact ⟨_, (hheap q _).mpr ⟨hqn, m, hm, rfl⟩, hid⟩
  case named =>
    intro q m' hq
    obtain ⟨hqn, m, hm, rfl⟩ := (hheap q m').mp hq
    exact (hvec _ q).mpr ⟨fun hid => hqn ((hids q m hm).mp hid), h.named q m hm⟩
  case fresh =>
    intro q m' hq
    obtain ⟨-, m, hm, rfl⟩ := (hheap q m').mp hq
    exact h.fresh q m hm
  case ports =>
    intro q m' hq port hport
    obtain ⟨-, m, hm, rfl⟩ := (hheap q m').mp hq
    obtain ⟨port', hport', rfl⟩ := List.mem_map.mp hport
    have hok := h.ports q m hm port' hport'
    have hsub : (port'.without n).entries.Sublist port'.entries := List.filter_sublist
    refine ⟨fun e he src hsrc => ?_, fun e he => hok.biases e (hsub.subset he),
      hok.nodup.sublist (hsub.map Entry.key)⟩
    obtain ⟨r, hr, htype⟩ := hok.wires e (hsub.subset he) src hsrc
    have hne : src ≠ n := by
      have hfilter := (List.mem_filter.mp he).2
      rw [bne_iff_ne, hsrc] at hfilter
      exact fun heq => hfilter (congrArg some heq)
    exact ⟨_, (hheap src _).mpr ⟨hne, r, hr, rfl⟩, htype⟩
  case successors =>
    intro p node' hp q m' hq
    obtain ⟨hpn, r, hr, rfl⟩ := (hheap p node').mp hp
    obtain ⟨hqn, m, hm, rfl⟩ := (hheap q m').mp hq
    show m.id ∈ r.successors.erase node.id ↔ _
    rw [KsiNode.mem_forget_preds, (h.nodup p r hr).mem_erase_iff, h.successors p r hr q m hm]
    exact and_congr_left' ⟨fun _ => hpn, fun _ hid => hqn ((hids q m hm).mp hid)⟩
  case successorsLive =>
    intro p node' hp d hd
    obtain ⟨-, r, hr, rfl⟩ := (hheap p node').mp hp
    obtain ⟨hne, hd'⟩ := (h.nodup p r hr).mem_erase_iff.mp hd
    obtain ⟨q, m, hm, hid⟩ := h.successorsLive p r hr d hd'
    have hqn : q ≠ n := fun heq => hne (hid.symm.trans ((hids q m hm).mpr heq))
    exact ⟨q, _, (hheap q _).mpr ⟨hqn, m, hm, rfl⟩, hid⟩
  case nodup =>
    intro p node' hp
    obtain ⟨-, r, hr, rfl⟩ := (hheap p node').mp hp
    exact (h.nodup p r hr).erase node.id
  case depNum =>
    intro p node' hp
    obtain ⟨-, r, hr, rfl⟩ := (hheap p node').mp hp
    have hpreds : (r.forget n node.id).preds = r.preds.erase n := by
      ext q
      rw [KsiNode.mem_forget_preds, Finset.mem_erase]
    rw [hpreds]
    show (if n ∈ r.preds then r.depNum - 1 else r.depNum) = _
    rw [h.depNum p r hr]
    split
    · rename_i hmem
      rw [Finset.card_erase_of_mem hmem]
      have := Finset.card_pos.mpr ⟨n, hmem⟩
      omega
    · rename_i hmem
      rw [Finset.erase_eq_of_notMem hmem]
  case irreflexive =>
    intro p node' hp hmem
    obtain ⟨-, r, hr, rfl⟩ := (hheap p node').mp hp
    exact h.irreflexive p r hr (KsiNode.mem_forget_preds.mp hmem).2
  case scratch =>
    intro p node' hp
    obtain ⟨-, r, hr, rfl⟩ := (hheap p node').mp hp
    exact h.scratch p r hr
  case final =>
    intro p
    have hfin : (g.remove n node).finalNode = if node.isFinal then none else g.finalNode := rfl
    rw [hfin]
    constructor
    · intro hp
      split at hp
      · cases hp
      · rename_i hnot
        obtain ⟨m, hm, hf⟩ := (h.final p).mp hp
        refine ⟨_, (hheap p _).mpr ⟨?_, m, hm, rfl⟩, hf⟩
        rintro rfl
        rw [hn] at hm
        cases hm
        exact hnot hf
    · rintro ⟨m', hm', hf⟩
      obtain ⟨hpn, m, hm, rfl⟩ := (hheap p m').mp hm'
      have hp := (h.final p).mpr ⟨m, hm, hf⟩
      rw [if_neg, hp]
      intro hnf
      have hn' := (h.final n).mpr ⟨node, hn, hnf⟩
      rw [hp] at hn'
      exact hpn (Option.some.inj hn')

/-! ### Every run -/

/-- AddNode, MakeWire, MakeBias and RemoveNode with ids and ports that are not negative,
no wire from a node to itself, and no scratch flag in the type of a new node. -/
def Builds : Call → Prop
  | .addNode typeFlags => typeFlags &&& ksiNodeTypeScratchMask = 0
  | .makeWire srcId srcPort desId desPort _ =>
      0 ≤ srcId ∧ 0 ≤ srcPort ∧ 0 ≤ desId ∧ 0 ≤ desPort ∧ srcId ≠ desId
  | .makeBias desId desPort _ => 0 ≤ desId ∧ 0 ≤ desPort
  | .removeNode id => 0 ≤ id
  | _ => False

instance : DecidablePred Builds := fun c => by
  unfold Builds
  cases c <;> infer_instance

theorem Coherent.liveNamed (h : Coherent g) : LiveNamed g := fun p node hp => (h.named p node hp).2

/-- A wire that is there already is listed already. -/
theorem Coherent.link_eq (h : Coherent g) {src des : NodePtr} {srcId srcPort desId desPort : Int}
    {srcNode desNode : KsiNode} {input : InputPort}
    (hports : Ports g srcId srcPort desId desPort src des srcNode desNode input)
    (hany : input.entries.any (·.isFrom src srcPort) = true) :
    g.link src des desId.toNat srcNode = g := by
  obtain ⟨-, hdesId, hsrc, hdes, -, hinput⟩ := hports
  obtain ⟨m, hm, hid⟩ := h.slots _ _ (KsiVec.check_some hdesId).1
  rw [hdes] at hm
  cases hm
  obtain ⟨e, he, hfrom⟩ := List.any_eq_true.mp hany
  simp only [Entry.isFrom, Bool.and_eq_true, beq_iff_eq] at hfrom
  have hpred : src ∈ desNode.preds :=
    KsiNode.mem_preds.mpr ⟨input, List.mem_of_getElem? (nth_some hinput).1, e, he, hfrom.1⟩
  unfold Graph.link
  rw [if_pos]
  rw [← hid]
  exact (h.successors src srcNode hsrc des desNode hdes).mpr hpred

/-- RemoveNode and the end of the node. -/
theorem removeNode_wp {id : Int} {Q : Option Nat → Engine → Prop} (h : Coherent s.graph)
    (hid : 0 ≤ id) (hE : ∀ err, E err s)
    (hQ : ∀ n node s', s.graph.nodes.check id = some (some n) → s.graph.heap n = some node →
      s'.graph = s.graph.remove n node → Q none s') :
    wp False ((Call.removeNode id).kernel .editing) s Q E := by
  unfold Call.kernel
  rw [wp_bind]
  refine impl_ksiEngineRemoveNode_wp h hid hE fun n node s' hcheck hn hs' => ?_
  have hn' : s'.graph.heap n = some (node.forget n node.id) := by
    rw [hs']
    show (s.graph.heap n).map _ = _
    rw [hn]
    rfl
  rw [wp_bind]
  refine ksiEngineDestroyNode_wp (fun _ => rfl) (fun _ => by simp [hn']) fun s'' hs'' =>
    hQ n node s'' hcheck hn ?_
  rw [hs'', hs']
  rfl

/-- **A call keeps the graph coherent**, and does not fault. -/
theorem Coherent.call (h : Coherent s.graph) {c : Call} (hc : Builds c) :
    wp False (c.kernel .editing) s (fun _ s' => Coherent s'.graph) fun _ s' =>
    Coherent s'.graph := by
  cases c with
  | addNode typeFlags =>
      unfold Call.kernel
      rw [wp_bind]
      refine impl_ksiEngineAddNode_wp (fun _ => rfl) typeFlags (fun _ _ => h)
        fun _ ports s' _ hsingle hs' => ?_
      show Coherent s'.graph
      rw [hs']
      exact h.add hc hsingle
  | makeWire srcId srcPort desId desPort gain =>
      obtain ⟨hsrc0, hsrcPort0, hdes0, hdesPort0, hne⟩ := hc
      unfold Call.kernel
      rw [wp_bind]
      refine impl_ksiEngineMakeWire_wp
        (fun _ => ⟨hsrc0, hsrcPort0, hdes0, hdesPort0, h.slots⟩) (fun _ => h) ?_
      intro src des srcNode desNode input hports htype
      refine ⟨fun s' hs' _ hany => ?_, fun s' hs' => ?_⟩
      · rw [hs', h.link_eq hports hany]
        exact h
      · show Coherent s'.graph
        rw [hs']
        exact h.wire hports htype hne
  | makeBias desId desPort bias =>
      unfold Call.kernel
      rw [wp_bind]
      refine impl_ksiEngineMakeBias_wp
        (fun _ => ⟨hc.1, hc.2, h.slots, h.liveNamed, h.entriesLive⟩) (fun _ => h) ?_
      intro des desNode input s' _ hdes hinput hsignal hs'
      show Coherent s'.graph
      rw [hs']
      exact h.bias hdes hinput hsignal
  | removeNode id =>
      refine removeNode_wp h hc (fun _ => h) fun n node s' _ hn hs' => ?_
      rw [hs']
      exact h.remove hn
  | detachNodes srcId desId => exact hc.elim
  | removeWire srcId srcPort desId desPort => exact hc.elim
  | sendEditingCommand id args => exact hc.elim

/-- A run of such calls comes to its end. -/
theorem Coherent.run :
    ∀ (calls : List Call) {s : Engine}, Coherent s.graph → (∀ c ∈ calls, Builds c) →
      ∃ s', Runs.run step s calls = some s' ∧ Coherent s'.graph := by
  intro calls
  induction calls with
  | nil => exact fun {s} h _ => ⟨s, rfl, h⟩
  | cons c rest ih =>
      intro s h hcalls
      obtain ⟨r, mid, hr, hok, herr⟩ := exists_of_wp (h.call (hcalls c List.mem_cons_self))
      have hmid : Coherent mid.graph := by
        cases r with
        | ok a => exact hok a rfl
        | error err => exact herr err rfl
      obtain ⟨s', hs', hcoherent⟩ := ih hmid fun c' hc' => hcalls c' (List.mem_cons_of_mem _ hc')
      refine ⟨s', ?_, hcoherent⟩
      have hstep : step s c = some mid := by
        unfold step
        rw [hr]
        rfl
      unfold Runs.run Runs.runChecked
      rw [if_pos (show Runs.Free s c from trivial), hstep]
      exact hs'

/-- Nothing in the graph refers to the node `n` or to the id. -/
structure Forgotten (g : Graph) (n : NodePtr) (id : Nat) : Prop where
  freed : g.heap n = none
  unused : ∀ q, ¬ g.nodes.Holds id q
  entries : ∀ q m, g.heap q = some m → ∀ port ∈ m.inputs, ∀ e ∈ port.entries, e.src ≠ some n
  successors : ∀ q m, g.heap q = some m → id ∉ m.successors

theorem Coherent.forgotten (h : Coherent g) (hn : g.heap n = some node) :
    Forgotten (g.remove n node) n node.id := by
  have hc := h.remove hn
  have hfreed : (g.remove n node).heap n = none := Function.update_self ..
  have hunused : ∀ q, ¬ (g.remove n node).nodes.Holds node.id q := fun q hq =>
    ((KsiVec.holds_delete (h.named n node hn)).mp hq).1 rfl
  refine ⟨hfreed, hunused, fun q m hm port hport e he hsrc => ?_, fun q m hm hmem => ?_⟩
  · obtain ⟨r, hr, -⟩ := (hc.ports q m hm port hport).wires e he n hsrc
    rw [hfreed] at hr
    cases hr
  · obtain ⟨r, k, hk, hid⟩ := hc.successorsLive q m hm _ hmem
    exact hunused r (hid ▸ hc.named r k hk)

/-- **The graph is coherent** after every run of AddNode, MakeWire, MakeBias and
RemoveNode, refused calls among them; no call faults, no port has two biases, and a node
that is removed then is forgotten. -/
theorem coherent_of_builds {framesPerBuffer : Nat} {calls : List Call}
    (hcalls : ∀ c ∈ calls, Builds c) :
    ∃ s, Runs.run step (ksiEngineInit framesPerBuffer) calls = some s ∧ Coherent s.graph ∧
      (∀ p node, s.graph.heap p = some node → ∀ port ∈ node.inputs,
        (port.entries.filter (·.src.isNone)).length ≤ 1) ∧
      ∀ id s', Builds (.removeNode id) →
        (Call.removeNode id).kernel .editing s = some (.ok none, s') →
        ∃ n, s.graph.nodes.check id = some (some n) ∧ Forgotten s'.graph n id.toNat := by
  obtain ⟨s, hs, h⟩ := Coherent.run calls (s := ksiEngineInit framesPerBuffer) .empty hcalls
  refine ⟨s, hs, h, fun p node hp port hport => (h.ports p node hp port hport).oneBias, ?_⟩
  intro id s' hid hs'
  refine of_wp_ok (Q := fun _ t => ∃ n, s.graph.nodes.check id = some (some n) ∧
    Forgotten t.graph n id.toNat) (E := fun _ _ => True)
    (removeNode_wp h hid (fun _ => trivial) ?_) hs'
  intro n node s'' hcheck hn hs''
  obtain ⟨m, hm, hmid⟩ := h.slots _ _ (KsiVec.check_some hcheck).1
  obtain rfl : node = m := Option.some.inj (hn.symm.trans hm)
  refine ⟨n, hcheck, ?_⟩
  rw [hs'', ← hmid]
  exact h.forgotten hn

/-- A node with a scratch flag in its type, and a wire to another one, which is removed. -/
def flaggedRun : List Call :=
  [.addNode 0x10100, .addNode 0x10000, .makeWire 0 0 1 0 0x3F800000, .removeNode 1]

/-- **A scratch flag in the type of a new node** stays there, and RemoveNode takes the node for
one that it has been at: the successor list keeps the id of the node that is gone. -/
theorem not_coherent : ¬ ∀ (framesPerBuffer : Nat) (calls : List Call),
    (∀ c ∈ calls, (∃ typeFlags, c = .addNode typeFlags) ∨ Builds c) →
    ∃ s, Runs.run step (ksiEngineInit framesPerBuffer) calls = some s ∧ Coherent s.graph := by
  intro h
  obtain ⟨s, hs, hcoherent⟩ := h 64 flaggedRun (by simp [flaggedRun, Builds])
  have hstale : (Runs.run step (ksiEngineInit 64) flaggedRun).map
      (fun s => ((s.graph.heap 0).map (·.successors), s.graph.nodes.check 1)) =
        some (some [1], some none) := by decide +kernel
  rw [hs, Option.map_some, Option.some.injEq, Prod.mk.injEq] at hstale
  obtain ⟨node, hnode, hsuccessors⟩ := Option.map_eq_some_iff.mp hstale.1
  -- the list says 1, but the vector has no node there
  obtain ⟨q, m, hm, hid⟩ := hcoherent.successorsLive 0 node hnode 1 (by rw [hsuccessors]; decide)
  have hholds : s.graph.nodes.Holds 1 q := hid ▸ hcoherent.named q m hm
  have hcheck : s.graph.nodes.check 1 = some (some q) := hholds.check
  cases hstale.2.symm.trans hcheck

/-- A node with two wires to another one, removed between them. -/
def reuseRun : List Call :=
  [.addNode 0x60000, .addNode 0x10000, .makeWire 1 0 0 0 0x3F800000, .makeWire 1 0 0 1 0x40000000,
    .makeBias 0 0 0x3F800000, .removeNode 1, .addNode 0x10010, .makeWire 0 0 1 0 0x3F800000]

theorem coherent_reuseRun : ∃ s, Runs.run step (ksiEngineInit 64) reuseRun = some s ∧
    Coherent s.graph ∧
      (∀ p node, s.graph.heap p = some node → ∀ port ∈ node.inputs,
        (port.entries.filter (·.src.isNone)).length ≤ 1) ∧
      ∀ id s', Builds (.removeNode id) →
        (Call.removeNode id).kernel .editing s = some (.ok none, s') →
        ∃ n, s.graph.nodes.check id = some (some n) ∧ Forgotten s'.graph n id.toNat :=
  coherent_of_builds (by decide)

end Ksi.Dag

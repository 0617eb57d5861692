/-
What RemoveWire and DetachNodes do to the graph.

RemoveWire searches the entries of one port.  It stops early: once it has deleted the
wire and met another one from the same source, or met one and then deleted the wire.
Where no other one is on the port, it takes the two nodes apart.  DetachNodes takes them
apart without having looked, and deletes what it finds.
-/
import Ksi.Proofs.Dag.Effect

namespace Ksi.Dag

open Prog

variable {d : Prop} {s : Engine} {E : KsiError → Engine → Prop} {g : Graph} {src des : NodePtr}
  {i : Nat} {flag : Flag} {srcId srcPort desId desPort : Int} {srcNode desNode : KsiNode}
  {input : InputPort}

/-! ### The search of RemoveWire -/

/-- What `unwire` returns. -/
def unwired (src : NodePtr) (srcPort : Int) : List Entry → Nat → Bool → List Entry × Nat × Bool
  | [], foundEntries, deleted => ([], foundEntries, deleted)
  | me :: rest, foundEntries, deleted =>
      if me.src = some src then
        if me.srcPort = srcPort then
          if foundEntries ≠ 0 then (rest, foundEntries, true)
          else unwired src srcPort rest foundEntries true
        else if deleted then (me :: rest, foundEntries + 1, deleted)
        else
          let r := unwired src srcPort rest (foundEntries + 1) deleted
          (me :: r.1, r.2)
      else
        let r := unwired src srcPort rest foundEntries deleted
        (me :: r.1, r.2)

/-- The input port that RemoveWire leaves. -/
def InputPort.unwired (src : NodePtr) (srcPort : Int) (input : InputPort) : InputPort :=
  { input with entries := (Dag.unwired src srcPort input.entries 0 false).1 }

theorem unwire_wp {d : Prop} {E : KsiError → Engine → Prop}
    (h : ¬ d → ∃ node, s.graph.heap src = some node ∧ s.graph.nodes.data node.id = some src) :
    ∀ (entries : List Entry) (foundEntries : Nat) (deleted : Bool),
      wp d (unwire src srcPort entries foundEntries deleted) s
        (fun r s' => r = unwired src srcPort entries foundEntries deleted ∧ s' = s) E := by
  intro entries
  induction entries with
  | nil => exact fun _ _ => ⟨rfl, rfl⟩
  | cons me rest ih =>
      intro foundEntries deleted
      unfold unwire unwired
      refine (wp_ite _ _ _).mpr ⟨fun hsrc => ?_, fun hsrc => ?_⟩
      · rw [if_pos hsrc, wp_bind, wp_debug_check_node]
        refine ⟨fun hnone => ?_, fun node hnode => ⟨fun _ => ?_, fun hdata => ?_⟩⟩
        · by_contra hd
          obtain ⟨node, hnode, -⟩ := h hd
          rw [hnone] at hnode
          cases hnode
        · refine (wp_ite _ _ _).mpr ⟨fun hport => ?_, fun hport => ?_⟩
          · rw [if_pos hport]
            refine (wp_ite _ _ _).mpr ⟨fun hfound => ?_, fun hfound => ?_⟩
            · rw [if_pos hfound]
              exact ⟨rfl, rfl⟩
            · rw [if_neg hfound]
              exact ih foundEntries true
          · rw [if_neg hport]
            refine (wp_ite _ _ _).mpr ⟨fun hdel => ?_, fun hdel => ?_⟩
            · rw [if_pos hdel]
              exact ⟨rfl, rfl⟩
            · rw [if_neg hdel, wp_bind]
              refine wp_mono (ih (foundEntries + 1) deleted) ?_ fun _ _ hE => hE
              rintro r s' ⟨rfl, rfl⟩
              exact ⟨rfl, rfl⟩
        · by_contra hd
          obtain ⟨node', hnode', hdata'⟩ := h hd
          rw [hnode] at hnode'
          cases hnode'
          exact hdata hdata'
      · rw [if_neg hsrc, wp_bind]
        refine wp_mono (ih foundEntries deleted) ?_ fun _ _ hE => hE
        rintro r s' ⟨rfl, rfl⟩
        exact ⟨rfl, rfl⟩

theorem unwired_length_le : ∀ (entries : List Entry) (foundEntries : Nat) (deleted : Bool),
    (unwired src srcPort entries foundEntries deleted).1.length ≤ entries.length := by
  intro entries
  induction entries with
  | nil => exact fun _ _ => Nat.le_refl _
  | cons me rest ih =>
      intro foundEntries deleted
      have h1 := ih foundEntries true
      have h2 := ih (foundEntries + 1) deleted
      have h3 := ih foundEntries deleted
      unfold unwired
      repeat' split
      all_goals simp only [List.length_cons]
      all_goals omega

theorem isFrom_iff (e : Entry) : e.isFrom src srcPort = true ↔
    e.src = some src ∧ e.srcPort = srcPort := by
  simp [Entry.isFrom]

/-- Without the wire nothing is deleted. -/
theorem unwired_of_absent :
    ∀ (entries : List Entry) (foundEntries : Nat), entries.any (·.isFrom src srcPort) = false →
      (unwired src srcPort entries foundEntries false).1 = entries ∧
        (unwired src srcPort entries foundEntries false).2.2 = false := by
  intro entries
  induction entries with
  | nil => exact fun _ _ => ⟨rfl, rfl⟩
  | cons me rest ih =>
      intro foundEntries habsent
      rw [List.any_cons, Bool.or_eq_false_iff] at habsent
      obtain ⟨hme, hrest⟩ := habsent
      have hme : ¬ (me.src = some src ∧ me.srcPort = srcPort) := by
        rw [← isFrom_iff, hme]
        exact Bool.false_ne_true
      have h1 := ih foundEntries hrest
      have h2 := ih (foundEntries + 1) hrest
      unfold unwired
      by_cases hsrc : me.src = some src
      · have hport : ¬ me.srcPort = srcPort := fun hport => hme ⟨hsrc, hport⟩
        rw [if_pos hsrc, if_neg hport, if_neg Bool.false_ne_true]
        exact ⟨congrArg (me :: ·) h2.1, h2.2⟩
      · rw [if_neg hsrc]
        exact ⟨congrArg (me :: ·) h1.1, h1.2⟩

theorem unwired_deleted : ∀ (entries : List Entry) (foundEntries : Nat),
    (unwired src srcPort entries foundEntries true).2.2 = true := by
  intro entries
  induction entries with
  | nil => exact fun _ => rfl
  | cons me rest ih =>
      intro foundEntries
      unfold unwired
      repeat' split
      all_goals simp_all

/-- The wire is found and deleted. -/
theorem unwired_of_present :
    ∀ (entries : List Entry) (foundEntries : Nat), entries.any (·.isFrom src srcPort) = true →
      (unwired src srcPort entries foundEntries false).1.length < entries.length ∧
        (unwired src srcPort entries foundEntries false).2.2 = true := by
  intro entries
  induction entries with
  | nil => exact fun _ h => absurd h (by simp)
  | cons me rest ih =>
      intro foundEntries hpresent
      rw [List.any_cons, Bool.or_eq_true, isFrom_iff] at hpresent
      unfold unwired
      by_cases hme : me.src = some src ∧ me.srcPort = srcPort
      · rw [if_pos hme.1, if_pos hme.2]
        split
        · exact ⟨Nat.lt_succ_self _, rfl⟩
        · exact ⟨Nat.lt_succ_of_le (unwired_length_le rest foundEntries true),
            unwired_deleted rest foundEntries⟩
      · have hrest := hpresent.resolve_left hme
        by_cases hsrc : me.src = some src
        · have hport : ¬ me.srcPort = srcPort := fun hport => hme ⟨hsrc, hport⟩
          rw [if_pos hsrc, if_neg hport, if_neg Bool.false_ne_true]
          have h2 := ih (foundEntries + 1) hrest
          exact ⟨Nat.succ_lt_succ h2.1, h2.2⟩
        · rw [if_neg hsrc]
          have h1 := ih foundEntries hrest
          exact ⟨Nat.succ_lt_succ h1.1, h1.2⟩

/-- The entries of one port decide whether a node has been changed. -/
theorem updateEntries_eq_self {node : KsiNode} {input : InputPort} {f : List Entry → List Entry}
    (hinput : node.inputs[i]? = some input) :
    node.updateEntries i f = node ↔ f input.entries = input.entries := by
  have hlt := (List.getElem?_eq_some_iff.mp hinput).1
  have hget := (List.getElem?_eq_some_iff.mp hinput).2
  unfold KsiNode.updateEntries
  constructor
  · intro heq
    have hinputs := congrArg KsiNode.inputs heq
    have hport := congrArg (fun l => l[i]?) hinputs
    simp only [List.getElem?_modify, hinput] at hport
    have := congrArg (fun o => o.map InputPort.entries) hport
    simpa using this
  · intro heq
    have : node.inputs.modify i (fun port => { port with entries := f port.entries }) =
      node.inputs := by
      refine List.ext_getElem (by simp) fun j hj _ => ?_
      rw [List.getElem_modify]
      by_cases hij : i = j
      · subst hij
        rw [if_pos rfl, hget, heq]
      · rw [if_neg hij]
    rw [this]

/-! ### RemoveWire -/

/-- The two nodes are taken apart. -/
def Graph.unlink (g : Graph) (src des : NodePtr) (desId : Nat) : Graph :=
  (g.update src fun node => { node with successors := node.successors.erase desId }).update des
    fun node => { node with depNum := node.depNum - 1 }

/-- The graph after the search of RemoveWire, with the nodes taken apart if it comes to that. -/
def Graph.unwire (g : Graph) (srcPort desPort : Int) (src des : NodePtr) (desNode : KsiNode)
    (input : InputPort) : Graph :=
  let r := unwired src srcPort input.entries 0 false
  let g' := g.update des (·.updateEntries desPort.toNat fun _ => r.1)
  if r.2.1 = 0 ∧ r.2.2 = true then g'.unlink src des desNode.id else g'

/-- RemoveWire, once the ids and the ports have been checked. -/
def unwireRest (src des : NodePtr) (srcPort desPort : Int) (type : PortType) (flag : Flag) :
    Edit Unit := do
  let input ← loadInput des desPort.toNat
  let (entries, foundEntries, deleted) ← unwire src srcPort input.entries 0 false
  update des (·.updateEntries desPort.toNat fun _ => entries)
  Prog.when (foundEntries = 0 ∧ deleted) do
    let desNode ← load des
    update src fun node => { node with successors := node.successors.erase desNode.id }
    update des fun node => { node with depNum := node.depNum - 1 }
  if deleted ∧ ¬ type.isEvent then refreshCopying des desPort.toNat flag
  else Prog.error .ksiErrorWireNotFound

theorem impl_ksiEngineRemoveWire_eq :
    impl_ksiEngineRemoveWire srcId srcPort desId desPort flag = (do
      checkInitialized
      let src ← checkVec srcId .ksiErrorSrcIdNotFound
      let des ← checkVec desId .ksiErrorDesIdNotFound
      let srcNode ← load src
      Prog.require (srcPort < srcNode.outputs.length) .ksiErrorSrcPortNotFound
      let type ← checkDesPort des desPort .ksiErrorDesPortNotFound
      unwireRest src des srcPort desPort type flag) := rfl

theorem Graph.unlink_inputs (q : NodePtr) (id : Nat) :
    ((g.unlink src des id).heap q).map (·.inputs) = (g.heap q).map (·.inputs) := by
  unfold unlink
  rw [update_inputs, update_inputs]
  · exact fun _ => rfl
  · exact fun _ => rfl

theorem refreshable_unlink {id : Nat} {p : NodePtr} :
    Refreshable (g.unlink src des id) p i ↔ Refreshable g p i := by
  unfold Graph.unlink
  refine (refreshable_update ?_ ?_).trans (refreshable_update ?_ ?_)
  all_goals exact fun _ => rfl

/-- The port that RemoveWire refreshes. -/
theorem refreshable_unwired {srcPort : Int} (hdes : g.heap des = some desNode)
    (hget : desNode.inputs[i]? = some input) :
    Refreshable (g.update des
      (·.updateEntries i fun _ => (unwired src srcPort input.entries 0 false).1))
      des i ↔ (input.unwired src srcPort).Followable g := by
  have hport : ((g.update des (·.updateEntries i fun _ =>
      (unwired src srcPort input.entries 0 false).1)).heap des).bind (fun node => node.inputs[i]?) =
        some (input.unwired src srcPort) := by
    rw [Graph.heap_update, if_pos rfl, hdes, Option.map_some, Option.bind_some]
    unfold KsiNode.updateEntries InputPort.unwired
    rw [List.getElem?_modify, hget]
    simp
  have hcongr : (input.unwired src srcPort).Followable
      (g.update des (·.updateEntries i fun _ => (unwired src srcPort input.entries 0 false).1)) ↔
      (input.unwired src srcPort).Followable g :=
    InputPort.followable_congr (Graph.update_outputs fun _ => rfl)
  constructor
  · rintro ⟨input', hinput', hfollow⟩
    obtain rfl : input.unwired src srcPort = input' := Option.some.inj (hport.symm.trans hinput')
    exact hcongr.mp hfollow
  · exact fun hfollow => ⟨_, hport, hcongr.mpr hfollow⟩

/-- The ports of `des` after RemoveWire. -/
theorem Graph.unwire_inputs {srcPort desPort : Int} (hdes : g.heap des = some desNode) :
    ((g.unwire srcPort desPort src des desNode input).heap des).map (·.inputs) =
      some (desNode.updateEntries desPort.toNat fun _ =>
        (unwired src srcPort input.entries 0 false).1).inputs := by
  have hupdated : ((g.update des (·.updateEntries desPort.toNat fun _ =>
      (unwired src srcPort input.entries 0 false).1)).heap des).map (·.inputs) =
      some (desNode.updateEntries desPort.toNat fun _ =>
        (unwired src srcPort input.entries 0 false).1).inputs := by
    rw [heap_update, if_pos rfl, hdes]
    rfl
  unfold unwire
  dsimp only
  split
  · rw [unlink_inputs, hupdated]
  · exact hupdated

/-- Without the wire nothing is written that was not there. -/
theorem Graph.unwire_absent {srcPort desPort : Int} (hdes : g.heap des = some desNode)
    (hget : desNode.inputs[desPort.toNat]? = some input)
    (hany : input.entries.any (·.isFrom src srcPort) = false) :
    g.unwire srcPort desPort src des desNode input = g := by
  obtain ⟨hentries, hdeleted⟩ := unwired_of_absent input.entries 0 hany
  unfold unwire
  dsimp only
  rw [if_neg fun h => by rw [hdeleted] at h; exact Bool.false_ne_true h.2, hentries]
  refine update_eq_self fun node hnode => ?_
  obtain rfl : desNode = node := Option.some.inj (hdes.symm.trans hnode)
  exact (updateEntries_eq_self hget).mpr rfl

/-- Where the wire is, the port changes. -/
theorem Graph.unwire_present {srcPort desPort : Int} (hdes : g.heap des = some desNode)
    (hget : desNode.inputs[desPort.toNat]? = some input)
    (hany : input.entries.any (·.isFrom src srcPort) = true) :
    g.unwire srcPort desPort src des desNode input ≠ g := by
  intro heq
  have hinputs : ((g.unwire srcPort desPort src des desNode input).heap des).map (·.inputs) =
    some _ :=
    unwire_inputs hdes
  rw [heq, hdes, Option.map_some, Option.some.injEq] at hinputs
  have hself : desNode.updateEntries desPort.toNat
      (fun _ => (unwired src srcPort input.entries 0 false).1) = desNode := by
    have hwith : desNode.updateEntries desPort.toNat
      (fun _ => (unwired src srcPort input.entries 0 false).1) =
        { desNode with inputs := (desNode.updateEntries desPort.toNat
          fun _ => (unwired src srcPort input.entries 0 false).1).inputs } := rfl
    rw [hwith, ← hinputs]
  have hentries := (updateEntries_eq_self hget).mp hself
  have hshort := (unwired_of_present input.entries 0 hany).1
  rw [hentries] at hshort
  exact Nat.lt_irrefl _ hshort

/-- **The wire is taken out** of a signal port.  That there is none is reported where the
port has no such wire, and where it is an event port. -/
theorem unwireRest_wp {Q : Unit → Engine → Prop} (hflag : ¬ d → flag = .editing)
    (hsrc : s.graph.heap src = some srcNode) (hdes : s.graph.heap des = some desNode)
    (hget : desNode.inputs[desPort.toNat]? = some input)
    (hnamed : ¬ d → s.graph.nodes.data srcNode.id = some src)
    (hfollow : ¬ d → input.entries.any (·.isFrom src srcPort) = true →
      (input.unwired src srcPort).Followable s.graph)
    (hE : input.type.isEvent = true ∨ input.entries.any (·.isFrom src srcPort) = false →
      E .ksiErrorWireNotFound
      { s with graph := s.graph.unwire srcPort desPort src des desNode input })
    (hQ : input.type.isEvent = false → input.entries.any (·.isFrom src srcPort) = true →
      (input.unwired src srcPort).Followable s.graph →
      ∀ s', s'.graph = s.graph.unwire srcPort desPort src des desNode input → Q () s') :
    wp d (unwireRest src des srcPort desPort input.type flag) s Q E := by
  unfold unwireRest
  rw [wp_bind, wp_loadInput]
  refine ⟨fun hnone => (by simp [hdes, hget] at hnone), fun input' hinput' => ?_⟩
  obtain rfl : input' = input := by simpa [hdes, hget] using hinput'.symm
  rw [wp_bind]
  refine wp_mono (unwire_wp (fun hd => ⟨srcNode, hsrc, hnamed hd⟩) input'.entries 0 false) ?_
    fun _ _ hE => hE
  rintro _ s' ⟨rfl, rfl⟩
  have hrefresh : Refreshable (s'.graph.update des (·.updateEntries desPort.toNat fun _ =>
      (unwired src srcPort input'.entries 0 false).1)) des desPort.toNat ↔
        (input'.unwired src srcPort).Followable s'.graph :=
    refreshable_unwired hdes hget
  have hdeleted : (unwired src srcPort input'.entries 0 false).2.2 =
      input'.entries.any (·.isFrom src srcPort) := by
    cases hany : input'.entries.any (·.isFrom src srcPort) with
    | false => exact (unwired_of_absent input'.entries 0 hany).2
    | true => exact (unwired_of_present input'.entries 0 hany).2
  unfold Graph.unwire at hE hQ
  dsimp only at hE hQ
  generalize unwired src srcPort input'.entries 0 false = r at hE hQ hrefresh hdeleted ⊢
  obtain ⟨entries, foundEntries, deleted⟩ := r
  dsimp only at hE hQ hrefresh hdeleted ⊢
  subst hdeleted
  rw [wp_bind, wp_update]
  refine ⟨fun hnone => absurd hdes (by simp [hnone]), fun _ _ => ?_⟩
  -- the last step, in the graph that RemoveWire leaves
  have hlast : ∀ g' : Graph, (Refreshable g' des desPort.toNat ↔
      (input'.unwired src srcPort).Followable s'.graph) →
      (input'.type.isEvent = true ∨ input'.entries.any (·.isFrom src srcPort) = false →
        E .ksiErrorWireNotFound { s' with graph := g' }) →
      (input'.type.isEvent = false → input'.entries.any (·.isFrom src srcPort) = true →
        (input'.unwired src srcPort).Followable s'.graph → ∀ s'' : Engine, s''.graph = g' →
        Q () s'') →
      wp d (if input'.entries.any (·.isFrom src srcPort) = true ∧ ¬ input'.type.isEvent = true then
          refreshCopying des desPort.toNat flag
        else Prog.error .ksiErrorWireNotFound) { s' with graph := g' } Q E := by
    intro g' hg' hE' hQ'
    refine (wp_ite _ _ _).mpr ⟨fun hgo => ?_, fun hno => hE' ?_⟩
    · exact wp_mono (refreshCopying_wp hflag fun hd => hg'.mpr (hfollow hd hgo.1))
        (fun _ s'' hs'' => hQ' (by simpa using hgo.2) hgo.1 (hg'.mp hs''.2) s'' hs''.1)
          fun _ _ hE => hE.elim
    · by_cases hevent : input'.type.isEvent = true
      · exact .inl hevent
      · exact .inr (by simpa using fun hany => hno ⟨hany, hevent⟩)
  rw [wp_bind, wp_when]
  refine ⟨fun hapart => ?_, fun htogether => ?_⟩
  · rw [if_pos hapart] at hE hQ
    rw [wp_bind, wp_load]
    refine ⟨fun hnone => (by simp [Graph.heap_update, hdes] at hnone), fun node hnode => ?_⟩
    have hid : node.id = desNode.id := by
      rw [Graph.heap_update, if_pos rfl, hdes] at hnode
      cases hnode
      rfl
    rw [wp_bind, wp_update]
    refine ⟨fun hnone => absurd hnone ?_, fun _ _ => ?_⟩
    · rw [Graph.heap_update]
      split <;> simp [hsrc]
    rw [wp_update]
    refine ⟨fun hnone => absurd hnone ?_, fun _ _ => ?_⟩
    · rw [Graph.heap_update, Graph.heap_update]
      split <;> simp [hdes]
    · rw [hid]
      exact hlast _ (refreshable_unlink.trans hrefresh) hE hQ
  · rw [if_neg htogether] at hE hQ
    exact hlast _ hrefresh hE hQ

/-! ### DetachNodes -/

/-- The graph after DetachNodes. -/
def Graph.part (g : Graph) (src des : NodePtr) (desId : Nat) : Graph :=
  (g.update des fun node => { node.dropSrc src with depNum := node.depNum - 1 }).update src
    fun node => { node with successors := node.successors.erase desId }

/-- DetachNodes, once the ids have been checked. -/
def detachRest (src des : NodePtr) (desId : Nat) (flag : Flag) : Edit Unit := do
  update des fun node => { node with depNum := node.depNum - 1 }
  deleteSrcs des src flag
  update src fun node => { node with successors := node.successors.erase desId }

theorem impl_ksiEngineDetachNodes_eq :
    impl_ksiEngineDetachNodes srcId desId flag = (do
      checkInitialized
      let src ← checkVec srcId .ksiErrorSrcIdNotFound
      let des ← checkVec desId .ksiErrorDesIdNotFound
      detachRest src des desId.toNat flag) := rfl

/-- **The nodes are taken apart**, whether or not there are wires between them. -/
theorem detachRest_wp {Q : Unit → Engine → Prop} {id : Nat} (hflag : ¬ d → flag = .editing)
    (hsrc : s.graph.heap src = some srcNode) (hdes : s.graph.heap des = some desNode)
    (hfollow : ¬ d → ∀ input ∈ desNode.inputs, (input.without src).Followable s.graph)
    (hQ : (∀ input ∈ desNode.inputs, (input.without src).Followable s.graph) →
      ∀ s', s'.graph = s.graph.part src des id → Q () s') :
    wp d (detachRest src des id flag) s Q E := by
  unfold detachRest
  rw [wp_bind, wp_update]
  refine ⟨fun hnone => absurd hdes (by simp [hnone]), fun _ _ => ?_⟩
  have hcongr : ∀ input : InputPort, input.Followable (s.graph.update des fun node =>
      { node with depNum := node.depNum - 1 }) ↔ input.Followable s.graph :=
    fun input => InputPort.followable_congr (Graph.update_outputs fun _ => rfl)
  rw [wp_bind]
  refine wp_mono (deleteSrcs_wp hflag (heap_of_eq hdes rfl) fun hd input hinput =>
    (hcongr _).mpr (hfollow hd input hinput)) ?_ fun _ _ hE => hE
  rintro _ s' ⟨hs', hfollowed⟩
  rw [wp_update]
  refine ⟨fun hnone => absurd hnone ?_, fun _ _ => hQ (fun input hinput =>
    (hcongr _).mp (hfollowed input hinput)) _ ?_⟩
  · rw [hs', Graph.heap_update, Graph.heap_update]
    split <;> simp [hsrc]
  · show s'.graph.update src _ = _
    rw [hs']
    show ((s.graph.update des _).update des _).update src _ = _
    rw [Graph.update_update]
    rfl

end Ksi.Dag

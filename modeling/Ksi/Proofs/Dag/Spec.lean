/-
What the parts of the kernels do.

A specification says what happens to the graph and leaves the buffers open: with flag 0
none of the operations on buffers touches the graph, returns an error or faults.  Each
one holds for partial and for total correctness, with a hypothesis `¬ d → ..` that says
when there is no fault.
-/
import Ksi.Dag.Commit

namespace Ksi.Dag

open Prog

variable {α : Type} {d : Prop} {s : Engine} {E : KsiError → Engine → Prop} {g : Graph}
  {p q n src des : NodePtr} {port i : Nat} {flag : Flag}
  {srcId srcPort desId desPort : Int}

/-! ### Reading and writing nodes -/

@[simp] theorem wp_load {Q : KsiNode → Engine → Prop} :
    wp d (load p) s Q E ↔ (s.graph.heap p = none → d) ∧
      ∀ node, s.graph.heap p = some node → Q node s := by
  unfold load
  exact wp_read _

@[simp] theorem wp_loadInput {Q : InputPort → Engine → Prop} :
    wp d (loadInput n port) s Q E ↔
      ((s.graph.heap n).bind (fun node => node.inputs[port]?) = none → d) ∧
      ∀ input, (s.graph.heap n).bind (fun node => node.inputs[port]?) = some input → Q input s := by
  unfold loadInput
  exact wp_read _

@[simp] theorem wp_update {Q : Unit → Engine → Prop} {f : KsiNode → KsiNode} :
    wp d (update p f) s Q E ↔ (s.graph.heap p = none → d) ∧
      ∀ node, s.graph.heap p = some node → Q () { s with graph := s.graph.update p f } := by
  unfold update
  rw [wp_bind, wp_load]
  rfl

@[simp] theorem wp_checkInitialized {Q : Unit → Engine → Prop} :
    wp d checkInitialized s Q E ↔ (s.playing ≠ -2 → Q () s) ∧
      (s.playing = -2 → E .ksiErrorUninitialized s) := by
  unfold checkInitialized
  simp

@[simp] theorem wp_checkVec {Q : NodePtr → Engine → Prop} {id : Int} {err : KsiError} :
    wp d (checkVec id err) s Q E ↔ (s.graph.nodes.check id = none → d) ∧
      (s.graph.nodes.check id = some none → E err s) ∧
      ∀ p, s.graph.nodes.check id = some (some p) → Q p s := by
  unfold checkVec
  simp only [wp_bind, wp_read, wp_orError]
  cases s.graph.nodes.check id with
  | none => simp
  | some slot => cases slot <;> simp

@[simp] theorem wp_debug_check_node {Q : Unit → Engine → Prop} :
    wp d (debug_check_node n) s Q E ↔ (s.graph.heap n = none → d) ∧
      ∀ node, s.graph.heap n = some node → (s.graph.nodes.data node.id = some n → Q () s) ∧
        (¬ s.graph.nodes.data node.id = some n → d) := by
  unfold debug_check_node
  simp

@[simp] theorem wp_checkDesPort {Q : PortType → Engine → Prop} {port : Int} {err : KsiError} :
    wp d (checkDesPort des port err) s Q E ↔ (s.graph.heap des = none → d) ∧
      ∀ node, s.graph.heap des = some node →
        (¬ port < node.inputs.length → E err s) ∧
        (port < node.inputs.length → (nth node.inputs port = none → d) ∧
          ∀ input, nth node.inputs port = some input → Q input.type s) := by
  unfold checkDesPort
  simp only [wp_bind, wp_load, wp_require, wp_read, Option.map_eq_none_iff, Option.map_eq_some_iff,
    forall_exists_index, and_imp, forall_apply_eq_imp_iff₂]
  constructor
  · exact fun h => ⟨h.1, fun node hnode => ⟨(h.2 node hnode).2, (h.2 node hnode).1⟩⟩
  · exact fun h => ⟨h.1, fun node hnode => ⟨(h.2 node hnode).2, (h.2 node hnode).1⟩⟩

namespace Graph

theorem heap_update (g : Graph) (p q : NodePtr) (f : KsiNode → KsiNode) :
    (g.update p f).heap q = if q = p then (g.heap q).map f else g.heap q := by
  unfold update
  by_cases h : q = p
  · subst h
    simp
  · simp [h]

@[simp] theorem nodes_update (g : Graph) (p : NodePtr) (f : KsiNode → KsiNode) :
    (g.update p f).nodes = g.nodes := rfl

@[simp] theorem finalNode_update (g : Graph) (p : NodePtr) (f : KsiNode → KsiNode) :
    (g.update p f).finalNode = g.finalNode := rfl

@[simp] theorem nextNode_update (g : Graph) (p : NodePtr) (f : KsiNode → KsiNode) :
    (g.update p f).nextNode = g.nextNode := rfl

/-- Two graphs with the same nodes under the same addresses. -/
theorem ext_heap {g g' : Graph} (hnodes : g'.nodes = g.nodes) (hfinal : g'.finalNode = g.finalNode)
    (hnext : g'.nextNode = g.nextNode) (hheap : ∀ q, g'.heap q = g.heap q) : g' = g := by
  cases g
  cases g'
  obtain rfl := funext hheap
  simp_all

theorem update_update (g : Graph) (p : NodePtr) (f h : KsiNode → KsiNode) :
    (g.update p f).update p h = g.update p (h ∘ f) := by
  refine ext_heap rfl rfl rfl fun q => ?_
  simp only [heap_update]
  by_cases hq : q = p <;> simp [hq, Option.map_map]

theorem update_eq_self {f : KsiNode → KsiNode} (h : ∀ node, g.heap p = some node → f node = node) :
    g.update p f = g := by
  refine ext_heap rfl rfl rfl fun q => ?_
  rw [heap_update]
  by_cases hq : q = p
  · subst hq
    rw [if_pos rfl]
    cases hheap : g.heap q with
    | none => rfl
    | some node => rw [Option.map_some, h node hheap]
  · rw [if_neg hq]

theorem update_congr {f h : KsiNode → KsiNode} (heq : ∀ node, g.heap p = some node →
    f node = h node) :
    g.update p f = g.update p h := by
  refine ext_heap rfl rfl rfl fun q => ?_
  rw [heap_update, heap_update]
  by_cases hq : q = p
  · subst hq
    rw [if_pos rfl, if_pos rfl]
    cases hheap : g.heap q with
    | none => rfl
    | some node => rw [Option.map_some, Option.map_some, heq node hheap]
  · rw [if_neg hq, if_neg hq]

end Graph

theorem heap_of_eq {g' : Graph} {f : KsiNode → KsiNode} (hn : g.heap n = some node)
    (h : g' = g.update n f) : g'.heap n = some (f node) := by
  rw [h, Graph.heap_update, if_pos rfl, hn, Option.map_some]

/-! ### Buffers -/

/-- `x` leaves the graph as it is and returns no error. -/
def Quiet (d : Prop) (x : Edit α) (s : Engine) : Prop :=
  wp d x s (fun _ s' => s'.graph = s.graph) fun _ _ => False

theorem Quiet.wp {x : Edit α} {Q : α → Engine → Prop} (h : Quiet d x s)
    (hQ : ∀ a s', s'.graph = s.graph → Q a s') : wp d x s Q E :=
  wp_mono h hQ fun _ _ hE => hE.elim

theorem Quiet.bind {β : Type} {x : Edit α} {f : α → Edit β} (hx : Quiet d x s)
    (hf : ∀ a s', s'.graph = s.graph → Quiet d (f a) s') : Quiet d (x >>= f) s := by
  unfold Quiet
  rw [wp_bind]
  refine hx.wp fun a s' hs => ?_
  exact wp_mono (hf a s' hs) (fun _ _ h => h.trans hs) fun _ _ h => h

theorem malloc_quiet (hflag : ¬ d → flag = .editing) (size : Nat) (s : Engine) :
    Quiet d (ksiMVCCMonitoredMalloc size flag) s := by
  unfold Quiet Prog.wp ksiMVCCMonitoredMalloc
  by_cases h : size = 0
  · cases flag <;> simp [h]
  · cases flag with
    | editing => simp [h]
    | committing =>
        have hd : d := by_contra fun hd => by cases hflag hd
        simp only [h, if_false]
        cases s.mallocBufs with
        | nil => exact hd
        | cons ret rest => exact rfl

theorem free_quiet (hflag : ¬ d → flag = .editing) (ptr : Option BufPtr) (s : Engine) :
    Quiet d (ksiMVCCDeferredFree ptr flag) s := by
  cases ptr with
  | none => exact rfl
  | some ptr =>
      cases flag with
      | editing => exact rfl
      | committing =>
          have hd : d := by_contra fun hd => by cases hflag hd
          unfold Quiet Prog.wp ksiMVCCDeferredFree
          cases s.freeBufs with
          | nil => exact hd
          | cons fptr rest => by_cases heq : fptr = ptr <;> simp [heq, hd]

theorem modify_quiet {f : Engine → Engine} (h : (f s).graph = s.graph) : Quiet d (modify f) s := h

theorem read_quiet {f : Engine → Option α} (h : ¬ d → f s ≠ none) : Quiet d (read f) s := by
  unfold Quiet
  rw [wp_read]
  refine ⟨fun hnone => ?_, fun _ _ => rfl⟩
  by_contra hd
  exact h hd hnone

theorem pure_quiet (a : α) : Quiet d (pure a) s := rfl

theorem ite_quiet {c : Prop} [Decidable c] {x y : Edit α} (hx : c → Quiet d x s)
    (hy : ¬ c → Quiet d y s) : Quiet d (if c then x else y) s := by
  by_cases hc : c
  · rw [if_pos hc]
    exact hx hc
  · rw [if_neg hc]
    exact hy hc

theorem mallocOutput_quiet (hflag : ¬ d → flag = .editing) (type : PortType) :
    Quiet d (mallocOutput type flag) s := by
  unfold mallocOutput
  refine ite_quiet (fun _ => malloc_quiet hflag _ s) fun _ => ?_
  exact (read_quiet fun _ => by simp).bind fun _ s' _ => malloc_quiet hflag _ s'

theorem newOutputs_quiet (hflag : ¬ d → flag = .editing) (n : NodePtr) :
    ∀ (types : List PortType) (i : Nat) (s : Engine), Quiet d (newOutputs n flag i types) s := by
  intro types
  induction types with
  | nil => exact fun _ _ => pure_quiet ()
  | cons type rest ih =>
      intro i s
      unfold newOutputs
      refine (mallocOutput_quiet hflag type).bind fun _ s' _ => ?_
      exact (modify_quiet rfl).bind fun _ s'' _ => ih (i + 1) s''

theorem refreshMixing_quiet (hflag : ¬ d → flag = .editing) :
    Quiet d (refreshMixing n port flag) s := by
  unfold refreshMixing
  refine (read_quiet fun _ => by simp).bind fun env s' _ => ?_
  cases env.buffer with
  | some b => exact modify_quiet rfl
  | none =>
      refine (read_quiet fun _ => by simp).bind fun _ s' _ => ?_
      exact (malloc_quiet hflag _ s').bind fun _ _ _ => modify_quiet rfl

/-- A wire that comes from an output port of a live node, or a bias. -/
def Entry.Live (g : Graph) (e : Entry) : Prop :=
  ∀ src, e.src = some src → ∃ m, g.heap src = some m ∧ nth m.outputs e.srcPort ≠ none

/-- Every wire comes from an output port of a live node. -/
def EntriesLive (g : Graph) : Prop :=
  ∀ n node, g.heap n = some node → ∀ input ∈ node.inputs, ∀ e ∈ input.entries, e.Live g

/-- `n` is live and has an input port `port`. -/
def HasInput (g : Graph) (n : NodePtr) (port : Nat) : Prop :=
  ∃ node, g.heap n = some node ∧ port < node.inputs.length

theorem HasInput.bind_ne_none (h : HasInput g n port) :
    (g.heap n).bind (fun node => node.inputs[port]?) ≠ none := by
  obtain ⟨node, hnode, hlt⟩ := h
  simp [hnode, hlt]

/-- If a signal port is left with one wire of unit gain, the wire is live: `refreshCopying`
follows it. -/
def InputPort.Followable (g : Graph) (input : InputPort) : Prop :=
  input.type.isEvent = false → ∀ me, input.entries = [me] →
    ksiDataIsUnit me.gain input.type = true → me.Live g

/-- `n` is live and has an input port `port`, which can be refreshed. -/
def Refreshable (g : Graph) (n : NodePtr) (port : Nat) : Prop :=
  ∃ input, (g.heap n).bind (fun node => node.inputs[port]?) = some input ∧ input.Followable g

theorem EntriesLive.followable (h : EntriesLive g) {node : KsiNode} (hn : g.heap n = some node)
    {input input' : InputPort} (hinput : input' ∈ node.inputs)
    (hentries : ∀ e ∈ input.entries, e ∈ input'.entries) : input.Followable g := by
  intro _ me hme _
  exact h n node hn input' hinput me (hentries me (by rw [hme]; exact List.mem_singleton_self me))

/-- **A refresh** leaves the graph as it is, and faults exactly where the port cannot be
refreshed. -/
theorem refreshCopying_wp (hflag : ¬ d → flag = .editing) (h : ¬ d → Refreshable s.graph n port) :
    wp d (refreshCopying n port flag) s
      (fun _ s' => s'.graph = s.graph ∧ Refreshable s.graph n port)
      fun _ _ => False := by
  unfold refreshCopying
  rw [wp_bind, wp_loadInput]
  refine ⟨fun hnone => by_contra fun hd => ?_, fun input hinput => ?_⟩
  · obtain ⟨input, hinput, -⟩ := h hd
    rw [hnone] at hinput
    cases hinput
  -- where there is no wire to follow
  have hgo : ∀ x : Edit Unit, input.Followable s.graph → Quiet d x s → wp d x s
      (fun _ s' => s'.graph = s.graph ∧ Refreshable s.graph n port) fun _ _ => False :=
    fun x hfollow hx => hx.wp fun _ _ hs' => ⟨hs', input, hinput, hfollow⟩
  refine (wp_ite _ _ _).mpr ⟨fun hevent => hgo _ ?_ (pure_quiet ()), fun hsignal => ?_⟩
  · intro hsignal
    rw [hevent] at hsignal
    cases hsignal
  match hentries : input.entries with
  | [] =>
      refine hgo _ ?_ (modify_quiet rfl)
      intro _ me hme
      rw [hentries] at hme
      cases hme
  | [me] =>
      refine (wp_ite _ _ _).mpr ⟨fun hunit => ?_, fun hunit => hgo _ ?_ (refreshMixing_quiet hflag)⟩
      · rw [wp_bind]
        refine Quiet.wp (read_quiet fun _ => by simp) fun env s₁ hs₁ => ?_
        rw [wp_bind]
        refine (free_quiet hflag _ s₁).wp fun _ s₂ hs₂ => ?_
        rw [wp_bind]
        refine Quiet.wp (modify_quiet rfl) fun _ s₃ hs₃ => ?_
        have hs : s₃.graph = s.graph := hs₃.trans (hs₂.trans hs₁)
        have hlive : me.Live s.graph → input.Followable s.graph := by
          intro hlive _ me' hme' _
          rw [hentries] at hme'
          cases hme'
          exact hlive
        cases hsrc : me.src with
        | none =>
            refine ⟨hs, input, hinput, hlive fun src hsrc' => ?_⟩
            rw [hsrc] at hsrc'
            cases hsrc'
        | some src =>
            dsimp only
            unfold loadOutput
            rw [wp_bind, wp_read]
            refine ⟨fun hnone => by_contra fun hd => ?_, fun output houtput => ?_⟩
            · obtain ⟨input', hinput', hfollow⟩ := h hd
              obtain rfl : input = input' := Option.some.inj (hinput.symm.trans hinput')
              obtain ⟨m, hm, hport⟩ := hfollow (by simpa using hsignal) me hentries hunit src hsrc
              rw [hs, hm] at hnone
              simp [hport] at hnone
            · refine ⟨hs, input, hinput, hlive fun src' hsrc' => ?_⟩
              obtain rfl : src = src' := Option.some.inj (hsrc.symm.trans hsrc')
              rw [hs] at houtput
              obtain ⟨m, hm, hport⟩ := Option.bind_eq_some_iff.mp houtput
              refine ⟨m, hm, fun hnone => ?_⟩
              rw [hnone] at hport
              cases hport
      · intro _ me' hme' hunit'
        rw [hentries] at hme'
        cases hme'
        exact absurd hunit' hunit
  | _ :: _ :: _ =>
      refine hgo _ ?_ (refreshMixing_quiet hflag)
      intro _ me' hme'
      rw [hentries] at hme'
      cases hme'

theorem refreshCopying_quiet (hflag : ¬ d → flag = .editing)
    (h : ¬ d → Refreshable s.graph n port) : Quiet d (refreshCopying n port flag) s :=
  wp_mono (refreshCopying_wp hflag h) (fun _ _ hs' => hs'.1) fun _ _ hE => hE

/-! ### Entries -/

/-- The port without the entries from `src`. -/
def InputPort.without (src : NodePtr) (input : InputPort) : InputPort :=
  { input with entries := input.entries.filter fun e => e.src != some src }

/-- The node without the entries from `src`. -/
def KsiNode.dropSrc (src : NodePtr) (n : KsiNode) : KsiNode :=
  { n with inputs := n.inputs.map (·.without src) }

/-- The node without the entries from `src` at the ports below `i`. -/
def KsiNode.dropBelow (src : NodePtr) (i : Nat) (n : KsiNode) : KsiNode :=
  { n with inputs := n.inputs.mapIdx fun j input => if j < i then input.without src else input }

theorem KsiNode.dropBelow_zero (src : NodePtr) (n : KsiNode) : n.dropBelow src 0 = n := by
  have hinputs : n.inputs.mapIdx (fun j input => if j < 0 then input.without src else input) =
      n.inputs := by
    refine List.ext_getElem (by simp) fun j _ _ => ?_
    simp
  unfold dropBelow
  rw [hinputs]

theorem KsiNode.dropBelow_length (src : NodePtr) (n : KsiNode) :
    n.dropBelow src n.inputs.length = n.dropSrc src := by
  unfold dropBelow dropSrc
  congr 1
  refine List.ext_getElem (by simp) fun j hj _ => ?_
  simp only [List.length_mapIdx] at hj
  simp [hj]

theorem KsiNode.dropBelow_succ (src : NodePtr) (i : Nat) (n : KsiNode) :
    (n.dropBelow src i).updateEntries i (·.filter fun e => e.src != some src) =
      n.dropBelow src (i + 1) := by
  unfold dropBelow updateEntries
  congr 1
  refine List.ext_getElem (by simp) fun j hj _ => ?_
  rw [List.getElem_modify]
  simp only [List.getElem_mapIdx]
  by_cases heq : i = j
  · subst heq
    simp [InputPort.without]
  · rw [if_neg heq]
    by_cases hlt : j < i
    · rw [if_pos hlt, if_pos (by omega)]
    · rw [if_neg hlt, if_neg (by omega)]

/-- A node changes with the entries of one port. -/
theorem KsiNode.updateEntries_congr {node : KsiNode} {input : InputPort}
    {f h : List Entry → List Entry} (hinput : node.inputs[i]? = some input)
    (heq : f input.entries = h input.entries) :
      node.updateEntries i f = node.updateEntries i h := by
  have hget := (List.getElem?_eq_some_iff.mp hinput).2
  unfold updateEntries
  congr 1
  refine List.ext_getElem (by simp) fun j hj _ => ?_
  rw [List.getElem_modify, List.getElem_modify]
  by_cases hij : i = j
  · subst hij
    rw [if_pos rfl, if_pos rfl, hget, heq]
  · rw [if_neg hij, if_neg hij]

theorem KsiNode.mem_updateEntries {node : KsiNode} {f : List Entry → List Entry}
    {input : InputPort} (h : input ∈ (node.updateEntries i f).inputs) :
    ∃ j input', node.inputs[j]? = some input' ∧
      input = if i = j then { input' with entries := f input'.entries } else input' := by
  obtain ⟨j, hj, rfl⟩ := List.mem_iff_getElem.mp h
  simp only [updateEntries, List.length_modify] at hj
  refine ⟨j, node.inputs[j], List.getElem?_eq_getElem hj, ?_⟩
  simp only [updateEntries, List.getElem_modify]

/-- Which wires are live depends on the output ports of the nodes. -/
theorem Entry.live_congr {g' : Graph} {e : Entry}
    (h : ∀ q, (g'.heap q).map (·.outputs) = (g.heap q).map (·.outputs)) : e.Live g' ↔ e.Live g := by
  have hmono : ∀ {g g' : Graph}, (∀ q, (g'.heap q).map (·.outputs) = (g.heap q).map (·.outputs)) →
      e.Live g → e.Live g' := by
    intro g g' h hlive src hsrc
    obtain ⟨m, hm, hport⟩ := hlive src hsrc
    have hq := h src
    rw [hm, Option.map_some] at hq
    obtain ⟨m', hm', hout⟩ := Option.map_eq_some_iff.mp hq
    exact ⟨m', hm', by rwa [hout]⟩
  exact ⟨hmono fun q => (h q).symm, hmono h⟩

theorem InputPort.followable_congr {g' : Graph} {input : InputPort}
    (h : ∀ q, (g'.heap q).map (·.outputs) = (g.heap q).map (·.outputs)) :
    input.Followable g' ↔ input.Followable g := by
  unfold Followable
  simp only [Entry.live_congr h]

theorem Graph.update_outputs {g : Graph} {f : KsiNode → KsiNode}
    (hf : ∀ node, (f node).outputs = node.outputs) (q : NodePtr) :
    ((g.update p f).heap q).map (·.outputs) = (g.heap q).map (·.outputs) := by
  rw [heap_update]
  split
  · rw [Option.map_map]
    exact Option.map_congr fun node _ => hf node
  · rfl

/-- A store to neither the inputs nor the outputs changes nothing for a refresh. -/
theorem refreshable_update {f : KsiNode → KsiNode} (hin : ∀ node, (f node).inputs = node.inputs)
    (hout : ∀ node, (f node).outputs = node.outputs) :
    Refreshable (g.update p f) n i ↔ Refreshable g n i := by
  have hport : ((g.update p f).heap n).bind (fun node => node.inputs[i]?) =
      (g.heap n).bind fun node => node.inputs[i]? := by
    rw [Graph.heap_update]
    split
    · cases g.heap n with
      | none => rfl
      | some node => rw [Option.map_some, Option.bind_some, Option.bind_some, hin]
    · rfl
  unfold Refreshable
  rw [hport]
  exact exists_congr fun input => and_congr_right fun _ =>
    InputPort.followable_congr (Graph.update_outputs hout)

theorem InputPort.without_without (src : NodePtr) (input : InputPort) :
    (input.without src).without src = input.without src := by
  unfold without
  simp

/-- One port loses its entries from `src`. -/
theorem delete_src_wp {input : InputPort} {node : KsiNode} (hflag : ¬ d → flag = .editing)
    (hn : s.graph.heap des = some node) (hinput : node.inputs[i]? = some input)
    (h : ¬ d → (input.without src).Followable s.graph) :
    wp d (delete_src des src flag i) s (fun _ s' => s'.graph = s.graph.update des
      (·.updateEntries i (·.filter fun e => e.src != some src)) ∧
      (input.without src).Followable s.graph) E := by
  have hget : (s.graph.heap des).bind (fun node => node.inputs[i]?) = some input := by
    rw [hn, Option.bind_some, hinput]
  unfold delete_src
  simp only [wp_bind, wp_loadInput, wp_update]
  refine ⟨fun hnone => absurd hget (by simp [hnone]), fun input' _ =>
    ⟨fun hnone => absurd hn (by simp [hnone]), fun _ _ => ?_⟩⟩
  -- the port as it is refreshed
  have hafter :
    ((s.graph.update des (·.updateEntries i (·.filter fun e => e.src != some src))).heap des).bind
      (fun node => node.inputs[i]?) = some (input.without src) := by
    rw [Graph.heap_update, if_pos rfl, hn, Option.map_some, Option.bind_some]
    unfold KsiNode.updateEntries
    rw [List.getElem?_modify, hinput]
    simp [InputPort.without]
  have hcongr : (input.without src).Followable
      (s.graph.update des (·.updateEntries i (·.filter fun e => e.src != some src))) ↔
      (input.without src).Followable s.graph :=
    InputPort.followable_congr (Graph.update_outputs fun _ => rfl)
  refine wp_mono (refreshCopying_wp hflag fun hd => ⟨_, hafter, hcongr.mpr (h hd)⟩) ?_
    fun _ _ hE => hE.elim
  rintro _ s' ⟨hs', input₁, hinput₁, hfollow⟩
  obtain rfl : input.without src = input₁ := Option.some.inj (hafter.symm.trans hinput₁)
  exact ⟨hs', hcongr.mp hfollow⟩

/-- **All ports of a node lose their entries from `src`.** -/
theorem deleteSrcs_wp {node : KsiNode} (hflag : ¬ d → flag = .editing)
    (hn : s.graph.heap des = some node)
    (h : ¬ d → ∀ input ∈ node.inputs, (input.without src).Followable s.graph) :
    wp d (deleteSrcs des src flag) s (fun _ s' => s'.graph = s.graph.update des (·.dropSrc src) ∧
      ∀ input ∈ node.inputs, (input.without src).Followable s.graph) E := by
  unfold deleteSrcs
  rw [wp_bind, wp_load]
  refine ⟨fun hnone => absurd hn (by simp [hnone]), fun node' hnode' => ?_⟩
  obtain rfl : node = node' := Option.some.inj (hn.symm.trans hnode')
  have hcongr : ∀ (j : Nat) (input : InputPort),
      input.Followable (s.graph.update des (·.dropBelow src j)) ↔ input.Followable s.graph :=
    fun j input => InputPort.followable_congr (Graph.update_outputs fun _ => rfl)
  refine wp_mono (wp_forRange (fun i s' => s'.graph = s.graph.update des (·.dropBelow src i) ∧
    ∀ j input, j < i → node.inputs[j]? = some input → (input.without src).Followable s.graph)
      ?_ ?_) ?_
    fun _ _ hE => hE
  · rintro i s' hi ⟨hs', hfollow⟩
    have hat : s'.graph.heap des = some (node.dropBelow src i) := by
      rw [hs', Graph.heap_update, if_pos rfl, hn, Option.map_some]
    have hinput : (node.dropBelow src i).inputs[i]? = some node.inputs[i] := by
      unfold KsiNode.dropBelow
      rw [List.getElem?_mapIdx, List.getElem?_eq_getElem hi]
      simp
    refine wp_mono (delete_src_wp hflag hat hinput fun hd => ?_) ?_ fun _ _ hE => hE
    · rw [hs']
      exact (hcongr i _).mpr (h hd _ (List.getElem_mem hi))
    · rintro _ s'' ⟨hs'', hthis⟩
      refine ⟨?_, fun j input hj hin => ?_⟩
      · rw [hs'', hs', Graph.update_update]
        exact Graph.update_congr fun m _ => m.dropBelow_succ src i
      · rcases Nat.lt_succ_iff_lt_or_eq.mp hj with hj | rfl
        · exact hfollow j input hj hin
        · obtain ⟨hlt, rfl⟩ := List.getElem?_eq_some_iff.mp hin
          rw [hs'] at hthis
          exact (hcongr j _).mp hthis
  · exact ⟨(Graph.update_eq_self fun m _ => m.dropBelow_zero src).symm, fun _ _ hj =>
      absurd hj (Nat.not_lt_zero _)⟩
  · rintro _ s' ⟨hs', hfollow⟩
    refine ⟨?_, fun input hinput => ?_⟩
    · rw [hs']
      refine Graph.update_congr fun m hm => ?_
      rw [hn] at hm
      cases hm
      exact node.dropBelow_length src
    · obtain ⟨j, hj, rfl⟩ := List.mem_iff_getElem.mp hinput
      exact hfollow j _ hj (List.getElem?_eq_getElem hj)

/-! ### Two nodes and their ports -/

/-- The nodes and ports that a call names. -/
structure Ports (g : Graph) (srcId srcPort desId desPort : Int) (src des : NodePtr)
    (srcNode desNode : KsiNode) (input : InputPort) : Prop where
  srcId : g.nodes.check srcId = some (some src)
  desId : g.nodes.check desId = some (some des)
  atSrc : g.heap src = some srcNode
  atDes : g.heap des = some desNode
  hasOutput : srcPort < srcNode.outputs.length
  hasInput : nth desNode.inputs desPort = some input

theorem Ports.unique {g : Graph} {src' des' : NodePtr} {srcNode desNode srcNode' desNode' : KsiNode}
    {input input' : InputPort}
    (h : Ports g srcId srcPort desId desPort src des srcNode desNode input)
    (h' : Ports g srcId srcPort desId desPort src' des' srcNode' desNode' input') :
    src' = src ∧ des' = des ∧ srcNode' = srcNode ∧ desNode' = desNode ∧ input' = input := by
  obtain ⟨h1, h2, h3, h4, -, h5⟩ := h
  obtain ⟨h1', h2', h3', h4', -, h5'⟩ := h'
  obtain rfl : src' = src := by simpa [h1] using h1'.symm
  obtain rfl : des' = des := by simpa [h2] using h2'.symm
  obtain rfl : srcNode' = srcNode := by simpa [h3] using h3'.symm
  obtain rfl : desNode' = desNode := by simpa [h4] using h4'.symm
  exact ⟨rfl, rfl, rfl, rfl, by simpa [h5] using h5'.symm⟩

theorem nth_some {α : Type} {a : List α} {i : Int} {x : α} (h : nth a i = some x) :
    a[i.toNat]? = some x ∧ 0 ≤ i ∧ i < a.length := by
  unfold nth at h
  split at h
  · cases h
  · have := (List.getElem?_eq_some_iff.mp h).1
    exact ⟨h, by omega, by omega⟩

/-- The two ports have the same type, by their ids. -/
def SameType (srcNode : KsiNode) (srcPort : Int) (input : InputPort) : Prop :=
  ∃ type, nth srcNode.outputs srcPort = some type ∧
    input.type &&& ksiNodePortTypeMask = type &&& ksiNodePortTypeMask

/-! ### Linking two nodes -/

/-- What `link` does to the graph. -/
def Graph.link (g : Graph) (src des : NodePtr) (desId : Nat) (srcNode : KsiNode) : Graph :=
  if desId ∈ srcNode.successors then g
  else (g.update src fun node => { node with successors := desId :: node.successors }).update des
    fun node => { node with depNum := node.depNum + 1 }

theorem link_wp {d : Prop} {E : KsiError → Engine → Prop} {Q : Unit → Engine → Prop} {k : Nat}
    {srcNode : KsiNode} (hsrc : s.graph.heap src = some srcNode) (hdes : s.graph.heap des ≠ none)
    (hQ : Q () { s with graph := s.graph.link src des k srcNode }) :
    wp d (link src des k) s Q E := by
  unfold Dag.link
  rw [wp_bind, wp_load]
  refine ⟨fun hnone => absurd hsrc (by rw [hnone]; simp), fun node hnode => ?_⟩
  obtain rfl : node = srcNode := by simpa [hsrc] using hnode.symm
  rw [wp_ite]
  unfold Graph.link at hQ
  refine ⟨fun hmem => ?_, fun hmem => ?_⟩
  · rw [if_pos hmem] at hQ
    exact hQ
  · rw [if_neg hmem] at hQ
    rw [wp_bind, wp_update]
    refine ⟨fun hnone => absurd hsrc (by rw [hnone]; simp), fun _ _ => ?_⟩
    rw [wp_update]
    refine ⟨fun hnone => absurd hnone ?_, fun _ _ => hQ⟩
    rw [Graph.heap_update]
    split
    · simpa using hdes
    · exact hdes

theorem Graph.update_inputs {g : Graph} {f : KsiNode → KsiNode} (q : NodePtr)
    (hf : ∀ node, (f node).inputs = node.inputs) :
    ((g.update p f).heap q).map (·.inputs) = (g.heap q).map (·.inputs) := by
  rw [heap_update]
  split
  · rw [Option.map_map]
    exact Option.map_congr fun node _ => hf node
  · rfl

/-- Linking changes no port. -/
theorem Graph.link_inputs (g : Graph) (src des : NodePtr) (k : Nat) (srcNode : KsiNode)
    (q : NodePtr) :
    ((g.link src des k srcNode).heap q).map (·.inputs) = (g.heap q).map (·.inputs) := by
  unfold Graph.link
  split
  · rfl
  · rw [update_inputs, update_inputs]
    · exact fun _ => rfl
    · exact fun _ => rfl

end Ksi.Dag

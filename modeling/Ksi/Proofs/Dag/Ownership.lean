/-
Who owns the buffers.

A buffer that an edit allocates belongs to one place of the version, the `buffer` of an
input port or an entry of `outputBuffer`, until it is handed to `ksiMVCCDeferredFree`.
The kernels keep that book in order: each one that drops a place frees its buffer, and
each one that frees a buffer drops its place.  Nothing is assumed of the wiring.
-/
import Ksi.Proofs.Dag.Registered
import Ksi.Lib.Ledger

namespace Ksi.Dag

open Prog Runs

variable {s s' : Engine} {n p q src des : NodePtr} {i port : Nat} {b : BufPtr} {ex : Place → Prop}

/-! ### What happens to the buffers -/

/-- The engine with an input port's buffers stored. -/
def Engine.putEnv (e : Engine) (n : NodePtr) (i : Nat) (v : SignalEnv) : Engine :=
  { e with env := Function.update e.env n (Function.update (e.env n) i v) }

/-- The engine with an output port's buffer stored. -/
def Engine.putOutput (e : Engine) (n : NodePtr) (i : Nat) (b : Option BufPtr) : Engine :=
  { e with
    outputBuffer := Function.update e.outputBuffer n (Function.update (e.outputBuffer n) i b) }

/-- The engine with one more buffer allocated. -/
def Engine.alloc (e : Engine) : Engine :=
  { e with nextBuf := e.nextBuf + 1, mallocBufs := e.mallocBufs ++ [e.nextBuf] }

/-- The engine with a buffer queued to be freed. -/
def Engine.release (e : Engine) (ptr : Option BufPtr) : Engine :=
  { e with freeBufs := e.freeBufs ++ ptr.toList }

theorem Engine.putEnv_env (e : Engine) {v : SignalEnv} (m : NodePtr) (j : Nat) :
    (e.putEnv n i v).env m j = if m = n ∧ j = i then v else e.env m j := by
  unfold putEnv
  by_cases hm : m = n
  · subst hm
    by_cases hj : j = i <;> simp [hj]
  · simp [hm]

theorem Engine.putOutput_outputBuffer (e : Engine) {v : Option BufPtr} (m : NodePtr) (j : Nat) :
    (e.putOutput n i v).outputBuffer m j = if m = n ∧ j = i then v else e.outputBuffer m j := by
  unfold putOutput
  by_cases hm : m = n
  · subst hm
    by_cases hj : j = i <;> simp [hj]
  · simp [hm]

section Effects

variable {d : Prop} {E : KsiError → Engine → Prop} {Q : Unit → Engine → Prop}

@[simp] theorem wp_setEnv {f : SignalEnv → SignalEnv} :
    wp d (setEnv n i f) s Q E ↔ Q () (s.putEnv n i (f (s.env n i))) := Iff.rfl

@[simp] theorem wp_setOutput {ptr : Option BufPtr} :
    wp d (setOutput n i ptr) s Q E ↔ Q () (s.putOutput n i ptr) := Iff.rfl

@[simp] theorem wp_free {ptr : Option BufPtr} :
    wp d (ksiMVCCDeferredFree ptr .editing) s Q E ↔ Q () (s.release ptr) := by
  unfold wp ksiMVCCDeferredFree Engine.release
  cases ptr <;> simp

@[simp] theorem wp_malloc {size : Nat} {Q : Option BufPtr → Engine → Prop} :
    wp d (ksiMVCCMonitoredMalloc size .editing) s Q E ↔
      (size = 0 → Q none s) ∧ (size ≠ 0 → Q (some s.nextBuf) s.alloc) := by
  unfold wp ksiMVCCMonitoredMalloc Engine.alloc
  by_cases h : size = 0 <;> simp [h]

end Effects

/-! ### Places -/

/-- Where a version keeps a buffer of its own: `env[i].d->buffer` or `outputBuffer[i]`. -/
inductive Place
  | input (n : NodePtr) (i : Nat)
  | output (n : NodePtr) (i : Nat)
  deriving DecidableEq, Repr

/-- The node that has the place. -/
def Place.node : Place → NodePtr
  | .input n _ => n
  | .output n _ => n

/-- Input port `i` is a signal port. -/
def KsiNode.HasSignal (node : KsiNode) (i : Nat) : Prop :=
  ∃ type, (node.inputs.map (·.type))[i]? = some type ∧ type.isEvent = false

/-- The place has the buffer `b`. -/
def Engine.Owns (e : Engine) : Place → BufPtr → Prop
  | .input n i, b => ∃ node, e.graph.heap n = some node ∧ node.HasSignal i ∧
      (e.env n i).buffer = some b
  | .output n i, b => ∃ node, e.graph.heap n = some node ∧ node.isNormal = true ∧
      i < node.outputs.length ∧ e.outputBuffer n i = some b

/-- The book is in order, but for the places `ex`, which are being set up or given up. -/
structure Accounted (ex : Place → Prop) (e : Engine) : Prop where
  ledger : Ledger (fun pl b => e.Owns pl b ∧ ¬ ex pl) e.freeBufs e.nextBuf
  queued : e.mallocBufs = List.range e.nextBuf
  /-- a node that is live has an address that has been given out -/
  fresh : ∀ p node, e.graph.heap p = some node → p < e.graph.nextNode

/-- **Every buffer has one owner or has been freed once.** -/
def Balanced (e : Engine) : Prop := Accounted (fun _ => False) e

/-- The graph has the same nodes, of the same shape. -/
structure SameShape (g g' : Graph) : Prop where
  shape : ∀ q, (g'.heap q).map KsiNode.shape = (g.heap q).map KsiNode.shape
  nextNode : g'.nextNode = g.nextNode

theorem SameShape.refl (g : Graph) : SameShape g g := ⟨fun _ => rfl, rfl⟩

theorem SameShape.heap {g g' : Graph} (h : SameShape g g') {node : KsiNode}
    (hnode : g'.heap q = some node) : ∃ node', g.heap q = some node' ∧
    node'.shape = node.shape := by
  have hq := h.shape q
  rw [hnode, Option.map_some] at hq
  obtain ⟨node', hnode', hshape⟩ := Option.map_eq_some_iff.mp hq.symm
  exact ⟨node', hnode', hshape⟩

theorem SameShape.symm {g g' : Graph} (h : SameShape g g') : SameShape g' g :=
  ⟨fun q => (h.shape q).symm, h.nextNode.symm⟩

theorem SameShape.update {g : Graph} {f : KsiNode → KsiNode}
    (hf : ∀ node, (f node).shape = node.shape) : SameShape g (g.update p f) := by
  refine ⟨fun q => ?_, rfl⟩
  rw [Graph.heap_update]
  split
  · rw [Option.map_map]
    exact Option.map_congr fun node _ => hf node
  · rfl

theorem Engine.Owns.of_shape (hshape : SameShape s.graph s'.graph)
    (henv : ∀ n i, (s'.env n i).buffer = (s.env n i).buffer)
    (hout : s'.outputBuffer = s.outputBuffer) {pl : Place} (h : s'.Owns pl b) : s.Owns pl b := by
  cases pl with
  | input n i =>
      obtain ⟨node, hnode, ⟨type, htype, hsignal⟩, hb⟩ := h
      obtain ⟨node', hnode', heq⟩ := hshape.heap hnode
      have htypes : node'.inputs.map (·.type) = node.inputs.map (·.type) :=
        congrArg (fun shape => shape.2.2) heq
      exact ⟨node', hnode', ⟨type, by rw [htypes]; exact htype, hsignal⟩, by rw [← henv]; exact hb⟩
  | output n i =>
      obtain ⟨node, hnode, hnormal, hi, hb⟩ := h
      obtain ⟨node', hnode', heq⟩ := hshape.heap hnode
      have hnormal' : node'.isNormal = node.isNormal := congrArg (fun shape => shape.1) heq
      have hlen : node'.outputs.length = node.outputs.length :=
        congrArg (fun shape => shape.2.1) heq
      exact ⟨node', hnode', hnormal'.trans hnormal, by omega, by rw [← hout]; exact hb⟩

/-- What has no influence on the places keeps the book in order. -/
theorem Accounted.of_shape (h : Accounted ex s) (hshape : SameShape s.graph s'.graph)
    (henv : ∀ n i, (s'.env n i).buffer = (s.env n i).buffer)
    (hout : s'.outputBuffer = s.outputBuffer) (hfree : s'.freeBufs = s.freeBufs)
    (hnext : s'.nextBuf = s.nextBuf) (hmalloc : s'.mallocBufs = s.mallocBufs) :
      Accounted ex s' := by
  refine ⟨?_, by rw [hmalloc, hnext]; exact h.queued, fun p node hp => ?_⟩
  · rw [hfree, hnext]
    refine h.ledger.congr fun pl b => and_congr_left' ⟨fun ho => ho.of_shape hshape henv hout,
      fun ho => ?_⟩
    exact ho.of_shape hshape.symm (fun n i => (henv n i).symm) hout.symm
  · obtain ⟨node', hnode', -⟩ := hshape.heap hp
    rw [hshape.nextNode]
    exact h.fresh p node' hnode'

/-- The places outside of `ex` do not change. -/
theorem Accounted.congr {ex' : Place → Prop} (h : Accounted ex s)
    (hheld : ∀ pl b, s'.Owns pl b ∧ ¬ ex' pl ↔ s.Owns pl b ∧ ¬ ex pl)
    (hfree : s'.freeBufs = s.freeBufs) (hnext : s'.nextBuf = s.nextBuf)
    (hmalloc : s'.mallocBufs = s.mallocBufs)
    (hfresh : ∀ p node, s'.graph.heap p = some node → p < s'.graph.nextNode) :
      Accounted ex' s' := by
  refine ⟨?_, by rw [hmalloc, hnext]; exact h.queued, hfresh⟩
  rw [hfree, hnext]
  exact h.ledger.congr hheld

theorem update_balanced {f : KsiNode → KsiNode} (hf : ∀ node, (f node).shape = node.shape) :
    Keeps Balanced (update p f) := by
  intro s h
  rw [wp_update]
  exact ⟨fun _ => trivial, fun _ _ =>
    h.of_shape (.update hf) (fun _ _ => rfl) rfl rfl rfl rfl⟩

/-! ### Allocating and freeing -/

/-- A place that has nothing can be given up. -/
theorem Accounted.skip {pl : Place} (h : Accounted ex s) (hnone : ∀ b, ¬ s.Owns pl b) :
    Accounted (fun pl' => pl' = pl ∨ ex pl') s := by
  refine h.congr (fun pl' b => and_congr_right fun ho => not_congr ?_) rfl rfl rfl h.fresh
  refine ⟨fun hex => hex.elim (fun heq => ?_) fun hex => hex, .inr⟩
  subst heq
  exact absurd ho (hnone b)

/-- The buffer of a place is freed, and the place given up. -/
theorem Accounted.free {pl : Place} {ptr : Option BufPtr} (h : Accounted ex s) (hpl : ¬ ex pl)
    (hptr : ∀ b, s.Owns pl b ↔ ptr = some b) :
    Accounted (fun pl' => pl' = pl ∨ ex pl') (s.release ptr) := by
  have howns : ∀ pl' b', (s.release ptr).Owns pl' b' ↔ s.Owns pl' b' := by
    intro pl' b'
    cases pl' <;> rfl
  cases ptr with
  | none =>
      have hskip := h.skip fun b hb => by cases (hptr b).mp hb
      refine hskip.congr (fun pl' b' => by rw [howns]) ?_ rfl rfl h.fresh
      exact List.append_nil _
  | some c =>
      refine ⟨?_, h.queued, h.fresh⟩
      refine h.ledger.give (a := pl) (b := c) ⟨(hptr c).mpr rfl, hpl⟩ fun pl' b' => ?_
      rw [howns]
      constructor
      · rintro ⟨ho, hex⟩
        refine ⟨⟨ho, fun hex' => hex (.inr hex')⟩, ?_⟩
        rintro rfl
        exact hex (.inl (h.ledger.place pl' pl b' ⟨ho, fun hex' => hex (.inr hex')⟩
          ⟨(hptr b').mpr rfl, hpl⟩))
      · rintro ⟨⟨ho, hex⟩, hne⟩
        refine ⟨ho, ?_⟩
        rintro (rfl | hex')
        · exact hne (Option.some.inj ((hptr b').mp ho)).symm
        · exact hex hex'

/-- A place that has nothing gets a new buffer. -/
theorem Accounted.malloc {pl : Place} (h : Accounted ex s)
    (hnext : s'.nextBuf = s.nextBuf + 1) (hmalloc : s'.mallocBufs = s.mallocBufs ++ [s.nextBuf])
    (hfree : s'.freeBufs = s.freeBufs) {ex' : Place → Prop}
    (hgraph : s'.graph = s.graph)
    (howns : ∀ pl' b', s'.Owns pl' b' ∧ ¬ ex' pl' ↔
      (s.Owns pl' b' ∧ ¬ ex pl') ∨ (pl' = pl ∧ b' = s.nextBuf)) : Accounted ex' s' := by
  refine ⟨?_, by rw [hmalloc, hnext, h.queued, List.range_succ], by rw [hgraph]; exact h.fresh⟩
  rw [hfree, hnext]
  exact h.ledger.take howns

/-! ### The buffer of an input port -/

/-- A store that leaves the buffer of the port as it is. -/
theorem Accounted.putEnv {v : SignalEnv} (h : Accounted ex s) (hv : v.buffer = (s.env n i).buffer) :
    Accounted ex (s.putEnv n i v) := by
  refine h.of_shape (.refl _) (fun m j => ?_) rfl rfl rfl rfl
  rw [Engine.putEnv_env]
  split
  · rename_i heq
    rw [heq.1, heq.2, hv]
  · rfl

/-- What an input port has, when it is one of a live node. -/
theorem owns_input {input : InputPort}
    (hinput : (s.graph.heap n).bind (fun node => node.inputs[i]?) = some input)
    (hsignal : ¬ input.type.isEvent = true) : s.Owns (.input n i) b ↔
    (s.env n i).buffer = some b := by
  obtain ⟨node, hnode, hget⟩ := Option.bind_eq_some_iff.mp hinput
  constructor
  · rintro ⟨-, -, -, hb⟩
    exact hb
  · exact fun hb => ⟨node, hnode, ⟨input.type, by rw [List.getElem?_map, hget]; rfl,
      by simpa using hsignal⟩, hb⟩

/-- Storing a buffer in one input port leaves the other places alone. -/
theorem owns_putEnv {v : SignalEnv} {pl : Place} (hpl : pl ≠ .input n i) :
    (s.putEnv n i v).Owns pl b ↔ s.Owns pl b := by
  cases pl with
  | output m j => exact Iff.rfl
  | input m j =>
      have hne : ¬ (m = n ∧ j = i) := fun heq => hpl (by rw [heq.1, heq.2])
      unfold Engine.Owns
      simp only
      rw [Engine.putEnv_env, if_neg hne]
      rfl

/-- The port gets a buffer of its own. -/
theorem Balanced.mixing {input : InputPort} {ptr : Option BufPtr} (h : Balanced s)
    (hinput : (s.graph.heap n).bind (fun node => node.inputs[i]?) = some input)
    (hsignal : ¬ input.type.isEvent = true) (hnone : (s.env n i).buffer = none) :
    Balanced (s.alloc.putEnv n i { buffer := some s.nextBuf, internalBufferPtr := ptr }) := by
  have howns : ∀ pl b,
    ((s.alloc.putEnv n i { buffer := some s.nextBuf, internalBufferPtr := ptr }).Owns
      pl b ∧ ¬ False) ↔ (s.Owns pl b ∧ ¬ False) ∨ (pl = .input n i ∧ b = s.nextBuf) := by
    intro pl b
    by_cases hpl : pl = .input n i
    · subst hpl
      rw [owns_input (s := s.alloc.putEnv n i _) hinput hsignal, owns_input hinput hsignal, hnone,
        Engine.putEnv_env, if_pos ⟨rfl, rfl⟩]
      simp [eq_comm]
    · simp only [hpl, false_and, or_false]
      exact and_congr_left' (owns_putEnv hpl)
  refine Accounted.malloc h ?_ ?_ ?_ ?_ howns
  all_goals rfl

/-- The port gives its buffer up. -/
theorem Balanced.direct {input : InputPort} (ptr : Option BufPtr) (h : Balanced s)
    (hinput : (s.graph.heap n).bind (fun node => node.inputs[i]?) = some input)
    (hsignal : ¬ input.type.isEvent = true) :
    Balanced ((s.release (s.env n i).buffer).putEnv n i
      { buffer := none, internalBufferPtr := ptr }) := by
  have hnot : ¬ (fun _ : Place => False) (.input n i) := fun hex => hex
  have hfreed := Accounted.free h hnot fun b => owns_input hinput hsignal
  refine hfreed.congr (fun pl b => ?_) rfl rfl rfl h.fresh
  by_cases hpl : pl = .input n i
  · subst hpl
    rw [owns_input (s := (s.release _).putEnv n i _) hinput hsignal, Engine.putEnv_env,
      if_pos ⟨rfl, rfl⟩]
    exact iff_of_false (fun h' => by cases h'.1) fun h' => h'.2 (.inl rfl)
  · simp only [hpl, false_or]
    exact and_congr_left' (owns_putEnv hpl)

theorem refreshMixing_balanced {input : InputPort} (h : Balanced s)
    (hinput : (s.graph.heap n).bind (fun node => node.inputs[i]?) = some input)
    (hsignal : ¬ input.type.isEvent = true) {E : KsiError → Engine → Prop} :
    wp True (refreshMixing n i .editing) s (fun _ => Balanced) E := by
  unfold refreshMixing
  rw [wp_bind, wp_read]
  refine ⟨fun _ => trivial, fun env henv => ?_⟩
  obtain rfl : s.env n i = env := Option.some.inj henv
  cases hbuffer : (s.env n i).buffer with
  | some b => exact Accounted.putEnv h rfl
  | none =>
      simp only
      rw [wp_bind, wp_read]
      refine ⟨fun _ => trivial, fun fpb _ => ?_⟩
      rw [wp_bind, wp_malloc]
      exact ⟨fun _ => Accounted.putEnv h hbuffer.symm, fun _ => h.mixing hinput hsignal hbuffer⟩

/-- **`refreshCopying` keeps the book.** -/
theorem refreshCopying_balanced : Keeps Balanced (refreshCopying n i .editing) := by
  intro s h
  unfold refreshCopying
  rw [wp_bind, wp_loadInput]
  refine ⟨fun _ => trivial, fun input hinput => ?_⟩
  rw [wp_ite]
  refine ⟨fun _ => h, fun hsignal => ?_⟩
  split
  · exact Accounted.putEnv h rfl
  · rename_i me _
    rw [wp_ite]
    refine ⟨fun _ => ?_, fun _ => refreshMixing_balanced h hinput hsignal⟩
    rw [wp_bind, wp_read]
    refine ⟨fun _ => trivial, fun env henv => ?_⟩
    obtain rfl : s.env n i = env := Option.some.inj henv
    rw [wp_bind, wp_free, wp_bind, wp_setEnv]
    have hcleared := h.direct (s.env n i).internalBufferPtr hinput hsignal
    cases me.src with
    | none => exact hcleared
    | some src =>
        rw [wp_bind]
        unfold loadOutput
        rw [wp_read]
        exact ⟨fun _ => trivial, fun output _ => Accounted.putEnv hcleared rfl⟩
  · exact refreshMixing_balanced h hinput hsignal

/-! ### The buffers of the output ports -/

/-- What an output port of a normal node has. -/
theorem owns_output {node : KsiNode} (hn : s.graph.heap n = some node)
    (hnormal : node.isNormal = true) (hi : i < node.outputs.length) :
    s.Owns (.output n i) b ↔ s.outputBuffer n i = some b := by
  constructor
  · rintro ⟨-, -, -, -, hb⟩
    exact hb
  · exact fun hb => ⟨node, hn, hnormal, hi, hb⟩

/-- Storing the buffer of one output port leaves the other places alone. -/
theorem owns_putOutput {ptr : Option BufPtr} {pl : Place} (hpl : pl ≠ .output n i) :
    (s.putOutput n i ptr).Owns pl b ↔ s.Owns pl b := by
  cases pl with
  | input m j => exact Iff.rfl
  | output m j =>
      have hne : ¬ (m = n ∧ j = i) := fun heq => hpl (by rw [heq.1, heq.2])
      unfold Engine.Owns
      simp only
      rw [Engine.putOutput_outputBuffer, if_neg hne]
      rfl

/-- The output ports of `n` from `i` on, which have not got their buffers yet. -/
def outputsFrom (n : NodePtr) (i : Nat) (pl : Place) : Prop := ∃ j, i ≤ j ∧ pl = .output n j

theorem outputsFrom_iff {pl : Place} :
    outputsFrom n i pl ↔ pl = .output n i ∨ outputsFrom n (i + 1) pl := by
  unfold outputsFrom
  constructor
  · rintro ⟨j, hj, rfl⟩
    rcases Nat.eq_or_lt_of_le hj with rfl | hlt
    · exact .inl rfl
    · exact .inr ⟨j, hlt, rfl⟩
  · rintro (rfl | ⟨j, hj, rfl⟩)
    · exact ⟨i, Nat.le_refl i, rfl⟩
    · exact ⟨j, Nat.le_of_succ_le hj, rfl⟩

/-- The loop over the outputs gives every output port its buffer. -/
theorem newOutputs_balanced {E : KsiError → Engine → Prop} (node : KsiNode) (n : NodePtr) :
    ∀ (types : List PortType) (i : Nat) {s : Engine}, s.graph.heap n = some node →
      node.isNormal = true →
      (node.outputs.length = i + types.length ∨ (types = [] ∧ node.outputs.length ≤ i)) →
      Accounted (outputsFrom n i) s →
      wp True (newOutputs n .editing i types) s (fun _ s' => Balanced s') E := by
  intro types
  induction types with
  | nil =>
      intro i s hn _ hlen h
      refine Accounted.congr h (fun pl b => and_congr_right fun ho => ?_) rfl rfl rfl h.fresh
      refine iff_of_true not_false ?_
      rintro ⟨j, hj, rfl⟩
      obtain ⟨node', hn', -, hjlt, -⟩ := ho
      rw [hn] at hn'
      cases hn'
      simp only [List.length_nil] at hlen
      omega
  | cons type rest ih =>
      intro i s hn hnormal hlen h
      have hlen' : node.outputs.length = i + 1 + rest.length := by
        simp only [List.length_cons, reduceCtorEq, false_and, or_false] at hlen
        omega
      have hnot : ¬ outputsFrom n (i + 1) (.output n i) := by
        rintro ⟨j, hj, heq⟩
        cases heq
        exact Nat.lt_irrefl _ hj
      -- the port's buffer is new, or there is none
      have hnone : Accounted (outputsFrom n (i + 1)) (s.putOutput n i none) := by
        refine h.congr (fun pl b => ?_) rfl rfl rfl h.fresh
        by_cases hpl : pl = .output n i
        · subst hpl
          refine iff_of_false (fun h' => ?_) fun h' => h'.2 ⟨i, Nat.le_refl i, rfl⟩
          rw [owns_output (s := s.putOutput n i none) hn hnormal (by omega),
            Engine.putOutput_outputBuffer, if_pos ⟨rfl, rfl⟩] at h'
          cases h'.1
        · rw [owns_putOutput hpl, outputsFrom_iff (i := i)]
          simp [hpl]
      have hsome : Accounted (outputsFrom n (i + 1)) (s.alloc.putOutput n i (some s.nextBuf)) := by
        have howns : ∀ pl b, ((s.alloc.putOutput n i (some s.nextBuf)).Owns pl b ∧
            ¬ outputsFrom n (i + 1) pl) ↔
            (s.Owns pl b ∧ ¬ outputsFrom n i pl) ∨ (pl = .output n i ∧ b = s.nextBuf) := by
          intro pl b
          by_cases hpl : pl = .output n i
          · subst hpl
            rw [owns_output (s := s.alloc.putOutput n i _) hn hnormal (by omega),
              Engine.putOutput_outputBuffer, if_pos ⟨rfl, rfl⟩]
            have hin : outputsFrom n i (.output n i) := ⟨i, Nat.le_refl i, rfl⟩
            simp [hnot, hin, eq_comm]
          · rw [owns_putOutput hpl, outputsFrom_iff (i := i)]
            have hold : s.alloc.Owns pl b ↔ s.Owns pl b := by cases pl <;> rfl
            simp [hpl, hold]
        refine h.malloc ?_ ?_ ?_ ?_ howns
        all_goals rfl
      have hnext : ∀ ptr s', s'.graph.heap n = some node →
          Accounted (outputsFrom n (i + 1)) (s'.putOutput n i ptr) →
          wp True (setOutput n i ptr >>= fun _ => newOutputs n .editing (i + 1) rest) s'
            (fun _ s' => Balanced s') E := by
        intro ptr s' hn' h'
        rw [wp_bind, wp_setOutput]
        exact ih (i + 1) hn' hnormal (.inl hlen') h'
      unfold newOutputs mallocOutput
      rw [wp_bind, wp_ite]
      refine ⟨fun _ => ?_, fun _ => ?_⟩
      · rw [wp_malloc]
        exact ⟨fun _ => hnext none s hn hnone, fun _ => hnext _ s.alloc hn hsome⟩
      · rw [wp_bind, wp_read]
        refine ⟨fun _ => trivial, fun _ _ => ?_⟩
        rw [wp_malloc]
        exact ⟨fun _ => hnext none s hn hnone, fun _ => hnext _ s.alloc hn hsome⟩

/-! ### A new node -/

/-- The engine with a node under a new address. -/
def Engine.putNew (e : Engine) (node : KsiNode) : Engine :=
  { e with
    graph := { e.graph with
      heap := Function.update e.graph.heap e.graph.nextNode (some node)
      nextNode := e.graph.nextNode + 1 }
    env := Function.update e.env e.graph.nextNode fun _ =>
      { buffer := none, internalBufferPtr := none } }

theorem wp_newNode {d : Prop} {node : KsiNode} {Q : NodePtr → Engine → Prop}
    {E : KsiError → Engine → Prop} :
    wp d (newNode node) s Q E ↔ Q s.graph.nextNode (s.putNew node) := Iff.rfl

theorem Engine.putNew_heap (node : KsiNode) (q : NodePtr) :
    (s.putNew node).graph.heap q = if q = s.graph.nextNode then some node else s.graph.heap q := by
  unfold putNew
  by_cases hq : q = s.graph.nextNode <;> simp [hq]

/-- A new node has no buffers but for those its output ports will get. -/
theorem Balanced.putNew (h : Balanced s) (node : KsiNode) :
    Accounted (outputsFrom s.graph.nextNode 0) (s.putNew node) := by
  have hold : s.graph.heap s.graph.nextNode = none := by
    cases hheap : s.graph.heap s.graph.nextNode with
    | none => rfl
    | some m => exact absurd (h.fresh _ m hheap) (Nat.lt_irrefl _)
  refine Accounted.congr h (fun pl b => ?_) rfl rfl rfl fun p m hp => ?_
  · cases pl with
    | input m j =>
        have hnot : ¬ outputsFrom s.graph.nextNode 0 (.input m j) := by
          rintro ⟨_, -, heq⟩
          cases heq
        simp only [hnot, not_false_eq_true, and_true]
        unfold Engine.Owns
        simp only [Engine.putNew_heap]
        by_cases hm : m = s.graph.nextNode
        · subst hm
          simp [hold, Engine.putNew]
        · simp [hm, Engine.putNew]
    | output m j =>
        by_cases hm : m = s.graph.nextNode
        · subst hm
          refine iff_of_false (fun h' => h'.2 ⟨j, Nat.zero_le j, rfl⟩) ?_
          rintro ⟨⟨node', hnode', -⟩, -⟩
          rw [hold] at hnode'
          cases hnode'
        · have hnot : ¬ outputsFrom s.graph.nextNode 0 (.output m j) := by
            rintro ⟨_, -, heq⟩
            cases heq
            exact hm rfl
          simp only [hnot, not_false_eq_true, and_true]
          unfold Engine.Owns
          simp only [Engine.putNew_heap, hm, if_false]
          rfl
  · rw [Engine.putNew_heap] at hp
    show p < s.graph.nextNode + 1
    split at hp
    · rename_i heq
      exact heq ▸ Nat.lt_succ_self _
    · exact Nat.lt_succ_of_lt (h.fresh p m hp)

/-- The places of a node that is not normal are those of its input ports. -/
theorem Accounted.of_not_normal {node : KsiNode} (h : Accounted (outputsFrom n i) s)
    (hn : s.graph.heap n = some node) (hnormal : node.isNormal ≠ true) : Balanced s := by
  refine Accounted.congr h (fun pl b => and_congr_right fun ho => ?_) rfl rfl rfl h.fresh
  refine iff_of_true not_false ?_
  rintro ⟨j, -, rfl⟩
  obtain ⟨node', hn', hnormal', -⟩ := ho
  rw [hn] at hn'
  cases hn'
  exact hnormal hnormal'

theorem insertNode_balanced : Keeps Balanced (insertNode n) := fun _ h =>
  Accounted.of_shape h ⟨fun _ => rfl, rfl⟩ (fun _ _ => rfl) rfl rfl rfl rfl

theorem setFinalNode_balanced {ptr : Option NodePtr} : Keeps Balanced (setFinalNode ptr) :=
  .modify fun _ h => Accounted.of_shape h ⟨fun _ => rfl, rfl⟩ (fun _ _ => rfl) rfl rfl rfl rfl

/-- The parts of the kernels keep the book. -/
theorem balanced_walks : Walks .editing fun {α} (x : Edit α) => Keeps Balanced x where
  toCompositional := keeps_compositional Balanced
  update := fun hf => update_balanced hf.shape
  refreshCopying := fun _ _ => refreshCopying_balanced

theorem impl_ksiEngineAddNode_balanced (typeFlags : BitVec 32) :
    Keeps Balanced (impl_ksiEngineAddNode typeFlags .editing) := by
  have hK := balanced_walks
  refine hK.bind hK.checkInitialized fun _ => hK.bind (hK.read _) fun finalNode =>
    hK.bind (hK.require (by decide)) fun _ => hK.bind (hK.orError _ (by decide)) fun ports => ?_
  intro s h
  rw [wp_bind, wp_newNode]
  have hnew := h.putNew (freshNode typeFlags ports 0)
  have hn : (s.putNew (freshNode typeFlags ports 0)).graph.heap s.graph.nextNode =
      some (freshNode typeFlags ports 0) := Function.update_self ..
  have hrest : Keeps Balanced (when (typeFlags &&& ksiNodeTypeOutputMask = ksiNodeTypeOutputFinal)
      (setFinalNode (some s.graph.nextNode)) >>= fun _ => insertNode s.graph.nextNode >>= fun ret =>
        update s.graph.nextNode (fun node => { node with id := ret }) >>= fun _ => pure ret) :=
    hK.bind (hK.when setFinalNode_balanced) fun _ => hK.bind insertNode_balanced fun _ =>
      hK.bind (update_balanced (by exact fun _ => rfl)) fun _ => hK.pure _
  rw [wp_bind, wp_when]
  refine ⟨fun hnormal => ?_, fun hnormal => ?_⟩
  · refine wp_mono (newOutputs_balanced (E := fun _ => Balanced) _ _ _ _ hn
      (by simpa [KsiNode.isNormal,
      freshNode] using hnormal) (.inl (by simp [freshNode])) hnew) (fun _ s' h' => hrest s' h')
        fun _ _ h' => h'
  · exact hrest _ (hnew.of_not_normal hn (by simpa [KsiNode.isNormal, freshNode] using hnormal))

theorem link_balanced {k : Nat} : Keeps Balanced (link src des k) := by
  have hK := balanced_walks
  exact hK.bind hK.load fun _ => hK.ite (hK.pure ()) (hK.bind (update_balanced
    (by exact fun _ => rfl)) fun _ => update_balanced (by exact fun _ => rfl))

/-! ### Destroying a node -/

/-- The places of the input ports `a` to `i` of `n`, with those of `ex`. -/
def inputsGone (ex : Place → Prop) (n : NodePtr) (a i : Nat) (pl : Place) : Prop :=
  (∃ j, a ≤ j ∧ j < i ∧ pl = .input n j) ∨ ex pl

/-- The places of the output ports `a` to `i` of `n`, with those of `ex`. -/
def outputsGone (ex : Place → Prop) (n : NodePtr) (a i : Nat) (pl : Place) : Prop :=
  (∃ j, a ≤ j ∧ j < i ∧ pl = .output n j) ∨ ex pl

theorem inputsGone_succ {a : Nat} {pl : Place} (hi : a ≤ i) :
    inputsGone ex n a (i + 1) pl ↔ pl = .input n i ∨ inputsGone ex n a i pl := by
  unfold inputsGone
  grind

theorem outputsGone_succ {a : Nat} {pl : Place} (hi : a ≤ i) :
    outputsGone ex n a (i + 1) pl ↔ pl = .output n i ∨ outputsGone ex n a i pl := by
  unfold outputsGone
  grind

theorem Accounted.of_iff {ex' : Place → Prop} (h : Accounted ex s) (hex : ∀ pl, ex' pl ↔ ex pl) :
    Accounted ex' s := by
  obtain rfl : ex' = ex := funext fun pl => propext (hex pl)
  exact h

section Gone

variable {E : KsiError → Engine → Prop} {a k : Nat}

theorem impl_delete_env_accounted (h : Accounted ex s) (hnot : ¬ ex (.input n i)) :
    wp True (impl_delete_env n .editing i) s
      (fun _ s' => Accounted (fun pl => pl = .input n i ∨ ex pl) s' ∧ s'.graph = s.graph) E := by
  unfold impl_delete_env
  rw [wp_bind, wp_loadInput]
  refine ⟨fun _ => trivial, fun input hinput => ?_⟩
  rw [wp_ite]
  refine ⟨fun hevent => ⟨h.skip fun b hb => ?_, rfl⟩, fun hsignal => ?_⟩
  · obtain ⟨node, hnode, ⟨type, htype, hno⟩, -⟩ := hb
    obtain ⟨node', hnode', hget⟩ := Option.bind_eq_some_iff.mp hinput
    rw [hnode] at hnode'
    cases hnode'
    rw [List.getElem?_map, hget, Option.map_some] at htype
    cases htype
    rw [hevent] at hno
    cases hno
  · rw [wp_bind, wp_read]
    refine ⟨fun _ => trivial, fun env henv => ?_⟩
    obtain rfl : s.env n i = env := Option.some.inj henv
    rw [wp_free]
    exact ⟨h.free hnot fun b => owns_input hinput hsignal, rfl⟩

/-- The buffers of a row of input ports are freed. -/
theorem deleteEnvs_accounted (h : Accounted ex s) (hnot : ∀ i, ¬ ex (.input n i)) :
    wp True (forEach (List.range' a k) (impl_delete_env n .editing)) s
      (fun _ s' => Accounted (inputsGone ex n a (a + k)) s' ∧ s'.graph = s.graph) E := by
  refine wp_forRange' (fun i (s' : Engine) => Accounted (inputsGone ex n a i) s' ∧
    s'.graph = s.graph) (fun i s' hi _ hs' => ?_) ⟨h.of_iff fun pl => ?_, rfl⟩
  · refine wp_mono (impl_delete_env_accounted hs'.1 ?_)
      (fun _ s'' h' => ⟨h'.1.of_iff fun pl => inputsGone_succ hi, h'.2.trans hs'.2⟩)
        fun _ _ hE => hE
    rintro (⟨j, -, hj, heq⟩ | hex)
    · cases heq
      exact Nat.lt_irrefl _ hj
    · exact hnot i hex
  · unfold inputsGone
    grind

theorem impl_delete_output_accounted {node : KsiNode} (h : Accounted ex s)
    (hn : s.graph.heap n = some node) (hnormal : node.isNormal = true) (hnot : ¬ ex (.output n i)) :
    wp True (impl_delete_output n .editing i) s
      (fun _ s' => Accounted (fun pl => pl = .output n i ∨ ex pl) s' ∧ s'.graph = s.graph) E := by
  unfold impl_delete_output loadOutput
  rw [wp_bind, wp_read]
  refine ⟨fun _ => trivial, fun output houtput => ?_⟩
  rw [hn, Option.bind_some] at houtput
  obtain ⟨type, htype, rfl⟩ := Option.map_eq_some_iff.mp houtput
  have hi : i < node.outputs.length := by
    have := (nth_some htype).2.2
    omega
  rw [wp_free]
  exact ⟨h.free hnot fun b => owns_output hn hnormal hi, rfl⟩

/-- The buffers of a row of output ports are freed. -/
theorem deleteOutputs_accounted {node : KsiNode} (h : Accounted ex s)
    (hn : s.graph.heap n = some node) (hnormal : node.isNormal = true)
    (hnot : ∀ i, ¬ ex (.output n i)) :
    wp True (forEach (List.range' a k) (impl_delete_output n .editing)) s
      (fun _ s' => Accounted (outputsGone ex n a (a + k)) s' ∧ s'.graph = s.graph) E := by
  refine wp_forRange' (fun i (s' : Engine) => Accounted (outputsGone ex n a i) s' ∧
    s'.graph = s.graph) (fun i s' hi _ hs' => ?_) ⟨h.of_iff fun pl => ?_, rfl⟩
  · refine wp_mono (impl_delete_output_accounted hs'.1 (by rw [hs'.2]; exact hn) hnormal ?_)
      (fun _ s'' h' => ⟨h'.1.of_iff fun pl => outputsGone_succ hi, h'.2.trans hs'.2⟩)
        fun _ _ hE => hE
    rintro (⟨j, -, hj, heq⟩ | hex)
    · cases heq
      exact Nat.lt_irrefl _ hj
    · exact hnot i hex
  · unfold outputsGone
    grind

end Gone

theorem KsiNode.HasSignal.lt {node : KsiNode} (h : node.HasSignal i) : i < node.inputs.length := by
  obtain ⟨type, htype, -⟩ := h
  simpa using (List.getElem?_eq_some_iff.mp htype).1

/-- **The end of a node**: all its buffers are freed. -/
theorem ksiEngineDestroyNode_balanced : Keeps Balanced (ksiEngineDestroyNode n .editing) := by
  intro s h
  unfold ksiEngineDestroyNode
  rw [wp_bind, wp_load]
  refine ⟨fun _ => trivial, fun node hn => ?_⟩
  rw [wp_bind, List.range_eq_range']
  refine wp_mono (deleteEnvs_accounted h fun _ hex => hex) (fun _ s₁ hs₁ => ?_) fun _ _ hE => hE
  obtain ⟨h₁, hg₁⟩ := hs₁
  have hn₁ : s₁.graph.heap n = some node := by rw [hg₁]; exact hn
  -- the places that a node has
  have hinput : ∀ {m : NodePtr} {s₂ : Engine} {j : Nat} {b : BufPtr}, s₂.graph.heap m = some node →
      s₂.Owns (.input m j) b → j < node.inputs.length := by
    rintro m s₂ j b hm ⟨node', hnode', hsignal, -⟩
    rw [hm] at hnode'
    cases hnode'
    exact hsignal.lt
  have houtput : ∀ {m : NodePtr} {s₂ : Engine} {j : Nat} {b : BufPtr}, s₂.graph.heap m = some node →
      s₂.Owns (.output m j) b → node.isNormal = true ∧ j < node.outputs.length := by
    rintro m s₂ j b hm ⟨node', hnode', hnormal, hlt, -⟩
    rw [hm] at hnode'
    cases hnode'
    exact ⟨hnormal, hlt⟩
  -- without the node its places are gone, and no other place was given up
  have hend : ∀ {ex : Place → Prop} {s₂ : Engine}, Accounted ex s₂ → s₂.graph = s.graph →
      (∀ pl b, s₂.Owns pl b → (ex pl ↔ pl.node = n)) →
      Balanced
        { s₂ with graph := { s₂.graph with heap := Function.update s₂.graph.heap n none } } := by
    intro ex s₂ h₂ hg₂ hex
    have howns : ∀ pl b, Engine.Owns { s₂ with graph := { s₂.graph with
        heap := Function.update s₂.graph.heap n none } } pl b ↔ s₂.Owns pl b ∧ pl.node ≠ n := by
      intro pl b
      cases pl with
      | input m j =>
          unfold Engine.Owns Place.node
          by_cases hm : m = n <;> simp [hm]
      | output m j =>
          unfold Engine.Owns Place.node
          by_cases hm : m = n <;> simp [hm]
    refine h₂.congr (fun pl b => ?_) rfl rfl rfl fun p m hp => ?_
    · rw [howns]
      constructor
      · exact fun h' => ⟨h'.1.1, fun h'' => h'.1.2 ((hex pl b h'.1.1).mp h'')⟩
      · exact fun h' => ⟨⟨h'.1, fun h'' => h'.2 ((hex pl b h'.1).mpr h'')⟩, fun hf => hf⟩
    · simp only [Function.update_apply] at hp
      split at hp
      · cases hp
      · exact h₂.fresh p m hp
  rw [wp_bind, wp_when]
  refine ⟨fun hnormal => ?_, fun hnormal => ?_⟩
  · rw [List.range_eq_range']
    refine wp_mono (deleteOutputs_accounted h₁ hn₁ hnormal ?_) (fun _ s₂ hs₂ => ?_) fun _ _ hE => hE
    · rintro i (⟨j, -, -, heq⟩ | hex)
      · cases heq
      · exact hex
    · refine hend hs₂.1 (hs₂.2.trans hg₁) fun pl b ho => ?_
      have hn₂ : s₂.graph.heap n = some node := by rw [hs₂.2]; exact hn₁
      unfold outputsGone inputsGone
      constructor
      · rintro (⟨j, -, -, rfl⟩ | ⟨j, -, -, rfl⟩ | hex)
        · rfl
        · rfl
        · exact hex.elim
      · rintro rfl
        cases pl with
        | input m j => exact .inr (.inl ⟨j, Nat.zero_le j, by have := hinput hn₂ ho; omega, rfl⟩)
        | output m j => exact .inl ⟨j, Nat.zero_le j, by have := (houtput hn₂ ho).2; omega, rfl⟩
  · refine hend h₁ hg₁ fun pl b ho => ?_
    unfold inputsGone
    constructor
    · rintro (⟨j, -, -, rfl⟩ | hex)
      · rfl
      · exact hex.elim
    · rintro rfl
      cases pl with
      | input m j => exact .inl ⟨j, Nat.zero_le j, by have := hinput hn₁ ho; omega, rfl⟩
      | output m j => exact absurd (houtput hn₁ ho).1 hnormal

/-! ### Changing the number of ports -/

/-- The input ports of `n` from `i` on, which have not been set up yet. -/
def inputsFrom (n : NodePtr) (i : Nat) (pl : Place) : Prop := ∃ j, i ≤ j ∧ pl = .input n j

/-- A change of one node, by what it does to the places of that node. -/
theorem Accounted.updateNode {ex' : Place → Prop} {f : KsiNode → KsiNode} (h : Accounted ex s)
    (hat : ∀ pl b, pl.node = n →
      ((Engine.Owns { s with graph := s.graph.update n f } pl b ∧ ¬ ex' pl)
      ↔ (s.Owns pl b ∧ ¬ ex pl)))
    (hother : ∀ pl, pl.node ≠ n → (ex' pl ↔ ex pl)) :
    Accounted ex' { s with graph := s.graph.update n f } := by
  refine h.congr (fun pl b => ?_) rfl rfl rfl fun p m hp => ?_
  · by_cases hpl : pl.node = n
    · exact hat pl b hpl
    · rw [hother pl hpl]
      refine and_congr_left' ?_
      cases pl with
      | input m j =>
          have hm : m ≠ n := hpl
          unfold Engine.Owns
          simp only [Graph.heap_update, hm, if_false]
      | output m j =>
          have hm : m ≠ n := hpl
          unfold Engine.Owns
          simp only [Graph.heap_update, hm, if_false]
  · rw [Graph.heap_update] at hp
    split at hp
    · obtain ⟨m', hm', -⟩ := Option.map_eq_some_iff.mp hp
      exact h.fresh p m' hm'
    · exact h.fresh p m hp

/-- The ports of a node below `k` and the new ones. -/
theorem hasSignal_resize (node : KsiNode) (k : Nat) (types : List PortType) {j : Nat}
    (hj : j < node.inputs.length) (htypes : k < node.inputs.length → types = []) :
    ({ node with inputs := node.inputs.take k ++ types.map fun type =>
      { type := type, entries := [] } } : KsiNode).HasSignal j ↔ node.HasSignal j ∧ j < k := by
  unfold KsiNode.HasSignal
  simp only [List.map_append, List.map_take]
  by_cases hjk : j < k
  · rw [List.getElem?_append_left (by simp; omega), List.getElem?_take_of_lt hjk]
    simp [hjk]
  · rw [htypes (by omega)]
    refine iff_of_false ?_ fun h => hjk h.2
    rintro ⟨type, htype, -⟩
    rw [List.map_nil, List.map_nil, List.append_nil, List.getElem?_take_eq_none (by omega)] at htype
    cases htype

/-- **Changing the number of input ports** keeps the book. -/
theorem impl_ksiNodeChangeInputPortCount_balanced (k : Nat) (types : List PortType) :
    Keeps Balanced (impl_ksiNodeChangeInputPortCount n k types .editing) := by
  intro s h
  unfold impl_ksiNodeChangeInputPortCount
  rw [wp_bind, wp_load]
  refine ⟨fun _ => trivial, fun node hn => ?_⟩
  rw [wp_bind, wp_assert]
  refine ⟨fun _ => ?_, fun _ => trivial⟩
  rw [wp_bind, wp_assert]
  refine ⟨fun _ => ?_, fun _ => trivial⟩
  rw [wp_bind]
  refine wp_mono ((wp_update).mpr ⟨fun _ => trivial, fun node' hn' => ⟨?_, ?_⟩⟩ : wp True _ s
    (fun _ s₁ => Balanced s₁ ∧ s₁.graph.heap n = some { node with
      type := node.type ||| ksiNodeTypeDynamicInputType }) fun _ => Balanced)
    (fun _ s₁ hs₁ => ?_) fun _ _ hE => hE
  · exact h.of_shape (.update fun _ => (mild_flag (by decide) (by decide)).shape _)
      (fun _ _ => rfl) rfl rfl rfl rfl
  · rw [Graph.heap_update, if_pos rfl, hn]
    rfl
  obtain ⟨h₁, hn₁⟩ := hs₁
  rw [wp_bind]
  refine wp_mono (deleteEnvs_accounted h₁ fun _ hex => hex) (fun _ s₂ hs₂ => ?_) fun _ _ hE => hE
  obtain ⟨h₂, hg₂⟩ := hs₂
  have hn₂ : s₂.graph.heap n = some { node with
      type := node.type ||| ksiNodeTypeDynamicInputType } := by rw [hg₂]; exact hn₁
  rw [wp_bind, wp_update]
  refine ⟨fun _ => trivial, fun node₂ hnode₂ => ?_⟩
  have hset : wp True (forEach (List.range' node.inputs.length (k - node.inputs.length)) fun i =>
      setEnv n i fun _ => { buffer := none, internalBufferPtr := none })
      { s₂ with graph := s₂.graph.update n fun node₂ => { node₂ with
        inputs := node₂.inputs.take k ++ (types.take (k - node.inputs.length)).map fun type =>
          { type := type, entries := [] } } }
      (fun _ s₄ => Accounted (inputsFrom n (node.inputs.length + (k - node.inputs.length))) s₄ ∧
        s₄.graph = s₂.graph.update n fun node₂ => { node₂ with
          inputs := node₂.inputs.take k ++ (types.take (k - node.inputs.length)).map fun type =>
            { type := type, entries := [] } }) fun _ => Balanced := by
    refine wp_forRange' (fun i (s' : Engine) => Accounted (inputsFrom n i) s' ∧
      s'.graph = s₂.graph.update n _) (fun i s' _ _ hs' => ?_) ⟨?_, rfl⟩
    · rw [wp_setEnv]
      refine ⟨hs'.1.congr (fun pl b => ?_) rfl rfl rfl hs'.1.fresh, hs'.2⟩
      by_cases hpl : pl = .input n i
      · subst hpl
        refine iff_of_false (fun h' => ?_) fun h' => h'.2 ⟨i, Nat.le_refl i, rfl⟩
        obtain ⟨_, -, -, hb⟩ := h'.1
        rw [Engine.putEnv_env, if_pos ⟨rfl, rfl⟩] at hb
        cases hb
      · rw [owns_putEnv hpl]
        refine and_congr_right fun _ => not_congr ⟨fun ⟨j, hj, heq⟩ => ⟨j, by omega, heq⟩, ?_⟩
        rintro ⟨j, hj, rfl⟩
        have hne : j ≠ i := fun heq => hpl (by rw [heq])
        exact ⟨j, by omega, rfl⟩
    · refine h₂.updateNode (fun pl b hpl => ?_) fun pl hpl => ?_
      · cases pl with
        | input m j =>
            obtain rfl : m = n := hpl
            unfold Engine.Owns inputsFrom inputsGone
            simp only [Graph.heap_update, if_true, hn₂, Option.map_some, Option.some.injEq,
              exists_eq_left']
            by_cases hj : j < node.inputs.length
            · have hresize := hasSignal_resize { node with
                type := node.type ||| ksiNodeTypeDynamicInputType } k
                (types.take (k - node.inputs.length)) hj (fun hk => by
                  rw [show k - node.inputs.length = 0 by have : k < node.inputs.length := hk; omega]
                  exact List.take_zero ..)
              rw [hresize]
              grind
            · have hnot : ¬ ({ node with
                  type := node.type ||| ksiNodeTypeDynamicInputType } : KsiNode).HasSignal j :=
                fun hs => hj hs.lt
              grind
        | output m j =>
            obtain rfl : m = n := hpl
            unfold Engine.Owns inputsFrom inputsGone
            simp only [Graph.heap_update, if_true, hn₂, Option.map_some, Option.some.injEq,
              exists_eq_left', KsiNode.isNormal, reduceCtorEq, and_false, exists_false,
              not_false_eq_true, or_false]
      · unfold inputsFrom inputsGone
        constructor
        · rintro ⟨j, -, rfl⟩
          exact absurd rfl hpl
        · rintro (⟨j, -, -, rfl⟩ | hex)
          · exact absurd rfl hpl
          · exact hex.elim
  refine wp_mono hset (fun _ s₄ hs₄ => ?_) fun _ _ hE => hE
  obtain ⟨h₄, hg₄⟩ := hs₄
  refine h₄.congr (fun pl b => and_congr_right fun ho => iff_of_true not_false ?_) rfl rfl rfl
    h₄.fresh
  rintro ⟨j, hj, rfl⟩
  obtain ⟨node₄, hn₄, hsignal, -⟩ := ho
  rw [hg₄, Graph.heap_update, if_pos rfl, hn₂] at hn₄
  cases hn₄
  have hlt := hsignal.lt
  simp only [List.length_append, List.length_take, List.length_map] at hlt
  omega

theorem outputsFrom_output {j : Nat} : outputsFrom n i (.output n j) ↔ i ≤ j := by
  unfold outputsFrom
  grind

theorem outputsGone_output {a j : Nat} :
    outputsGone ex n a i (.output n j) ↔ (a ≤ j ∧ j < i) ∨ ex (.output n j) := by
  unfold outputsGone
  grind

/-- A resize of the outputs of a node that is not normal moves no buffer. -/
theorem Balanced.resizeOther {node : KsiNode} {outputs : KsiNode → List PortType} (h : Balanced s)
    (hn : s.graph.heap n = some node) (hnormal : ¬ node.isNormal = true) :
    Balanced { s with graph := s.graph.update n fun node =>
      { node with outputs := outputs node } } := by
  refine Accounted.updateNode h (fun pl b hpl => and_congr_left' ?_) fun _ _ => Iff.rfl
  cases pl with
  | input m j =>
      obtain rfl : m = n := hpl
      unfold Engine.Owns
      simp only [Graph.heap_update, if_true, hn, Option.map_some, Option.some.injEq,
        exists_eq_left']
      rfl
  | output m j =>
      obtain rfl : m = n := hpl
      have hnormal' : ({ node with outputs := outputs node } : KsiNode).isNormal =
        node.isNormal := rfl
      unfold Engine.Owns
      simp [Graph.heap_update, hn, hnormal', hnormal]

/-- The outputs of a normal node are resized; those above `k` have given up their buffers, and
the new ones have not got theirs yet. -/
theorem Accounted.resizeNormal (node : KsiNode) {k : Nat} {types : List PortType}
    (hn : s.graph.heap n = some node) (htypes : types.length = k - node.outputs.length)
    (h : Accounted (outputsGone (fun _ => False) n k (k + (node.outputs.length - k))) s) :
    Accounted (outputsFrom n node.outputs.length) { s with graph := s.graph.update n fun node =>
      { node with outputs := node.outputs.take k ++ types } } := by
  refine h.updateNode (fun pl b hpl => ?_) fun pl hpl => ?_
  · cases pl with
    | input m j =>
        obtain rfl : m = n := hpl
        unfold Engine.Owns outputsFrom outputsGone
        simp only [Graph.heap_update, if_true, hn, Option.map_some, Option.some.injEq,
          exists_eq_left', reduceCtorEq, and_false, exists_false, not_false_eq_true, or_false]
        rfl
    | output m j =>
        obtain rfl : m = n := hpl
        rw [outputsFrom_output, outputsGone_output]
        unfold Engine.Owns
        simp only [Graph.heap_update, if_true, hn, Option.map_some, Option.some.injEq,
          exists_eq_left', KsiNode.isNormal, List.length_append, List.length_take, htypes]
        have hrange : (j < min k node.outputs.length + (k - node.outputs.length) ∧
            ¬ node.outputs.length ≤ j) ↔ (j < node.outputs.length ∧
              ¬ (k ≤ j ∧ j < k + (node.outputs.length - k))) := by
          omega
        rw [or_false]
        grind
  · unfold outputsFrom outputsGone
    constructor
    · rintro ⟨j, -, rfl⟩
      exact absurd rfl hpl
    · rintro (⟨j, -, -, rfl⟩ | hex)
      · exact absurd rfl hpl
      · exact hex.elim

/-- **Changing the number of output ports** keeps the book. -/
theorem impl_ksiNodeChangeOutputPortCount_balanced (k : Nat) (types : List PortType) :
    Keeps Balanced (impl_ksiNodeChangeOutputPortCount n k types .editing) := by
  intro s h
  unfold impl_ksiNodeChangeOutputPortCount
  rw [wp_bind, wp_load]
  refine ⟨fun _ => trivial, fun node hn => ?_⟩
  rw [wp_bind, wp_assert]
  refine ⟨fun _ => ?_, fun _ => trivial⟩
  rw [wp_bind, wp_assert]
  refine ⟨fun hlen => ?_, fun _ => trivial⟩
  rw [wp_bind]
  refine wp_mono ((wp_update).mpr ⟨fun _ => trivial, fun node' hn' => ⟨?_, ?_⟩⟩ : wp True _ s
    (fun _ s₁ => Balanced s₁ ∧ s₁.graph.heap n = some { node with
      type := node.type ||| ksiNodeTypeDynamicOutputType }) fun _ => Balanced)
    (fun _ s₁ hs₁ => ?_) fun _ _ hE => hE
  · exact h.of_shape (.update fun _ => (mild_flag (by decide) (by decide)).shape _)
      (fun _ _ => rfl) rfl rfl rfl rfl
  · rw [Graph.heap_update, if_pos rfl, hn]
    rfl
  obtain ⟨h₁, hn₁⟩ := hs₁
  have hflag :
    ({ node with type := node.type ||| ksiNodeTypeDynamicOutputType } : KsiNode).isNormal =
      node.isNormal := congrArg (fun shape => shape.1) ((mild_flag (by decide) (by decide)).shape _)
  have htake : (types.take (k - node.outputs.length)).length = k - node.outputs.length := by
    rw [List.length_take]
    omega
  by_cases hnormal : node.isNormal = true
  · have hnormal₁ := hflag.trans hnormal
    rw [wp_bind, wp_when]
    refine ⟨fun _ => ?_, fun hnot => absurd hnormal hnot⟩
    refine wp_mono (deleteOutputs_accounted h₁ hn₁ hnormal₁ fun _ hex => hex) (fun _ s₂ hs₂ => ?_)
      fun _ _ hE => hE
    obtain ⟨h₂, hg₂⟩ := hs₂
    have hn₂ : s₂.graph.heap n = some { node with
        type := node.type ||| ksiNodeTypeDynamicOutputType } := by rw [hg₂]; exact hn₁
    rw [wp_bind, wp_update]
    refine ⟨fun _ => trivial, fun node₂ hnode₂ => ?_⟩
    rw [wp_when]
    refine ⟨fun _ => ?_, fun hnot => absurd hnormal hnot⟩
    refine newOutputs_balanced { node with
      type := node.type ||| ksiNodeTypeDynamicOutputType
      outputs := node.outputs.take k ++ types.take (k - node.outputs.length) } n _ _ ?_ hnormal₁ ?_
      (Accounted.resizeNormal { node with
        type := node.type ||| ksiNodeTypeDynamicOutputType } hn₂ htake h₂)
    · rw [Graph.heap_update, if_pos rfl, hn₂]
      rfl
    · rw [List.length_append, List.length_take, htake]
      by_cases hk : node.outputs.length ≤ k
      · exact .inl (by omega)
      · refine .inr ⟨List.length_eq_zero_iff.mp (by omega), by omega⟩
  · rw [wp_bind, wp_when]
    refine ⟨fun hnot => absurd hnot hnormal, fun _ => ?_⟩
    rw [wp_bind, wp_update]
    refine ⟨fun _ => trivial, fun node₂ hnode₂ => ?_⟩
    rw [wp_when]
    refine ⟨fun hnot => absurd hnot hnormal, fun _ => ?_⟩
    exact h₁.resizeOther hn₁ (by rw [hflag]; exact hnormal)

/-! ### The calls -/

theorem ksiBuiltinNodeFuncIdEditCmd_balanced (args : String) :
    Keeps Balanced (ksiBuiltinNodeFuncIdEditCmd n args .editing) := by
  have hK := balanced_walks
  exact hK.bind (hK.orError _ (by decide)) fun _ => hK.bind (hK.require (by decide)) fun _ =>
    hK.bind hK.load fun _ =>
    hK.bind (impl_ksiNodeChangeInputPortCount_balanced _ _) fun _ =>
      impl_ksiNodeChangeOutputPortCount_balanced _ _

/-- **Every call keeps the book.** -/
theorem Balanced.call (c : Call) : Keeps Balanced (c.kernel .editing) := by
  have hK := balanced_walks
  cases c with
  | addNode typeFlags =>
      exact hK.bind (impl_ksiEngineAddNode_balanced typeFlags) fun _ => hK.pure _
  | makeWire srcId srcPort desId desPort gain =>
      exact hK.bind (hK.impl_ksiEngineMakeWire fun _ _ => link_balanced) fun _ => hK.pure _
  | makeBias desId desPort bias =>
      exact hK.bind (hK.impl_ksiEngineMakeBias _ _ _) fun _ => hK.pure _
  | detachNodes srcId desId =>
      exact hK.bind (hK.impl_ksiEngineDetachNodes _ _) fun _ => hK.pure _
  | removeNode id =>
      refine hK.bind (hK.impl_ksiEngineRemoveNode
        (Keeps.modify fun _ h => ?_) setFinalNode_balanced)
        fun _ => hK.bind ksiEngineDestroyNode_balanced fun _ => hK.pure _
      exact Accounted.of_shape h ⟨fun _ => rfl, rfl⟩ (fun _ _ => rfl) rfl rfl rfl rfl
  | removeWire srcId srcPort desId desPort =>
      exact hK.bind (hK.impl_ksiEngineRemoveWire _ _ _ _) fun _ => hK.pure _
  | sendEditingCommand id args =>
      exact hK.bind (hK.impl_ksiEngineSendEditingCommand fun _ =>
        ksiBuiltinNodeFuncIdEditCmd_balanced args) fun _ => hK.pure _

theorem Balanced.init (framesPerBuffer : Nat) : Balanced (ksiEngineInit framesPerBuffer) := by
  refine ⟨.empty ?_, rfl, fun _ _ hp => by cases hp⟩
  rintro (⟨n, i⟩ | ⟨n, i⟩) b ⟨⟨_, hnode, -⟩, -⟩ <;> cases hnode

/-- What has become of a buffer: one place has it and it has not been freed, or it has been
freed once and no place has it. -/
def Engine.Settled (e : Engine) (b : BufPtr) : Prop :=
  ((∃! pl, e.Owns pl b) ∧ b ∉ e.freeBufs) ∨ ((∀ pl, ¬ e.Owns pl b) ∧ e.freeBufs.count b = 1)

theorem Balanced.settled (h : Balanced s) (hb : b ∈ s.mallocBufs) : s.Settled b := by
  rw [h.queued, List.mem_range] at hb
  by_cases howned : ∃ pl, s.Owns pl b
  · obtain ⟨pl, hpl⟩ := howned
    have hheld : ∀ {pl}, s.Owns pl b → s.Owns pl b ∧ ¬ False := fun ho => ⟨ho, not_false⟩
    exact .inl ⟨⟨pl, hpl, fun pl' ho => h.ledger.place _ _ b (hheld ho) (hheld hpl)⟩,
      h.ledger.apart pl b (hheld hpl)⟩
  · have hnone := not_exists.mp howned
    refine .inr ⟨hnone, ?_⟩
    rcases (h.ledger.all b).mp hb with hfree | ⟨pl, hpl, -⟩
    · exact List.count_eq_one_of_mem h.ledger.once hfree
    · exact absurd hpl (hnone pl)

/-- Without nodes there are no places. -/
theorem not_owns_of_empty (h : Registered s.graph) (hempty : ∀ i p, ¬ s.graph.nodes.Holds i p)
    {pl : Place} : ¬ s.Owns pl b := by
  cases pl with
  | input n i =>
      rintro ⟨node, hnode, -⟩
      exact hempty _ n (h.named n node hnode)
  | output n i =>
      rintro ⟨node, hnode, -⟩
      exact hempty _ n (h.named n node hnode)

/-- **Shared buffers balance.**  After every run of calls no buffer has been returned twice
by `ksiMVCCMonitoredMalloc`, each that it has returned is in one place or has been freed
once, nothing else has been freed, and when all nodes are gone all have been freed once. -/
theorem settled_of_reaches {framesPerBuffer : Nat} {e : Engine}
    (h : Reaches step Free (ksiEngineInit framesPerBuffer) e) :
    e.mallocBufs.Nodup ∧ (∀ b ∈ e.mallocBufs, e.Settled b) ∧ (∀ b ∈ e.freeBufs, b ∈ e.mallocBufs) ∧
      ((∀ i p, ¬ e.graph.nodes.Holds i p) → ∀ b ∈ e.mallocBufs, e.freeBufs.count b = 1) := by
  have hbalanced : Balanced e := h.invariant Balanced (.init framesPerBuffer)
    fun s c _ hs _ hstep => step_wp (Balanced.call c s hs) hstep (fun _ _ h => h) fun _ _ h => h
  refine ⟨?_, fun b => hbalanced.settled, fun b hb => ?_, fun hempty b hb => ?_⟩
  · rw [hbalanced.queued]
    exact List.nodup_range
  · rw [hbalanced.queued, List.mem_range]
    exact (hbalanced.ledger.all b).mpr (.inl hb)
  · rcases hbalanced.settled hb with ⟨⟨pl, ho, -⟩, -⟩ | ⟨-, hcount⟩
    · exact absurd ho (not_owns_of_empty (registered_of_reaches h) hempty)
    · exact hcount

/-- Two Id nodes with two ports each, wired with a gain, one of them removed and then the
other. -/
def resizeRun : List Call :=
  [.addNode 0x10000, .addNode 0x10000, .sendEditingCommand 0 "2", .sendEditingCommand 1 "2",
    .makeWire 0 1 1 0 0x3F000000, .makeBias 1 1 0x3F000000, .sendEditingCommand 1 "1",
    .removeNode 0, .removeNode 1]

theorem settled_resizeRun : ∃ e, Runs.run step (ksiEngineInit 64) resizeRun = some e ∧
    (e.mallocBufs.Nodup ∧ (∀ b ∈ e.mallocBufs, e.Settled b) ∧ (∀ b ∈ e.freeBufs, b ∈ e.mallocBufs) ∧
      ((∀ i p, ¬ e.graph.nodes.Holds i p) → ∀ b ∈ e.mallocBufs, e.freeBufs.count b = 1)) ∧
    e.mallocBufs = [0, 1, 2, 3, 4, 5] ∧ e.freeBufs = [5, 3, 0, 2, 4, 1] := by
  have hrun : (Runs.run step (ksiEngineInit 64) resizeRun).map
      (fun e => (e.mallocBufs, e.freeBufs)) = some ([0, 1, 2, 3, 4, 5], [5, 3, 0, 2, 4, 1]) := by
    decide +kernel
  obtain ⟨e, he, hobs⟩ := Option.map_eq_some_iff.mp hrun
  exact ⟨e, he, settled_of_reaches (reaches_of_run resizeRun he), congrArg Prod.fst hobs,
    congrArg Prod.snd hobs⟩

end Ksi.Dag

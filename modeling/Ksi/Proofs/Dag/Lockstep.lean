/-
An edit and its replay, step by step.

The edited version and the one the edit is replayed on have nodes of their own; `π` says
which of them go together.  It is fixed from the start: the addresses given out later go
together in their order.  `Paired` says that nodes that go together are equal but for the
addresses in them, with the same buffers.  It looks past the queues, since the editing
side fills them and the committing side empties them.

Three things make the steps of the replay go through.  A wire comes from a node in
`good`, a normal one if it is live: the memory of the output buffers of others is not set.
Slots are compared wherever they hold a live node, above the size of the vector too, since
RemoveNode shrinks it and then reads the slot it has given up.  And `ex` excuses the ports
that are being set up.
-/
import Ksi.Lib.Replay
import Ksi.Proofs.Dag.Ownership
import Mathlib.Algebra.FreeMonoid.Basic
import Mathlib.Algebra.Group.Prod
import Mathlib.Logic.Relator

namespace Ksi.Dag

open Prog Relator

/-- What an edit logs: the buffers that it allocates and those that it gives up. -/
abbrev BufLog := FreeMonoid BufPtr × FreeMonoid BufPtr

/-- The engine with these queues. -/
def Engine.fed (l : BufLog) (e : Engine) : Engine :=
  { e with mallocBufs := l.1.toList, freeBufs := l.2.toList }

/-- An edit appends to the queues, and its replay takes from them. -/
def bufJournal : Journal Engine Engine BufLog where
  logged l e e' := e'.mallocBufs = e.mallocBufs ++ l.1.toList ∧ e'.freeBufs = e.freeBufs ++
    l.2.toList
  feed := Engine.fed
  logged_one e := ⟨(List.append_nil _).symm, (List.append_nil _).symm⟩
  logged_mul := by
    rintro l l' s s' s'' ⟨hm, hf⟩ ⟨hm', hf'⟩
    rw [hm', hm, hf', hf, List.append_assoc, List.append_assoc]
    exact ⟨rfl, rfl⟩

/-! ### Nodes that go together -/

/-- Wires from sources that go together, or biases. -/
structure SameEntry (π : NodePtr → NodePtr → Prop) (me me' : Entry) : Prop where
  src : Option.Rel π me.src me'.src
  srcPort : me'.srcPort = me.srcPort
  gain : me'.gain = me.gain

/-- Input ports with the same wires. -/
structure SameInput (π : NodePtr → NodePtr → Prop) (input input' : InputPort) : Prop where
  type : input'.type = input.type
  entries : List.Forall₂ (SameEntry π) input.entries input'.entries

/-- Nodes that are equal but for the addresses in them. -/
structure SameNode (π : NodePtr → NodePtr → Prop) (node node' : KsiNode) : Prop where
  depNum : node'.depNum = node.depNum
  successors : node'.successors = node.successors
  id : node'.id = node.id
  type : node'.type = node.type
  outputs : node'.outputs = node.outputs
  inputs : List.Forall₂ (SameInput π) node.inputs node'.inputs

/-- The wires come from nodes in `good`. -/
def Sourced (good : NodePtr → Prop) (entries : List Entry) : Prop :=
  ∀ me ∈ entries, ∀ src, me.src = some src → good src

/-- The wires of a node come from nodes in `good`. -/
def Tracked (good : NodePtr → Prop) (node : KsiNode) : Prop :=
  ∀ input ∈ node.inputs, Sourced good input.entries

/-- What slot `i` holds, if it is live. -/
def Graph.slot (g : Graph) (i : Nat) : Option NodePtr :=
  (g.nodes.data i).filter fun p => (g.heap p).isSome

/-- **The two versions go together**, but for the ports in `ex`. -/
structure Paired (π : NodePtr → NodePtr → Prop) (good : NodePtr → Prop) (ex : Place → Prop)
    (e c : Engine) : Prop where
  playing : c.playing ≠ -2
  framesPerBuffer : c.framesPerBuffer = e.framesPerBuffer
  resources : ∀ i n, e.timeseqResources.Holds i n → c.timeseqResources.Holds i n
  size : c.graph.nodes.size = e.graph.nodes.size
  freelist : c.graph.nodes.freelist = e.graph.nodes.freelist
  slots : ∀ i, Option.Rel π (e.graph.slot i) (c.graph.slot i)
  finalNode : Option.Rel π e.graph.finalNode c.graph.finalNode
  heap : ∀ p q, π p q → Option.Rel (SameNode π) (e.graph.heap p) (c.graph.heap q)
  env : ∀ p q node j, π p q → e.graph.heap p = some node → node.HasSignal j → ¬ ex (.input p j) →
    c.env q j = e.env p j
  output : ∀ p q node j, π p q → e.graph.heap p = some node → node.isNormal = true →
    j < node.outputs.length → ¬ ex (.output p j) → c.outputBuffer q j = e.outputBuffer p j
  next : ∀ k, π (e.graph.nextNode + k) (c.graph.nextNode + k)
  given : ∀ i p, e.graph.nodes.data i = some p → p < e.graph.nextNode
  given' : ∀ i q, c.graph.nodes.data i = some q → q < c.graph.nextNode
  fresh : ∀ p, good p → p < e.graph.nextNode
  sound : ∀ p node, good p → e.graph.heap p = some node → node.isNormal = true
  tracked : ∀ p node, e.graph.heap p = some node → Tracked good node

variable {π : NodePtr → NodePtr → Prop} {good : NodePtr → Prop} {ex : Place → Prop}
  {e c : Engine} {p q src src' des des' : NodePtr} {i j port : Nat}

/-- Without ports that are being set up. -/
abbrev Steady (π : NodePtr → NodePtr → Prop) (good : NodePtr → Prop) : Engine → Engine → Prop :=
  Paired π good fun _ => False

theorem pair_iff (hπ : BiUnique π) {p' q' : NodePtr} (h : π p q) (h' : π p' q') : p = p' ↔ q = q' :=
  ⟨fun heq => hπ.2 h (heq ▸ h'), fun heq => hπ.1 h (heq ▸ h')⟩

theorem rel_some {α β : Type} {R : α → β → Prop} {o : Option α} {o' : Option β}
    (h : Option.Rel R o o') {a : α} (ha : o = some a) : ∃ b, o' = some b ∧ R a b := by
  cases h with
  | some hab =>
      cases ha
      exact ⟨_, rfl, hab⟩
  | none => cases ha

theorem rel_isSome {α β : Type} {R : α → β → Prop} {o : Option α} {o' : Option β}
    (h : Option.Rel R o o') : o.isSome = o'.isSome := by
  cases h <;> rfl

theorem rel_getElem? {α β : Type} {R : α → β → Prop} {l : List α} {l' : List β}
    (h : List.Forall₂ R l l') (i : Nat) : Option.Rel R l[i]? l'[i]? := by
  induction h generalizing i with
  | nil => exact .none
  | cons hab _ ih =>
      cases i with
      | zero => exact .some hab
      | succ i => exact ih i

theorem map_eq_of_forall₂ {α β γ : Type} {R : α → β → Prop} {f : α → γ} {g : β → γ}
    (h : ∀ a b, R a b → g b = f a) {l : List α} {l' : List β} (hl : List.Forall₂ R l l') :
    l'.map g = l.map f := by
  induction hl with
  | nil => rfl
  | cons hab _ ih => rw [List.map_cons, List.map_cons, ih, h _ _ hab]

theorem SameEntry.src_iff (hπ : BiUnique π) {me me' : Entry} (h : SameEntry π me me')
    (hsrc : π src src') : me.src = some src ↔ me'.src = some src' := by
  obtain ⟨s, port, gain⟩ := me
  obtain ⟨s', port', gain'⟩ := me'
  cases h.src with
  | none => exact ⟨nofun, nofun⟩
  | some hab =>
      rw [Option.some.injEq, Option.some.injEq]
      exact pair_iff hπ hab hsrc

theorem SameEntry.isFrom (hπ : BiUnique π) {me me' : Entry} (h : SameEntry π me me')
    (hsrc : π src src') (srcPort : Int) : me.isFrom src srcPort = me'.isFrom src' srcPort := by
  unfold Entry.isFrom
  rw [h.srcPort]
  congr 1
  rw [Bool.eq_iff_iff, beq_iff_eq, beq_iff_eq]
  exact h.src_iff hπ hsrc

theorem SameNode.shape {node node' : KsiNode} (h : SameNode π node node') :
    node'.shape = node.shape := by
  have hinputs : node'.inputs.map (·.type) = node.inputs.map (·.type) :=
    map_eq_of_forall₂ (fun _ _ hio => hio.type) h.inputs
  unfold KsiNode.shape KsiNode.isNormal
  rw [h.type, h.outputs, hinputs]

/-! ### What the relation looks past -/

/-- The same versions; what the two engines share may have changed on the way. -/
theorem Paired.shared {e' c' : Engine} (h : Paired π good ex e c) (he : e'.toVersion = e.toVersion)
    (hc : c'.toVersion = c.toVersion) (hplaying : c'.playing ≠ -2)
    (hframes : c'.framesPerBuffer = e'.framesPerBuffer)
    (hresources : ∀ i n, e'.timeseqResources.Holds i n → c'.timeseqResources.Holds i n) :
    Paired π good ex e' c' := by
  obtain ⟨ve, _⟩ := e
  obtain ⟨vc, _⟩ := c
  obtain ⟨ve', _⟩ := e'
  obtain ⟨vc', _⟩ := c'
  cases he
  cases hc
  exact ⟨hplaying, hframes, hresources, h.size, h.freelist, h.slots, h.finalNode, h.heap, h.env,
    h.output, h.next, h.given, h.given', h.fresh, h.sound, h.tracked⟩

theorem Paired.weaken {ex' : Place → Prop} (h : Paired π good ex e c)
    (henv : ∀ p node j, e.graph.heap p = some node → node.HasSignal j → ex (.input p j) →
      ex' (.input p j))
    (hout : ∀ p node j, e.graph.heap p = some node → node.isNormal = true →
      j < node.outputs.length →
      ex (.output p j) → ex' (.output p j)) : Paired π good ex' e c where
  __ := h
  env := fun p q node j hpq hp hj hnot => h.env p q node j hpq hp hj fun hex =>
    hnot (henv p node j hp hj hex)
  output := fun p q node j hpq hp hn hj hnot =>
    h.output p q node j hpq hp hn hj fun hex => hnot (hout p node j hp hn hj hex)

/-! ### Reading

Where a step only reads, the states after it are those before it. -/

theorem slot_eq_some {g : Graph} :
    g.slot i = some p ↔ g.nodes.data i = some p ∧ (g.heap p).isSome = true :=
  Option.filter_eq_some_iff

theorem checkVec_replays (h : Paired π good ex e c) (hslots : SlotsLive e.graph) (id : Int)
    (err : KsiError) :
    Replays bufJournal (checkVec id err) (checkVec id err) e c fun p q e' c' =>
      e' = e ∧ c' = c ∧ e.graph.nodes.Holds id.toNat p ∧ π p q := by
  refine .bind (.read fun slot hslot => ?_)
  obtain ⟨slot', hslot'⟩ := Option.ne_none_iff_exists'.mp
    (KsiVec.check_ne_none (v := c.graph.nodes) (KsiVec.check_nonneg hslot))
  refine ⟨slot', fun l => hslot', .orError fun p hp => ?_⟩
  subst hp
  obtain ⟨hheld, hid⟩ := KsiVec.check_some hslot
  obtain ⟨node, hnode, -⟩ := hslots _ _ hheld
  obtain ⟨q, hq, hpq⟩ :=
    rel_some (h.slots id.toNat) (slot_eq_some.mpr ⟨hheld.2, by rw [hnode]; rfl⟩)
  have hheld' : c.graph.nodes.Holds id.toNat q := ⟨h.size ▸ hheld.1, (slot_eq_some.mp hq).1⟩
  have hcheck := hheld'.check
  rw [Int.toNat_of_nonneg hid, hslot'] at hcheck
  exact ⟨q, Option.some.inj hcheck, rfl, rfl, hheld, hpq⟩

theorem load_replays (h : Paired π good ex e c) (hpq : π p q) :
    Replays bufJournal (load p) (load q) e c fun node node' e' c' =>
      e' = e ∧ c' = c ∧ e.graph.heap p = some node ∧ SameNode π node node' := by
  refine .read fun node hnode => ?_
  obtain ⟨node', hnode', hsame⟩ := rel_some (h.heap p q hpq) hnode
  exact ⟨node', fun l => hnode', rfl, rfl, hnode, hsame⟩

theorem load_inStep (hpq : π p q) :
    InStep bufJournal (Paired π good ex)
      (fun node node' => SameNode π node node' ∧ Tracked good node) (load p) (load q) :=
  fun _ _ h => (load_replays h hpq).mono fun node _ _ _ ⟨he, hc, hnode, hsame⟩ =>
    ⟨he ▸ hc ▸ h, hsame, h.tracked p node hnode⟩

theorem loadInput_replays (h : Paired π good ex e c) (hpq : π p q) (i : Nat) :
    Replays bufJournal (loadInput p i) (loadInput q i) e c fun input input' e' c' =>
      e' = e ∧ c' = c ∧ (∃ node, e.graph.heap p = some node ∧ node.inputs[i]? = some input) ∧
        SameInput π input input' ∧ Sourced good input.entries := by
  refine .read fun input hinput => ?_
  obtain ⟨node, hnode, hi⟩ := Option.bind_eq_some_iff.mp hinput
  obtain ⟨node', hnode', hsame⟩ := rel_some (h.heap p q hpq) hnode
  obtain ⟨input', hi', hinputs⟩ := rel_some (rel_getElem? hsame.inputs i) hi
  exact ⟨input', fun l => Option.bind_eq_some_iff.mpr ⟨node', hnode', hi'⟩, rfl, rfl,
    ⟨node, hnode, hi⟩, hinputs, h.tracked p node hnode input (List.mem_of_getElem? hi)⟩

theorem loadInput_inStep (hpq : π p q) (i : Nat) :
    InStep bufJournal (Paired π good ex)
      (fun input input' => SameInput π input input' ∧ Sourced good input.entries) (loadInput p i)
        (loadInput q i) :=
  fun _ _ h => (loadInput_replays h hpq i).mono fun _ _ _ _ ⟨he, hc, _, hinput⟩ =>
    ⟨he ▸ hc ▸ h, hinput⟩

/-- The output buffers of a normal node. -/
theorem loadOutput_replays (h : Steady π good e c) (hpq : π p q) {i : Int}
    (hnormal : ∀ node, e.graph.heap p = some node → node.isNormal = true) :
    Replays bufJournal (loadOutput p i) (loadOutput q i) e c fun b b' e' c' =>
    e' = e ∧ c' = c ∧ b = b' := by
  refine .read fun b hb => ?_
  obtain ⟨node, hnode, hnth⟩ := Option.bind_eq_some_iff.mp hb
  obtain ⟨type, htype, rfl⟩ := Option.map_eq_some_iff.mp hnth
  obtain ⟨node', hnode', hsame⟩ := rel_some (h.heap p q hpq) hnode
  refine ⟨c.outputBuffer q i.toNat, fun l => ?_, rfl, rfl, ?_⟩
  · refine Option.bind_eq_some_iff.mpr ⟨node', hnode', ?_⟩
    rw [hsame.outputs, htype]
    rfl
  · have hi := (List.getElem?_eq_some_iff.mp (nth_some htype).1).1
    exact (h.output p q node i.toNat hpq hnode (hnormal node hnode) hi id).symm

theorem loadOutput_inStep (hpq : π p q) (i : Int) (hgood : good p) :
    InStep bufJournal (Steady π good) Eq (loadOutput p i) (loadOutput q i) :=
  fun _ _ h => (loadOutput_replays h hpq fun node hnode => h.sound p node hgood hnode).mono
    fun _ _ _ _ ⟨he, hc, hb⟩ => ⟨he ▸ hc ▸ h, hb⟩

/-- The buffers of a signal port. -/
theorem readEnv_replays (h : Steady π good e c) (hpq : π p q) {node : KsiNode}
    (hnode : e.graph.heap p = some node) (hsignal : node.HasSignal i) :
    Replays bufJournal (Prog.read fun e => some (e.env p i) : Edit SignalEnv)
      (Prog.read fun c => some (c.env q i)) e c fun v v' e' c' => e' = e ∧ c' = c ∧ v = v' := by
  refine .read fun v hv => ⟨c.env q i, fun l => rfl, rfl, rfl, ?_⟩
  rw [h.env p q node i hpq hnode hsignal id]
  exact (Option.some.inj hv).symm

theorem framesPerBuffer_inStep : InStep bufJournal (Paired π good ex) Eq
    (Prog.read fun e => some e.framesPerBuffer : Edit Nat)
      (Prog.read fun c => some c.framesPerBuffer) := by
  refine .read fun e c h a ha => ⟨a, fun l => ?_, rfl⟩
  show some c.framesPerBuffer = some a
  rw [h.framesPerBuffer]
  exact ha

theorem debug_check_node_inStep (hπ : BiUnique π) (hpq : π p q) :
    InStep bufJournal (Paired π good ex) Whatever (debug_check_node p) (debug_check_node q) := by
  intro e c h
  refine .bind ((load_replays h hpq).mono ?_)
  rintro node node' e' c' ⟨rfl, rfl, hnode, hsame⟩
  refine .assert fun hslot => ⟨fun l => ?_, h, trivial⟩
  obtain ⟨q', hq', hrel⟩ :=
    rel_some (h.slots node.id) (slot_eq_some.mpr ⟨hslot, by rw [hnode]; rfl⟩)
  show c'.graph.nodes.data node'.id = some q
  rw [hsame.id, (slot_eq_some.mp hq').1, hπ.2 hrel hpq]

/-! ### Stores -/

theorem rel_map {α β : Type} {R R' : α → β → Prop} {f : α → α} {g : β → β} {o : Option α}
    {o' : Option β} (h : Option.Rel R o o') (hfg : ∀ a b, o = some a → R a b → R' (f a) (g b)) :
    Option.Rel R' (o.map f) (o'.map g) := by
  cases h with
  | some hab => exact .some (hfg _ _ rfl hab)
  | none => exact .none

theorem Graph.slot_update (g : Graph) (p : NodePtr) (f : KsiNode → KsiNode) (i : Nat) :
    (g.update p f).slot i = g.slot i := by
  unfold Graph.slot
  congr 1
  funext q
  rw [Graph.heap_update]
  split
  · rename_i hq
    rw [hq, Option.isSome_map]
  · rfl

/-- Stores to nodes that go together; which ports are being set up may change with them. -/
theorem Paired.update {ex' : Place → Prop} {f g : KsiNode → KsiNode} (hπ : BiUnique π)
    (h : Paired π good ex e c) (hpq : π p q)
    (hsame : ∀ node node', e.graph.heap p = some node → SameNode π node node' →
      SameNode π (f node) (g node'))
    (htracked : ∀ node, e.graph.heap p = some node → Tracked good node → Tracked good (f node))
    (hgood : ∀ node, good p → e.graph.heap p = some node → node.isNormal = true →
      (f node).isNormal = true)
    (henv : ∀ node j, e.graph.heap p = some node → (f node).HasSignal j → ¬ ex' (.input p j) →
      node.HasSignal j ∧ ¬ ex (.input p j))
    (hout : ∀ node j, e.graph.heap p = some node → (f node).isNormal = true →
      j < (f node).outputs.length →
      ¬ ex' (.output p j) → (node.isNormal = true ∧ j < node.outputs.length) ∧ ¬ ex (.output p j))
    (hother : ∀ pl : Place, pl.node ≠ p → ex pl → ex' pl) :
    Paired π good ex' { e with graph := e.graph.update p f }
      { c with graph := c.graph.update q g } := by
  have hold : ∀ p' node, (e.graph.update p f).heap p' = some node →
      (p' = p ∧ ∃ node₀, e.graph.heap p = some node₀ ∧ f node₀ = node) ∨
        (p' ≠ p ∧ e.graph.heap p' = some node) := by
    intro p' node hp'
    rw [Graph.heap_update] at hp'
    split at hp'
    · rename_i heq
      subst heq
      exact .inl ⟨rfl, Option.map_eq_some_iff.mp hp'⟩
    · exact .inr ⟨‹_›, hp'⟩
  constructor
  case playing => exact h.playing
  case framesPerBuffer => exact h.framesPerBuffer
  case resources => exact h.resources
  case size => exact h.size
  case freelist => exact h.freelist
  case slots =>
    intro i
    show Option.Rel π ((e.graph.update p f).slot i) ((c.graph.update q g).slot i)
    rw [Graph.slot_update, Graph.slot_update]
    exact h.slots i
  case finalNode => exact h.finalNode
  case next => exact h.next
  case given => exact h.given
  case given' => exact h.given'
  case fresh => exact h.fresh
  case heap =>
    intro p' q' hpq'
    have hiff := pair_iff hπ hpq' hpq
    show Option.Rel _ ((e.graph.update p f).heap p') ((c.graph.update q g).heap q')
    rw [Graph.heap_update, Graph.heap_update]
    by_cases heq : p' = p
    · rw [if_pos heq, if_pos (hiff.mp heq)]
      refine rel_map (h.heap p' q' hpq') fun node node' hnode => hsame node node' ?_
      rw [← heq]
      exact hnode
    · rw [if_neg heq, if_neg fun hq => heq (hiff.mpr hq)]
      exact h.heap p' q' hpq'
  case env =>
    intro p' q' node j hpq' hp' hj hnot
    rcases hold p' node hp' with ⟨rfl, node₀, hnode₀, rfl⟩ | ⟨hne, hnode⟩
    · obtain ⟨hj₀, hex⟩ := henv node₀ j hnode₀ hj hnot
      exact h.env p' q' node₀ j hpq' hnode₀ hj₀ hex
    · exact h.env p' q' node j hpq' hnode hj fun hex => hnot (hother _ hne hex)
  case output =>
    intro p' q' node j hpq' hp' hnormal hj hnot
    rcases hold p' node hp' with ⟨rfl, node₀, hnode₀, rfl⟩ | ⟨hne, hnode⟩
    · obtain ⟨⟨hn₀, hj₀⟩, hex⟩ := hout node₀ j hnode₀ hnormal hj hnot
      exact h.output p' q' node₀ j hpq' hnode₀ hn₀ hj₀ hex
    · exact h.output p' q' node j hpq' hnode hnormal hj fun hex => hnot (hother _ hne hex)
  case sound =>
    intro p' node hg hp'
    rcases hold p' node hp' with ⟨rfl, node₀, hnode₀, rfl⟩ | ⟨hne, hnode⟩
    · exact hgood node₀ hg hnode₀ (h.sound p' node₀ hg hnode₀)
    · exact h.sound p' node hg hnode
  case tracked =>
    intro p' node hp'
    rcases hold p' node hp' with ⟨rfl, node₀, hnode₀, rfl⟩ | ⟨hne, hnode⟩
    · exact htracked node₀ hnode₀ (h.tracked p' node₀ hnode₀)
    · exact h.tracked p' node hnode

/-- Stores that leave a node the ports it had and its kind. -/
structure Tame (π : NodePtr → NodePtr → Prop) (good : NodePtr → Prop)
    (f g : KsiNode → KsiNode) : Prop where
  same : ∀ node node', SameNode π node node' → SameNode π (f node) (g node')
  tracked : ∀ node, Tracked good node → Tracked good (f node)
  shape : ∀ node, (f node).shape = node.shape

theorem shape_isNormal {node node' : KsiNode} (h : node'.shape = node.shape) :
    node'.isNormal = node.isNormal :=
  congrArg Prod.fst h

theorem shape_outputs {node node' : KsiNode} (h : node'.shape = node.shape) :
    node'.outputs.length = node.outputs.length := congrArg (·.2.1) h

theorem shape_hasSignal {node node' : KsiNode} (h : node'.shape = node.shape) :
    node'.HasSignal j ↔ node.HasSignal j := by
  have hin : node'.inputs.map (·.type) = node.inputs.map (·.type) := congrArg (·.2.2) h
  unfold KsiNode.HasSignal
  rw [hin]

theorem update_replays {ex' : Place → Prop} {f g : KsiNode → KsiNode} (h : Paired π good ex e c)
    (hpq : π p q)
    (hnext : Paired π good ex' { e with graph := e.graph.update p f }
      { c with graph := c.graph.update q g }) :
    Replays bufJournal (Dag.update p f) (Dag.update q g) e c fun _ _ e' c' =>
      e' = { e with graph := e.graph.update p f } ∧ Paired π good ex' e' c' := by
  refine .bind ((load_replays h hpq).mono ?_)
  rintro _ _ e' c' ⟨rfl, rfl, -, -⟩
  exact .modify ⟨(List.append_nil _).symm, (List.append_nil _).symm⟩ (fun _ => rfl) ⟨rfl, hnext⟩

theorem update_inStep (hπ : BiUnique π) (hpq : π p q) {f g : KsiNode → KsiNode}
    (hfg : Tame π good f g) :
    InStep bufJournal (Paired π good ex) Whatever (Dag.update p f) (Dag.update q g) := by
  intro e c h
  refine (update_replays h hpq (h.update hπ hpq (fun node node' _ => hfg.same node node')
    (fun node _ => hfg.tracked node) (fun node _ _ hn => ?_) (fun node j _ hj hnot => ?_)
    (fun node j _ hn hj hnot => ?_) fun _ _ hex => hex)).mono fun _ _ _ _ h' => ⟨h'.2, trivial⟩
  · rw [shape_isNormal (hfg.shape node)]
    exact hn
  · exact ⟨(shape_hasSignal (hfg.shape node)).mp hj, hnot⟩
  · rw [shape_isNormal (hfg.shape node)] at hn
    rw [shape_outputs (hfg.shape node)] at hj
    exact ⟨⟨hn, hj⟩, hnot⟩

/-! What the kernels store. -/

theorem tame_depNum (f : Int → Int) :
    Tame π good (fun node => { node with depNum := f node.depNum })
      fun node => { node with depNum := f node.depNum } where
  same := fun _ _ h => ⟨by rw [h.depNum], h.successors, h.id, h.type, h.outputs, h.inputs⟩
  tracked := fun _ h => h
  shape := fun _ => rfl

theorem tame_successors (f : List Nat → List Nat) :
    Tame π good (fun node => { node with successors := f node.successors })
      fun node => { node with successors := f node.successors } where
  same := fun _ _ h => ⟨h.depNum, by rw [h.successors], h.id, h.type, h.outputs, h.inputs⟩
  tracked := fun _ h => h
  shape := fun _ => rfl

theorem tame_type {f : BitVec 32 → BitVec 32}
    (hf : Mild fun node => { node with type := f node.type }) :
    Tame π good (fun node => { node with type := f node.type }) fun node =>
      { node with type := f node.type } where
  same := fun _ _ h => ⟨h.depNum, h.successors, h.id, by rw [h.type], h.outputs, h.inputs⟩
  tracked := fun _ h => h
  shape := hf.shape

theorem rel_modify {α β : Type} {R : α → β → Prop} {f : α → α} {g : β → β}
    (hfg : ∀ a b, R a b → R (f a) (g b)) {l : List α} {l' : List β} (h : List.Forall₂ R l l')
    (i : Nat) : List.Forall₂ R (l.modify i f) (l'.modify i g) := by
  induction h generalizing i with
  | nil => cases i <;> exact .nil
  | cons hab hrest ih =>
      cases i with
      | zero => exact .cons (hfg _ _ hab) hrest
      | succ i => exact .cons hab (ih i)

theorem tame_updateEntries {f g : List Entry → List Entry} (i : Nat)
    (hfg : ∀ l l', List.Forall₂ (SameEntry π) l l' → List.Forall₂ (SameEntry π) (f l) (g l'))
    (hsrc : ∀ l, Sourced good l → Sourced good (f l)) :
    Tame π good (·.updateEntries i f) (·.updateEntries i g) where
  same := fun _ _ h => ⟨h.depNum, h.successors, h.id, h.type, h.outputs,
    rel_modify (fun _ _ hio => ⟨hio.type, hfg _ _ hio.entries⟩) h.inputs i⟩
  tracked := by
    intro node h input hinput
    obtain ⟨j, hj⟩ := List.mem_iff_getElem?.mp hinput
    rw [KsiNode.updateEntries, List.getElem?_modify] at hj
    obtain ⟨input₀, hinput₀, rfl⟩ := Option.map_eq_some_iff.mp hj
    have hold := h input₀ (List.mem_of_getElem? hinput₀)
    split
    · exact hsrc _ hold
    · exact hold
  shape := (mild_updateEntries f).shape

/-! ### Buffers -/

/-- **A buffer is allocated** on one side, and taken from the queue on the other. -/
theorem malloc_inStep (size : Nat) :
    InStep bufJournal (Paired π good ex) Eq (ksiMVCCMonitoredMalloc size .editing)
      (ksiMVCCMonitoredMalloc size .committing) := by
  intro e c h a e' hx
  unfold ksiMVCCMonitoredMalloc at hx
  dsimp only at hx
  split at hx
  · rename_i hsize
    cases hx
    refine ⟨1, none, c, bufJournal.logged_one e, fun rest => ?_, h, rfl⟩
    unfold ksiMVCCMonitoredMalloc
    dsimp only
    rw [if_pos hsize, one_mul]
  · rename_i hsize
    cases hx
    refine ⟨(FreeMonoid.of e.nextBuf, 1), some e.nextBuf, c, ⟨rfl, (List.append_nil _).symm⟩,
      fun rest => ?_, h.shared rfl rfl h.playing h.framesPerBuffer h.resources, rfl⟩
    unfold ksiMVCCMonitoredMalloc
    dsimp only
    rw [if_neg hsize]
    rfl

/-- **A buffer is given up** on one side, and checked and freed on the other. -/
theorem free_inStep (ptr : Option BufPtr) :
    InStep bufJournal (Paired π good ex) Whatever (ksiMVCCDeferredFree ptr .editing)
      (ksiMVCCDeferredFree ptr .committing) := by
  intro e c h a e' hx
  cases ptr with
  | none =>
      cases hx
      refine ⟨1, (), c, bufJournal.logged_one e, fun rest => ?_, h, trivial⟩
      rw [one_mul]
      rfl
  | some ptr =>
      cases hx
      refine ⟨(1, FreeMonoid.of ptr), (), { c with freed := c.freed ++ [ptr] },
        ⟨(List.append_nil _).symm, rfl⟩,
        fun rest => ?_, h.shared rfl rfl h.playing h.framesPerBuffer h.resources, trivial⟩
      exact if_pos rfl

theorem Paired.putEnv {ex' : Place → Prop} (hπ : BiUnique π) (h : Paired π good ex e c)
    (hpq : π p q) {v v' : SignalEnv}
    (hv : ∀ node, e.graph.heap p = some node → node.HasSignal i → ¬ ex' (.input p i) → v' = v)
    (hex : ∀ pl, pl ≠ .input p i → ex pl → ex' pl) :
    Paired π good ex' (e.putEnv p i v) (c.putEnv q i v') where
  __ := h
  env := by
    intro p' q' node j hpq' hp' hj hnot
    have hiff := pair_iff hπ hpq' hpq
    rw [Engine.putEnv_env, Engine.putEnv_env]
    by_cases heq : p' = p ∧ j = i
    · rw [if_pos heq, if_pos ⟨hiff.mp heq.1, heq.2⟩]
      obtain ⟨rfl, rfl⟩ := heq
      exact hv node hp' hj hnot
    · rw [if_neg heq, if_neg fun hq => heq ⟨hiff.mpr hq.1, hq.2⟩]
      refine h.env p' q' node j hpq' hp' hj fun hold => hnot (hex _ ?_ hold)
      rintro ⟨⟩
      exact heq ⟨rfl, rfl⟩
  output := fun p' q' node j hpq' hp' hn hj hnot =>
    h.output p' q' node j hpq' hp' hn hj fun hold => hnot (hex _ nofun hold)

theorem Paired.putOutput {ex' : Place → Prop} (hπ : BiUnique π) (h : Paired π good ex e c)
    (hpq : π p q) (b : Option BufPtr) (hex : ∀ pl, pl ≠ .output p i → ex pl → ex' pl) :
    Paired π good ex' (e.putOutput p i b) (c.putOutput q i b) where
  __ := h
  env := fun p' q' node j hpq' hp' hj hnot =>
    h.env p' q' node j hpq' hp' hj fun hold => hnot (hex _ nofun hold)
  output := by
    intro p' q' node j hpq' hp' hn hj hnot
    have hiff := pair_iff hπ hpq' hpq
    rw [Engine.putOutput_outputBuffer, Engine.putOutput_outputBuffer]
    by_cases heq : p' = p ∧ j = i
    · rw [if_pos heq, if_pos ⟨hiff.mp heq.1, heq.2⟩]
    · rw [if_neg heq, if_neg fun hq => heq ⟨hiff.mpr hq.1, hq.2⟩]
      refine h.output p' q' node j hpq' hp' hn hj fun hold => hnot (hex _ ?_ hold)
      rintro ⟨⟩
      exact heq ⟨rfl, rfl⟩

theorem setEnv_inStep (hπ : BiUnique π) (hpq : π p q) (i : Nat) (f : SignalEnv → SignalEnv) :
    InStep bufJournal (Steady π good) Whatever (setEnv p i f) (setEnv q i f) := by
  intro e c h
  refine .modify ⟨(List.append_nil _).symm, (List.append_nil _).symm⟩ (fun _ => rfl) ⟨?_, trivial⟩
  exact h.putEnv hπ hpq (fun node hp hsignal _ => by rw [h.env p q node i hpq hp hsignal id])
    fun _ _ hex => hex

theorem setFinalNode_inStep {o o' : Option NodePtr} (h : Option.Rel π o o') :
    InStep bufJournal (Paired π good ex) Whatever (setFinalNode o) (setFinalNode o') :=
  fun _ _ hP => .modify ⟨(List.append_nil _).symm, (List.append_nil _).symm⟩ (fun _ => rfl)
    ⟨⟨hP.playing, hP.framesPerBuffer, hP.resources, hP.size, hP.freelist, hP.slots, h, hP.heap,
      hP.env, hP.output, hP.next, hP.given, hP.given', hP.fresh, hP.sound, hP.tracked⟩, trivial⟩

theorem mallocOutput_inStep (type : PortType) :
    InStep bufJournal (Paired π good ex) Eq (mallocOutput type .editing)
      (mallocOutput type .committing) := by
  refine .ite Iff.rfl (malloc_inStep _) (.bind framesPerBuffer_inStep fun frames _ heq => ?_)
  subst heq
  exact malloc_inStep _

/-- The port mixes into a buffer of its own. -/
theorem refreshMixing_replays (hπ : BiUnique π) (h : Steady π good e c) (hpq : π p q)
    {node : KsiNode} (hnode : e.graph.heap p = some node) (hsignal : node.HasSignal port) :
    Replays bufJournal (refreshMixing p port .editing) (refreshMixing q port .committing) e c
      fun _ _ e' c' => Steady π good e' c' ∧ Whatever () () := by
  refine .bind ((readEnv_replays h hpq hnode hsignal).mono ?_)
  rintro v _ e' c' ⟨rfl, rfl, rfl⟩
  cases hb : v.buffer with
  | some b => exact setEnv_inStep hπ hpq _ _ _ _ h
  | none =>
      refine InStep.bind framesPerBuffer_inStep (fun frames _ heq => ?_) _ _ h
      subst heq
      refine .bind (malloc_inStep _) fun b _ heq => ?_
      subst heq
      exact setEnv_inStep hπ hpq _ _

/-- **A port is refreshed.** -/
theorem refreshCopying_inStep (hπ : BiUnique π) (hpq : π p q) (port : Nat) :
    InStep bufJournal (Steady π good) Whatever (refreshCopying p port .editing)
      (refreshCopying q port .committing) := by
  intro e c h
  refine .bind ((loadInput_replays h hpq port).mono ?_)
  rintro input input' e' c' ⟨rfl, rfl, ⟨node, hnode, hinput⟩, hsame, hsourced⟩
  refine .ite (by rw [hsame.type]) (fun _ => .pure ⟨h, trivial⟩) fun hevent => ?_
  have hsignal : node.HasSignal port := by
    refine ⟨input.type, ?_, Bool.eq_false_iff.mpr hevent⟩
    rw [List.getElem?_map, hinput]
    rfl
  have hmixing := refreshMixing_replays hπ h hpq hnode hsignal
  obtain ⟨type, entries⟩ := input
  obtain ⟨type', entries'⟩ := input'
  obtain rfl : type' = type := hsame.type
  match entries, entries', hsame.entries with
  | [], [], _ => exact setEnv_inStep hπ hpq _ _ _ _ h
  | [me], [me'], .cons hme _ =>
      refine .ite (by rw [hme.gain]) (fun _ => ?_) fun _ => hmixing
      refine .bind ((readEnv_replays h hpq hnode hsignal).mono ?_)
      rintro v _ e'' c'' ⟨rfl, rfl, rfl⟩
      refine InStep.bind (free_inStep _)
        (fun _ _ _ => .bind (setEnv_inStep hπ hpq _ _) fun _ _ _ => ?_) _ _ h
      obtain ⟨s, sport, gain⟩ := me
      obtain ⟨s', sport', gain'⟩ := me'
      obtain rfl : sport' = sport := hme.srcPort
      cases hme.src with
      | none => exact .pure trivial
      | some hss =>
          refine .bind (loadOutput_inStep hss _ (hsourced _ (List.mem_singleton_self _) _ rfl))
            fun b _ heq => ?_
          subst heq
          exact setEnv_inStep hπ hpq _ _
  | _ :: _ :: _, _ :: _ :: _, _ => exact hmixing

end Ksi.Dag

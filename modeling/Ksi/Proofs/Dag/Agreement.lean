/-
The two versions stay together.

A client edits one version, and the committer makes the same edits to the other one, with
the buffers that the client's edits have allocated and given up.  It has no way to report
a difference: it does not look at what the kernels return, it takes a buffer from a queue
without knowing what for, and it asserts that a buffer it gives up is the next one in the
queue.  So the replay has to take every branch the edit took.

`Followed` is the invariant: what is queued can be replayed on the other version, uses up
both queues and leaves the two equal up to the addresses of their nodes.  It needs little
of the graph.  The wiring may be incoherent; what matters is that a kernel that returned
an error has changed nothing, that wires come from nodes that have their output buffers,
and that no time sequence is unloaded while an edit that may name it is queued.
-/
import Ksi.Proofs.Dag.Bounds
import Ksi.Proofs.Dag.Schedulable
import Ksi.Proofs.Dag.ReplayPorts
import Ksi.Proofs.Dag.Queues

namespace Ksi.Dag

open Prog Relator Runs

variable {π : NodePtr → NodePtr → Prop} {good : NodePtr → Prop} {ex : Place → Prop} {e c : Engine}
  {p q : NodePtr} {v v' : Versions}

/-! ### One call -/

/-- A wire from here has a buffer to read: an address that has been given out, of a normal
node if of one. -/
def Graph.Usable (g : Graph) (p : NodePtr) : Prop :=
  p < g.nextNode ∧ ∀ node, g.heap p = some node → node.isNormal = true

/-- The wires of a version come from nodes that have their output buffers. -/
abbrev Fitted (π : NodePtr → NodePtr → Prop) (e c : Engine) : Prop := Steady π e.graph.Usable e c

theorem Paired.fit (h : Steady π good e c) : Fitted π e c where
  __ := h
  fresh := fun _ hp => hp.1
  sound := fun _ node hp hnode => hp.2 node hnode
  tracked := fun p node hp input hinput me hme src hsrc =>
    have hgood := h.tracked p node hp input hinput me hme src hsrc
    ⟨h.fresh src hgood, fun node hnode => h.sound src node hgood hnode⟩

/-- The source of a new wire is a normal node. -/
def NormalSource (g : Graph) : Call → Prop
  | .makeWire srcId _ _ _ _ =>
      ∀ p node, g.nodes.Holds srcId.toNat p → g.heap p = some node → node.isNormal = true
  | _ => True

/-- **Every call is replayed.** -/
theorem Call.kernel_replays (hπ : BiUnique π) (call : Call) (h : Fitted π e c)
    (hslots : SlotsLive e.graph) (hnormal : NormalSource e.graph call) :
    Replays bufJournal (call.kernel .editing) (call.kernel .committing) e c fun r r' e' c' =>
      Fitted π e' c' ∧ r = r' := by
  cases call with
  | addNode typeFlags =>
      refine .bind ((impl_ksiEngineAddNode_replays hπ h typeFlags).mono ?_)
      rintro id _ e' c' ⟨h', rfl⟩
      exact .pure ⟨h'.fit, rfl⟩
  | makeWire srcId srcPort desId desPort gain =>
      refine .bind ((impl_ksiEngineMakeWire_replays hπ h hslots _ _ _ _ gain fun p hp => ?_).mono
        fun _ _ _ _ h' => .pure ⟨h'.1.fit, rfl⟩)
      exact ⟨h.given _ p hp.2, fun node => hnormal p node hp⟩
  | makeBias desId desPort bias =>
      exact .bind ((impl_ksiEngineMakeBias_replays hπ h hslots _ _ bias).mono fun _ _ _ _ h' =>
        .pure ⟨h'.1.fit, rfl⟩)
  | detachNodes srcId desId =>
      exact .bind ((impl_ksiEngineDetachNodes_replays hπ h hslots _ _).mono fun _ _ _ _ h' =>
        .pure ⟨h'.1.fit, rfl⟩)
  | removeNode id =>
      refine .bind ((impl_ksiEngineRemoveNode_replays hπ h hslots id).mono
        fun n n' e₁ c₁ ⟨h₁, hn⟩ => ?_)
      exact .bind ((ksiEngineDestroyNode_inStep hπ hn e₁ c₁ h₁).mono fun _ _ _ _ h' =>
        .pure ⟨h'.1.fit, rfl⟩)
  | removeWire srcId srcPort desId desPort =>
      exact .bind ((impl_ksiEngineRemoveWire_replays hπ h hslots _ _ _ _).mono fun _ _ _ _ h' =>
        .pure ⟨h'.1.fit, rfl⟩)
  | sendEditingCommand id args =>
      exact .bind ((impl_ksiEngineSendEditingCommand_replays hπ h hslots id args).mono
        fun _ _ _ _ h' =>
        .pure ⟨h'.1.fit, rfl⟩)

/-! ### Versions that are equal -/

/-- The versions are equal but for the addresses of their nodes. -/
structure SameVersion (π : NodePtr → NodePtr → Prop) (v w : Version) : Prop where
  size : w.graph.nodes.size = v.graph.nodes.size
  freelist : w.graph.nodes.freelist = v.graph.nodes.freelist
  slots : ∀ i < v.graph.nodes.size, Option.Rel π (v.graph.nodes.data i) (w.graph.nodes.data i)
  finalNode : Option.Rel π v.graph.finalNode w.graph.finalNode
  heap : ∀ p q, π p q → Option.Rel (SameNode π) (v.graph.heap p) (w.graph.heap q)
  env : ∀ p q node i, π p q → v.graph.heap p = some node → node.HasSignal i → w.env q i = v.env p i
  output : ∀ p q node i, π p q → v.graph.heap p = some node → node.isNormal = true →
    i < node.outputs.length →
    w.outputBuffer q i = v.outputBuffer p i

/-- **The two versions agree**: same ids, and under each the same node with the same wires and
the same buffers. -/
def Agree (v w : Version) : Prop := ∃ π, BiUnique π ∧ BiTotal π ∧ SameVersion π v w

theorem Paired.sameVersion (h : Steady π good e c) (he : SlotsLive e.graph)
    (hc : SlotsLive c.graph) : SameVersion π e.toVersion c.toVersion where
  size := h.size
  freelist := h.freelist
  slots := by
    intro i hi
    have hi' : i < c.graph.nodes.size := h.size ▸ hi
    have hslot : ∀ {g : Graph}, SlotsLive g → i < g.nodes.size → g.slot i = g.nodes.data i := by
      intro g hg hlt
      unfold Graph.slot
      cases hp : g.nodes.data i with
      | none => rfl
      | some p =>
          obtain ⟨node, hnode, -⟩ := hg i p ⟨hlt, hp⟩
          rw [Option.filter_some, hnode]
          rfl
    have hrel := h.slots i
    rwa [hslot he hi, hslot hc hi'] at hrel
  finalNode := h.finalNode
  heap := h.heap
  env := fun p q node i hpq hp hi => h.env p q node i hpq hp hi id
  output := fun p q node i hpq hp hn hi => h.output p q node i hpq hp hn hi id

/-! The roles are exchanged with every commit. -/

theorem rel_flip {α β : Type} {R : α → β → Prop} {o : Option α} {o' : Option β}
    (h : Option.Rel R o o') : Option.Rel (flip R) o' o := by
  cases h with
  | some hab => exact .some hab
  | none => exact .none

theorem forall₂_mem {α β : Type} {R : α → β → Prop} {l : List α} {l' : List β}
    (h : List.Forall₂ R l l') {b : β} (hb : b ∈ l') : ∃ a ∈ l, R a b := by
  obtain ⟨i, hi⟩ := List.mem_iff_getElem?.mp hb
  obtain ⟨a, ha, hab⟩ := rel_some (rel_flip (rel_getElem? h i)) hi
  exact ⟨a, List.mem_of_getElem? ha, hab⟩

theorem rel_imp {α β : Type} {R R' : α → β → Prop} {o : Option α} {o' : Option β}
    (h : Option.Rel R o o') (hR : ∀ a b, R a b → R' a b) : Option.Rel R' o o' := by
  cases h with
  | some hab => exact .some (hR _ _ hab)
  | none => exact .none

theorem SameEntry.flip {me me' : Entry} (h : SameEntry π me me') : SameEntry (flip π) me' me :=
  ⟨rel_flip h.src, h.srcPort.symm, h.gain.symm⟩

theorem SameInput.flip {input input' : InputPort} (h : SameInput π input input') :
    SameInput (flip π) input' input :=
  ⟨h.type.symm, List.Forall₂.flip (h.entries.imp fun _ _ hme => hme.flip)⟩

theorem SameNode.flip {node node' : KsiNode} (h : SameNode π node node') :
    SameNode (flip π) node' node :=
  ⟨h.depNum.symm, h.successors.symm, h.id.symm, h.type.symm, h.outputs.symm,
    List.Forall₂.flip (h.inputs.imp fun _ _ hio => hio.flip)⟩

theorem biUnique_flip (hπ : BiUnique π) : BiUnique (flip π) :=
  ⟨fun _ _ _ h h' => hπ.2 h h', fun _ _ _ h h' => hπ.1 h h'⟩

/-- Seen from the other side. -/
theorem Paired.symm (hπ : BiUnique π) (htotal : BiTotal π) (h : Fitted π e c)
    (hplaying : e.playing ≠ -2)
    (hresources : ∀ i n, c.timeseqResources.Holds i n → e.timeseqResources.Holds i n) :
      Fitted (flip π) c e := by
  have hback : ∀ {p q node'}, π p q → c.graph.heap q = some node' → ∃ node,
    e.graph.heap p = some node ∧
      SameNode π node node' := by
    intro p q node' hpq hq
    obtain ⟨node, hnode, hsame⟩ := rel_some (rel_flip (h.heap p q hpq)) hq
    exact ⟨node, hnode, hsame⟩
  constructor
  case playing => exact hplaying
  case framesPerBuffer => exact h.framesPerBuffer.symm
  case resources => exact hresources
  case size => exact h.size.symm
  case freelist => exact h.freelist.symm
  case slots => exact fun i => rel_flip (h.slots i)
  case finalNode => exact rel_flip h.finalNode
  case heap =>
    intro q p hpq
    exact rel_imp (rel_flip (h.heap p q hpq)) fun _ _ hsame => hsame.flip
  case env =>
    intro q p node' j hpq hq hj _
    obtain ⟨node, hnode, hsame⟩ := hback hpq hq
    exact (h.env p q node j hpq hnode ((shape_hasSignal hsame.shape).mp hj) id).symm
  case output =>
    intro q p node' j hpq hq hnormal hj _
    obtain ⟨node, hnode, hsame⟩ := hback hpq hq
    rw [shape_isNormal hsame.shape] at hnormal
    rw [shape_outputs hsame.shape] at hj
    exact (h.output p q node j hpq hnode hnormal hj id).symm
  case next => exact h.next
  case given => exact h.given'
  case given' => exact h.given
  case fresh => exact fun _ hq => hq.1
  case sound => exact fun _ node' hq hnode' => hq.2 node' hnode'
  case tracked =>
    intro q node' hq input' hinput' me' hme' src' hsrc'
    obtain ⟨p, hpq⟩ := htotal.2 q
    obtain ⟨node, hnode, hsame⟩ := hback hpq hq
    obtain ⟨input, hinput, hsameInput⟩ := forall₂_mem hsame.inputs hinput'
    obtain ⟨me, hme, hsameEntry⟩ := forall₂_mem hsameInput.entries hme'
    obtain ⟨src, hsrc, hpair⟩ := rel_some (rel_flip hsameEntry.src) hsrc'
    obtain ⟨hlt, hnormal⟩ := h.tracked p node hnode input hinput me hme src hsrc
    refine ⟨(h.lt_next hπ hpair).mp hlt, fun m' hm' => ?_⟩
    obtain ⟨m, hm, hsame⟩ := hback hpair hm'
    rw [shape_isNormal hsame.shape]
    exact hnormal m hm

/-! ### What is queued can be replayed -/

/-- What the two queues hold. -/
def Engine.log (e : Engine) : BufLog :=
  (FreeMonoid.ofList e.mallocBufs, FreeMonoid.ofList e.freeBufs)

theorem log_of_logged {l : BufLog} (h : bufJournal.logged l e c) : c.log = e.log * l :=
  Prod.ext (congrArg FreeMonoid.ofList h.1) (congrArg FreeMonoid.ofList h.2)

/-- One more call is replayed. -/
theorem commitLoop_snoc {call : Call} {r : Option Nat} {e'' : Engine}
    (hcall : call.kernel .committing c = some (.ok r, e'')) :
    ∀ (cmds : List Call) {e : Engine} {rs : List (KsiError × Option Nat)},
    commitLoop cmds e = some (rs, c) →
      commitLoop (cmds ++ [call]) e = some (rs ++ [(.ksiErrorNone, r)], e'') := by
  intro cmds
  induction cmds with
  | nil =>
      intro e rs hloop
      cases hloop
      simp only [List.nil_append, commitLoop, hcall, Option.map_some]
  | cons first rest ih =>
      intro e rs hloop
      rw [List.cons_append]
      unfold commitLoop at hloop ⊢
      split at hloop
      · cases hloop
      · obtain ⟨⟨rs', c'⟩, hrest, heq⟩ := Option.map_eq_some_iff.mp hloop
        cases heq
        rw [ih hrest]
        rfl
      · obtain ⟨⟨rs', c'⟩, hrest, heq⟩ := Option.map_eq_some_iff.mp hloop
        cases heq
        rw [ih hrest]
        rfl

/-- An engine on which the committer can work. -/
structure Ready (e : Engine) (w : Version) (c : Engine) : Prop where
  version : c.toVersion = w
  playing : c.playing ≠ -2
  framesPerBuffer : c.framesPerBuffer = e.framesPerBuffer
  resources : ∀ i n, e.timeseqResources.Holds i n → c.timeseqResources.Holds i n

/-- **What is queued can be replayed on the other version**, which is then equal to the edited
one. -/
structure Followed (π : NodePtr → NodePtr → Prop) (v : Versions) : Prop where
  unique : BiUnique π
  total : BiTotal π
  sound : Sound v.session.engine.graph
  other : Sound v.other.graph
  resources : v.session.engine.timeseqResources.Tidy
  replay : ∀ c, Ready v.session.engine v.other c → ∃ rs c', (∀ r ∈ rs, r.1 = .ksiErrorNone) ∧
    (∀ rest, commitLoop v.session.syncCmds (c.fed (v.session.engine.log * rest)) =
      some (rs, c'.fed rest)) ∧
    Fixed c c' ∧ Fitted π v.session.engine c'

theorem Followed.init (framesPerBuffer : Nat) : Followed Eq (Versions.init framesPerBuffer) where
  unique := ⟨fun _ _ _ h h' => h.trans h'.symm, fun _ _ _ h h' => h.symm.trans h'⟩
  total := ⟨fun p => ⟨p, rfl⟩, fun p => ⟨p, rfl⟩⟩
  sound := .empty
  other := .empty
  resources := ⟨nofun, .nil⟩
  replay := by
    intro c hc
    refine ⟨[], c, nofun, fun rest => ?_, .refl c, ?_⟩
    · show some ([], c.fed (1 * rest)) = _
      rw [one_mul]
    obtain ⟨v, _⟩ := c
    obtain rfl : v = Version.empty := hc.version
    exact {
      playing := hc.playing
      framesPerBuffer := hc.framesPerBuffer
      resources := hc.resources
      size := rfl
      freelist := rfl
      slots := fun _ => .none
      finalNode := .none
      heap := fun _ _ _ => .none
      env := fun _ _ _ _ _ hp => nomatch hp
      output := fun _ _ _ _ _ hp => nomatch hp
      next := fun _ => rfl
      given := fun _ _ hp => nomatch hp
      given' := fun _ _ hp => nomatch hp
      fresh := fun _ hp => hp.1
      sound := fun _ _ _ hp => nomatch hp
      tracked := fun _ _ hp => nomatch hp }

/-- What the engine shares has changed; a time sequence may only be gone where nothing is
queued. -/
theorem Followed.change (h : Followed π v) {e : Engine}
    (hversion : e.toVersion = v.session.engine.toVersion)
    (hlog : e.log = v.session.engine.log)
    (hframes : e.framesPerBuffer = v.session.engine.framesPerBuffer)
    (hresources : v.session.syncCmds = [] ∨
      ∀ i n, v.session.engine.timeseqResources.Holds i n → e.timeseqResources.Holds i n)
    (htidy : e.timeseqResources.Tidy) :
      Followed π { v with session := { v.session with engine := e } } where
  unique := h.unique
  total := h.total
  sound := by
    show Sound e.graph
    rw [congrArg Version.graph hversion]
    exact h.sound
  other := h.other
  resources := htidy
  replay := by
    intro c hc
    have hgraph : e.graph = v.session.engine.graph := congrArg Version.graph hversion
    -- whatever is fitted to the old engine is so to the new one
    have hfit : ∀ c', Fitted π v.session.engine c' → ∀ d : Engine, d.toVersion = c'.toVersion →
      Fixed c d →
        Fitted π e d := by
      intro c' hc' d hd hfixed
      show Paired π e.graph.Usable _ e d
      rw [hgraph]
      refine hc'.shared hversion hd (hfixed.playing ▸ hc.playing)
        (hfixed.framesPerBuffer.trans hc.framesPerBuffer)
        fun i n hn => ?_
      rw [hfixed.timeseqResources]
      exact hc.resources i n hn
    rcases hresources with hnil | hkept
    · obtain ⟨rs, c', hrs, hloop, hfixed, hc'⟩ := h.replay
        { c with timeseqResources := v.session.engine.timeseqResources }
        ⟨hc.version, hc.playing, hc.framesPerBuffer.trans hframes, fun _ _ hn => hn⟩
      have hfixed' : Fixed c { c' with timeseqResources := c.timeseqResources } :=
        ⟨hfixed.playing, hfixed.framesPerBuffer, rfl⟩
      refine ⟨rs, { c' with timeseqResources := c.timeseqResources }, hrs, fun rest => ?_, hfixed',
        hfit c' hc' _ rfl hfixed'⟩
      have hrest := hloop rest
      rw [hnil] at hrest ⊢
      rw [hlog]
      obtain ⟨hrs', heq⟩ := Prod.mk.inj (Option.some.inj hrest)
      refine congrArg some (Prod.ext hrs' ?_)
      exact congrArg (fun x : Engine => { x with timeseqResources := c.timeseqResources }) heq
    · obtain ⟨rs, c', hrs, hloop, hfixed, hc'⟩ := h.replay c ⟨hc.version, hc.playing,
        hc.framesPerBuffer.trans hframes, fun i n hn => hc.resources i n (hkept i n hn)⟩
      refine ⟨rs, c', hrs, fun rest => ?_, hfixed, hfit c' hc' c' rfl hfixed⟩
      rw [hlog]
      exact hloop rest

/-- An edit is queued. -/
theorem Followed.queue (h : Followed π v) {call : Call} {r : Option Nat} {e : Engine}
    (hcall : call.kernel .editing v.session.engine = some (.ok r, e))
    (hnormal : NormalSource v.session.engine.graph call) :
    Followed π { v with session := { engine := e, syncCmds := v.session.syncCmds ++ [call] } } := by
  have hfixed₀ : Fixed v.session.engine e := of_wp_ok (fixed_engineWalks.kernel call _) hcall
  exact {
    unique := h.unique
    total := h.total
    sound := of_wp_ok (h.sound.call call) hcall
    other := h.other
    resources := by
      show e.timeseqResources.Tidy
      rw [hfixed₀.timeseqResources]
      exact h.resources
    replay := by
      intro c hc
      obtain ⟨rs, c', hrs, hloop, hfixed, hc'⟩ := h.replay c ⟨hc.version, hc.playing,
        hc.framesPerBuffer.trans hfixed₀.framesPerBuffer, fun i n hn =>
        hc.resources i n (by rwa [hfixed₀.timeseqResources])⟩
      obtain ⟨l, _, c'', hlogged, hkernel, hc'', rfl⟩ := Call.kernel_replays h.unique call hc'
        h.sound.registered.slots hnormal r e hcall
      have hfed : Fixed (c'.fed (l * 1)) (c''.fed 1) := of_wp_ok (fixed_engineWalks.kernel call _)
        (hkernel 1)
      have hfixed' : Fixed c' c'' := ⟨hfed.playing, hfed.framesPerBuffer, hfed.timeseqResources⟩
      refine ⟨rs ++ [(.ksiErrorNone, r)], c'', fun r' hr' => ?_, fun rest => ?_,
        hfixed.trans hfixed', hc''⟩
      · rcases List.mem_append.mp hr' with hr' | hr'
        · exact hrs r' hr'
        · rw [List.mem_singleton.mp hr']
      · rw [log_of_logged hlogged, mul_assoc]
        exact commitLoop_snoc (hkernel rest) _ (hloop (l * rest)) }

/-- **The committer gets through**, and both queues are used up. -/
theorem Followed.commit (h : Followed π v) (hplaying : v.session.engine.playing ≠ -2) :
    ∃ rs e, ksiMVCCCommitter v.session v.other = some (rs, { engine := e, syncCmds := [] }) ∧
      (∀ r ∈ rs, r.1 = .ksiErrorNone) ∧ e.log = 1 ∧ Fixed v.session.engine e ∧ Sound e.graph ∧
      Fitted π v.session.engine e := by
  obtain ⟨rs, c, hrs, hloop, hfixed, hc⟩ := h.replay { v.session.engine with toVersion := v.other }
    ⟨rfl, hplaying, rfl, fun _ _ hn => hn⟩
  have hfed : Engine.fed (v.session.engine.log * 1) { v.session.engine with toVersion := v.other } =
      { v.session.engine with toVersion := v.other } := by
    rw [mul_one]
    rfl
  have hrun := hloop 1
  rw [hfed] at hrun
  refine ⟨rs, c.fed 1, ?_, hrs, rfl,
    ⟨hfixed.playing, hfixed.framesPerBuffer, hfixed.timeseqResources⟩,
    commitLoop_keeps sound_keeps _ hrun h.other, ?_⟩
  · unfold ksiMVCCCommitter
    rw [hrun, Option.map_some]
  · exact hc.shared rfl rfl hc.playing hc.framesPerBuffer hc.resources

/-- The versions are exchanged. -/
theorem Followed.turn (h : Followed π v) {e : Engine} (hplaying : v.session.engine.playing ≠ -2)
    (hlog : e.log = 1) (hfixed : Fixed v.session.engine e) (hsound : Sound e.graph)
    (hfit : Fitted π v.session.engine e) :
    Followed (flip π)
      { session := { engine := e, syncCmds := [] }, other := v.session.engine.toVersion } := by
  have hback : Fitted (flip π) e v.session.engine :=
    hfit.symm h.unique h.total hplaying fun i n hn => by rwa [hfixed.timeseqResources] at hn
  exact {
    unique := biUnique_flip h.unique
    total := ⟨h.total.2, h.total.1⟩
    sound := hsound
    other := h.sound
    resources := by
      show e.timeseqResources.Tidy
      rw [hfixed.timeseqResources]
      exact h.resources
    replay := by
      intro c hc
      refine ⟨[], c, nofun, fun rest => ?_, .refl c, ?_⟩
      · show some ([], c.fed (e.log * rest)) = _
        rw [hlog, one_mul]
      · exact hback.shared rfl hc.version hc.playing hc.framesPerBuffer hc.resources }

/-! ### Every run -/

/-- A command that the committer can replay: a call that is not refused after it has changed the
version and takes no wire from a final node, or one that does not unload while edits are
queued. -/
def Replayable (v : Versions) : Action → Prop
  | .command (.call c) => ¬ ChangesFirst v.session.engine c ∧ NormalSource v.session.engine.graph c
  | .command (.unloadTimeSeq _) => v.session.syncCmds = []
  | _ => True

/-- What loading and unloading leave as it is. -/
structure Aside (e e' : Engine) : Prop where
  version : e'.toVersion = e.toVersion
  queues : e'.queues = e.queues
  framesPerBuffer : e'.framesPerBuffer = e.framesPerBuffer
  tidy : e.timeseqResources.Tidy → e'.timeseqResources.Tidy

theorem Aside.log (h : Aside e c) : c.log = e.log :=
  congrArg (fun q : Queues => (FreeMonoid.ofList q.mallocBufs, FreeMonoid.ofList q.freeBufs))
    h.queues

theorem Aside.refl (e : Engine) : Aside e e := ⟨rfl, rfl, rfl, id⟩

theorem unload_aside (id : Int) : Within Aside (ksiTimeSeqUnloadFromEngine id) := by
  intro s
  unfold ksiTimeSeqUnloadFromEngine
  rw [wp_bind, wp_checkInitialized]
  refine ⟨fun _ => ?_, fun _ => .refl s⟩
  rw [wp_bind, wp_read]
  refine ⟨fun _ => trivial, fun slot hslot => ?_⟩
  rw [wp_bind, wp_orError]
  refine ⟨fun n hn => ⟨rfl, rfl, rfl, fun h => ?_⟩, fun _ => .refl s⟩
  subst hn
  exact h.delete (KsiVec.check_some hslot).1

theorem load_aside (n : Nat) : Within (fun e e' => Aside e e' ∧ (e.timeseqResources.Tidy →
    ∀ i m, e.timeseqResources.Holds i m → e'.timeseqResources.Holds i m)) (Dag.loadTimeSeq n) := by
  intro s
  unfold Dag.loadTimeSeq
  rw [wp_bind, wp_checkInitialized]
  refine ⟨fun _ => ⟨⟨rfl, rfl, rfl, fun h => h.insert n⟩, fun h i m hm => ?_⟩,
    fun _ => ⟨.refl s, fun _ _ _ => id⟩⟩
  refine (KsiVec.holds_insert h n).mpr (.inr ⟨?_, hm⟩)
  rintro rfl
  exact KsiVec.not_holds_insert h n hm

theorem getInputType_within (id port : Int) :
    Within (fun e e' => e' = e) (Command.getInputType id port).kernel := by
  have hK := within_compositional (ε := KsiError) (P := fun _ => True)
    (r := fun e e' : Engine => e' = e)
    (fun _ => rfl) fun _ _ _ h h' => h'.trans h
  exact hK.bind (hK.bind (hK.bind (hK.read _) fun _ => hK.orError _ trivial) fun _ =>
    hK.bind (hK.read _) fun _ => hK.bind (hK.require trivial) fun _ => hK.read _)
      fun _ => hK.pure ()

/-- A program that the client runs on the engine. -/
theorem onEngine_within {x : Edit Unit} {R : Engine → Engine → Prop} (hx : Within R x)
    (hs : v.onEngine x = some v') :
    ∃ e, R v.session.engine e ∧ v' = { v with session := { v.session with engine := e } } := by
  obtain ⟨⟨r, e⟩, hr, rfl⟩ := Option.map_eq_some_iff.mp hs
  refine ⟨e, ?_, rfl⟩
  cases r with
  | ok a => exact of_wp_ok (hx _) hr
  | error err => exact of_wp_error (hx _) hr

/-- **A step keeps the versions together.** -/
theorem Followed.step (h : Followed π v) {a : Action} (ha : Replayable v a)
    (hs : v.step a = some v') : ∃ π', Followed π' v' := by
  cases a with
  | command cmd =>
      cases cmd with
      | call call =>
          obtain ⟨⟨r, session⟩, hr, rfl⟩ := Option.map_eq_some_iff.mp hs
          unfold Session.call at hr
          split at hr
          · cases hr
          · rename_i err e hkernel
            cases hr
            -- a refused edit has changed nothing
            obtain rfl := (of_wp_error (refused_wp call) hkernel).mpr ha.1
            exact ⟨π, h⟩
          · rename_i id e hkernel
            cases hr
            exact ⟨π, h.queue hkernel ha.2⟩
      | getInputType id port =>
          obtain ⟨e, rfl, rfl⟩ := onEngine_within (getInputType_within id port) hs
          exact ⟨π, h⟩
      | unloadTimeSeq id =>
          obtain ⟨e, hside, rfl⟩ := onEngine_within (unload_aside id) hs
          exact ⟨π, h.change hside.version hside.log hside.framesPerBuffer (.inl ha)
            (hside.tidy h.resources)⟩
  | loadTimeSeq n =>
      obtain ⟨e, ⟨hside, hkept⟩, rfl⟩ := onEngine_within (load_aside n) hs
      exact ⟨π, h.change hside.version hside.log hside.framesPerBuffer (.inr (hkept h.resources))
        (hside.tidy h.resources)⟩
  | setPlaying playing =>
      cases hs
      exact ⟨π, h.change rfl rfl rfl (.inr fun _ _ hn => hn) h.resources⟩
  | commit =>
      obtain ⟨⟨session, other⟩, hr, rfl⟩ := Option.map_eq_some_iff.mp hs
      unfold ksiEngineCommit at hr
      split at hr
      · cases hr
        exact ⟨π, h⟩
      · rename_i hready
        obtain ⟨hplaying, -⟩ := not_or.mp hready
        obtain ⟨rs, e, hcommit, -, hlog, hfixed, hsound, hfit⟩ := h.commit hplaying
        rw [hcommit] at hr
        cases hr
        exact ⟨flip π, h.turn hplaying hlog hfixed hsound hfit⟩

theorem followed_of_reaches {framesPerBuffer : Nat}
    (h : Reaches Versions.step Replayable (Versions.init framesPerBuffer) v) : ∃ π, Followed π v :=
  h.invariant (fun v => ∃ π, Followed π v) ⟨Eq, .init framesPerBuffer⟩ fun _ _ _ ⟨_, h⟩ ha hs =>
    h.step ha hs

/-- **The replay reproduces the edits**: from every state that a client can reach, the committer
gets through with every queued edit, none returns an error, both queues of buffers are used up,
and the two versions agree. -/
theorem commit_agrees {framesPerBuffer : Nat}
    (h : Reaches Versions.step Replayable (Versions.init framesPerBuffer) v)
    (hplaying : v.session.engine.playing ≠ -2) :
    ∃ rs s, ksiMVCCCommitter v.session v.other = some (rs, s) ∧ (∀ r ∈ rs, r.1 = .ksiErrorNone) ∧
      s.engine.mallocBufs = [] ∧ s.engine.freeBufs = [] ∧
      Agree v.session.engine.toVersion s.engine.toVersion := by
  obtain ⟨π, hv⟩ := followed_of_reaches h
  obtain ⟨rs, e, hcommit, hrs, hlog, -, hsound, hfit⟩ := hv.commit hplaying
  obtain ⟨hmalloc, hfree⟩ := Prod.mk.inj hlog
  exact ⟨rs, _, hcommit, hrs, hmalloc, hfree, π, hv.unique, hv.total,
    hfit.sameVersion hv.sound.registered.slots hsound.registered.slots⟩

/-- A call for which a look at its two ends shows that it can be replayed: no wire is taken out,
and a new one leads from a normal node to a signal port. -/
def Evident (g : Graph) : Call → Prop
  | .makeWire srcId _ desId desPort _ => (g.node? srcId.toNat).all (·.isNormal) = true ∧
      ((g.node? desId.toNat).bind fun node => nth node.inputs desPort).all (! ·.type.isEvent) = true
  | .removeWire .. => False
  | _ => True

instance decidableEvident (g : Graph) (call : Call) : Decidable (Evident g call) :=
  match call with
  | .makeWire .. => inferInstanceAs (Decidable (_ ∧ _))
  | .removeWire .. => isFalse id
  | .addNode _ | .makeBias .. | .detachNodes .. | .removeNode _ | .sendEditingCommand .. =>
      isTrue trivial

theorem Evident.replayable {call : Call} (h : Evident v.session.engine.graph call) :
    Replayable v (.command (.call call)) := by
  cases call with
  | makeWire srcId srcPort desId desPort gain =>
      obtain ⟨hnormal, hsignal⟩ := h
      refine ⟨?_, fun p node hp hnode => ?_⟩
      · rintro ⟨-, src, des, srcNode, desNode, input, hports, -, hevent, -⟩
        have hdes := Graph.node?_eq_some.mpr ⟨des, (KsiVec.check_some hports.desId).1, hports.atDes⟩
        rw [hdes, Option.bind_some, hports.hasInput, Option.all_some, hevent] at hsignal
        cases hsignal
      · rw [Graph.node?_eq_some.mpr ⟨p, hp, hnode⟩, Option.all_some] at hnormal
        exact hnormal
  | removeWire => exact h.elim
  | _ => exact ⟨id, trivial⟩

/-- Two Id nodes and a wire, committed; then a bias, a second port, and the first node gone. -/
def editRun : List Action :=
  [.command (.call (.addNode 0x10000)), .command (.call (.addNode 0x10000)),
    .command (.call (.makeWire 0 0 1 0 0x3F000000)), .commit,
    .command (.call (.makeBias 1 0 0x3F800000)),
    .command (.call (.sendEditingCommand 1 "2")), .command (.call (.removeNode 0))]

/-- What is queued in the run is evident. -/
def EvidentAction (v : Versions) : Action → Prop
  | .command (.call call) => Evident v.session.engine.graph call
  | .command (.unloadTimeSeq _) => False
  | _ => True

instance decidableEvidentAction : DecidableRel EvidentAction := fun _ a =>
  match a with
  | .command (.call call) => decidableEvident _ call
  | .command (.unloadTimeSeq _) => isFalse id
  | .command (.getInputType ..) | .loadTimeSeq _ | .commit | .setPlaying _ => isTrue trivial

theorem EvidentAction.replayable {a : Action} (h : EvidentAction v a) : Replayable v a := by
  cases a with
  | command c =>
      cases c with
      | call call => exact Evident.replayable h
      | getInputType id port => trivial
      | unloadTimeSeq id => exact h.elim
  | _ => trivial

theorem run_editRun : ∃ v, Reaches Versions.step Replayable (Versions.init 64) v ∧
    v.session.engine.playing = 0 ∧
    v.session.syncCmds.length = 3 ∧ v.session.engine.mallocBufs = [3] ∧
    v.session.engine.freeBufs = [2, 0] := by
  have hrun : (runChecked Versions.step EvidentAction (Versions.init 64) editRun).map (fun v =>
      (v.session.engine.playing, v.session.syncCmds.length, v.session.engine.mallocBufs,
        v.session.engine.freeBufs)) =
      some (0, 3, [3], [2, 0]) := by
    decide +kernel
  obtain ⟨v, hv, hobs⟩ := Option.map_eq_some_iff.mp hrun
  simp only [Prod.mk.injEq] at hobs
  exact ⟨v, (reaches_of_runChecked editRun hv).mono fun _ _ => EvidentAction.replayable, hobs⟩

theorem commit_agrees_editRun :
    ∃ v : Versions, v.session.syncCmds.length = 3 ∧ v.session.engine.mallocBufs = [3] ∧
    v.session.engine.freeBufs = [2, 0] ∧ ∃ rs s, ksiMVCCCommitter v.session v.other = some (rs, s) ∧
      (∀ r ∈ rs, r.1 = .ksiErrorNone) ∧ s.engine.mallocBufs = [] ∧ s.engine.freeBufs = [] ∧
      Agree v.session.engine.toVersion s.engine.toVersion := by
  obtain ⟨v, hreach, hplaying, hcmds, hmalloc, hfree⟩ := run_editRun
  exact ⟨v, hcmds, hmalloc, hfree, commit_agrees hreach (by rw [hplaying]; decide)⟩

end Ksi.Dag

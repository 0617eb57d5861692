/-
What the kernels do to the queues of buffers.

Only `ksiMVCCMonitoredMalloc` and `ksiMVCCDeferredFree` touch them.  `QueueWalks` goes
through the kernels with that in mind: all else reads past the queues and leaves them
alone.  So a kernel with flag 0 appends to whatever the queues hold, and one with flag 1
moves buffers from the one queue to those that have been freed.
-/
import Ksi.Lib.Frame
import Ksi.Proofs.Dag.Ownership

namespace Ksi.Dag

open Prog

variable {flag : Flag} {s s' : Engine} {n p src des : NodePtr} {i port : Nat}

/-- The queues, and what they are the record of. -/
structure Queues where
  mallocBufs : List BufPtr
  freeBufs : List BufPtr
  nextBuf : BufPtr
  freed : List BufPtr

/-- The engine with these queues. -/
def Engine.withQueues (s : Engine) (q : Queues) : Engine :=
  { s with
    mallocBufs := q.mallocBufs, freeBufs := q.freeBufs, nextBuf := q.nextBuf, freed := q.freed }

def Engine.queues (s : Engine) : Queues := ⟨s.mallocBufs, s.freeBufs, s.nextBuf, s.freed⟩

/-- `f` looks past the queues and leaves them alone. -/
def Besides (f : Engine → Engine) : Prop := ∀ s q, f (s.withQueues q) = (f s).withQueues q

theorem Besides.queues {f : Engine → Engine} (hf : Besides f) (s : Engine) :
    (f s).queues = s.queues := by
  have hs := hf s s.queues
  have hself : s.withQueues s.queues = s := rfl
  rw [hself] at hs
  rw [hs]
  rfl

/-- A property that a program has when the steps that touch the queues have it. -/
structure QueueWalks (flag : Flag) (K : ∀ {α : Type}, Edit α → Prop) : Prop where
  pure : ∀ {α : Type} (a : α), K (pure a : Edit α)
  error : ∀ {α : Type} (e : KsiError), K (error e : Edit α)
  bind : ∀ {α β : Type} {x : Edit α} {f : α → Edit β}, K x → (∀ a, K (f a)) → K (x >>= f)
  read : ∀ {α : Type} {f : Engine → Option α}, (∀ s q, f (s.withQueues q) = f s) →
    K (read f : Edit α)
  assert : ∀ {c : Engine → Prop} [DecidablePred c], (∀ s q, c (s.withQueues q) ↔ c s) →
    K (assert c : Edit Unit)
  modify : ∀ {f : Engine → Engine}, Besides f → K (modify f : Edit Unit)
  malloc : ∀ size, K (ksiMVCCMonitoredMalloc size flag)
  free : ∀ ptr, K (ksiMVCCDeferredFree ptr flag)
  newNode : ∀ node, K (newNode node)
  insertNode : ∀ n, K (insertNode n)

namespace QueueWalks

variable {K : ∀ {α : Type}, Edit α → Prop} (hK : QueueWalks flag K)

theorem of_ite {α : Type} {c : Prop} [Decidable c] {x y : Edit α} (hx : K x) (hy : K y) :
    K (if c then x else y) := by
  by_cases hc : c
  · rwa [if_pos hc]
  · rwa [if_neg hc]

include hK

theorem require {c : Prop} [Decidable c] {e : KsiError} : K (require c e : Edit Unit) :=
  of_ite (hK.pure ()) (hK.error e)

theorem orError {α : Type} (o : Option α) {e : KsiError} : K (orError o e : Edit α) := by
  cases o with
  | none => exact hK.error e
  | some a => exact hK.pure a

theorem when {c : Prop} [Decidable c] {x : Edit Unit} (hx : K x) : K (when c x) :=
  of_ite hx (hK.pure ())

theorem forEach {α : Type} {f : α → Edit Unit} (hf : ∀ a, K (f a)) (l : List α) :
    K (forEach l f) := by
  induction l with
  | nil => exact hK.pure ()
  | cons a rest ih => exact hK.bind (hf a) fun _ => ih

theorem load : K (load p) := hK.read fun _ _ => rfl

theorem update (f : KsiNode → KsiNode) : K (update p f) :=
  hK.bind hK.load fun _ => hK.modify fun _ _ => rfl

theorem loadInput : K (loadInput n i) := hK.read fun _ _ => rfl

theorem loadOutput {j : Int} : K (loadOutput n j) := hK.read fun _ _ => rfl

theorem env : K (Prog.read fun e => some (e.env n i) : Edit SignalEnv) := hK.read fun _ _ => rfl

theorem frames : K (Prog.read fun e => some e.framesPerBuffer : Edit Nat) := hK.read fun _ _ => rfl

theorem setEnv (f : SignalEnv → SignalEnv) : K (setEnv n i f) := hK.modify fun _ _ => rfl

theorem setFinalNode (ptr : Option NodePtr) : K (setFinalNode ptr) := hK.modify fun _ _ => rfl

theorem checkInitialized : K checkInitialized :=
  hK.bind (hK.read fun _ _ => rfl) fun _ => hK.require

theorem checkVec (id : Int) {err : KsiError} : K (checkVec id err) :=
  hK.bind (hK.read fun _ _ => rfl) fun _ => hK.orError _

theorem checkDesPort (j : Int) {err : KsiError} : K (checkDesPort des j err) :=
  hK.bind hK.load fun _ => hK.bind hK.require fun _ => hK.read fun _ _ => rfl

theorem debug_check_node : K (debug_check_node n) :=
  hK.bind hK.load fun _ => hK.assert fun _ _ => Iff.rfl

theorem refreshMixing : K (refreshMixing n port flag) := by
  refine hK.bind hK.env fun env => ?_
  cases env.buffer with
  | some b => exact hK.setEnv _
  | none => exact hK.bind hK.frames fun _ => hK.bind (hK.malloc _) fun _ => hK.setEnv _

theorem refreshCopying : K (refreshCopying n port flag) := by
  refine hK.bind hK.loadInput fun input => of_ite (hK.pure ()) ?_
  match input.entries with
  | [] => exact hK.setEnv _
  | [me] =>
      refine of_ite (hK.bind hK.env fun _ =>
        hK.bind (hK.free _) fun _ => hK.bind (hK.setEnv _) fun _ => ?_)
        hK.refreshMixing
      cases me.src with
      | none => exact hK.pure ()
      | some src => exact hK.bind hK.loadOutput fun _ => hK.setEnv _
  | _ :: _ :: _ => exact hK.refreshMixing

theorem newOutputs : ∀ (types : List PortType) (i : Nat), K (newOutputs n flag i types) := by
  intro types
  induction types with
  | nil => exact fun _ => hK.pure ()
  | cons type rest ih =>
      exact fun i => hK.bind (of_ite (hK.malloc _) (hK.bind hK.frames fun _ => hK.malloc _))
        fun _ =>
        hK.bind (hK.modify fun _ _ => rfl) fun _ => ih _

theorem delete_src : K (delete_src des src flag i) :=
  hK.bind hK.loadInput fun _ => hK.bind (hK.update _) fun _ => hK.refreshCopying

theorem deleteSrcs : K (deleteSrcs des src flag) :=
  hK.bind hK.load fun _ => hK.forEach (fun _ => hK.delete_src) _

theorem link {k : Nat} : K (link src des k) :=
  hK.bind hK.load fun _ => of_ite (hK.pure ()) (hK.bind (hK.update _) fun _ => hK.update _)

theorem findBias (entries : List Entry) : K (findBias entries) := by
  induction entries with
  | nil => exact hK.pure false
  | cons me rest ih =>
      unfold Dag.findBias
      cases me.src with
      | none => exact hK.pure true
      | some src => exact hK.bind hK.debug_check_node fun _ => ih

theorem unwire (srcPort : Int) : ∀ (entries : List Entry) (foundEntries : Nat) (deleted : Bool),
    K (unwire src srcPort entries foundEntries deleted) := by
  intro entries
  induction entries with
  | nil => exact fun foundEntries deleted => hK.pure _
  | cons me rest ih =>
      intro foundEntries deleted
      unfold Dag.unwire
      refine of_ite (hK.bind hK.debug_check_node fun _ => of_ite ?_ (of_ite (hK.pure _) ?_)) ?_
      · exact of_ite (hK.pure _) (ih _ _)
      · exact hK.bind (ih _ _) fun _ => hK.pure _
      · exact hK.bind (ih _ _) fun _ => hK.pure _

theorem regPrecs : ∀ (entries : List Entry) (precs : List NodePtr), K (regPrecs entries precs) := by
  intro entries
  induction entries with
  | nil => exact fun precs => hK.pure precs
  | cons me rest ih =>
      intro precs
      unfold Dag.regPrecs
      cases me.src with
      | none => exact ih precs
      | some p =>
          exact hK.bind hK.debug_check_node fun _ => hK.bind hK.load fun _ =>
            of_ite (hK.bind (hK.update _) fun _ => ih _) (ih _)

theorem impl_delete_env : K (impl_delete_env n flag i) :=
  hK.bind hK.loadInput fun _ => of_ite (hK.pure ()) (hK.bind hK.env fun _ => hK.free _)

theorem impl_delete_output : K (impl_delete_output n flag i) :=
  hK.bind hK.loadOutput fun _ => hK.free _

/-! #### The kernels -/

theorem impl_ksiEngineAddNode (typeFlags : BitVec 32) : K (impl_ksiEngineAddNode typeFlags flag) :=
  hK.bind hK.checkInitialized fun _ => hK.bind (hK.read fun _ _ => rfl) fun _ =>
    hK.bind hK.require fun _ =>
    hK.bind (hK.orError _) fun _ => hK.bind (hK.newNode _) fun _ =>
      hK.bind (hK.when (hK.newOutputs _ _)) fun _ =>
      hK.bind (hK.when (hK.setFinalNode _)) fun _ => hK.bind (hK.insertNode _) fun _ =>
        hK.bind (hK.update _) fun _ => hK.pure _

theorem impl_ksiEngineMakeWire (srcId srcPort desId desPort : Int) (gain : KsiData) :
    K (impl_ksiEngineMakeWire srcId srcPort desId desPort gain flag) := by
  refine hK.bind hK.checkInitialized fun _ => hK.bind (hK.checkVec _) fun src =>
    hK.bind (hK.checkVec _) fun des =>
    hK.bind hK.load fun srcNode =>
      hK.bind hK.require fun _ => hK.bind (hK.checkDesPort _) fun desType =>
      hK.bind (hK.read fun _ _ => rfl) fun srcType =>
        hK.bind hK.require fun _ => hK.bind hK.link fun _ =>
        hK.bind hK.loadInput fun input => ?_
  refine of_ite (hK.bind hK.require fun _ => hK.update _) (of_ite ?_ ?_)
  · exact hK.bind hK.debug_check_node fun _ => hK.bind (hK.update _) fun _ => hK.refreshCopying
  · exact hK.bind (hK.update _) fun _ => hK.refreshCopying

theorem impl_ksiEngineMakeBias (desId desPort : Int) (bias : KsiData) :
    K (impl_ksiEngineMakeBias desId desPort bias flag) :=
  hK.bind hK.checkInitialized fun _ => hK.bind (hK.checkVec _) fun _ =>
    hK.bind (hK.checkDesPort _) fun _ =>
    hK.bind hK.require fun _ => hK.bind hK.loadInput fun _ => hK.bind (hK.findBias _) fun _ =>
      hK.bind (hK.update _) fun _ => hK.refreshCopying

theorem impl_ksiEngineDetachNodes (srcId desId : Int) :
    K (impl_ksiEngineDetachNodes srcId desId flag) :=
  hK.bind hK.checkInitialized fun _ => hK.bind (hK.checkVec _) fun _ =>
    hK.bind (hK.checkVec _) fun _ =>
    hK.bind (hK.update _) fun _ => hK.bind hK.deleteSrcs fun _ => hK.update _

theorem impl_ksiEngineRemoveNode (id : Int) : K (impl_ksiEngineRemoveNode id flag) :=
  hK.bind hK.checkInitialized fun _ => hK.bind (hK.checkVec _) fun _ =>
    hK.bind (hK.modify fun _ _ => rfl) fun _ =>
    hK.bind hK.load fun _ => hK.bind (hK.forEach (fun _ => hK.bind (hK.read fun _ _ => rfl) fun _ =>
      hK.bind (hK.update _) fun _ => hK.deleteSrcs) _) fun _ =>
        hK.bind hK.load fun _ => hK.bind (hK.regPrecs _ _)
        fun _ => hK.bind (hK.forEach (fun _ => hK.bind (hK.update _) fun _ => hK.update _) _)
          fun _ =>
          hK.bind hK.load fun _ => hK.bind (hK.when (hK.setFinalNode _)) fun _ => hK.pure _

theorem impl_ksiEngineRemoveWire (srcId srcPort desId desPort : Int) :
    K (impl_ksiEngineRemoveWire srcId srcPort desId desPort flag) :=
  hK.bind hK.checkInitialized fun _ => hK.bind (hK.checkVec _) fun _ =>
    hK.bind (hK.checkVec _) fun _ =>
    hK.bind hK.load fun _ => hK.bind hK.require fun _ => hK.bind (hK.checkDesPort _) fun _ =>
      hK.bind hK.loadInput fun _ => hK.bind (hK.unwire _ _ _ _) fun _ =>
        hK.bind (hK.update _) fun _ =>
        hK.bind (hK.when (hK.bind hK.load fun _ => hK.bind (hK.update _) fun _ => hK.update _))
          fun _ =>
          of_ite hK.refreshCopying (hK.error _)

theorem ksiEngineDestroyNode : K (ksiEngineDestroyNode n flag) :=
  hK.bind hK.load fun _ => hK.bind (hK.forEach (fun _ => hK.impl_delete_env) _) fun _ =>
    hK.bind (hK.when (hK.forEach (fun _ => hK.impl_delete_output) _)) fun _ =>
      hK.modify fun _ _ => rfl

theorem ksiBuiltinNodeFuncIdEditCmd (args : String) :
    K (ksiBuiltinNodeFuncIdEditCmd n args flag) := by
  refine hK.bind (hK.orError _) fun _ =>
    hK.bind hK.require fun _ => hK.bind hK.load fun _ => hK.bind ?_ fun _ => ?_
  · exact hK.bind hK.load fun _ => hK.bind (hK.assert fun _ _ => Iff.rfl) fun _ =>
      hK.bind (hK.assert fun _ _ => Iff.rfl) fun _ => hK.bind (hK.update _) fun _ =>
        hK.bind (hK.forEach (fun _ => hK.impl_delete_env) _) fun _ => hK.bind (hK.update _) fun _ =>
          hK.forEach (fun _ => hK.setEnv _) _
  · exact hK.bind hK.load fun _ => hK.bind (hK.assert fun _ _ => Iff.rfl) fun _ =>
      hK.bind (hK.assert fun _ _ => Iff.rfl) fun _ => hK.bind (hK.update _) fun _ =>
        hK.bind (hK.when (hK.forEach (fun _ => hK.impl_delete_output) _)) fun _ =>
          hK.bind (hK.update _) fun _ =>
          hK.when (hK.newOutputs _ _)

theorem impl_ksiEngineSendEditingCommand (id : Int) (args : String) :
    K (impl_ksiEngineSendEditingCommand id args flag) := by
  refine hK.bind hK.checkInitialized fun _ => hK.bind (hK.checkVec _) fun n =>
    hK.bind hK.load fun node => ?_
  split
  · exact hK.ksiBuiltinNodeFuncIdEditCmd args
  · unfold kscarletMidiSegEditCmd
    split
    · exact hK.bind (hK.orError _) fun _ => hK.bind (hK.read fun _ _ => rfl) fun _ =>
        hK.bind (hK.orError _) fun _ => hK.pure ()
    · exact hK.pure ()
    · exact hK.pure ()
    · exact hK.error _
  all_goals first | exact hK.error _ | exact hK.pure ()

/-- **What the steps that touch the queues have, the kernels have.** -/
theorem kernel (c : Call) : K (c.kernel flag) := by
  cases c with
  | addNode typeFlags => exact hK.bind (hK.impl_ksiEngineAddNode _) fun _ => hK.pure _
  | makeWire srcId srcPort desId desPort gain =>
      exact hK.bind (hK.impl_ksiEngineMakeWire _ _ _ _ _) fun _ => hK.pure _
  | makeBias desId desPort bias =>
      exact hK.bind (hK.impl_ksiEngineMakeBias _ _ _) fun _ => hK.pure _
  | detachNodes srcId desId => exact hK.bind (hK.impl_ksiEngineDetachNodes _ _) fun _ => hK.pure _
  | removeNode id =>
      exact hK.bind (hK.impl_ksiEngineRemoveNode _) fun _ =>
        hK.bind hK.ksiEngineDestroyNode fun _ => hK.pure _
  | removeWire srcId srcPort desId desPort =>
      exact hK.bind (hK.impl_ksiEngineRemoveWire _ _ _ _) fun _ => hK.pure _
  | sendEditingCommand id args =>
      exact hK.bind (hK.impl_ksiEngineSendEditingCommand _ _) fun _ => hK.pure _

end QueueWalks

/-! ### Editing -/

/-- One more buffer has been allocated. -/
def Queues.alloc (q : Queues) : Queues :=
  { q with nextBuf := q.nextBuf + 1, mallocBufs := q.mallocBufs ++ [q.nextBuf] }

/-- A buffer is queued to be freed. -/
def Queues.release (q : Queues) (b : BufPtr) : Queues := { q with freeBufs := q.freeBufs ++ [b] }

/-- `g` does not notice that something is appended to the queues. -/
structure Appends (g : Queues → Queues) : Prop where
  nextBuf : ∀ q, (g q).nextBuf = q.nextBuf
  malloc : ∀ q, g q.alloc = (g q).alloc
  free : ∀ q b, g (q.release b) = (g q).release b

theorem malloc_editing (size : Nat) (s : Engine) : ksiMVCCMonitoredMalloc size .editing s =
    if size = 0 then some (.ok none, s) else some (.ok (some s.nextBuf), s.alloc) := rfl

/-- **An edit does not look at what has been queued.** -/
theorem Appends.commutes {g : Queues → Queues} (hg : Appends g) :
    QueueWalks .editing fun {α} (x : Edit α) =>
    Commutes (fun s => s.withQueues (g s.queues)) x where
  pure := .pure
  error := .error
  bind := .bind
  read := fun hf => .read fun s => hf s _
  assert := fun hc => .assert fun s => hc s _
  modify := by
    intro f hf
    refine .modify fun s => ?_
    rw [hf, hf.queues]
  malloc := by
    intro size s
    rw [malloc_editing, malloc_editing]
    split
    · rfl
    · show some (Except.ok (some (g s.queues).nextBuf), s.withQueues (g s.queues).alloc) =
        some (Except.ok (some s.nextBuf), s.withQueues (g s.queues.alloc))
      rw [hg.malloc, hg.nextBuf]
      rfl
  free := by
    intro ptr s
    cases ptr with
    | none => rfl
    | some b =>
        show some (Except.ok (), s.withQueues ((g s.queues).release b)) =
          some (Except.ok (), s.withQueues (g (s.queues.release b)))
        rw [hg.free]
  newNode := fun _ _ => rfl
  insertNode := fun _ _ => rfl

/-- What has been allocated since is queued, and nothing has been freed. -/
structure Queued (s s' : Engine) : Prop where
  le : s.nextBuf ≤ s'.nextBuf
  mallocBufs : s'.mallocBufs = s.mallocBufs ++ List.range' s.nextBuf (s'.nextBuf - s.nextBuf)
  freed : s'.freed = s.freed

theorem Queued.of_eq (hmalloc : s'.mallocBufs = s.mallocBufs) (hnext : s'.nextBuf = s.nextBuf)
    (hfreed : s'.freed = s.freed) : Queued s s' := by
  refine ⟨Nat.le_of_eq hnext.symm, ?_, hfreed⟩
  rw [hmalloc, hnext, Nat.sub_self, List.range'_zero, List.append_nil]

theorem Queued.trans {s'' : Engine} (h : Queued s s') (h' : Queued s' s'') : Queued s s'' := by
  obtain ⟨k, hk⟩ := Nat.exists_eq_add_of_le h.le
  obtain ⟨k', hk'⟩ := Nat.exists_eq_add_of_le h'.le
  refine ⟨Nat.le_trans h.le h'.le, ?_, h'.freed.trans h.freed⟩
  rw [h'.mallocBufs, h.mallocBufs, hk', hk, List.append_assoc, Nat.add_sub_cancel_left,
    Nat.add_sub_cancel_left, Nat.add_assoc s.nextBuf, Nat.add_sub_cancel_left, List.range'_append_1]

theorem queued_walks : QueueWalks .editing fun {α} (x : Edit α) => Within Queued x := by
  have hK := within_compositional (ε := KsiError) (P := fun _ => True) (r := Queued)
    (fun _ => .of_eq rfl rfl rfl)
    fun _ _ _ => .trans
  constructor
  case pure => exact hK.pure
  case error => exact fun e => hK.error e trivial
  case bind => exact hK.bind
  case read => exact fun _ => hK.read _
  case assert => exact fun _ => hK.assert _
  case modify =>
    intro f hf
    refine .modify fun s => ?_
    have hq := hf.queues s
    exact .of_eq (congrArg Queues.mallocBufs hq) (congrArg Queues.nextBuf hq)
      (congrArg Queues.freed hq)
  case malloc =>
    intro size s
    rw [wp_malloc]
    refine ⟨fun _ => .of_eq rfl rfl rfl, fun _ => ⟨Nat.le_succ _, ?_, rfl⟩⟩
    show s.mallocBufs ++ [s.nextBuf] = s.mallocBufs ++ List.range' s.nextBuf
      (s.nextBuf + 1 - s.nextBuf)
    rw [Nat.add_sub_cancel_left, List.range'_one]
  case free =>
    intro ptr s
    rw [wp_free]
    exact .of_eq rfl rfl rfl
  case newNode => exact fun _ _ => .of_eq rfl rfl rfl
  case insertNode => exact fun _ _ => .of_eq rfl rfl rfl

/-! ### Committing -/

/-- The buffers that have been freed or wait to be, and how many have been allocated. -/
def Engine.spent (s : Engine) : List BufPtr × BufPtr := (s.freed ++ s.freeBufs, s.nextBuf)

/-- **A replay allocates nothing**, and frees what the queue has, in its order. -/
theorem spent_walks (x₀ : List BufPtr × BufPtr) :
    QueueWalks .committing fun {α} (x : Edit α) => Keeps (fun s => s.spent = x₀) x := by
  have hK := keeps_compositional (σ := Engine) (ε := KsiError) (P := fun _ => True)
    fun s => s.spent = x₀
  constructor
  case pure => exact hK.pure
  case error => exact fun e => hK.error e trivial
  case bind => exact hK.bind
  case read => exact fun _ => hK.read _
  case assert => exact fun _ => hK.assert _
  case modify =>
    intro f hf
    refine .modify fun s hs => ?_
    have hq := hf.queues s
    have hspent : (f s).spent = s.spent :=
      congrArg (fun q : Queues => (q.freed ++ q.freeBufs, q.nextBuf)) hq
    rw [hspent, hs]
  case malloc =>
    intro size s hs
    unfold wp ksiMVCCMonitoredMalloc
    split
    all_goals grind [Engine.spent]
  case free =>
    intro ptr s hs
    unfold wp ksiMVCCDeferredFree
    grind [Engine.spent]
  case newNode => exact fun _ _ hs => hs
  case insertNode => exact fun _ _ hs => hs

end Ksi.Dag

/-
The buffers over whole runs.

The two versions share their buffers, and a buffer outlives the edit that gives it up: the
version that is played still has it, and it is freed when the replay gives it up there.
Each version has books of its own.  In the edited one a buffer that has been allocated is
in a place, or queued in `freeBufs`, or freed; in the other one it is still queued in
`mallocBufs`, or in a place, or freed.  A commit empties both queues, and the versions
exchange their books.

So nothing is freed twice, and nothing is freed that a place of either version has.
-/
import Ksi.Proofs.Dag.Agreement

namespace Ksi.Dag

open Prog Relator Runs

variable {π : NodePtr → NodePtr → Prop} {good : NodePtr → Prop} {e e' c : Engine} {v v' : Versions}
  {pl : Place} {b : BufPtr}

/-! ### Books -/

/-- The engine on the version that is not edited. -/
def Versions.played (v : Versions) : Engine := { v.session.engine with toVersion := v.other }

/-- **Each buffer is accounted for in both versions.** -/
structure Lifetimes (v : Versions) : Prop where
  edited : Ledger v.session.engine.Owns (v.session.engine.freed ++ v.session.engine.freeBufs)
    v.session.engine.nextBuf
  played : Ledger v.played.Owns (v.session.engine.freed ++ v.session.engine.mallocBufs)
    v.session.engine.nextBuf
  queued : ∃ taken, taken ++ v.session.engine.mallocBufs = List.range v.session.engine.nextBuf

theorem owns_of_version (h : c.toVersion = e.toVersion) : c.Owns pl b ↔ e.Owns pl b := by
  have hgraph : c.graph = e.graph := congrArg Version.graph h
  have henv : c.env = e.env := congrArg Version.env h
  have houtput : c.outputBuffer = e.outputBuffer := congrArg Version.outputBuffer h
  cases pl with
  | input n i => simp only [Engine.Owns, hgraph, henv]
  | output n i => simp only [Engine.Owns, hgraph, houtput]

theorem Lifetimes.init (framesPerBuffer : Nat) : Lifetimes (Versions.init framesPerBuffer) := by
  have hempty := (Balanced.init framesPerBuffer).ledger.congr fun pl b =>
    (and_iff_left not_false).symm
  exact ⟨hempty, hempty, [], rfl⟩

/-- A change that concerns neither version and no queue. -/
theorem Lifetimes.aside (h : Lifetimes v) (hversion : e.toVersion = v.session.engine.toVersion)
    (hqueues : e.queues = v.session.engine.queues) :
      Lifetimes { v with session := { v.session with engine := e } } := by
  obtain ⟨hmalloc, hfree, hnext, hfreed⟩ := Queues.mk.inj hqueues
  refine ⟨?_, ?_, ?_⟩
  · show Ledger e.Owns (e.freed ++ e.freeBufs) e.nextBuf
    rw [hfreed, hfree, hnext]
    exact h.edited.congr fun _ _ => owns_of_version hversion
  · show Ledger (Versions.played _).Owns (e.freed ++ e.mallocBufs) e.nextBuf
    rw [hfreed, hmalloc, hnext]
    exact h.played.congr fun _ _ => owns_of_version rfl
  · show ∃ taken, taken ++ e.mallocBufs = List.range e.nextBuf
    rw [hmalloc, hnext]
    exact h.queued

/-! ### An edit -/

/-- The queues as if nothing had been taken from them since the start. -/
def Queues.whole (taken : List BufPtr) (q : Queues) : Queues :=
  { q with mallocBufs := taken ++ q.mallocBufs, freeBufs := q.freed ++ q.freeBufs }

theorem whole_appends (taken : List BufPtr) : Appends (Queues.whole taken) where
  nextBuf := fun _ => rfl
  malloc := fun _ => congrArg (fun l => Queues.mk l _ _ _) (List.append_assoc ..).symm
  free := fun _ _ => congrArg (fun l => Queues.mk _ l _ _) (List.append_assoc ..).symm

/-- The engine as if it had never been committed. -/
def Engine.whole (taken : List BufPtr) (e : Engine) : Engine := e.withQueues (e.queues.whole taken)

theorem whole_balanced {taken : List BufPtr} :
    Balanced (e.whole taken) ↔ Ledger e.Owns (e.freed ++ e.freeBufs) e.nextBuf ∧
    taken ++ e.mallocBufs = List.range e.nextBuf ∧ ∀ p node, e.graph.heap p = some node →
    p < e.graph.nextNode := by
  have howns : ∀ pl b, (e.whole taken).Owns pl b ∧ ¬ False ↔ e.Owns pl b := fun pl b =>
    (and_iff_left not_false).trans (owns_of_version rfl)
  exact ⟨fun h => ⟨h.ledger.congr fun pl b => (howns pl b).symm, h.queued, h.fresh⟩,
    fun ⟨hledger, hqueued, hfresh⟩ => ⟨hledger.congr howns, hqueued, hfresh⟩⟩

/-- **An edit keeps the books of both versions.** -/
theorem Lifetimes.call (h : Lifetimes v) (hsound : Sound v.session.engine.graph) {call : Call}
    {r : Except KsiError (Option Nat)} (hcall : call.kernel .editing v.session.engine = some (r, e))
    (cmds : List Call) : Lifetimes { v with session := { engine := e, syncCmds := cmds } } := by
  obtain ⟨taken, htaken⟩ := h.queued
  have hbalanced : Balanced (v.session.engine.whole taken) :=
    whole_balanced.mpr ⟨h.edited, htaken, hsound.registered.fresh⟩
  have hkeeps := ((whole_appends taken).commutes.kernel call).keeps (Balanced.call call)
  obtain ⟨hedited, hqueued, -⟩ := whole_balanced.mp (hkeeps.result hbalanced hcall)
  refine ⟨hedited, ?_, taken, hqueued⟩
  -- the other version has not changed, and what is new is queued for it
  have hsince : Queued v.session.engine e := by
    cases r with
    | ok a => exact of_wp_ok (queued_walks.kernel call _) hcall
    | error err => exact of_wp_error (queued_walks.kernel call _) hcall
  obtain ⟨k, hk⟩ := Nat.exists_eq_add_of_le hsince.le
  have hplayed := h.played.extend k
  show Ledger (Versions.played _).Owns (e.freed ++ e.mallocBufs) e.nextBuf
  rw [hsince.freed, hsince.mallocBufs, hk, Nat.add_sub_cancel_left, ← List.append_assoc]
  exact hplayed.congr fun _ _ => owns_of_version rfl

/-! ### A commit -/

/-- The places that go together. -/
inductive SamePlace (π : NodePtr → NodePtr → Prop) : Place → Place → Prop
  | input {p q : NodePtr} (i : Nat) (h : π p q) : SamePlace π (.input p i) (.input q i)
  | output {p q : NodePtr} (i : Nat) (h : π p q) : SamePlace π (.output p i) (.output q i)

theorem SamePlace.unique (hπ : BiUnique π) {pl' pl'' : Place} (h : SamePlace π pl pl')
    (h' : SamePlace π pl pl'') : pl' = pl'' := by
  cases h with
  | input i hpq =>
      cases h' with
      | input _ hpq' => rw [hπ.2 hpq hpq']
  | output i hpq =>
      cases h' with
      | output _ hpq' => rw [hπ.2 hpq hpq']

theorem SamePlace.flip {pl' : Place} (h : SamePlace (flip π) pl pl') : SamePlace π pl' pl := by
  cases h with
  | input i hpq => exact .input i hpq
  | output i hpq => exact .output i hpq

/-- What a place has, a place of the other version has that goes with it. -/
theorem Paired.owns (h : Steady π good e c) (htotal : BiTotal π) (howns : e.Owns pl b) :
    ∃ pl', SamePlace π pl pl' ∧ c.Owns pl' b := by
  cases pl with
  | input p i =>
      obtain ⟨node, hnode, hsignal, hb⟩ := howns
      obtain ⟨q, hpq⟩ := htotal.1 p
      obtain ⟨node', hnode', hsame⟩ := rel_some (h.heap p q hpq) hnode
      exact ⟨.input q i, .input i hpq, node', hnode', (shape_hasSignal hsame.shape).mpr hsignal, by
        rw [h.env p q node i hpq hnode hsignal id, hb]⟩
  | output p i =>
      obtain ⟨node, hnode, hnormal, hi, hb⟩ := howns
      obtain ⟨q, hpq⟩ := htotal.1 p
      obtain ⟨node', hnode', hsame⟩ := rel_some (h.heap p q hpq) hnode
      refine ⟨.output q i, .output i hpq, node', hnode', ?_, ?_, ?_⟩
      · rw [shape_isNormal hsame.shape, hnormal]
      · rwa [shape_outputs hsame.shape]
      · rw [h.output p q node i hpq hnode hnormal hi id, hb]

/-- Versions that agree have the same books. -/
theorem Paired.ledger {back : List BufPtr} {next : BufPtr} (h : Fitted π e c)
    (hback : Fitted (flip π) c e) (hπ : BiUnique π) (htotal : BiTotal π)
    (hledger : Ledger e.Owns back next) : Ledger c.Owns back next := by
  refine hledger.relabel (ρ := SamePlace π) (fun _ _ _ => SamePlace.unique hπ)
    (fun _ _ => h.owns htotal) fun _ _ howns => ?_
  obtain ⟨pl, hsame, hpl⟩ := hback.owns ⟨htotal.2, htotal.1⟩ howns
  exact ⟨pl, hsame.flip, hpl⟩

/-- **A commit exchanges the books**: what was queued to be freed has been. -/
theorem Lifetimes.commit (h : Lifetimes v) (hv : Followed π v)
    (hplaying : v.session.engine.playing ≠ -2)
    {rs : List (KsiError × Option Nat)}
    (hcommit : ksiMVCCCommitter v.session v.other = some (rs, { engine := e, syncCmds := [] }))
    (hlog : e.log = 1)
    (hfixed : Fixed v.session.engine e) (hfit : Fitted π v.session.engine e) :
    Lifetimes
      { session := { engine := e, syncCmds := [] }, other := v.session.engine.toVersion } := by
  obtain ⟨⟨rs', d⟩, hloop, heq⟩ := Option.map_eq_some_iff.mp hcommit
  have hd : d = e := congrArg (fun r => r.2.engine) heq
  rw [hd] at hloop
  have hspent : e.spent = v.session.engine.spent :=
    commitLoop_keeps (fun call => (spent_walks v.session.engine.spent).kernel call) _ hloop rfl
  obtain ⟨hmalloc, hfree⟩ : e.mallocBufs = [] ∧ e.freeBufs = [] := Prod.mk.inj hlog
  obtain ⟨hfreed, hnext⟩ := Prod.mk.inj hspent
  have hback : Fitted (flip π) e v.session.engine :=
    hfit.symm hv.unique hv.total hplaying fun i n hn => by rwa [hfixed.timeseqResources] at hn
  have hledger : Ledger v.session.engine.Owns (e.freed ++ e.freeBufs) e.nextBuf := by
    rw [hfreed, hnext]
    exact h.edited
  refine ⟨hfit.ledger hback hv.unique hv.total hledger, ?_, List.range e.nextBuf, ?_⟩
  · show Ledger (Versions.played _).Owns (e.freed ++ e.mallocBufs) e.nextBuf
    rw [hfree] at hledger
    rw [hmalloc]
    exact hledger.congr fun _ _ => owns_of_version rfl
  · show List.range e.nextBuf ++ e.mallocBufs = List.range e.nextBuf
    rw [hmalloc, List.append_nil]

/-! ### Every run -/

theorem Lifetimes.step (h : Lifetimes v) (hv : Followed π v) {a : Action} (ha : Replayable v a)
    (hs : v.step a = some v') : Lifetimes v' := by
  cases a with
  | command cmd =>
      cases cmd with
      | call call =>
          obtain ⟨⟨r, session⟩, hr, rfl⟩ := Option.map_eq_some_iff.mp hs
          unfold Session.call at hr
          split at hr
          · cases hr
          · rename_i err e hkernel
            cases hr
            exact h.call hv.sound hkernel v.session.syncCmds
          · rename_i id e hkernel
            cases hr
            exact h.call hv.sound hkernel _
      | getInputType id port =>
          obtain ⟨e, rfl, rfl⟩ := onEngine_within (getInputType_within id port) hs
          exact h
      | unloadTimeSeq id =>
          obtain ⟨e, hside, rfl⟩ := onEngine_within (unload_aside id) hs
          exact h.aside hside.version hside.queues
  | loadTimeSeq n =>
      obtain ⟨e, ⟨hside, -⟩, rfl⟩ := onEngine_within (load_aside n) hs
      exact h.aside hside.version hside.queues
  | setPlaying playing =>
      cases hs
      exact h.aside rfl rfl
  | commit =>
      obtain ⟨⟨session, other⟩, hr, rfl⟩ := Option.map_eq_some_iff.mp hs
      unfold ksiEngineCommit at hr
      split at hr
      · cases hr
        exact h
      · rename_i hready
        obtain ⟨hplaying, -⟩ := not_or.mp hready
        obtain ⟨rs, e, hcommit, -, hlog, hfixed, -, hfit⟩ := hv.commit hplaying
        rw [hcommit] at hr
        cases hr
        exact h.commit hv hplaying hcommit hlog hfixed hfit

theorem lifetimes_of_reaches {framesPerBuffer : Nat}
    (h : Reaches Versions.step Replayable (Versions.init framesPerBuffer) v) : (∃ π, Followed π v) ∧
    Lifetimes v :=
  h.invariant (fun v => (∃ π, Followed π v) ∧ Lifetimes v)
    ⟨⟨Eq, .init framesPerBuffer⟩, .init framesPerBuffer⟩
    fun _ _ _ ⟨⟨_, hv⟩, h⟩ ha hs => ⟨hv.step ha hs, h.step hv ha hs⟩

/-- **Nothing is lost and nothing is freed twice.**  In every state of a run of edits that are
all `Replayable`, each buffer that has been allocated is in one place of the edited version, or
waits once in `freeBufs`, or has been freed once; and in one place of the other version, or
waits once in `mallocBufs`, or has been freed once.  So no place of either version has a freed
buffer. -/
theorem ledgers_of_reaches {framesPerBuffer : Nat}
    (h : Reaches Versions.step Replayable (Versions.init framesPerBuffer) v) :
    Ledger v.session.engine.Owns (v.session.engine.freed ++ v.session.engine.freeBufs)
      v.session.engine.nextBuf ∧
      Ledger v.played.Owns (v.session.engine.freed ++ v.session.engine.mallocBufs)
        v.session.engine.nextBuf ∧
      ∀ b ∈ v.session.engine.freed, ∀ pl, ¬ v.session.engine.Owns pl b ∧ ¬ v.played.Owns pl b := by
  obtain ⟨-, hv⟩ := lifetimes_of_reaches h
  refine ⟨hv.edited, hv.played, fun b hb pl => ⟨fun howns => ?_, fun howns => ?_⟩⟩
  · exact hv.edited.apart pl b howns (List.mem_append_left _ hb)
  · exact hv.played.apart pl b howns (List.mem_append_left _ hb)

theorem ledgers_editRun : ∃ v : Versions, v.session.engine.mallocBufs = [3] ∧
    v.session.engine.freeBufs = [2, 0] ∧
    Ledger v.session.engine.Owns (v.session.engine.freed ++ v.session.engine.freeBufs)
      v.session.engine.nextBuf ∧
    Ledger v.played.Owns (v.session.engine.freed ++ v.session.engine.mallocBufs)
      v.session.engine.nextBuf ∧
    ∀ b ∈ v.session.engine.freed, ∀ pl, ¬ v.session.engine.Owns pl b ∧ ¬ v.played.Owns pl b := by
  obtain ⟨v, hreach, -, -, hmalloc, hfree⟩ := run_editRun
  exact ⟨v, hmalloc, hfree, ledgers_of_reaches hreach⟩

end Ksi.Dag

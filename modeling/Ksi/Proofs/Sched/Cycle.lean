/-
One cycle of the scheduler.

Read off from `CycleInv`: a node whose run has begun is no longer waiting, so all
its predecessors have counted it off and are past their own run.  For the final
state the argument goes the other way: with no task queued and no worker busy a
node is either done or waiting, a waiting node has a predecessor that has not
counted it off, and that one can only be waiting too.  In an acyclic graph such a
chain has no beginning.
-/
import Ksi.Proofs.Sched.Invariant

namespace Ksi.Sched

open Runs Relation

variable {W : Type} [DecidableEq W] {G : Graph} {k : Nat} {st : Nat → Stage W} {src : W → Nat}
  {s : State W}

/-! ### The beginning of a cycle -/

/-- At the head of the dispatch loop everything waits. -/
theorem CycleInv.begin (src : W → Nat) (hcallback : s.callback = .continue G.nodes)
    (hqueue : s.queue = []) (hidle : ∀ w, s.worker w = .idle) (hsem : s.masterSem = 0)
    (hnode : ∀ n ∈ G.nodes, s.depCounter n = 0 ∧ s.started n = k ∧ s.finished n = k)
    (hposted : s.posted = k) : CycleInv G k (fun _ => .waiting) src s := by
  have hrest : s.callback.rest = G.nodes := by rw [hcallback, CallbackPc.rest_continue]
  have hret : s.callback.isReturned = false := by rw [hcallback, CallbackPc.isReturned_continue]
  have hnone : ∀ n, arrived G G.successors n = 0 := by
    intro n
    refine List.countP_eq_zero.mpr fun p hp => ?_
    have hedge := Graph.mem_preds.mp hp
    simp [hedge.2]
  have hleft : left G (fun _ => Stage.waiting) s.worker = G.successors := rfl
  constructor
  case owned =>
    intro n w r
    cases r <;> simp [hidle]
  case queued => simp [hqueue]
  case live => simp
  case rest => exact fun p => List.suffix_rfl
  case dispatched => rw [hrest]
  case node =>
    intro n hn
    obtain ⟨hcounter, hstarted, hfinished⟩ := hnode n hn
    rw [hleft]
    constructor <;> simp_all [Nat.pos_iff_ne_zero]

/-! ### Predecessors -/

omit [DecidableEq W] in
/-- Who has not ended its run has counted nobody off. -/
theorem left_of_not_past {worker : W → WorkerPc} {p : Nat} (h : (st p).past = false) :
    left G st worker p = G.successors p := by
  unfold left
  split <;> grind

/-- The predecessors of a node that has stopped waiting have ended their runs. -/
theorem CycleInv.pred_past (h : CycleInv G k st src s) {p n : Nat} (hn : st n ≠ .waiting)
    (hedge : G.Edge p n) : (st p).past = true := by
  by_contra hp
  rw [Bool.not_eq_true] at hp
  refine (h.node n (h.live n hn)).complete hn p hedge ?_
  rw [left_of_not_past hp]
  exact hedge.2

/-- So have all its ancestors. -/
theorem CycleInv.ancestor_past (h : CycleInv G k st src s) {a n : Nat}
    (hpath : TransGen G.Edge a n) (hn : st n ≠ .waiting) : (st a).past = true := by
  induction hpath using TransGen.head_induction_on with
  | single hedge => exact h.pred_past hn hedge
  | head hedge _ ih =>
      refine h.pred_past ?_ hedge
      intro hwait
      simp [hwait] at ih

/-! ### No task queued, no worker busy -/

/-- Then a node is waiting or done. -/
theorem CycleInv.quiet_stage (h : CycleInv G k st src s) (hqueue : s.queue = [])
    (hidle : ∀ w, s.worker w = .idle) (n : Nat) : st n = .waiting ∨ st n = .done := by
  have hq := h.queued n
  cases hst : st n with
  | waiting => exact .inl rfl
  | done => exact .inr rfl
  | queued => simp [hst, hqueue] at hq
  | owned w r =>
      have := (h.owned n w r).mp hst
      cases r <;> simp [hidle] at this

/-- **In an acyclic graph they are all done.** -/
theorem CycleInv.quiet_done (hG : G.Coherent) (hac : Rel.Acyclic G.Edge)
    (h : CycleInv G k st src s) (hqueue : s.queue = []) (hidle : ∀ w, s.worker w = .idle)
    (hdispatched : s.callback.rest = []) : ∀ n ∈ G.nodes, st n = .done := by
  have hwf : WellFounded G.Edge := hac.wellFounded G.nodes fun _ _ hedge => hedge.1
  intro n
  induction n using hwf.induction with
  | _ n ih =>
      intro hn
      rcases h.quiet_stage hqueue hidle n with hwait | hdone
      · exfalso
        obtain ⟨hroot, -, hshort, -⟩ := h.node n hn
        have hdep : G.depNum n ≠ 0 := fun h0 => by
          simpa [hdispatched, hwait] using (hroot h0).mp hwait
        have hlt := hshort hwait hdep
        rw [hG.depNum n hn] at hlt
        have hall : ∀ p, G.Edge p n → n ∉ left G st s.worker p := by
          intro p hedge
          simp [left, ih p hedge hedge.1]
        exact absurd (arrived_eq_length.mpr hall) (Nat.ne_of_lt hlt)
      · exact hdone

/-! ### The result -/

/-- What one cycle has to do, as far as it has got in `s`. -/
structure CycleCorrect (G : Graph) (s : State W) : Prop where
  startedOnce : ∀ n ∈ G.nodes, s.started n ≤ 1
  afterPredecessors : ∀ p n, G.Edge p n → 0 < s.started n → s.finished p = 1
  postAfterAncestors : ∀ f, G.finalNode = some f → 0 < s.posted →
    ∀ a, TransGen G.Edge a f → s.finished a = 1
  complete : s.queue = [] → (∀ w, s.worker w = .idle) → s.callback.rest = [] →
    (∀ n ∈ G.nodes, s.started n = 1 ∧ s.finished n = 1 ∧ s.depCounter n = 0) ∧
      (G.finalNode ≠ none → s.posted = 1)

theorem CycleInv.correct (hG : G.Coherent) (hac : Rel.Acyclic G.Edge)
    (h : CycleInv G 0 st src s) : CycleCorrect G s := by
  have hfinished : ∀ p ∈ G.nodes, (st p).past = true → s.finished p = 1 := by
    intro p hp hpast
    rw [(h.node p hp).finished, if_pos hpast]
  constructor
  case startedOnce =>
    intro n hn
    rw [(h.node n hn).started]
    split <;> omega
  case afterPredecessors =>
    intro p n hedge hstarted
    have hn := hG.closed p hedge.1 n hedge.2
    have hst : st n ≠ .waiting := by
      intro hwait
      simp [(h.node n hn).started, hwait] at hstarted
    exact hfinished p hedge.1 (h.pred_past hst hedge)
  case postAfterAncestors =>
    intro f hf hposted a hpath
    have hfG := hG.finalNode f hf
    have hst : st f ≠ .waiting := by
      intro hwait
      simp [((h.node f hfG).final hf).1, hwait] at hposted
    have ha : a ∈ G.nodes := by
      obtain ⟨b, hab, -⟩ := TransGen.head'_iff.mp hpath
      exact hab.1
    exact hfinished a ha (h.ancestor_past hpath hst)
  case complete =>
    intro hqueue hidle hdispatched
    have hdone := h.quiet_done hG hac hqueue hidle hdispatched
    constructor
    · intro n hn
      obtain ⟨-, hcounter, -, -, hstarted, hfinished, -⟩ := h.node n hn
      simp_all
    · intro hne
      obtain ⟨f, hf⟩ := Option.ne_none_iff_exists'.mp hne
      have hfG := hG.finalNode f hf
      simp [((h.node f hfG).final hf).1, hdone f hfG]

/-- The head of the dispatch loop, every counter zero and no task queued.  The
callback gets there only if there is a final node; the loop itself does not look
at it. -/
def dispatching (G : Graph) (W : Type) : State W :=
  { init W with callback := .continue G.nodes, cycle := 1 }

/-- No further call of the callback. -/
def OneCycle (_ : State W) (l : Label W) : Prop := l ≠ .call

instance : DecidableRel (@OneCycle W) := fun _ l => inferInstanceAs (Decidable (l ≠ .call))

/-- **One cycle is scheduled correctly**, whatever the number of workers and the
order of their steps. -/
theorem cycleCorrect (hG : G.Coherent) (hac : Rel.Acyclic G.Edge) (hsink : G.FinalIsSink)
    (h : Reaches (step G) OneCycle (dispatching G W) s) : CycleCorrect G s := by
  obtain ⟨st, src, hinv⟩ := h.invariant (fun s => ∃ st src, CycleInv G 0 st src s)
    ⟨_, _, .begin (fun _ => 0) rfl rfl (fun _ => rfl) rfl (fun _ _ => ⟨rfl, rfl, rfl⟩) rfl⟩
    (fun s l s' ⟨st, src, hi⟩ hl hs => hi.step hG hsink hl hs)
  exact hinv.correct hG hac

/-- Two branches between a source and the final node. -/
def diamond : Graph where
  nodes := [0, 1, 2, 3]
  successors := fun n => [[1, 2], [3], [3], []].getD n []
  depNum := fun n => [0, 1, 1, 2].getD n 0
  output := fun n => if n = 3 then .final else .normal
  finalNode := some 3

theorem diamond_coherent : diamond.Coherent where
  nodup := by decide
  closed := by decide
  successors_nodup := by decide
  depNum := by decide
  final := by decide
  finalNode := by
    intro f hf
    cases hf
    decide

theorem diamond_acyclic : Rel.Acyclic diamond.Edge := by
  have hlt : ∀ a ∈ diamond.nodes, ∀ b ∈ diamond.successors a, a < b := by decide
  exact .of_rank id fun a b hab => hlt a hab.1 b hab.2

theorem diamond_finalIsSink : diamond.FinalIsSink := by
  intro f hf
  cases hf
  rfl

/-- Worker 0 runs 0 and 1, worker 1 runs 2 and 3. -/
def diamondRun : List (Label (Fin 2)) :=
  [.callback, .callback, .callback, .dequeue 0 0, .worker 0, .worker 0, .worker 0, .worker 0,
    .worker 0, .worker 0, .worker 0, .callback, .dequeue 1 2, .worker 1, .worker 0, .worker 1,
    .worker 0, .worker 0, .worker 1, .worker 1, .worker 1, .worker 1, .worker 1, .callback]

theorem cycleCorrect_diamond :
    ∃ s, Reaches (step diamond) OneCycle (dispatching diamond (Fin 2)) s ∧
    s.callback = .returned ∧ s.queue = [] ∧ (∀ w, s.worker w = .idle) ∧ CycleCorrect diamond s := by
  have hrun : ∃ s, runChecked (step diamond) OneCycle (dispatching diamond (Fin 2)) diamondRun =
      some s ∧ s.callback = .returned ∧ s.queue = [] ∧ ∀ w, s.worker w = .idle :=
    ⟨_, rfl, rfl, rfl, by decide⟩
  obtain ⟨s, hs, hcallback, hqueue, hidle⟩ := hrun
  have hreach := reaches_of_runChecked diamondRun hs
  exact ⟨s, hreach, hcallback, hqueue, hidle,
    cycleCorrect diamond_coherent diamond_acyclic diamond_finalIsSink hreach⟩

end Ksi.Sched

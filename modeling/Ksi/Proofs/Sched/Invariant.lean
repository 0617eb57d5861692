/-
What holds while a cycle is being worked off.

Every live node is at one stage of the cycle: still waiting for predecessors,
queued, in the hands of one worker in one role, or done.  The stages and the node
whose successor list a worker walks are not in the program's state (the loop
overwrites its node variable with the continuation), so the invariant quantifies
over them.

The counters are tied to the stages through `left`, the part of a node's successor
list not yet counted off.  While a node waits, its counter is the number of
predecessors that have counted it off; once it has stopped waiting, all of them
have.  That is all that is needed: a node in somebody's `left` is waiting, hence
not running, queued or done.
-/
import Ksi.Sched.Machine
import Mathlib.Data.List.Nodup
import Mathlib.Data.List.Perm.Basic

namespace Ksi.Sched

variable {W : Type} {G : Graph}

/-! ### Stages and roles -/

/-- What a worker has to do with a node in its hands. -/
inductive Role
  | held | running | walking | resetting | pushing | posting
  deriving DecidableEq, Repr

/-- How far a node has come in the current cycle. -/
inductive Stage (W : Type)
  | waiting | queued | owned (w : W) (r : Role) | done
  deriving DecidableEq, Repr

/-- The node's run has begun. -/
@[grind =]
def Stage.begun : Stage W → Bool
  | .waiting | .queued => false
  | .owned _ .held | .owned _ .resetting | .owned _ .pushing => false
  | .owned _ .running | .owned _ .walking | .owned _ .posting => true
  | .done => true

/-- The node's run has ended. -/
@[grind =]
def Stage.past : Stage W → Bool
  | .waiting | .queued => false
  | .owned _ .held | .owned _ .resetting | .owned _ .pushing | .owned _ .running => false
  | .owned _ .walking | .owned _ .posting => true
  | .done => true

/-- Nothing is left to do for the node. -/
@[grind =]
def Stage.isDone : Stage W → Bool
  | .waiting | .queued | .owned _ _ => false
  | .done => true

@[simp] theorem Stage.begun_waiting : (waiting : Stage W).begun = false := rfl
@[simp] theorem Stage.past_waiting : (waiting : Stage W).past = false := rfl
@[simp] theorem Stage.isDone_waiting : (waiting : Stage W).isDone = false := rfl
@[simp] theorem Stage.begun_done : (done : Stage W).begun = true := rfl
@[simp] theorem Stage.past_done : (done : Stage W).past = true := rfl
@[simp] theorem Stage.isDone_done : (done : Stage W).isDone = true := rfl

/-- The counter of a node, given how many predecessors have counted it off. -/
@[simp, grind =]
def Stage.counter (arrived depNum : Nat) : Stage W → Nat
  | .waiting => arrived
  | .owned _ r => if r = .resetting then depNum else 0
  | .queued | .done => 0

/-- The nodes the dispatch loop has still to look at. -/
@[grind =]
def CallbackPc.rest : CallbackPc → List Nat
  | .dispatch rest => rest
  | .idle | .wait | .returned => []

/-- `ksiSemWait` has returned. -/
@[grind =]
def CallbackPc.isReturned : CallbackPc → Bool
  | .returned => true
  | .idle | .dispatch _ | .wait => false

/-- The successors the worker has still to count off. -/
@[simp, grind =]
def WorkerPc.rest : WorkerPc → List Nat
  | .walk _ sn _ | .reset _ _ sn _ | .enqueue _ _ sn => sn
  | .idle | .ready _ | .running _ | .post => []

/-- The worker has this node in hand, to run it next. -/
@[simp, grind =]
def WorkerPc.held : WorkerPc → Option Nat
  | .ready n | .enqueue n _ _ => some n
  | .walk n _ found | .reset n _ _ found => if found then some n else none
  | .idle | .running _ | .post => none

/-- The worker is in the successor loop. -/
@[simp, grind =]
def WorkerPc.inLoop : WorkerPc → Bool
  | .walk .. | .reset .. | .enqueue .. => true
  | .idle | .ready _ | .running _ | .post => false

/-- The worker at `pc` has `n` in this role; `src` is the node whose run it has ended
and whose list or post it is at. -/
@[simp, grind =]
def Plays (src : Nat) (pc : WorkerPc) (n : Nat) : Role → Prop
  | .held => pc.held = some n
  | .running => pc = .running n
  | .walking => pc.inLoop = true ∧ n = src
  | .resetting => ∃ m sn found, pc = .reset m n sn found
  | .pushing => ∃ m sn, pc = .enqueue m n sn
  | .posting => pc = .post ∧ n = src

/-- The successors of `p` that have not been counted off. -/
@[grind =]
def left (G : Graph) (st : Nat → Stage W) (worker : W → WorkerPc) (p : Nat) : List Nat :=
  match st p with
  | .waiting | .queued => G.successors p
  | .owned w r =>
      if r = .walking then (worker w).rest else if r = .posting then [] else G.successors p
  | .done => []

/-- How many predecessors have counted `n` off. -/
def arrived (G : Graph) (L : Nat → List Nat) (n : Nat) : Nat :=
  (G.preds n).countP fun p => n ∉ L p

/-- What the state says of a live node `n` at stage `x`, in a cycle that follows
`k` complete ones.  `L` are the lists not yet counted off. -/
structure NodeOk (G : Graph) (k : Nat) (L : Nat → List Nat) (s : State W) (n : Nat)
    (x : Stage W) : Prop where
  root : G.depNum n = 0 → (x = .waiting ↔ n ∈ s.callback.rest)
  /-- a counter is between 0 and `depNum` only while its node waits -/
  counter : s.depCounter n = x.counter (arrived G L n) (G.depNum n)
  short : x = .waiting → G.depNum n ≠ 0 → arrived G L n < G.depNum n
  complete : x ≠ .waiting → ∀ p, G.Edge p n → n ∉ L p
  started : s.started n = k + if x.begun then 1 else 0
  finished : s.finished n = k + if x.past then 1 else 0
  walking : G.finalNode = some n → ∀ w, x ≠ .owned w .walking
  posting : ∀ w, x = .owned w .posting → G.finalNode = some n
  final : G.finalNode = some n → s.posted = (k + if x.isDone then 1 else 0) ∧
    (s.masterSem + if s.callback.isReturned then 1 else 0) = if x.isDone then 1 else 0

/-- The invariant of a cycle that follows `k` complete ones. -/
structure CycleInv [DecidableEq W] (G : Graph) (k : Nat) (st : Nat → Stage W) (src : W → Nat)
    (s : State W) : Prop where
  owned : ∀ n w r, st n = .owned w r ↔ Plays (src w) (s.worker w) n r
  queued : ∀ n, s.queue.count n = if st n = .queued then 1 else 0
  live : ∀ n, st n ≠ .waiting → n ∈ G.nodes
  rest : ∀ p, left G st s.worker p <:+ G.successors p
  dispatched : s.callback.rest <:+ G.nodes
  node : ∀ n ∈ G.nodes, NodeOk G k (left G st s.worker) s n (st n)

/-! ### Counting -/

/-- A count goes up by one when one element starts to count. -/
theorem countP_add_one {l : List Nat} {a : Nat} {P Q : Nat → Bool} (hl : l.Nodup) (ha : a ∈ l)
    (hother : ∀ x ∈ l, x ≠ a → P x = Q x) (hP : P a = false) (hQ : Q a = true) :
    l.countP Q = l.countP P + 1 := by
  have hperm := List.perm_cons_erase ha
  have hrest : (l.erase a).countP Q = (l.erase a).countP P := by
    refine List.countP_congr fun x hx => ?_
    have hne : x ≠ a := fun h => (List.Nodup.not_mem_erase hl) (h ▸ hx)
    rw [hother x (List.mem_of_mem_erase hx) hne]
  rw [hperm.countP_eq Q, hperm.countP_eq P, List.countP_cons_of_pos hQ,
    List.countP_cons_of_neg (by simp [hP]), hrest]

theorem Graph.mem_preds {p n : Nat} : p ∈ G.preds n ↔ G.Edge p n := by
  simp [Graph.preds, Graph.Edge]

theorem arrived_congr {L L' : Nat → List Nat} {n : Nat} (h : ∀ p, n ∈ L p ↔ n ∈ L' p) :
    arrived G L n = arrived G L' n := by
  unfold arrived
  exact List.countP_congr fun p _ => by simp [h p]

/-- All predecessors have counted `n` off exactly when as many have as there are. -/
theorem arrived_eq_length {L : Nat → List Nat} {n : Nat} :
    arrived G L n = (G.preds n).length ↔ ∀ p, G.Edge p n → n ∉ L p := by
  unfold arrived
  rw [List.countP_eq_length]
  simp only [Graph.mem_preds, decide_eq_true_eq]

theorem arrived_le {L : Nat → List Nat} {n : Nat} : arrived G L n ≤ (G.preds n).length :=
  List.countP_le_length

/-- Counting off the head of one list. -/
theorem arrived_pop {L L' : Nat → List Nat} {p v : Nat} {rest : List Nat} (hG : G.Coherent)
    (hp : G.Edge p v) (hL : L p = v :: rest) (hL' : L' p = rest) (hnd : v ∉ rest)
    (hother : ∀ q, q ≠ p → L' q = L q) : arrived G L' v = arrived G L v + 1 := by
  refine countP_add_one (hG.nodup.filter _) (Graph.mem_preds.mpr hp) ?_ ?_ ?_
  · intro q _ hq
    rw [hother q hq]
  · simp [hL]
  · simp [hL', hnd]

/-! ### Workers -/

variable [DecidableEq W] {k : Nat} {st : Nat → Stage W} {src : W → Nat} {s : State W}

/-- The move of one worker and what it changes among the nodes in its hands. -/
theorem owned_move {st' : Nat → Stage W} {src' : W → Nat} {worker : W → WorkerPc} {w : W}
    {pc : WorkerPc} (h : ∀ n w r, st n = .owned w r ↔ Plays (src w) (worker w) n r)
    (hsrc : ∀ w', w' ≠ w → src' w' = src w')
    (hother : ∀ n w' r, w' ≠ w → (st' n = .owned w' r ↔ st n = .owned w' r))
    (hself : ∀ n r, st' n = .owned w r ↔ Plays (src' w) pc n r) :
    ∀ n w' r, st' n = .owned w' r ↔ Plays (src' w') (Function.update worker w pc w') n r := by
  intro n w' r
  by_cases hw : w' = w
  · subst hw
    rw [Function.update_self]
    exact hself n r
  · rw [Function.update_of_ne hw, hother n w' r hw, hsrc w' hw]
    exact h n w' r

/-- A node that has stopped waiting moves on from stage `st n` to `x` in the hands
of worker `w`; nothing is counted off. -/
theorem CycleInv.advance (h : CycleInv G k st src s) {w : W} {n : Nat} {x : Stage W} {pc : WorkerPc}
    {src' : W → Nat} {s' : State W} (hworker : s'.worker = Function.update s.worker w pc)
    (hcallback : s'.callback = s.callback) (hst : st n ≠ .waiting)
    (hsrc : ∀ w', w' ≠ w → src' w' = src w')
    (hothers : ∀ w' r, w' ≠ w → st n ≠ .owned w' r ∧ x ≠ .owned w' r)
    (hown : ∀ m r, Function.update st n x m = .owned w r ↔ Plays (src' w) pc m r)
    (hleft : left G (Function.update st n x) (Function.update s.worker w pc) = left G st s.worker)
    (hqueue : ∀ m, s'.queue.count m = if Function.update st n x m = .queued then 1 else 0)
    (hthis : NodeOk G k (left G st s.worker) s n (st n) →
      NodeOk G k (left G st s.worker) s' n x)
    (hother : ∀ m, m ≠ n → NodeOk G k (left G st s.worker) s m (st m) →
      NodeOk G k (left G st s.worker) s' m (st m)) :
    CycleInv G k (Function.update st n x) src' s' := by
  constructor
  case owned =>
    rw [hworker]
    refine owned_move h.owned hsrc ?_ hown
    intro m w' r hw
    have := hothers w' r hw
    grind
  case queued => exact hqueue
  case live => grind [h.live]
  case rest => rw [hworker, hleft]; exact h.rest
  case dispatched => rw [hcallback]; exact h.dispatched
  case node =>
    intro m hm
    rw [hworker, hleft]
    by_cases hmn : m = n
    · subst hmn
      rw [Function.update_self]
      exact hthis (h.node m hm)
    · rw [Function.update_of_ne hmn]
      exact hother m hmn (h.node m hm)

/-- A queued node is taken by a worker. -/
theorem CycleInv.dequeue (h : CycleInv G k st src s) {w : W} {n : Nat}
    (hpc : s.worker w = .idle) (hn : n ∈ s.queue) :
    CycleInv G k (Function.update st n (.owned w .held)) src
      ({ s with queue := s.queue.erase n }.move w (.ready n)) := by
  have hst : st n = .queued := by
    have := h.queued n
    have := List.count_pos_iff.mpr hn
    grind
  refine h.advance (w := w) rfl rfl (by simp [hst]) (fun _ _ => rfl) (by grind) ?_ ?_ ?_ ?_ ?_
  · intro m r
    have := h.owned m w r
    cases r <;> grind [Plays]
  · funext p
    have := h.owned p w .walking
    grind [left, Plays]
  · intro m
    have := h.queued m
    grind [State.move]
  · rintro ⟨_, _, _, _, _, _, _, _, _⟩
    simp only [State.move]
    constructor <;> grind
  · rintro m hm ⟨_, _, _, _, _, _, _, _, _⟩
    simp only [State.move]
    constructor <;> grind

/-- A worker begins to run the node in its hand. -/
theorem CycleInv.start (h : CycleInv G k st src s) {w : W} {n : Nat} (hpc : s.worker w = .ready n) :
    CycleInv G k (Function.update st n (.owned w .running)) src
      ({ s with started := Function.update s.started n (s.started n + 1) }.move w
        (.running n)) := by
  have hst : st n = .owned w .held := (h.owned n w .held).mpr (by simp [hpc, Plays])
  refine h.advance (w := w) rfl rfl (by simp [hst]) (fun _ _ => rfl) (by grind) ?_ ?_ ?_ ?_ ?_
  · intro m r
    have := h.owned m w r
    cases r <;> grind [Plays]
  · funext p
    have := h.owned p w .walking
    grind [left, Plays]
  · intro m
    have := h.queued m
    grind [State.move]
  · rintro ⟨_, _, _, _, _, _, _, _, _⟩
    simp only [State.move]
    constructor <;> grind
  · rintro m hm ⟨_, _, _, _, _, _, _, _, _⟩
    simp only [State.move]
    constructor <;> grind

/-- A normal node's run ends; its worker will walk the successor list. -/
theorem CycleInv.finish (h : CycleInv G k st src s) {w : W} {n : Nat}
    (hpc : s.worker w = .running n) (hn : G.finalNode ≠ some n) :
    CycleInv G k (Function.update st n (.owned w .walking)) (Function.update src w n)
      ({ s with finished := Function.update s.finished n (s.finished n + 1) }.move w
        (.walk n (G.successors n) false)) := by
  have hst : st n = .owned w .running := (h.owned n w .running).mpr (by simp [hpc])
  refine h.advance (w := w) rfl rfl (by simp [hst]) (by grind) (by grind) ?_ ?_ ?_ ?_ ?_
  · intro m r
    have := h.owned m w r
    cases r <;> grind
  · funext p
    have := h.owned p w .walking
    grind
  · intro m
    have := h.queued m
    grind [State.move]
  · rintro ⟨_, _, _, _, _, _, _, _, _⟩
    simp only [State.move]
    constructor <;> grind
  · rintro m hm ⟨_, _, _, _, _, _, _, _, _⟩
    simp only [State.move]
    constructor <;> grind

/-- The final node's run ends. -/
theorem CycleInv.finishFinal (h : CycleInv G k st src s) (hsink : G.FinalIsSink) {w : W} {n : Nat}
    (hpc : s.worker w = .running n) (hn : G.finalNode = some n) :
    CycleInv G k (Function.update st n (.owned w .posting)) (Function.update src w n)
      ({ s with finished := Function.update s.finished n (s.finished n + 1) }.move w .post) := by
  have hst : st n = .owned w .running := (h.owned n w .running).mpr (by simp [hpc])
  refine h.advance (w := w) rfl rfl (by simp [hst]) (by grind) (by grind) ?_ ?_ ?_ ?_ ?_
  · intro m r
    have := h.owned m w r
    cases r <;> grind
  · funext p
    have := h.owned p w .walking
    have := hsink n hn
    grind
  · intro m
    have := h.queued m
    grind [State.move]
  · rintro ⟨_, _, _, _, _, _, _, _, _⟩
    simp only [State.move]
    constructor <;> grind
  · rintro m hm ⟨_, _, _, _, _, _, _, _, _⟩
    simp only [State.move]
    constructor <;> grind

/-- `masterSem` is posted for the final node. -/
theorem CycleInv.post (h : CycleInv G k st src s) {w : W} (hpc : s.worker w = .post) :
    CycleInv G k (Function.update st (src w) .done) src
      ({ s with masterSem := s.masterSem + 1, posted := s.posted + 1 }.move w .idle) := by
  have hst : st (src w) = .owned w .posting := (h.owned _ w .posting).mpr (by simp [hpc])
  have hfinal := (h.node _ (h.live _ (by simp [hst]))).posting w hst
  refine h.advance (w := w) rfl rfl (by simp [hst]) (fun _ _ => rfl) (by grind) ?_ ?_ ?_ ?_ ?_
  · intro m r
    have := h.owned m w r
    cases r <;> grind
  · funext p
    have := h.owned p w .walking
    grind
  · intro m
    have := h.queued m
    grind [State.move]
  · rintro ⟨_, _, _, _, _, _, _, _, _⟩
    simp only [State.move]
    constructor <;> grind
  · rintro m hm ⟨_, _, _, _, _, _, _, _, _⟩
    simp only [State.move]
    constructor <;> grind

/-- The counter of a ready node is reset while its worker has a continuation. -/
theorem CycleInv.resetPush (h : CycleInv G k st src s) {w : W} {n v : Nat} {rest : List Nat}
    (hpc : s.worker w = .reset n v rest true) :
    CycleInv G k (Function.update st v (.owned w .pushing)) src
      ({ s with depCounter := Function.update s.depCounter v 0 }.move w (.enqueue n v rest)) := by
  have hst : st v = .owned w .resetting := (h.owned v w .resetting).mpr (by simp [hpc])
  refine h.advance (w := w) rfl rfl (by simp [hst]) (fun _ _ => rfl) (by grind) ?_ ?_ ?_ ?_ ?_
  · intro m r
    have := h.owned m w r
    cases r <;> grind
  · funext p
    have := h.owned p w .walking
    grind
  · intro m
    have := h.queued m
    grind [State.move]
  · rintro ⟨_, _, _, _, _, _, _, _, _⟩
    simp only [State.move]
    constructor <;> grind
  · rintro m hm ⟨_, _, _, _, _, _, _, _, _⟩
    simp only [State.move]
    constructor <;> grind

/-- The counter of the first ready node is reset; it becomes the continuation. -/
theorem CycleInv.resetTake (h : CycleInv G k st src s) {w : W} {n v : Nat} {rest : List Nat}
    (hpc : s.worker w = .reset n v rest false) :
    CycleInv G k (Function.update st v (.owned w .held)) src
      ({ s with depCounter := Function.update s.depCounter v 0 }.move w (.walk v rest true)) := by
  have hst : st v = .owned w .resetting := (h.owned v w .resetting).mpr (by simp [hpc])
  refine h.advance (w := w) rfl rfl (by simp [hst]) (fun _ _ => rfl) (by grind) ?_ ?_ ?_ ?_ ?_
  · intro m r
    have := h.owned m w r
    cases r <;> grind
  · funext p
    have := h.owned p w .walking
    grind
  · intro m
    have := h.queued m
    grind [State.move]
  · rintro ⟨_, _, _, _, _, _, _, _, _⟩
    simp only [State.move]
    constructor <;> grind
  · rintro m hm ⟨_, _, _, _, _, _, _, _, _⟩
    simp only [State.move]
    constructor <;> grind

/-- A further ready node is queued. -/
theorem CycleInv.push (h : CycleInv G k st src s) {w : W} {n v : Nat} {rest : List Nat}
    (hpc : s.worker w = .enqueue n v rest) :
    CycleInv G k (Function.update st v .queued) src
      ({ s with queue := s.queue ++ [v] }.move w (.walk n rest true)) := by
  have hst : st v = .owned w .pushing := (h.owned v w .pushing).mpr (by simp [hpc])
  refine h.advance (w := w) rfl rfl (by simp [hst]) (fun _ _ => rfl) (by grind) ?_ ?_ ?_ ?_ ?_
  · intro m r
    have := h.owned m w r
    cases r <;> grind
  · funext p
    have := h.owned p w .walking
    grind
  · intro m
    have := h.queued m
    grind [State.move]
  · rintro ⟨_, _, _, _, _, _, _, _, _⟩
    simp only [State.move]
    constructor <;> grind
  · rintro m hm ⟨_, _, _, _, _, _, _, _, _⟩
    simp only [State.move]
    constructor <;> grind

/-- At the end of the list the worker leaves the loop. -/
theorem CycleInv.leave {w : W} {n : Nat} {found : Bool}
    (h : CycleInv G k st src (s.move w (.walk n [] found))) :
    CycleInv G k (Function.update st (src w) .done) src (s.move w (.continue n [] found)) := by
  have hpc : (s.move w (.walk n [] found)).worker w = .walk n [] found := by simp [State.move]
  have hst : st (src w) = .owned w .walking := (h.owned (src w) w .walking).mpr (by simp [hpc])
  have hworker : (s.move w (.continue n [] found)).worker = Function.update
      (s.move w (.walk n [] found)).worker w (.continue n [] found) := by simp [State.move]
  refine h.advance hworker rfl (by simp [hst]) (fun _ _ => rfl) (by grind) ?_ ?_ ?_ ?_ ?_
  · intro m r
    have := h.owned m w r
    cases r <;> grind [WorkerPc.continue]
  · funext p
    have := h.owned p w .walking
    grind
  · intro m
    have := h.queued m
    grind [State.move]
  · rintro ⟨_, _, _, _, _, _, _, _, _⟩
    constructor <;> grind [State.move]
  · rintro m hm ⟨_, _, _, _, _, _, _, _, _⟩
    constructor <;> grind [State.move]

/-- The successor loop goes on or is left. -/
theorem CycleInv.goOn {w : W} {n : Nat} {sn : List Nat} {found : Bool}
    (h : CycleInv G k st src (s.move w (.walk n sn found))) :
    ∃ st', CycleInv G k st' src (s.move w (.continue n sn found)) := by
  cases sn with
  | nil => exact ⟨_, h.leave⟩
  | cons v rest => exact ⟨st, h⟩

/-! ### Counting off a successor -/

/-- The head of the list a worker walks is a waiting node. -/
theorem CycleInv.head (hG : G.Coherent) (h : CycleInv G k st src s) {w : W} {n v : Nat}
    {rest : List Nat} {found : Bool} (hpc : s.worker w = .walk n (v :: rest) found) :
    st (src w) = .owned w .walking ∧ G.Edge (src w) v ∧ v ∈ G.nodes ∧ st v = .waiting ∧
      v ∉ rest ∧ left G st s.worker (src w) = v :: rest := by
  have hst : st (src w) = .owned w .walking := (h.owned (src w) w .walking).mpr (by simp [hpc])
  have hleft : left G st s.worker (src w) = v :: rest := by simp [left, hst, hpc]
  have hsrc : src w ∈ G.nodes := h.live _ (by simp [hst])
  have hsuffix : v :: rest <:+ G.successors (src w) := hleft ▸ h.rest (src w)
  have hv : v ∈ G.successors (src w) := hsuffix.subset (List.mem_cons_self ..)
  have hnd : (v :: rest).Nodup := (hG.successors_nodup _ hsrc).sublist hsuffix.sublist
  have hvG : v ∈ G.nodes := hG.closed _ hsrc v hv
  refine ⟨hst, ⟨hsrc, hv⟩, hvG, ?_, (List.nodup_cons.mp hnd).1, hleft⟩
  by_contra hw
  exact (h.node v hvG).complete hw (src w) ⟨hsrc, hv⟩ (by simp [hleft])

/-- Counting off the head `v` of the list worker `w` walks: `x` is the stage `v` is
in afterwards. -/
theorem CycleInv.count (hG : G.Coherent) (h : CycleInv G k st src s) {w : W} {n v : Nat}
    {rest : List Nat} {found : Bool} {x : Stage W} {pc : WorkerPc}
    (hpc : s.worker w = .walk n (v :: rest) found)
    (hx : s.depCounter v + 1 = G.depNum v ∧ x = .owned w .resetting ∧ pc = .reset n v rest found ∨
      s.depCounter v + 1 ≠ G.depNum v ∧ x = .waiting ∧ pc = .walk n rest found) :
    CycleInv G k (Function.update st v x) src
      ({ s with depCounter := Function.update s.depCounter v (s.depCounter v + 1) }.move w pc) := by
  obtain ⟨hst, hedge, hvG, hwait, hnd, hleft⟩ := h.head hG hpc
  have hne : v ≠ src w := fun he => by simp [he, hst] at hwait
  have hpop : left G (Function.update st v x) (Function.update s.worker w pc) (src w) = rest := by
    grind
  have hsame : ∀ q, q ≠ src w →
      left G (Function.update st v x) (Function.update s.worker w pc) q = left G st s.worker q := by
    intro q hq
    have := h.owned q w .walking
    grind
  have hup : arrived G (left G (Function.update st v x) (Function.update s.worker w pc)) v =
      arrived G (left G st s.worker) v + 1 :=
    arrived_pop hG hedge hleft hpop hnd hsame
  have hothers : ∀ u, u ≠ v → ∀ q,
      u ∈ left G (Function.update st v x) (Function.update s.worker w pc) q ↔
        u ∈ left G st s.worker q := by
    intro u hu q
    by_cases hq : q = src w
    · subst hq
      simp [hpop, hleft, hu]
    · rw [hsame q hq]
  have hpreds := hG.depNum v hvG
  have hroot : G.depNum v ≠ 0 := by
    have := List.length_pos_of_mem (Graph.mem_preds.mpr hedge)
    omega
  have hok := h.node v hvG
  have hcounter : s.depCounter v = arrived G (left G st s.worker) v := by
    rw [hok.counter, hwait]; rfl
  constructor
  case owned =>
    refine owned_move h.owned (fun _ _ => rfl) (by grind) ?_
    intro m r
    have := h.owned m w r
    cases r <;> grind
  case queued =>
    intro m
    have := h.queued m
    grind [State.move]
  case live => grind [h.live]
  case rest =>
    intro q
    simp only [State.move]
    by_cases hq : q = src w
    · subst hq
      rw [hpop]
      exact (List.suffix_cons v rest).trans (hleft ▸ h.rest (src w))
    · rw [hsame q hq]
      exact h.rest q
  case dispatched => exact h.dispatched
  case node =>
    intro m hm
    simp only [State.move]
    by_cases hmv : m = v
    · subst hmv
      obtain ⟨_, _, hshort, _, _, _, _, _, _⟩ := hok
      rcases hx with ⟨hx, rfl, rfl⟩ | ⟨hx, rfl, rfl⟩
      · have hall := arrived_eq_length.mp (by omega :
          arrived G (left G (Function.update st m (.owned w .resetting))
            (Function.update s.worker w (.reset n m rest found))) m = (G.preds m).length)
        constructor <;> grind
      · constructor <;> grind
    · obtain ⟨_, _, _, hcomplete, _, _, _, _, _⟩ := h.node m hm
      have harr := arrived_congr (G := G) (hothers m hmv)
      have hcomp := hothers m hmv
      constructor <;> grind

/-! ### The callback -/

theorem CallbackPc.rest_continue (rest : List Nat) : (CallbackPc.continue rest).rest = rest := by
  cases rest <;> rfl

theorem CallbackPc.isReturned_continue (rest : List Nat) :
    (CallbackPc.continue rest).isReturned = false := by
  cases rest <;> rfl

/-- The dispatch loop queues a node that waits for nobody. -/
theorem CycleInv.dispatchRoot (hG : G.Coherent) (h : CycleInv G k st src s) {n : Nat}
    {rest : List Nat} (hpc : s.callback = .dispatch (n :: rest)) (hn : G.depNum n = 0) :
    CycleInv G k (Function.update st n .queued) src
      { s with queue := s.queue ++ [n], callback := .continue rest } := by
  have hsuffix : n :: rest <:+ G.nodes := by
    simpa [hpc, CallbackPc.rest] using h.dispatched
  have hnG : n ∈ G.nodes := hsuffix.subset (List.mem_cons_self ..)
  have hnd : (n :: rest).Nodup := hG.nodup.sublist hsuffix.sublist
  have hst : st n = .waiting := ((h.node n hnG).root hn).mpr (by simp [hpc, CallbackPc.rest])
  have hnone : ∀ p, ¬ G.Edge p n := by
    intro p hp
    have := List.length_pos_of_mem (Graph.mem_preds.mpr hp)
    have := hG.depNum n hnG
    omega
  have hleft : left G (Function.update st n .queued) s.worker = left G st s.worker := by
    funext p
    grind
  constructor
  case owned =>
    intro m w r
    have := h.owned m w r
    grind
  case queued =>
    intro m
    have := h.queued m
    grind
  case live => grind [h.live]
  case rest => rw [hleft]; exact h.rest
  case dispatched =>
    rw [CallbackPc.rest_continue]
    exact (List.suffix_cons n rest).trans hsuffix
  case node =>
    intro m hm
    rw [hleft]
    obtain ⟨_, _, _, _, _, _, _, _, _⟩ := h.node m hm
    have hrest := CallbackPc.rest_continue rest
    have hret := CallbackPc.isReturned_continue rest
    have harr : arrived G (left G st s.worker) n ≤ (G.preds n).length := arrived_le
    have := hG.depNum n hnG
    constructor <;> grind

/-- The dispatch loop passes over a node that waits for somebody. -/
theorem CycleInv.dispatchOther (h : CycleInv G k st src s) {n : Nat} {rest : List Nat}
    (hpc : s.callback = .dispatch (n :: rest)) (hn : G.depNum n ≠ 0) :
    CycleInv G k st src { s with callback := .continue rest } := by
  have hsuffix : n :: rest <:+ G.nodes := by
    simpa [hpc, CallbackPc.rest] using h.dispatched
  refine ⟨h.owned, h.queued, h.live, h.rest, ?_, ?_⟩
  · rw [CallbackPc.rest_continue]
    exact (List.suffix_cons n rest).trans hsuffix
  · intro m hm
    obtain ⟨_, _, _, _, _, _, _, _, _⟩ := h.node m hm
    have hrest := CallbackPc.rest_continue rest
    have hret := CallbackPc.isReturned_continue rest
    constructor <;> grind

/-- `ksiSemWait` on `masterSem` returns. -/
theorem CycleInv.semWait (h : CycleInv G k st src s) (hpc : s.callback = .wait)
    (hsem : 0 < s.masterSem) :
    CycleInv G k st src { s with masterSem := s.masterSem - 1, callback := .returned } := by
  refine ⟨h.owned, h.queued, h.live, h.rest, List.nil_suffix, ?_⟩
  intro m hm
  obtain ⟨_, _, _, _, _, _, _, _, _⟩ := h.node m hm
  constructor <;> grind

/-! ### One step -/

/-- Every step of a worker keeps the invariant. -/
theorem CycleInv.stepWorker (hG : G.Coherent) (hsink : G.FinalIsSink) (h : CycleInv G k st src s)
    {w : W} {s' : State W} (hs : stepWorker G s w = some s') :
    ∃ st' src', CycleInv G k st' src' s' := by
  unfold Sched.stepWorker at hs
  split at hs
  · cases hs
  · rename_i n hpc
    cases hs
    exact ⟨_, _, h.start hpc⟩
  · rename_i n hpc
    have hst : st n = .owned w .running := (h.owned n w .running).mpr (by simp [hpc])
    have hnG : n ∈ G.nodes := h.live n (by simp [hst])
    split at hs
    · rename_i hout
      cases hs
      have hn : G.finalNode ≠ some n := fun hf => by simp [(hG.final n hnG).mpr hf] at hout
      obtain ⟨st', h'⟩ := (h.finish hpc hn).goOn
      exact ⟨st', _, h'⟩
    · rename_i hout
      cases hs
      exact ⟨_, _, h.finishFinal hsink hpc ((hG.final n hnG).mp hout)⟩
  · rename_i n v rest found hpc
    dsimp only at hs
    split at hs
    · rename_i hready
      cases hs
      exact ⟨_, _, h.count hG hpc (.inl ⟨hready, rfl, rfl⟩)⟩
    · rename_i hready
      cases hs
      obtain ⟨st', h'⟩ := (h.count hG hpc (.inr ⟨hready, rfl, rfl⟩)).goOn
      exact ⟨st', _, h'⟩
  · cases hs
  · rename_i n v rest found hpc
    split at hs
    · rename_i hfound
      cases hs
      subst hfound
      exact ⟨_, _, h.resetPush hpc⟩
    · rename_i hfound
      cases hs
      rw [Bool.not_eq_true] at hfound
      subst hfound
      obtain ⟨st', h'⟩ := (h.resetTake hpc).goOn
      exact ⟨st', _, h'⟩
  · rename_i n v rest hpc
    cases hs
    obtain ⟨st', h'⟩ := (h.push hpc).goOn
    exact ⟨st', _, h'⟩
  · rename_i hpc
    cases hs
    exact ⟨_, _, h.post hpc⟩

/-- **Every step within a cycle keeps the invariant.** -/
theorem CycleInv.step (hG : G.Coherent) (hsink : G.FinalIsSink) (h : CycleInv G k st src s)
    {l : Label W} {s' : State W} (hl : l ≠ .call) (hs : step G s l = some s') :
    ∃ st' src', CycleInv G k st' src' s' := by
  cases l with
  | call => exact absurd rfl hl
  | worker w => exact h.stepWorker hG hsink hs
  | dequeue w n =>
      simp only [Sched.step, stepDequeue] at hs
      split at hs
      · rename_i hpc
        split at hs
        · rename_i hn
          cases hs
          exact ⟨_, _, h.dequeue hpc hn⟩
        · cases hs
      · cases hs
  | callback =>
      simp only [Sched.step, stepCallback] at hs
      split at hs
      · rename_i n rest hpc
        split at hs
        · rename_i hn
          cases hs
          exact ⟨_, _, h.dispatchRoot hG hpc hn⟩
        · rename_i hn
          cases hs
          exact ⟨_, _, h.dispatchOther hpc hn⟩
      · rename_i hpc
        split at hs
        · rename_i hsem
          cases hs
          exact ⟨_, _, h.semWait hpc hsem⟩
        · cases hs
      · cases hs

end Ksi.Sched

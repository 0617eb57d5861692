/-
What the reclamation of the ring buffers covers when workers steal.

`ksiWorkQueueBeginTake` announces the worker in its own ring buffer only.  A worker that
takes from itself is covered, as long as nothing it retires goes on a list the collector is
about to free: the epoch in its entry may be one or two advances old, for the collector may
have passed the entry before the worker announced itself, and once more while its old epoch
stood there.  A worker that takes from another one is not covered at all, for the entry in
that ring buffer is never active.

The segments of a ring buffer fall in two parts: those in use, which are a list, and those
retired.  A retired segment may be freed at any time but for those retired since the worker
began, the `held` ones: they are all on one list, and `Threatens` says when the collector
can get at it.
-/
import Ksi.Proofs.WorkQueue.Alone

namespace Ksi.WorkQueue

open Runs

variable {V : Type} {junk : Nat → V} {nprocs : Nat} {tid u w : Fin nprocs} {s s' : State V nprocs}
  {chain retired held : List Nat} {hand : Option Nat}

/-! ### The condition -/

/-- The collector gets at list `k` of worker `w` of ring buffer `v` before it looks at the
worker's entry again. -/
def Threatens (pc : CollectorPc nprocs) (v w : Fin nprocs) (k : Fin 3) : Prop :=
  match pc with
  | .check v' epoch rest => v' = v ∧ epoch = k + 1 ∧ w ∉ rest
  | .compare v' epoch i rest => v' = v ∧ epoch = k + 1 ∧ w ∉ i :: rest
  | .cas v' epoch => v' = v ∧ epoch = k + 1
  | .destroy v' epoch rest | .free v' epoch _ _ rest | .clear v' epoch _ rest =>
      v' = v ∧ epoch = k + 1 ∧ w ∈ rest
  | .load _ | .setOwn _ _ => False

instance (pc : CollectorPc nprocs) (v w : Fin nprocs) (k : Fin 3) :
    Decidable (Threatens pc v w k) := by
  unfold Threatens
  split <;> infer_instance

/-- A worker takes from its own ring buffer, and the list on which it puts a segment is not
one the collector gets at. -/
def OwnAndSafe (s : State V nprocs) : Label V nprocs → Prop
  | .take w v => v = w
  | .worker w =>
      match s.worker w with
      | .take v => thiefRetires ((s.rb v).thief w) = true → (s.freelist w).isSome = true →
          ¬ Threatens s.collector v w (s.ebrEntries v w).epoch
      | _ => True
  | _ => True

instance : DecidableRel (@OwnAndSafe V nprocs) := fun s l => by
  unfold OwnAndSafe
  split
  · infer_instance
  · split <;> infer_instance
  · infer_instance

/-- The segments a worker has loaded since it began are covered: the worker's entry is
active, with the epoch of that time, and they are not freed. -/
def Covered (s : State V nprocs) : Prop :=
  ∀ w, ∀ p ∈ s.loaded w, (s.ebrEntries p.1 w).active = true ∧
    (s.ebrEntries p.1 w).epoch = s.began w p.1 ∧ p ∉ s.freed

/-! ### The invariant -/

/-- What the place of worker `w` says of its entry, its ring buffer, and what it holds. -/
def At (s : State V nprocs) (w : Fin nprocs) (held : List Nat) : WorkerPc V nprocs → Prop
  | .get | .commit => (s.rb w).thief w = .idle ∧ held = [] ∧ s.loaded w = []
  | .inside =>
      (s.rb w).owner = .idle ∧ (s.rb w).thief w = .idle ∧ (s.ebrEntries w w).active = true ∧
      (s.ebrEntries w w).epoch = s.began w w
  | .take v =>
      v = w ∧ (s.rb w).owner = .idle ∧ (s.ebrEntries w w).active = true ∧
      (s.ebrEntries w w).epoch = s.began w w
  | .beginLoad =>
      (s.rb w).owner = .idle ∧ (s.rb w).thief w = .idle ∧ held = [] ∧ s.loaded w = [] ∧
      (s.ebrEntries w w).active = true
  | .beginStore epoch =>
      (s.rb w).owner = .idle ∧ (s.rb w).thief w = .idle ∧ held = [] ∧ s.loaded w = [] ∧
      (s.ebrEntries w w).active = true ∧ epoch = s.began w w
  | _ => (s.rb w).owner = .idle ∧ (s.rb w).thief w = .idle ∧ held = [] ∧ s.loaded w = []

/-- The ring buffer of worker `w`: the segments of `chain` and `hand` are in use, those of
`retired` are not, and those of `held` have been retired since the worker began. -/
structure RingInv (s : State V nprocs) (w : Fin nprocs) (chain : List Nat) (hand : Option Nat)
    (retired held : List Nat) : Prop where
  alone : Alone (s.rb w) w chain hand
  /-- a retired segment is an old one that is not in use -/
  apart : ∀ x ∈ retired, x < (s.rb w).allocated ∧ x ∉ hand.toList ++ chain
  among : ∀ x ∈ held, x ∈ retired
  /-- from a retired segment only retired ones are reached, and held ones only from held ones -/
  closed : ∀ x ∈ retired, ∀ y ∈ prevOf (s.rb w) x, y ∈ retired ∧ (y ∈ held → x ∈ held)
  /-- the held segments are on the list of the worker's own epoch -/
  lists : ∀ i k, ∀ x ∈ (s.ebrEntries w i).freelist k, x ∈ retired ∧
    (x ∈ held → i = w ∧ k = (s.ebrEntries w w).epoch)
  /-- a list loaded to put a segment on it -/
  list : ∀ list ∈ s.freelist w, ∀ x ∈ list, x ∈ retired
  cur : ∀ e x i rest, s.collector = .free w e (some x) i rest → x ∈ retired ∧ x ∉ held
  freed : ∀ x, (w, x) ∈ s.freed → x ∈ retired ∧ x ∉ held
  loaded : ∀ p ∈ s.loaded w, p.1 = w ∧ (p.2 ∈ hand.toList ++ chain ∨ p.2 ∈ held)
  /-- the collector does not get at the list of the held segments -/
  safe : held ≠ [] → ¬ Threatens s.collector w w (s.ebrEntries w w).epoch
  place : At s w held (s.worker w)

/-- The invariant of the runs that are `OwnAndSafe`. -/
structure QueueInv (tid : Fin nprocs) (s : State V nprocs) : Prop where
  rings : ∀ w, ∃ chain hand retired held, RingInv s w chain hand retired held
  /-- only the worker of a ring buffer is active in it -/
  alien : ∀ v w, w ≠ v → (s.ebrEntries v w).active = false
  own : s.worker tid = .outside

/-- A worker that holds or has loaded a segment is active. -/
theorem RingInv.active (h : RingInv s w chain hand retired held)
    (hne : held ≠ [] ∨ s.loaded w ≠ []) :
    (s.ebrEntries w w).active = true ∧ (s.ebrEntries w w).epoch = s.began w w := by
  have hplace := h.place
  -- elsewhere the worker holds nothing and has loaded nothing
  have hnot : held = [] → s.loaded w = [] → False := by
    intro hheld hloaded
    rcases hne with hne | hne
    · exact hne hheld
    · exact hne hloaded
  cases hpc : s.worker w with
  | inside =>
      rw [hpc] at hplace
      obtain ⟨-, -, hactive, hepoch⟩ := hplace
      exact ⟨hactive, hepoch⟩
  | take v =>
      rw [hpc] at hplace
      obtain ⟨-, -, hactive, hepoch⟩ := hplace
      exact ⟨hactive, hepoch⟩
  | get | commit =>
      rw [hpc] at hplace
      obtain ⟨-, hheld, hloaded⟩ := hplace
      exact (hnot hheld hloaded).elim
  | beginLoad | beginStore =>
      rw [hpc] at hplace
      obtain ⟨-, -, hheld, hloaded, -⟩ := hplace
      exact (hnot hheld hloaded).elim
  | _ =>
      rw [hpc] at hplace
      obtain ⟨-, -, hheld, hloaded⟩ := hplace
      exact (hnot hheld hloaded).elim

/-- The invariant gives what is claimed. -/
theorem QueueInv.covered (h : QueueInv tid s) : Covered s := by
  intro w p hp
  obtain ⟨chain, hand, retired, held, hring⟩ := h.rings w
  obtain ⟨v, x⟩ := p
  obtain ⟨rfl, hx⟩ := hring.loaded _ hp
  obtain ⟨hactive, hepoch⟩ := hring.active (.inr (List.ne_nil_of_mem hp))
  refine ⟨hactive, hepoch, ?_⟩
  intro hfreed
  obtain ⟨hret, hheld⟩ := hring.freed x hfreed
  obtain ⟨-, hout⟩ := hring.apart x hret
  rcases hx with hx | hx
  · exact hout hx
  · exact hheld hx

theorem queueInv_init : QueueInv tid (init (V := V) junk tid) where
  rings := by
    intro w
    refine ⟨[0], none, [], [], alone_init, nofun, nofun, nofun, ?_, nofun, ?_, nofun, nofun, ?_, ?_⟩
    · intro i k x hx
      cases hx
    · intro e x i rest hc
      cases hc
    · exact fun h => absurd rfl h
    · exact ⟨rfl, rfl, rfl, rfl⟩
  alien := fun _ _ _ => rfl
  own := rfl

/-! ### What a step leaves alone -/

/-- What no step in Push, Pop or Take stores to but for the retirements. -/
structure Rest (s s' : State V nprocs) (w : Fin nprocs) : Prop where
  entries : s'.ebrEntries w = s.ebrEntries w
  freelist : s'.freelist w = s.freelist w
  collector : s'.collector = s.collector
  freed : s'.freed = s.freed

/-- The ring buffer moves on; nothing is retired. -/
theorem RingInv.update {chain' : List Nat} {hand' : Option Nat}
    (h : RingInv s w chain hand retired held) (hrest : Rest s s' w)
    (halone : Alone (s'.rb w) w chain' hand')
    (hkept : Kept (s.rb w) (s'.rb w) chain chain' hand hand')
    (hloaded : ∀ p ∈ s'.loaded w, p.1 = w ∧ (p.2 ∈ hand'.toList ++ chain' ∨ p.2 ∈ held))
    (hplace : At s' w held (s'.worker w)) : RingInv s' w chain' hand' retired held where
  alone := halone
  apart := by
    intro x hx
    obtain ⟨hlt, hout⟩ := h.apart x hx
    refine ⟨Nat.lt_of_lt_of_le hlt hkept.alloc, fun hin => ?_⟩
    rcases hkept.new x hin with hin | rfl
    · exact hout hin
    · exact Nat.lt_irrefl _ hlt
  among := h.among
  closed := by
    intro x hx
    obtain ⟨hlt, hout⟩ := h.apart x hx
    rw [hkept.prev x hlt hout]
    exact h.closed x hx
  lists := by
    rw [hrest.entries]
    exact h.lists
  list := by
    rw [hrest.freelist]
    exact h.list
  cur := by
    rw [hrest.collector]
    exact h.cur
  freed := by
    rw [hrest.freed]
    exact h.freed
  loaded := hloaded
  safe := by
    rw [hrest.collector, hrest.entries]
    exact h.safe
  place := hplace

/-- What is said of a worker's place depends on its entry, on its ring buffer and on its
history. -/
theorem At.congr {pc : WorkerPc V nprocs} (h : At s w held pc)
    (howner : (s'.rb w).owner = (s.rb w).owner) (hthief : (s'.rb w).thief w = (s.rb w).thief w)
    (hactive : (s'.ebrEntries w w).active = (s.ebrEntries w w).active)
    (hepoch : (s'.ebrEntries w w).epoch = (s.ebrEntries w w).epoch)
    (hbegan : s'.began w w = s.began w w) (hloaded : s'.loaded w = s.loaded w) :
      At s' w held pc := by
  unfold At at *
  rw [howner, hthief, hactive, hepoch, hbegan, hloaded]
  exact h

/-- A step that does not concern worker `w` nor its ring buffer. -/
structure Same (s s' : State V nprocs) (w : Fin nprocs) : Prop extends Rest s s' w where
  rb : s'.rb w = s.rb w
  worker : s'.worker w = s.worker w
  began : s'.began w = s.began w
  loaded : s'.loaded w = s.loaded w

theorem Same.trans {s'' : State V nprocs} (h : Same s s' w) (h' : Same s' s'' w) :
    Same s s'' w where
  entries := h'.entries.trans h.entries
  freelist := h'.freelist.trans h.freelist
  collector := h'.collector.trans h.collector
  freed := h'.freed.trans h.freed
  rb := h'.rb.trans h.rb
  worker := h'.worker.trans h.worker
  began := h'.began.trans h.began
  loaded := h'.loaded.trans h.loaded

theorem Same.place (hs : Same s s' w) {pc : WorkerPc V nprocs} (h : At s w held pc) :
    At s' w held pc := by
  unfold At at *
  rw [hs.rb, hs.entries, hs.began, hs.loaded]
  exact h

theorem RingInv.frame (h : RingInv s w chain hand retired held) (hs : Same s s' w) :
    RingInv s' w chain hand retired held := by
  have halone : Alone (s'.rb w) w chain hand := by
    rw [hs.rb]
    exact h.alone
  have hkept : Kept (s.rb w) (s'.rb w) chain chain hand hand := by
    rw [hs.rb]
    exact .refl _
  refine h.update hs.toRest halone hkept ?_ ?_
  · rw [hs.loaded]
    exact h.loaded
  · rw [hs.worker]
    exact hs.place h.place

theorem setRb_rb {r : RingBuffer.State V (Fin nprocs)} : (s.setRb w r).rb w = r :=
  Function.update_self ..

theorem move_worker {pc : WorkerPc V nprocs} : (s.move w pc).worker w = pc :=
  Function.update_self ..

theorem setEntry_self {v : Fin nprocs} {f : EBREntry → EBREntry} :
    (s.setEntry v w f).ebrEntries v w = f (s.ebrEntries v w) := by
  simp [State.setEntry]

theorem setEntry_ne {v i a b : Fin nprocs} {f : EBREntry → EBREntry} (hab : ¬ (a = v ∧ b = i)) :
    (s.setEntry v i f).ebrEntries a b = s.ebrEntries a b := by
  unfold State.setEntry
  by_cases ha : a = v
  · subst ha
    simp [show b ≠ i from fun hb => hab ⟨rfl, hb⟩]
  · simp [ha]

/-- A store to an entry, but for the field `g`. -/
theorem setEntry_field {α : Type} (g : EBREntry → α) {v i : Fin nprocs} {f : EBREntry → EBREntry}
    (hg : ∀ e, g (f e) = g e) (a b : Fin nprocs) :
    g ((s.setEntry v i f).ebrEntries a b) = g (s.ebrEntries a b) := by
  by_cases hab : a = v ∧ b = i
  · obtain ⟨rfl, rfl⟩ := hab
    rw [setEntry_self, hg]
  · rw [setEntry_ne hab]

/-- Worker `w` stores to nothing but its own ring buffer, entry and variables. -/
structure Local (s s' : State V nprocs) (w : Fin nprocs) : Prop where
  same : ∀ u, u ≠ w → Same s s' u
  entries : ∀ u, u ≠ w → s'.ebrEntries w u = s.ebrEntries w u

theorem Local.trans {s'' : State V nprocs} (h : Local s s' w) (h' : Local s' s'' w) :
    Local s s'' w where
  same := fun u hu => (h.same u hu).trans (h'.same u hu)
  entries := fun u hu => (h'.entries u hu).trans (h.entries u hu)

theorem local_move (pc : WorkerPc V nprocs) : Local s (s.move w pc) w where
  same := fun _ hu => ⟨⟨rfl, rfl, rfl, rfl⟩, rfl, Function.update_of_ne hu _ _, rfl, rfl⟩
  entries := fun _ _ => rfl

theorem local_setRb (r : RingBuffer.State V (Fin nprocs)) : Local s (s.setRb w r) w where
  same := fun _ hu => ⟨⟨rfl, rfl, rfl, rfl⟩, Function.update_of_ne hu _ _, rfl, rfl, rfl⟩
  entries := fun _ _ => rfl

theorem local_setEntry (f : EBREntry → EBREntry) : Local s (s.setEntry w w f) w where
  same := fun _ hu => ⟨⟨Function.update_of_ne hu _ _, rfl, rfl, rfl⟩, rfl, rfl, rfl, rfl⟩
  entries := fun _ hu => setEntry_ne fun hab => hu hab.2

theorem local_freelist (list : Option (Option Nat)) :
    Local s { s with freelist := Function.update s.freelist w list } w where
  same := fun _ hu => ⟨⟨rfl, Function.update_of_ne hu _ _, rfl, rfl⟩, rfl, rfl, rfl, rfl⟩
  entries := fun _ _ => rfl

theorem local_loaded (l : List (Fin nprocs × Nat)) :
    Local s { s with loaded := Function.update s.loaded w l } w where
  same := fun _ hu => ⟨⟨rfl, rfl, rfl, rfl⟩, rfl, rfl, rfl, Function.update_of_ne hu _ _⟩
  entries := fun _ _ => rfl

theorem local_began (epochs : Fin nprocs → Fin 3) :
    Local s { s with began := Function.update s.began w epochs } w where
  same := fun _ hu => ⟨⟨rfl, rfl, rfl, rfl⟩, rfl, rfl, Function.update_of_ne hu _ _, rfl⟩
  entries := fun _ _ => rfl

/-- A step of worker `w` that concerns nobody else. -/
theorem QueueInv.of_ring (h : QueueInv tid s) (hw : w ≠ tid)
    (hring : ∃ chain hand retired held, RingInv s' w chain hand retired held)
    (hlocal : Local s s' w) : QueueInv tid s' where
  rings := by
    intro u
    by_cases hu : u = w
    · exact hu ▸ hring
    · obtain ⟨chain, hand, retired, held, hu'⟩ := h.rings u
      exact ⟨chain, hand, retired, held, hu'.frame (hlocal.same u hu)⟩
  alien := by
    intro v u hne
    by_cases hv : v = w
    · subst hv
      rw [hlocal.entries u hne]
      exact h.alien v u hne
    · rw [(hlocal.same v hv).entries]
      exact h.alien v u hne
  own := by
    rw [(hlocal.same tid (Ne.symm hw)).worker]
    exact h.own

/-! ### Entering and leaving -/

/-- The worker stores to its entry, but for the lists, and holds nothing any longer. -/
theorem RingInv.release (h : RingInv s w chain hand retired held)
    (halone : Alone (s'.rb w) w chain hand) (hprev : prevOf (s'.rb w) = prevOf (s.rb w))
    (halloc : (s'.rb w).allocated = (s.rb w).allocated)
    (hlists : ∀ i, (s'.ebrEntries w i).freelist = (s.ebrEntries w i).freelist)
    (hlist : s'.freelist w = s.freelist w) (hcollector : s'.collector = s.collector)
    (hfreed : s'.freed = s.freed) (hloaded : s'.loaded w = []) (hplace : At s' w [] (s'.worker w)) :
    RingInv s' w chain hand retired [] where
  alone := halone
  apart := by
    rw [halloc]
    exact h.apart
  among := nofun
  closed := by
    intro x hx y hy
    rw [hprev] at hy
    exact ⟨(h.closed x hx y hy).1, nofun⟩
  lists := by
    intro i k x hx
    rw [hlists] at hx
    exact ⟨(h.lists i k x hx).1, nofun⟩
  list := by
    rw [hlist]
    exact h.list
  cur := by
    intro e x i rest hc
    rw [hcollector] at hc
    exact ⟨(h.cur e x i rest hc).1, nofun⟩
  freed := by
    intro x hx
    rw [hfreed] at hx
    exact ⟨(h.freed x hx).1, nofun⟩
  loaded := by
    rw [hloaded]
    nofun
  safe := fun hne => absurd rfl hne
  place := hplace

/-! ### Retirements -/

/-- After a store to the current list of an entry, the others are as before. -/
theorem setCurrent_freelist {list : Option Nat} {i : Fin nprocs} {k : Fin 3} {y : Nat}
    (hy : y ∈ ((s.setEntry w w (.setCurrent list)).ebrEntries w i).freelist k) :
    (i = w ∧ k = (s.ebrEntries w w).epoch ∧ list = some y) ∨ y ∈ (s.ebrEntries w i).freelist k := by
  by_cases hi : i = w
  · subst hi
    by_cases hk : k = (s.ebrEntries i i).epoch
    · subst hk
      left
      simpa [State.setEntry, EBREntry.setCurrent] using hy
    · right
      simpa [State.setEntry, EBREntry.setCurrent, hk] using hy
  · right
    simpa [State.setEntry, hi] using hy

/-- Segment `x` goes out of use, and no other one. -/
structure Leaves (x : Nat) (chain chain' : List Nat) (hand hand' : Option Nat) : Prop where
  used : x ∈ hand.toList ++ chain
  out : x ∉ hand'.toList ++ chain'
  kept : ∀ y ∈ hand'.toList ++ chain', y ∈ hand.toList ++ chain
  rest : ∀ y ∈ hand.toList ++ chain, y = x ∨ y ∈ hand'.toList ++ chain'

/-- The worker puts segment `x` on the list of its entry, which it has loaded before. -/
structure PutOn (s s' : State V nprocs) (w : Fin nprocs) (x : Nat) (list : Option Nat) : Prop where
  onList : s.freelist w = some list
  prev : prevOf (s'.rb w) = Function.update (prevOf (s.rb w)) x list
  allocated : (s'.rb w).allocated = (s.rb w).allocated
  entries : s'.ebrEntries = (s.setEntry w w (.setCurrent (some x))).ebrEntries
  freelist : s'.freelist w = none
  collector : s'.collector = s.collector
  freed : s'.freed = s.freed
  loaded : s'.loaded w = s.loaded w

theorem putOn {x : Nat} {list current : Option Nat} {r : RingBuffer.State V (Fin nprocs)}
    (hlist : s.freelist w = some list)
    (hseg : r.seg = Function.update (s.rb w).seg x { (s.rb w).seg x with prev := list })
    (hallocated : r.allocated = (s.rb w).allocated) (hcurrent : current = some x) :
    PutOn s { (s.setRb w r).setEntry w w (.setCurrent current) with
      freelist := Function.update s.freelist w none } w x list := by
  have hrb : (s.setRb w r).rb w = r := setRb_rb
  subst hcurrent
  constructor
  case onList => exact hlist
  case prev =>
    show prevOf ((s.setRb w r).rb w) = _
    rw [hrb]
    exact prevOf_store hseg
  case allocated =>
    show ((s.setRb w r).rb w).allocated = _
    rw [hrb]
    exact hallocated
  case freelist => exact Function.update_self ..
  all_goals rfl

/-- What the worker holds after it has retired `x`: that segment as well, or nothing as
before. -/
def HeldAfter (s : State V nprocs) (w : Fin nprocs) (x : Nat) (held held' : List Nat) : Prop :=
  held' = x :: held ∧ ¬ Threatens s.collector w w (s.ebrEntries w w).epoch ∨
    held' = [] ∧ s.loaded w = []

/-- A segment in use is put on the list of the worker's epoch. -/
theorem RingInv.retire {chain' : List Nat} {hand' list : Option Nat} {held' : List Nat} {x : Nat}
    (h : RingInv s w chain hand retired held) (halone : Alone (s'.rb w) w chain' hand')
    (hleaves : Leaves x chain chain' hand hand') (hput : PutOn s s' w x list)
    (hheld : HeldAfter s w x held held') (hplace : At s' w held' (s'.worker w)) :
    RingInv s' w chain' hand' (x :: retired) held' := by
  have hnew : x ∉ retired := fun hmem => (h.apart x hmem).2 hleaves.used
  have hepoch : (s'.ebrEntries w w).epoch = (s.ebrEntries w w).epoch := by
    rw [hput.entries, setEntry_self]
    rfl
  -- a held segment is the new one or an old one
  have hsplit : ∀ y ∈ held', y = x ∨ y ∈ held := by
    intro y hy
    rcases hheld with ⟨rfl, -⟩ | ⟨rfl, -⟩
    · exact List.mem_cons.mp hy
    · cases hy
  have hold : ∀ y ∈ retired, y ∈ held' → y ∈ held := fun y hy hmem =>
    (hsplit y hmem).resolve_left fun heq => hnew (heq ▸ hy)
  constructor
  case alone => exact halone
  case apart =>
    intro y hy
    rw [hput.allocated]
    rcases List.mem_cons.mp hy with rfl | hy
    · exact ⟨h.alone.alloc y hleaves.used, hleaves.out⟩
    · obtain ⟨hlt, hnot⟩ := h.apart y hy
      exact ⟨hlt, fun hmem => hnot (hleaves.kept y hmem)⟩
  case among =>
    intro y hy
    rcases hsplit y hy with rfl | hy
    · exact List.mem_cons_self
    · exact List.mem_cons_of_mem _ (h.among y hy)
  case closed =>
    intro y hy z hz
    rw [hput.prev] at hz
    by_cases hyx : y = x
    · subst hyx
      rw [Function.update_self] at hz
      refine ⟨List.mem_cons_of_mem _ (h.list list hput.onList z hz), fun hmem => ?_⟩
      rcases hheld with ⟨rfl, -⟩ | ⟨rfl, -⟩
      · exact List.mem_cons_self
      · cases hmem
    · rw [Function.update_of_ne hyx] at hz
      obtain ⟨hret, hclosed⟩ := h.closed y ((List.mem_cons.mp hy).resolve_left hyx) z hz
      refine ⟨List.mem_cons_of_mem _ hret, fun hmem => ?_⟩
      have hy' := hclosed (hold z hret hmem)
      rcases hheld with ⟨rfl, -⟩ | ⟨rfl, -⟩
      · exact List.mem_cons_of_mem _ hy'
      · cases hmem
  case lists =>
    intro i k y hy
    rw [hput.entries] at hy
    rcases setCurrent_freelist hy with ⟨rfl, rfl, hyx⟩ | hy
    · obtain rfl : x = y := Option.some.inj hyx
      exact ⟨List.mem_cons_self, fun _ => ⟨rfl, hepoch.symm⟩⟩
    · obtain ⟨hret, hwhere⟩ := h.lists i k y hy
      refine ⟨List.mem_cons_of_mem _ hret, fun hmem => ?_⟩
      rw [hepoch]
      exact hwhere (hold y hret hmem)
  case list =>
    rw [hput.freelist]
    nofun
  case cur =>
    intro e y i rest hc
    rw [hput.collector] at hc
    obtain ⟨hret, hnot⟩ := h.cur e y i rest hc
    exact ⟨List.mem_cons_of_mem _ hret, fun hmem => hnot (hold y hret hmem)⟩
  case freed =>
    intro y hy
    rw [hput.freed] at hy
    obtain ⟨hret, hnot⟩ := h.freed y hy
    exact ⟨List.mem_cons_of_mem _ hret, fun hmem => hnot (hold y hret hmem)⟩
  case loaded =>
    intro p hp
    rw [hput.loaded] at hp
    obtain ⟨hpw, hmem⟩ := h.loaded p hp
    refine ⟨hpw, ?_⟩
    rcases hheld with ⟨rfl, -⟩ | ⟨rfl, hnil⟩
    · rcases hmem with hmem | hmem
      · rcases hleaves.rest _ hmem with heq | hmem
        · right
          rw [heq]
          exact List.mem_cons_self
        · exact .inl hmem
      · exact .inr (List.mem_cons_of_mem _ hmem)
    · rw [hnil] at hp
      cases hp
  case safe =>
    intro hne
    rw [hput.collector, hepoch]
    rcases hheld with ⟨-, hsafe⟩ | ⟨rfl, -⟩
    · exact hsafe
    · exact absurd rfl hne
  case place => exact hplace

/-- The worker loads the list on which it puts a segment. -/
theorem RingInv.loadList (h : RingInv s w chain hand retired held) :
    RingInv { s with freelist := Function.update s.freelist w (some (s.ebrEntries w w).current) } w
      chain hand retired held :=
  { h with
    list := by
      intro list hlist x hx
      replace hlist : Function.update s.freelist w (some (s.ebrEntries w w).current) w =
        some list := hlist
      rw [Function.update_self] at hlist
      obtain rfl := Option.some.inj hlist
      exact (h.lists w _ x hx).1
    place := h.place.congr rfl rfl rfl rfl rfl rfl }

/-! ### Steps in Push and Pop -/

theorem ownerRetires_eq {p : RingBuffer.OwnerPc V} (h : ownerRetires p = true) : p = .popDrop := by
  cases p <;> first | rfl | cases h

/-- Where the worker is in Push and Pop, it holds nothing. -/
theorem RingInv.calling (h : RingInv s w chain hand retired held)
    (hw : s.worker w = .get ∨ s.worker w = .commit) :
    (s.rb w).thief w = .idle ∧ held = [] ∧ s.loaded w = [] := by
  have hplace := h.place
  rcases hw with hw | hw
  · rw [hw] at hplace
    exact hplace
  · rw [hw] at hplace
    exact hplace

theorem At.calling {pc : WorkerPc V nprocs} (hpc : pc = .get ∨ pc = .commit)
    (hthief : (s'.rb w).thief w = .idle) (hloaded : s'.loaded w = []) : At s' w [] pc := by
  rcases hpc with rfl | rfl
  · exact ⟨hthief, rfl, hloaded⟩
  · exact ⟨hthief, rfl, hloaded⟩

/-- A step of Push or Pop that retires nothing. -/
theorem RingInv.ownerMoves (h : RingInv s w chain hand retired [])
    (hw : s.worker w = .get ∨ s.worker w = .commit) (hidle : (s.rb w).thief w = .idle)
    (hloaded : s.loaded w = []) {r : RingBuffer.State V (Fin nprocs)}
    (hret : ownerRetires (s.rb w).owner = false)
    (hr : RingBuffer.stepOwner junk (s.rb w) = some r) :
    ∃ chain', RingInv (s.setRb w r) w chain' hand retired [] := by
  obtain ⟨chain', halone, hkept, hthief⟩ := h.alone.stepOwner hret hr
  have hrb : (s.setRb w r).rb w = r := setRb_rb
  refine ⟨chain', h.update ⟨rfl, rfl, rfl, rfl⟩ ?_ ?_ ?_ ?_⟩
  · rw [hrb]
    exact halone
  · rw [hrb]
    exact hkept
  · intro p hp
    have hnil : (s.setRb w r).loaded w = [] := hloaded
    rw [hnil] at hp
    cases hp
  · have hidle' : ((s.setRb w r).rb w).thief w = .idle := by
      rw [hrb, hthief]
      exact hidle
    exact At.calling hw hidle' hloaded

/-- Pop puts the last segment on the list that it has loaded. -/
theorem RingInv.popDrop (h : RingInv s w chain hand retired [])
    (hw : s.worker w = .get ∨ s.worker w = .commit) (hidle : (s.rb w).thief w = .idle)
    (hloaded : s.loaded w = []) (hp : (s.rb w).owner = .popDrop) {list : Option Nat}
    (hlist : s.freelist w = some list) {r : RingBuffer.State V (Fin nprocs)}
    (hr : RingBuffer.stepOwner junk { s.rb w with ownerFree := list } = some r) :
    ∃ chain' retired', RingInv { (s.setRb w r).setEntry w w (.setCurrent r.ownerFree) with
      freelist := Function.update s.freelist w none } w chain' hand retired' [] := by
  cases hhead : (s.rb w).head with
  | none =>
      simp only [RingBuffer.stepOwner, hhead] at hr
      cases hr
  | some head =>
      simp only [RingBuffer.stepOwner, hhead, hp, Option.some.injEq] at hr
      have hfree := h.alone.free list (s.rb w).thiefFree
      obtain ⟨pre, rfl, halone⟩ := hfree.popDrop hp hhead
      have hnodup := h.alone.nodup
      rw [← List.append_assoc] at hnodup
      have hleaves : Leaves head (pre ++ [head]) pre hand hand := by
        constructor
        case used =>
          rw [← List.append_assoc]
          exact List.mem_append_right _ (List.mem_singleton_self head)
        case out =>
          intro hmem
          exact (List.nodup_append.mp hnodup).2.2 head hmem head (List.mem_singleton_self head) rfl
        case kept =>
          intro y hy
          rw [← List.append_assoc]
          exact List.mem_append_left _ hy
        case rest =>
          intro y hy
          rw [← List.append_assoc] at hy
          rcases List.mem_append.mp hy with hy | hy
          · exact .inr hy
          · exact .inl (List.mem_singleton.mp hy)
      have hseg : r.seg =
          Function.update (s.rb w).seg head { (s.rb w).seg head with prev := list } := by
        rw [← hr]
        rfl
      have hallocated : r.allocated = (s.rb w).allocated := by
        rw [← hr]
        rfl
      have hcurrent : r.ownerFree = some head := by
        rw [← hr]
      have hput := putOn hlist hseg hallocated hcurrent
      have hthief : r.thief w = .idle := by
        rw [← hr]
        exact hidle
      refine ⟨pre, head :: retired, h.retire ?_ hleaves hput (.inr ⟨rfl, hloaded⟩) ?_⟩
      · show Alone ((s.setRb w r).rb w) w pre hand
        rw [setRb_rb, ← hr]
        exact halone
      · refine At.calling hw ?_ hloaded
        show ((s.setRb w r).rb w).thief w = .idle
        rw [setRb_rb]
        exact hthief

theorem RingInv.stepOwner (h : RingInv s w chain hand retired held)
    (hw : s.worker w = .get ∨ s.worker w = .commit) (hs : stepOwner junk s w = some s') :
    ∃ chain hand retired held, RingInv s' w chain hand retired held := by
  obtain ⟨hidle, rfl, hloaded⟩ := h.calling hw
  unfold WorkQueue.stepOwner at hs
  split at hs
  · rename_i hret
    have hp := ownerRetires_eq hret
    split at hs
    · cases hs
      exact ⟨chain, hand, retired, [], h.loadList⟩
    · rename_i list hlist
      obtain ⟨r, hr, rfl⟩ := Option.map_eq_some_iff.mp hs
      obtain ⟨chain', retired', hring⟩ := h.popDrop hw hidle hloaded hp hlist hr
      exact ⟨chain', hand, retired', [], hring⟩
  · rename_i hret
    obtain ⟨r, hr, rfl⟩ := Option.map_eq_some_iff.mp hs
    obtain ⟨chain', hring⟩ := h.ownerMoves hw hidle hloaded (Bool.eq_false_iff.mpr hret) hr
    exact ⟨chain', hand, retired, [], hring⟩

/-! ### Steps in Take -/

theorem thiefRetires_eq {p : RingBuffer.ThiefPc V} (h : thiefRetires p = true) :
    ∃ x b, p = .retire x b := by
  cases p with
  | retire x b => exact ⟨x, b, rfl⟩
  | _ => cases h

theorem stepThief_owner {T : Type} [DecidableEq T] {r r' : RingBuffer.State V T} {w : T}
    (hs : RingBuffer.stepThief r w = some r') : r'.owner = r.owner := by
  unfold RingBuffer.stepThief at hs
  split at hs <;> try (split at hs)
  all_goals cases hs
  all_goals rfl

/-- Take puts its segment on the list that it has loaded. -/
theorem RingInv.takeRetires (h : RingInv s w chain hand retired held)
    (hw : s.worker w = .take w) {x b : Nat} (hp : (s.rb w).thief w = .retire x b)
    {list : Option Nat} (hlist : s.freelist w = some list)
    (hsafe : ¬ Threatens s.collector w w (s.ebrEntries w w).epoch)
    {r : RingBuffer.State V (Fin nprocs)}
    (hr : RingBuffer.stepThief
      { s.rb w with thiefFree := Function.update (s.rb w).thiefFree w list } w = some r) :
    RingInv { (s.setRb w r).setEntry w w (.setCurrent (r.thiefFree w)) with
      freelist := Function.update s.freelist w none } w chain none (x :: retired) (x :: held) := by
  have hplace := h.place
  rw [hw] at hplace
  obtain ⟨-, howner, hactive, hepoch⟩ := hplace
  have hfree := h.alone.free (s.rb w).ownerFree (Function.update (s.rb w).thiefFree w list)
  obtain ⟨rfl, halone⟩ := hfree.retire hp
  simp only [RingBuffer.stepThief, hp, Option.some.injEq] at hr
  rw [hr] at halone
  obtain ⟨hnot, -⟩ := List.nodup_cons.mp h.alone.nodup
  have hleaves : Leaves x chain chain (some x) none := by
    constructor
    case used => exact List.mem_cons_self
    case out => exact hnot
    case kept => exact fun y hy => List.mem_cons_of_mem _ hy
    case rest => exact fun y hy => List.mem_cons.mp hy
  have hseg : r.seg = Function.update (s.rb w).seg x { (s.rb w).seg x with prev := list } := by
    rw [← hr]
    show Function.update (s.rb w).seg x { (s.rb w).seg x with
      prev := Function.update (s.rb w).thiefFree w list w } = _
    rw [Function.update_self]
  have hallocated : r.allocated = (s.rb w).allocated := by
    rw [← hr]
    rfl
  have hcurrent : r.thiefFree w = some x := by
    rw [← hr]
    exact Function.update_self ..
  have howner' : r.owner = .idle := by
    rw [← hr]
    exact howner
  have hput := putOn hlist hseg hallocated hcurrent
  refine h.retire ?_ hleaves hput (.inl ⟨rfl, hsafe⟩) ?_
  · show Alone ((s.setRb w r).rb w) w chain none
    rw [setRb_rb]
    exact halone
  · show At _ w (x :: held) (s.worker w)
    rw [hw]
    refine ⟨rfl, ?_, ?_, ?_⟩
    · show ((s.setRb w r).rb w).owner = .idle
      rw [setRb_rb]
      exact howner'
    · exact (congrArg EBREntry.active setEntry_self).trans hactive
    · exact (congrArg EBREntry.epoch setEntry_self).trans hepoch

/-- A step of Take that retires nothing; what it loads is in use. -/
theorem RingInv.takeMoves (h : RingInv s w chain hand retired held) (hw : s.worker w = .take w)
    (hret : thiefRetires ((s.rb w).thief w) = false) {r : RingBuffer.State V (Fin nprocs)}
    (hr : RingBuffer.stepThief (s.rb w) w = some r) {l : List (Fin nprocs × Nat)}
    (hl : l = ((loads (s.rb w) w).toList.map fun x => (w, x)) ++ s.loaded w) :
    ∃ chain' hand', RingInv { s.setRb w r with loaded := Function.update s.loaded w l } w
      chain' hand' retired held := by
  have hplace := h.place
  rw [hw] at hplace
  obtain ⟨-, howner, hactive, hepoch⟩ := hplace
  obtain ⟨chain', hand', halone, hkept, hloads⟩ := h.alone.stepThief hret hr
  refine ⟨chain', hand', h.update ⟨rfl, rfl, rfl, rfl⟩ ?_ ?_ ?_ ?_⟩
  · show Alone ((s.setRb w r).rb w) w chain' hand'
    rw [setRb_rb]
    exact halone
  · show Kept (s.rb w) ((s.setRb w r).rb w) chain chain' hand hand'
    rw [setRb_rb]
    exact hkept
  · intro p hp
    replace hp : p ∈ Function.update s.loaded w l w := hp
    rw [Function.update_self, hl] at hp
    rcases List.mem_append.mp hp with hp | hp
    · obtain ⟨x, hx, rfl⟩ := List.mem_map.mp hp
      exact ⟨rfl, .inl (hloads x (Option.mem_toList.mp hx))⟩
    · obtain ⟨hpw, hmem⟩ := h.loaded p hp
      exact ⟨hpw, hmem.imp (hkept.kept _) id⟩
  · show At _ w held (s.worker w)
    rw [hw]
    refine ⟨rfl, ?_, hactive, hepoch⟩
    show ((s.setRb w r).rb w).owner = .idle
    rw [setRb_rb, stepThief_owner hr]
    exact howner

theorem RingInv.stepThief (h : RingInv s w chain hand retired held) (hw : s.worker w = .take w)
    (hsafe : thiefRetires ((s.rb w).thief w) = true → (s.freelist w).isSome = true →
      ¬ Threatens s.collector w w (s.ebrEntries w w).epoch)
    (hs : stepThief s w w = some s') :
    ∃ chain hand retired held, RingInv s' w chain hand retired held := by
  unfold WorkQueue.stepThief at hs
  split at hs
  · rename_i hret
    obtain ⟨x, b, hp⟩ := thiefRetires_eq hret
    split at hs
    · cases hs
      exact ⟨chain, hand, retired, held, h.loadList⟩
    · rename_i list hlist
      obtain ⟨r, hr, rfl⟩ := Option.map_eq_some_iff.mp hs
      have hloaded : (s.freelist w).isSome = true := by
        rw [hlist]
        rfl
      have hnot := hsafe hret hloaded
      exact ⟨chain, none, x :: retired, x :: held, h.takeRetires hw hp hlist hnot hr⟩
  · rename_i hret
    obtain ⟨r, hr, rfl⟩ := Option.map_eq_some_iff.mp hs
    obtain ⟨chain', hand', hring⟩ := h.takeMoves hw (Bool.eq_false_iff.mpr hret) hr rfl
    exact ⟨chain', hand', retired, held, hring⟩

/-! ### Steps of the workers -/

/-- The worker goes on to another place, and stores to nothing. -/
theorem QueueInv.move (h : QueueInv tid s) (hw : w ≠ tid) {pc : WorkerPc V nprocs}
    (hplace : ∀ held, At s w held (s.worker w) → At s w held pc) : QueueInv tid (s.move w pc) := by
  obtain ⟨chain, hand, retired, held, hring⟩ := h.rings w
  have hpc : (s.move w pc).worker w = pc := move_worker
  have hrest : Rest s (s.move w pc) w := ⟨rfl, rfl, rfl, rfl⟩
  refine h.of_ring hw ⟨chain, hand, retired, held, ?_⟩ (local_move pc)
  refine hring.update hrest hring.alone (.refl _) hring.loaded ?_
  rw [hpc]
  exact (hplace held hring.place).congr rfl rfl rfl rfl rfl rfl

theorem QueueInv.return (h : QueueInv tid s) (hw : w ≠ tid) : QueueInv tid (s.return w) := by
  unfold State.return
  split
  · rename_i hp
    split
    · rename_i howner
      refine h.move hw fun held hplace => ?_
      rw [hp] at hplace
      exact ⟨howner, hplace⟩
    · exact h
  · rename_i hp
    split
    · rename_i howner
      refine h.move hw fun held hplace => ?_
      rw [hp] at hplace
      exact ⟨howner, hplace⟩
    · exact h
  · rename_i v hp
    split
    · rename_i hthief
      refine h.move hw fun held hplace => ?_
      rw [hp] at hplace
      obtain ⟨rfl, howner, hact, hepoch⟩ := hplace
      exact ⟨howner, hthief, hact, hepoch⟩
    · exact h
  · exact h

/-- The worker stores to its entry, but for the lists, and goes on; it holds nothing. -/
theorem QueueInv.entry (h : QueueInv tid s) (hw : w ≠ tid) (f : EBREntry → EBREntry)
    (hf : ∀ e, (f e).freelist = e.freelist) (pc : WorkerPc V nprocs) (hloaded : s.loaded w = [])
    (hplace : ∀ held, At s w held (s.worker w) → At (s.setEntry w w f) w [] pc) :
    QueueInv tid ((s.setEntry w w f).move w pc) := by
  obtain ⟨chain, hand, retired, held, hring⟩ := h.rings w
  have hpc : ((s.setEntry w w f).move w pc).worker w = pc := move_worker
  have hlists := setEntry_field (s := s) (v := w) (i := w) EBREntry.freelist hf w
  refine h.of_ring hw ⟨chain, hand, retired, [], ?_⟩ ((local_setEntry f).trans (local_move pc))
  refine hring.release hring.alone rfl rfl hlists rfl rfl rfl hloaded ?_
  rw [hpc]
  exact (hplace held hring.place).congr rfl rfl rfl rfl rfl rfl

/-- The worker has stored its epoch and enters Push, in its own ring buffer. -/
theorem QueueInv.commitStore (h : QueueInv tid s) (hw : w ≠ tid) {data : V} {epoch : Fin 3}
    (hp : s.worker w = .commitStore data epoch) :
    QueueInv tid (((s.setEntry w w fun e => { e with epoch := epoch }).setRb w
      { s.rb w with owner := .pushHead data }).move w .commit) := by
  obtain ⟨chain, hand, retired, held, hring⟩ := h.rings w
  have hplace := hring.place
  rw [hp] at hplace
  obtain ⟨howner, hthief, -, hloaded⟩ := hplace
  generalize hs₁ : s.setEntry w w (fun e => { e with epoch := epoch }) = s₁
  generalize hr : { s.rb w with owner := RingBuffer.OwnerPc.pushHead data } = r
  have hrb : ((s₁.setRb w r).move w .commit).rb w = r := setRb_rb
  have hpc : ((s₁.setRb w r).move w .commit).worker w = .commit := move_worker
  have hlists : ∀ i, (s₁.ebrEntries w i).freelist = (s.ebrEntries w i).freelist := by
    rw [← hs₁]
    exact setEntry_field (f := fun e => { e with epoch := epoch }) EBREntry.freelist
      (fun _ => rfl) w
  have halone : Alone r w chain hand := by
    rw [← hr]
    have hsame : unlinked (.pushHead data) = unlinked (s.rb w).owner := by
      rw [howner]
      rfl
    exact hring.alone.ownerTo (.of_seg rfl rfl rfl rfl) rfl hsame trivial hthief
  have hlocal : Local s ((s₁.setRb w r).move w .commit) w := by
    rw [← hs₁]
    exact ((local_setEntry _).trans (local_setRb r)).trans (local_move .commit)
  refine h.of_ring hw ⟨chain, hand, retired, [], hring.release ?_ ?_ ?_ hlists ?_ ?_ ?_ ?_ ?_⟩
    hlocal
  · rw [hrb]
    exact halone
  · rw [hrb, ← hr]
    rfl
  · rw [hrb, ← hr]
  · rw [← hs₁]
    rfl
  · rw [← hs₁]
    rfl
  · rw [← hs₁]
    rfl
  · rw [← hs₁]
    exact hloaded
  · rw [hpc]
    refine ⟨?_, rfl, ?_⟩
    · rw [hrb, ← hr]
      exact hthief
    · rw [← hs₁]
      exact hloaded

theorem local_stepOwner (hs : stepOwner junk s w = some s') : Local s s' w := by
  unfold stepOwner at hs
  split at hs
  · split at hs
    · cases hs
      exact local_freelist _
    · obtain ⟨r', -, rfl⟩ := Option.map_eq_some_iff.mp hs
      exact ((local_setRb r').trans (local_setEntry _)).trans (local_freelist _)
  · obtain ⟨r', -, rfl⟩ := Option.map_eq_some_iff.mp hs
    exact local_setRb r'

theorem local_stepThief (hs : stepThief s w w = some s') : Local s s' w := by
  unfold stepThief at hs
  split at hs
  · split at hs
    · cases hs
      exact local_freelist _
    · obtain ⟨r', -, rfl⟩ := Option.map_eq_some_iff.mp hs
      exact ((local_setRb r').trans (local_setEntry _)).trans (local_freelist _)
  · obtain ⟨r', -, rfl⟩ := Option.map_eq_some_iff.mp hs
    exact (local_setRb r').trans (local_loaded _)

/-- In Take a worker is at its own ring buffer. -/
theorem QueueInv.victim (h : QueueInv tid s) {v : Fin nprocs} (hp : s.worker w = .take v) :
    v = w := by
  obtain ⟨chain, hand, retired, held, hring⟩ := h.rings w
  have hplace := hring.place
  rw [hp] at hplace
  exact hplace.1

theorem QueueInv.stepWorker (h : QueueInv tid s) (hc : OwnAndSafe s (.worker w))
    (hs : stepWorker junk s w = some s') : QueueInv tid s' := by
  have hw : w ≠ tid := by
    rintro rfl
    simp only [WorkQueue.stepWorker, h.own] at hs
    cases hs
  obtain ⟨chain, hand, retired, held, hring⟩ := h.rings w
  have hplace := hring.place
  unfold WorkQueue.stepWorker at hs
  split at hs
  case h_1 | h_2 => cases hs
  case h_3 hp =>
    obtain ⟨s₁, hs₁, rfl⟩ := Option.map_eq_some_iff.mp hs
    exact (h.of_ring hw (hring.stepOwner (.inl hp) hs₁) (local_stepOwner hs₁)).return hw
  case h_4 hp =>
    obtain ⟨s₁, hs₁, rfl⟩ := Option.map_eq_some_iff.mp hs
    exact (h.of_ring hw (hring.stepOwner (.inr hp) hs₁) (local_stepOwner hs₁)).return hw
  case h_5 v hp =>
    obtain rfl := h.victim hp
    obtain ⟨s₁, hs₁, rfl⟩ := Option.map_eq_some_iff.mp hs
    simp only [OwnAndSafe, hp] at hc
    exact (h.of_ring hw (hring.stepThief hp hc hs₁) (local_stepThief hs₁)).return hw
  case h_6 data hp =>
    cases hs
    rw [hp] at hplace
    obtain ⟨howner, hthief, -, hloaded⟩ := hplace
    refine h.entry hw (fun e => { e with active := true }) (fun _ => rfl) (.commitLoad data)
      hloaded fun _ _ => ?_
    exact ⟨howner, hthief, rfl, hloaded⟩
  case h_7 data hp =>
    cases hs
    refine h.move hw fun held hplace => ?_
    rw [hp] at hplace
    exact hplace
  case h_8 data epoch hp =>
    cases hs
    exact h.commitStore hw hp
  case h_9 hp =>
    cases hs
    rw [hp] at hplace
    obtain ⟨howner, hthief, -, hloaded⟩ := hplace
    refine h.entry hw (fun e => { e with active := false }) (fun _ => rfl) .outside
      hloaded fun _ _ => ?_
    exact ⟨howner, hthief, rfl, hloaded⟩
  case h_10 hp =>
    cases hs
    rw [hp] at hplace
    obtain ⟨howner, hthief, -, hloaded⟩ := hplace
    refine h.entry hw (fun e => { e with active := true }) (fun _ => rfl) .beginLoad
      hloaded fun _ _ => ?_
    exact ⟨howner, hthief, rfl, hloaded, congrArg EBREntry.active setEntry_self⟩
  case h_11 hp =>
    cases hs
    rw [hp] at hplace
    obtain ⟨howner, hthief, rfl, hloaded, hact⟩ := hplace
    refine h.of_ring hw ⟨chain, hand, retired, [], ?_⟩ ((local_move _).trans (local_began _))
    refine hring.update ⟨rfl, rfl, rfl, rfl⟩ hring.alone (.refl _) hring.loaded ?_
    show At _ w [] ((s.move w (.beginStore (s.epoch w))).worker w)
    rw [move_worker]
    have hbegan : Function.update s.began w s.epoch w = s.epoch := Function.update_self ..
    exact ⟨howner, hthief, rfl, hloaded, hact, (congrFun hbegan w).symm⟩
  case h_12 epoch hp =>
    cases hs
    rw [hp] at hplace
    obtain ⟨howner, hthief, -, hloaded, hact, hepoch⟩ := hplace
    refine h.entry hw (fun e => { e with epoch := epoch }) (fun _ => rfl) .inside
      hloaded fun _ _ => ⟨howner, hthief, ?_, ?_⟩
    · exact (congrArg EBREntry.active setEntry_self).trans hact
    · exact (congrArg EBREntry.epoch setEntry_self).trans hepoch

/-! ### Calls -/

/-- A call that starts at `r`, the worker's ring buffer with its program counters set. -/
theorem QueueInv.enter (h : QueueInv tid s) (hw : w ≠ tid) {r : RingBuffer.State V (Fin nprocs)}
    {pc : WorkerPc V nprocs} (hlist : SameList (s.rb w) r)
    (halone : ∀ chain hand held, At s w held (s.worker w) → Alone (s.rb w) w chain hand →
      Alone r w chain hand)
    (hplace : ∀ held, At s w held (s.worker w) → At (s.setRb w r) w held pc) :
    QueueInv tid ((s.setRb w r).move w pc) := by
  obtain ⟨chain, hand, retired, held, hring⟩ := h.rings w
  have hrb : ((s.setRb w r).move w pc).rb w = r := setRb_rb
  have hpc : ((s.setRb w r).move w pc).worker w = pc := move_worker
  refine h.of_ring hw ⟨chain, hand, retired, held, ?_⟩ ((local_setRb r).trans (local_move pc))
  refine hring.update ⟨rfl, rfl, rfl, rfl⟩ ?_ ?_ hring.loaded ?_
  · rw [hrb]
    exact halone chain hand held hring.place hring.alone
  · rw [hrb]
    exact hlist.kept
  · rw [hpc]
    exact (hplace held hring.place).congr rfl rfl rfl rfl rfl rfl

theorem QueueInv.call (h : QueueInv tid s) {l : Label V nprocs} (hl : l.worker? ≠ some tid)
    (hc : OwnAndSafe s l) (hs : call s l = some s') : QueueInv tid s' := by
  unfold WorkQueue.call at hs
  split at hs
  case h_1 w =>
    have hw : w ≠ tid := fun heq => hl (congrArg some heq)
    split at hs
    · rename_i hp
      cases hs
      refine h.enter hw (.of_seg rfl rfl rfl rfl) ?_ ?_
      · intro chain hand held hplace halone
        rw [hp] at hplace
        obtain ⟨howner, hthief, -⟩ := hplace
        refine halone.ownerTo (.of_seg rfl rfl rfl rfl) rfl ?_ trivial hthief
        rw [howner]
        rfl
      · intro held hplace
        rw [hp] at hplace
        obtain ⟨-, hthief, hheld, hloaded⟩ := hplace
        refine ⟨?_, hheld, hloaded⟩
        rw [setRb_rb]
        exact hthief
    · cases hs
  case h_2 w data =>
    have hw : w ≠ tid := fun heq => hl (congrArg some heq)
    split at hs
    · rename_i hp
      cases hs
      refine h.move hw fun held hplace => ?_
      rw [hp] at hplace
      exact hplace
    · cases hs
  case h_3 w =>
    have hw : w ≠ tid := fun heq => hl (congrArg some heq)
    split at hs
    · rename_i hp
      cases hs
      refine h.move hw fun held hplace => ?_
      rw [hp] at hplace
      exact hplace
    · cases hs
  case h_4 w v =>
    have hw : w ≠ tid := fun heq => hl (congrArg some heq)
    obtain rfl : v = w := hc
    split at hs
    · rename_i hp
      cases hs
      have hload : ((s.rb v).move v .load).thief v = .load := Function.update_self ..
      refine h.enter hw (.of_seg rfl rfl rfl rfl) ?_ ?_
      · intro chain hand held hplace halone
        rw [hp] at hplace
        obtain ⟨howner, hthief, -⟩ := hplace
        refine halone.thiefTo (.of_seg rfl rfl rfl rfl) rfl ?_ ?_ howner
        · rw [hthief, hload]
          rfl
        · rw [hload]
          exact halone.hand_eq_none hthief
      · intro held hplace
        rw [hp] at hplace
        obtain ⟨howner, -, hact⟩ := hplace
        refine ⟨rfl, ?_, hact⟩
        rw [setRb_rb]
        exact howner
    · cases hs
  case h_5 w =>
    have hw : w ≠ tid := fun heq => hl (congrArg some heq)
    split at hs
    · rename_i hp
      cases hs
      obtain ⟨chain, hand, retired, held, hring⟩ := h.rings w
      have hplace := hring.place
      rw [hp] at hplace
      obtain ⟨howner, hthief, -⟩ := hplace
      have hlists := setEntry_field (s := s) (v := w) (i := w)
        (f := fun e => { e with active := false }) EBREntry.freelist (fun _ => rfl) w
      have hnil : Function.update s.loaded w [] w = [] := Function.update_self ..
      refine h.of_ring hw ⟨chain, hand, retired, [], ?_⟩
        (((local_setEntry _).trans (local_move .outside)).trans (local_loaded []))
      refine hring.release hring.alone rfl rfl hlists rfl rfl rfl hnil ?_
      show At _ w [] (((s.setEntry w w _).move w .outside).worker w)
      rw [move_worker]
      exact ⟨howner, hthief, rfl, hnil⟩
    · cases hs
  case h_6 => cases hs

theorem QueueInv.spurious (h : QueueInv tid s) (hs : spurious s w = some s') : QueueInv tid s' := by
  have hw : w ≠ tid := by
    rintro rfl
    simp only [WorkQueue.spurious, h.own] at hs
    cases hs
  unfold WorkQueue.spurious at hs
  split at hs
  · rename_i v hp
    obtain rfl := h.victim hp
    split at hs
    · rename_i x t ret hcas
      cases hs
      obtain ⟨chain, hand, retired, held, hring⟩ := h.rings v
      have hplace := hring.place
      have hat := hring.alone.thief
      rw [hp] at hplace
      rw [hcas] at hat
      obtain ⟨-, howner, hact⟩ := hplace
      have hthief : ((s.rb v).move v (.loadTail x)).thief v = .loadTail x := Function.update_self ..
      have hlist : SameList (s.rb v) ((s.rb v).move v (.loadTail x)) := .of_seg rfl rfl rfl rfl
      refine h.of_ring hw ⟨chain, hand, retired, held, ?_⟩ (local_setRb _)
      refine hring.update ⟨rfl, rfl, rfl, rfl⟩ ?_ ?_ hring.loaded ?_
      · rw [setRb_rb]
        refine hring.alone.thiefTo hlist rfl ?_ ?_ howner
        · rw [hthief, hcas]
          rfl
        · rw [hthief]
          exact hat
      · rw [setRb_rb]
        exact hlist.kept
      · show At _ v held (s.worker v)
        rw [hp]
        refine ⟨rfl, ?_, hact⟩
        rw [setRb_rb]
        exact howner
    · cases hs
  · cases hs

/-! ### The collector -/

theorem epoch_ne_succ {e : Fin 3} : e ≠ e + 1 := by
  revert e
  decide

theorem epoch_add_three {e : Fin 3} : e = e + 2 + 1 := by
  revert e
  decide

theorem threatens_checkNext {v : Fin nprocs} {e k : Fin 3} {rest : List (Fin nprocs)} :
    Threatens (.checkNext v e rest) u w k ↔ v = u ∧ e = k + 1 ∧ w ∉ rest := by
  cases rest with
  | nil => simp [CollectorPc.checkNext, Threatens]
  | cons i rest => exact Iff.rfl

theorem threatens_destroyNext {v : Fin nprocs} {e k : Fin 3} {rest : List (Fin nprocs)} :
    Threatens (.destroyNext v e rest) u w k ↔ v = u ∧ e = k + 1 ∧ w ∈ rest := by
  cases rest with
  | nil => simp [CollectorPc.destroyNext, Threatens]
  | cons i rest => exact Iff.rfl

/-- The collector does not come to threaten a worker that is active. -/
theorem threatens_of_step (hactive : (s.ebrEntries w w).active = true)
    (hs : stepCollector tid s = some s')
    (ht : Threatens s'.collector w w (s'.ebrEntries w w).epoch) :
    Threatens s.collector w w (s.ebrEntries w w).epoch := by
  unfold stepCollector at hs
  split at hs
  case h_1 v hp =>
    cases hs
    obtain ⟨-, -, hout⟩ := threatens_checkNext.mp ht
    exact absurd (List.mem_reverse.mpr (List.mem_finRange w)) hout
  case h_2 v epoch i rest hp =>
    rw [hp]
    split at hs
    · cases hs
      exact ht
    · rename_i hi
      cases hs
      obtain ⟨rfl, he, hout⟩ := threatens_checkNext.mp ht
      have hne : v ≠ i := by
        rintro rfl
        exact hi hactive
      exact ⟨rfl, he, by simpa [hne] using hout⟩
  case h_3 => cases hs
  case h_4 v epoch i rest hp =>
    rw [hp]
    split at hs
    · cases hs
      exact ht.elim
    · rename_i hi
      cases hs
      obtain ⟨rfl, he, hout⟩ := threatens_checkNext.mp ht
      have hne : v ≠ i := by
        rintro rfl
        have heq : (s.ebrEntries v v).epoch = (s.ebrEntries v v).epoch + 1 :=
          (not_not.mp hi).trans he
        exact epoch_ne_succ heq
      exact ⟨rfl, he, by simpa [hne] using hout⟩
  case h_5 v epoch hp =>
    rw [hp]
    split at hs
    · cases hs
      obtain ⟨rfl, he, -⟩ := threatens_destroyNext.mp ht
      exact ⟨rfl, he⟩
    · cases hs
      exact ht.elim
  case h_6 v epoch i rest hp =>
    rw [hp]
    cases hs
    obtain ⟨rfl, he, hin⟩ := ht
    exact ⟨rfl, he, List.mem_cons_of_mem _ hin⟩
  case h_7 => cases hs
  case h_8 v epoch x i rest hp =>
    rw [hp]
    cases hs
    exact ht
  case h_9 v epoch i rest hp =>
    rw [hp]
    cases hs
    exact ht
  case h_10 v epoch i rest hp =>
    rw [hp]
    cases hs
    obtain ⟨hv, he, hin⟩ := threatens_destroyNext.mp ht
    have hepoch := setEntry_field (s := s) (v := v) (i := i) EBREntry.epoch
      (f := .clear (epoch + 2)) (fun _ => rfl) w w
    exact ⟨hv, he.trans (congrArg (· + 1) hepoch), hin⟩
  case h_11 =>
    cases hs
    exact ht.elim

/-- What the collector leaves alone: everything but the lists, and the epoch of its own
entries. -/
structure Still (tid : Fin nprocs) (s s' : State V nprocs) : Prop where
  rb : s'.rb = s.rb
  worker : s'.worker = s.worker
  freelist : s'.freelist = s.freelist
  began : s'.began = s.began
  loaded : s'.loaded = s.loaded
  active : ∀ v i, (s'.ebrEntries v i).active = (s.ebrEntries v i).active
  epoch : ∀ v i, i ≠ tid → (s'.ebrEntries v i).epoch = (s.ebrEntries v i).epoch
  lists : ∀ v i k, ∀ x ∈ (s'.ebrEntries v i).freelist k, x ∈ (s.ebrEntries v i).freelist k

theorem still_collector {c : CollectorPc nprocs} {epochs : Fin nprocs → Fin 3}
    {freed : List (Fin nprocs × Nat)} :
    Still tid s { s with collector := c, epoch := epochs, freed := freed } :=
  ⟨rfl, rfl, rfl, rfl, rfl, fun _ _ => rfl, fun _ _ _ => rfl, fun _ _ _ _ h => h⟩

theorem still_setEntry {c : CollectorPc nprocs} {v i : Fin nprocs} {f : EBREntry → EBREntry}
    (hactive : ∀ e, (f e).active = e.active) (hepoch : i ≠ tid → ∀ e, (f e).epoch = e.epoch)
    (hlists : ∀ e k x, x ∈ (f e).freelist k → x ∈ e.freelist k) :
    Still tid s { s.setEntry v i f with collector := c } where
  rb := rfl
  worker := rfl
  freelist := rfl
  began := rfl
  loaded := rfl
  active := setEntry_field _ hactive
  epoch := by
    intro a b hb
    by_cases hab : a = v ∧ b = i
    · obtain ⟨rfl, rfl⟩ := hab
      exact (congrArg EBREntry.epoch setEntry_self).trans (hepoch hb _)
    · exact congrArg EBREntry.epoch (setEntry_ne hab)
  lists := by
    intro a b k x hx
    by_cases hab : a = v ∧ b = i
    · obtain ⟨rfl, rfl⟩ := hab
      replace hx : x ∈ ((s.setEntry a b f).ebrEntries a b).freelist k := hx
      rw [setEntry_self] at hx
      exact hlists _ k x hx
    · replace hx : x ∈ ((s.setEntry v i f).ebrEntries a b).freelist k := hx
      rwa [setEntry_ne hab] at hx

theorem clear_freelist {e : EBREntry} {j k : Fin 3} {x : Nat} (hx : x ∈ (e.clear j).freelist k) :
    x ∈ e.freelist k := by
  by_cases hk : k = j
  · subst hk
    simp [EBREntry.clear] at hx
  · simpa [EBREntry.clear, hk] using hx

theorem still_stepCollector (hs : stepCollector tid s = some s') : Still tid s s' := by
  unfold stepCollector at hs
  split at hs
  case h_10 =>
    cases hs
    exact still_setEntry (fun _ => rfl) (fun _ _ => rfl) fun _ _ _ hx => clear_freelist hx
  case h_11 =>
    cases hs
    exact still_setEntry (fun _ => rfl) (fun h => absurd rfl h) fun _ _ _ hx => hx
  all_goals try split at hs
  all_goals cases hs
  all_goals exact still_collector

theorem checkNext_ne_free {v : Fin nprocs} {e : Fin 3} {l : List (Fin nprocs)} {v' : Fin nprocs}
    {e' : Fin 3} {cur : Option Nat} {i : Fin nprocs} {rest : List (Fin nprocs)} :
    CollectorPc.checkNext v e l ≠ .free v' e' cur i rest := by
  cases l <;> nofun

theorem destroyNext_ne_free {v : Fin nprocs} {e : Fin 3} {l : List (Fin nprocs)} {v' : Fin nprocs}
    {e' : Fin 3} {cur : Option Nat} {i : Fin nprocs} {rest : List (Fin nprocs)} :
    CollectorPc.destroyNext v e l ≠ .free v' e' cur i rest := by
  cases l <;> nofun

/-- The segment that the collector is about to free is neither in use nor held. -/
theorem RingInv.cur_of_step (h : RingInv s w chain hand retired held)
    (hs : stepCollector tid s = some s') {e : Fin 3} {x : Nat} {i : Fin nprocs}
    {rest : List (Fin nprocs)} (hc : s'.collector = .free w e (some x) i rest) :
    x ∈ retired ∧ x ∉ held := by
  unfold stepCollector at hs
  split at hs
  case h_1 =>
    cases hs
    exact absurd hc checkNext_ne_free
  case h_2 =>
    split at hs
    · cases hs
      cases hc
    · cases hs
      exact absurd hc checkNext_ne_free
  case h_3 | h_7 => cases hs
  case h_4 =>
    split at hs
    · cases hs
      cases hc
    · cases hs
      exact absurd hc checkNext_ne_free
  case h_5 =>
    split at hs
    · cases hs
      exact absurd hc destroyNext_ne_free
    · cases hs
      cases hc
  case h_6 v epoch j rest' hp =>
    cases hs
    injection hc with hv he hcur hi hrest
    subst hv he hi hrest
    obtain ⟨hret, hwhere⟩ := h.lists j _ x hcur
    refine ⟨hret, fun hmem => ?_⟩
    obtain ⟨rfl, hk⟩ := hwhere hmem
    refine h.safe (List.ne_nil_of_mem hmem) ?_
    rw [hp]
    exact ⟨rfl, hk ▸ epoch_add_three, List.mem_cons_self⟩
  case h_8 v epoch cur j rest' hp =>
    cases hs
    injection hc with hv he hcur hi hrest
    subst hv he hi hrest
    obtain ⟨hret, hnot⟩ := h.cur _ _ _ _ hp
    obtain ⟨hx, hclosed⟩ := h.closed cur hret x hcur
    exact ⟨hx, fun hmem => hnot (hclosed hmem)⟩
  case h_9 =>
    cases hs
    cases hc
  case h_10 =>
    cases hs
    exact absurd hc destroyNext_ne_free
  case h_11 =>
    cases hs
    cases hc

/-- The segment that the collector frees was its current one. -/
theorem freed_of_step (hs : stepCollector tid s = some s') {p : Fin nprocs × Nat}
    (hp : p ∈ s'.freed) :
    p ∈ s.freed ∨ ∃ e i rest, s.collector = .free p.1 e (some p.2) i rest := by
  unfold stepCollector at hs
  split at hs
  case h_8 v epoch cur i rest hc =>
    cases hs
    rcases List.mem_cons.mp hp with rfl | hp
    · exact .inr ⟨epoch, i, rest, hc⟩
    · exact .inl hp
  all_goals try split at hs
  all_goals cases hs
  all_goals exact .inl hp

theorem RingInv.stepCollector (h : RingInv s w chain hand retired held)
    (hown : s.worker tid = .outside) (hs : stepCollector tid s = some s') :
    RingInv s' w chain hand retired held := by
  have hstill := still_stepCollector hs
  have hplace := h.place
  -- the epoch of the collector's own entry changes, but the collector holds nothing
  have hepoch : held ≠ [] → (s'.ebrEntries w w).epoch = (s.ebrEntries w w).epoch := by
    intro hne
    refine hstill.epoch w w ?_
    rintro rfl
    rw [hown] at hplace
    exact hne hplace.2.2.1
  have hrb := congrFun hstill.rb w
  constructor
  case alone =>
    rw [hrb]
    exact h.alone
  case apart =>
    rw [hrb]
    exact h.apart
  case among => exact h.among
  case closed =>
    rw [hrb]
    exact h.closed
  case lists =>
    intro i k x hx
    obtain ⟨hret, hwhere⟩ := h.lists i k x (hstill.lists w i k x hx)
    refine ⟨hret, fun hmem => ?_⟩
    rw [hepoch (List.ne_nil_of_mem hmem)]
    exact hwhere hmem
  case list =>
    rw [hstill.freelist]
    exact h.list
  case cur => exact fun e x i rest hc => h.cur_of_step hs hc
  case freed =>
    intro x hx
    rcases freed_of_step hs hx with hx | ⟨e, i, rest, hc⟩
    · exact h.freed x hx
    · exact h.cur e x i rest hc
  case loaded =>
    rw [hstill.loaded]
    exact h.loaded
  case safe =>
    intro hne ht
    obtain ⟨hactive, -⟩ := h.active (.inl hne)
    exact h.safe hne (threatens_of_step hactive hs ht)
  case place =>
    rw [hstill.worker]
    by_cases hw : w = tid
    · subst hw
      rw [hown] at hplace ⊢
      obtain ⟨howner, hthief, hheld, hloaded⟩ := hplace
      refine ⟨?_, ?_, hheld, ?_⟩
      · rw [hrb]
        exact howner
      · rw [hrb]
        exact hthief
      · rw [hstill.loaded]
        exact hloaded
    · have howner := congrArg RingBuffer.State.owner hrb
      have hthief := congrFun (congrArg RingBuffer.State.thief hrb) w
      have hbegan := congrFun (congrFun hstill.began w) w
      have hloaded := congrFun hstill.loaded w
      exact hplace.congr howner hthief (hstill.active w w) (hstill.epoch w w hw) hbegan hloaded

theorem QueueInv.stepCollector (h : QueueInv tid s) (hs : stepCollector tid s = some s') :
    QueueInv tid s' where
  rings := by
    intro w
    obtain ⟨chain, hand, retired, held, hring⟩ := h.rings w
    exact ⟨chain, hand, retired, held, hring.stepCollector h.own hs⟩
  alien := by
    intro v w hne
    rw [(still_stepCollector hs).active]
    exact h.alien v w hne
  own := by
    rw [(still_stepCollector hs).worker]
    exact h.own

/-! ### The result -/

theorem QueueInv.step (h : QueueInv tid s) {l : Label V nprocs} (hc : OwnAndSafe s l)
    (hs : step junk tid s l = some s') : QueueInv tid s' := by
  unfold WorkQueue.step at hs
  split at hs
  · cases hs
  rename_i hl
  split at hs
  · exact h.stepWorker hc hs
  · exact h.spurious hs
  · exact h.stepCollector hs
  · exact h.call hl hc hs

/-- **Stealing is covered by the victim's reclamation** in every run in which workers take
from their own ring buffers only and retire onto no list that the collector gets at. -/
theorem covered_of_ownAndSafe (h : Reaches (step junk tid) OwnAndSafe (init junk tid) s) :
    Covered s :=
  (h.invariant (QueueInv tid) queueInv_init fun _ _ _ hinv hc hs => hinv.step hc hs).covered

/-- Worker 0 takes from its own ring buffer and finds it empty, while the collector goes
once over all of them. -/
def ownRun : List (Label Unit 2) :=
  [.beginTake 0, .worker 0, .worker 0, .worker 0] ++ List.replicate 12 .collector ++
    [.take 0 0, .worker 0, .worker 0, .worker 0, .worker 0]

theorem covered_ownRun : ∃ s : State Unit 2,
    Reaches (step (fun _ => ()) 1) OwnAndSafe (init (fun _ => ()) 1) s ∧ s.loaded 0 = [(0, 0)] ∧
    Covered s := by
  have hrun : ∃ s, runChecked (step (fun _ => ()) 1) OwnAndSafe (init (fun _ => ()) 1) ownRun =
    some s ∧
      s.loaded 0 = [(0, 0)] := ⟨_, rfl, rfl⟩
  obtain ⟨s, hs, hloaded⟩ := hrun
  have hreach := reaches_of_runChecked ownRun hs
  exact ⟨s, hreach, hloaded, covered_of_ownAndSafe hreach⟩

/-- Worker 0 begins and takes from worker 1. -/
def stealRun : List (Label Unit 3) :=
  [.beginTake 0, .worker 0, .worker 0, .worker 0, .take 0 1, .worker 0]

/-- **A worker that steals is not covered**: its entry in the victim's ring buffer is not
active. -/
theorem not_covered :
    ¬ ∀ s : State Unit 3, Reaches (step (fun _ => ()) 2) Free (init (fun _ => ()) 2) s →
    Covered s := by
  intro h
  have hrun : ∃ s, run (step (fun _ => ()) 2) (init (fun _ => ()) 2) stealRun = some s ∧
      (1, 0) ∈ s.loaded 0 ∧ (s.ebrEntries 1 0).active = false :=
    ⟨_, rfl, by decide, by decide⟩
  obtain ⟨s, hs, hloaded, hactive⟩ := hrun
  obtain ⟨hact, -, -⟩ := h s (reaches_of_run stealRun hs) 0 (1, 0) hloaded
  rw [hactive] at hact
  cases hact

end Ksi.WorkQueue

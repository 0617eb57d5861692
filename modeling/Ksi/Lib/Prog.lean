/-
Programs with state, error returns and faults.

A C function that returns an error code may have changed the state before it does, so
an error carries the state it leaves behind and undoes nothing.  A function that
follows a dangling pointer, reads past an array or fails an assertion has no result at
all: it faults.

`wp d x s Q E` is the weakest precondition of `x` in the state `s`: a normal return
meets `Q`, an error return meets `E`, and a fault counts for `d`.  With `d` false it is
total correctness, with `d` true a fault is excused; the rules do not look at `d`, so
one specification of a function serves for both.
-/
import Mathlib.Tactic.Common

/-- A program over states `σ` that may return an error `ε`. -/
def Prog (σ ε α : Type) : Type := σ → Option (Except ε α × σ)

namespace Prog

variable {σ ε α β : Type}

/-- Return `a` and leave the state as it is. -/
protected def pure (a : α) : Prog σ ε α := fun s => some (.ok a, s)

/-- Run `x`, and `f` on what it returns; an error of `x` is returned at once. -/
protected def bind (x : Prog σ ε α) (f : α → Prog σ ε β) : Prog σ ε β := fun s =>
  match x s with
  | none => none
  | some (.error e, s') => some (.error e, s')
  | some (.ok a, s') => f a s'

instance : Monad (Prog σ ε) where
  pure := Prog.pure
  bind := Prog.bind

/-- No result. -/
def fault : Prog σ ε α := fun _ => none

/-- Return an error; what has been done so far stays done. -/
def error (e : ε) : Prog σ ε α := fun s => some (.error e, s)

/-- Return the error `e` unless `c`. -/
def require (c : Prop) [Decidable c] (e : ε) : Prog σ ε Unit :=
  if c then pure () else error e

/-- Run `x` if `c`. -/
def when (c : Prop) [Decidable c] (x : Prog σ ε Unit) : Prog σ ε Unit := if c then x else pure ()

/-- What `o` holds, or the error `e`. -/
def orError (o : Option α) (e : ε) : Prog σ ε α :=
  match o with
  | some a => pure a
  | none => error e

/-- Read the state, with a fault where there is nothing to read. -/
def read (f : σ → Option α) : Prog σ ε α := fun s => (f s).map fun a => (.ok a, s)

/-- Fault unless `c` holds of the state. -/
def assert (c : σ → Prop) [DecidablePred c] : Prog σ ε Unit := fun s =>
  if c s then some (.ok (), s) else none

/-- Change the state. -/
def modify (f : σ → σ) : Prog σ ε Unit := fun s => some (.ok (), f s)

/-- Run `f` on the elements of a list, from the first to the last. -/
def forEach : List α → (α → Prog σ ε Unit) → Prog σ ε Unit
  | [], _ => pure ()
  | a :: rest, f => do
      f a
      forEach rest f

theorem bind_assoc {γ : Type} (x : Prog σ ε α) (f : α → Prog σ ε β) (g : β → Prog σ ε γ) :
    (x >>= f) >>= g = x >>= fun a => f a >>= g := by
  funext s
  show Prog.bind (Prog.bind x f) g s = Prog.bind x (fun a => Prog.bind (f a) g) s
  unfold Prog.bind
  rcases x s with _ | ⟨e | a, s'⟩ <;> rfl

/-! ... of a program whose result is known. -/

theorem bind_of_ok {x : Prog σ ε α} {a : α} {s s' : σ} (hx : x s = some (.ok a, s'))
    (f : α → Prog σ ε β) : (x >>= f) s = f a s' := by
  show Prog.bind x f s = _
  unfold Prog.bind
  rw [hx]

theorem bind_of_error {x : Prog σ ε α} {e : ε} {s s' : σ} (hx : x s = some (.error e, s'))
    (f : α → Prog σ ε β) : (x >>= f) s = some (.error e, s') := by
  show Prog.bind x f s = _
  unfold Prog.bind
  rw [hx]

theorem bind_of_none {x : Prog σ ε α} {s : σ} (hx : x s = none) (f : α → Prog σ ε β) :
    (x >>= f) s = none := by
  show Prog.bind x f s = _
  unfold Prog.bind
  rw [hx]

theorem read_of_none {f : σ → Option α} {s : σ} (h : f s = none) :
    (Prog.read f : Prog σ ε α) s = none :=
  Option.map_eq_none_iff.mpr h

theorem read_of_some {f : σ → Option α} {a : α} {s : σ} (h : f s = some a) :
    (Prog.read f : Prog σ ε α) s = some (.ok a, s) :=
  Option.map_eq_some_iff.mpr ⟨a, h, rfl⟩

/-- A loop whose steps have results, as long as `I` holds. -/
theorem forEach_eq_foldl {f : α → Prog σ ε Unit} {g : σ → α → σ} {I : σ → Prop}
    (hstep : ∀ a s, I s → f a s = some (.ok (), g s a) ∧ I (g s a)) :
    ∀ l s, I s → forEach l f s = some (.ok (), l.foldl g s) ∧ I (l.foldl g s) := by
  intro l
  induction l with
  | nil => exact fun s h => ⟨rfl, h⟩
  | cons a rest ih =>
      intro s h
      obtain ⟨hrun, hnext⟩ := hstep a s h
      obtain ⟨hrest, hlast⟩ := ih (g s a) hnext
      unfold forEach
      rw [bind_of_ok hrun]
      exact ⟨hrest, hlast⟩

/-- What follows on a value that is there. -/
theorem orError_some_bind (a : α) (e : ε) (f : α → Prog σ ε β) :
    (orError (some a) e >>= f) = f a := rfl

/-- Nothing follows on one that is not. -/
theorem orError_none_bind (e : ε) (f : α → Prog σ ε β) :
    (orError none e >>= f) = error e := rfl

/-! ### Weakest preconditions -/

/-- What `x` does from `s` meets `Q` on return and `E` on an error; a fault counts for
`d`. -/
def wp (d : Prop) (x : Prog σ ε α) (s : σ) (Q : α → σ → Prop) (E : ε → σ → Prop) : Prop :=
  match x s with
  | none => d
  | some (.ok a, s') => Q a s'
  | some (.error e, s') => E e s'

variable {d : Prop} {s : σ} {Q : α → σ → Prop} {E : ε → σ → Prop}

@[simp] theorem wp_pure (a : α) : wp d (pure a) s Q E ↔ Q a s := Iff.rfl

@[simp] theorem wp_fault : wp d (fault : Prog σ ε α) s Q E ↔ d := Iff.rfl

@[simp] theorem wp_error (e : ε) : wp d (error e) s Q E ↔ E e s := Iff.rfl

@[simp] theorem wp_modify {Q : Unit → σ → Prop} (f : σ → σ) :
    wp d (modify f) s Q E ↔ Q () (f s) := Iff.rfl

@[simp] theorem wp_bind {Q : β → σ → Prop} (x : Prog σ ε α) (f : α → Prog σ ε β) :
    wp d (x >>= f) s Q E ↔ wp d x s (fun a s' => wp d (f a) s' Q E) E := by
  have hbind : (x >>= f) s = Prog.bind x f s := rfl
  unfold wp
  rw [hbind]
  unfold Prog.bind
  rcases x s with _ | ⟨e | a, s'⟩ <;> rfl

theorem wp_ite (c : Prop) [Decidable c] (x y : Prog σ ε α) :
    wp d (if c then x else y) s Q E ↔ (c → wp d x s Q E) ∧ (¬ c → wp d y s Q E) := by
  by_cases hc : c <;> simp [hc]

@[simp] theorem wp_require {Q : Unit → σ → Prop} (c : Prop) [Decidable c] (e : ε) :
    wp d (require c e) s Q E ↔ (c → Q () s) ∧ (¬ c → E e s) := by
  unfold require
  rw [wp_ite]
  rfl

@[simp] theorem wp_when {Q : Unit → σ → Prop} (c : Prop) [Decidable c] (x : Prog σ ε Unit) :
    wp d (when c x) s Q E ↔ (c → wp d x s Q E) ∧ (¬ c → Q () s) := by
  unfold when
  rw [wp_ite]
  rfl

@[simp] theorem wp_orError (o : Option α) (e : ε) :
    wp d (orError o e) s Q E ↔ (∀ a, o = some a → Q a s) ∧ (o = none → E e s) := by
  unfold orError
  cases o <;> simp

@[simp] theorem wp_read (f : σ → Option α) :
    wp d (read f) s Q E ↔ (f s = none → d) ∧ ∀ a, f s = some a → Q a s := by
  unfold wp read
  cases f s <;> simp

@[simp] theorem wp_assert {Q : Unit → σ → Prop} (c : σ → Prop) [DecidablePred c] :
    wp d (assert c) s Q E ↔ (c s → Q () s) ∧ (¬ c s → d) := by
  unfold wp assert
  by_cases hc : c s <;> simp [hc]

/-! ... of a program whose result is known. -/

theorem wp_of_none {x : Prog σ ε α} (hx : x s = none) : wp d x s Q E ↔ d := by
  unfold wp
  rw [hx]

theorem wp_of_ok {x : Prog σ ε α} {a : α} {s' : σ} (hx : x s = some (.ok a, s')) :
    wp d x s Q E ↔ Q a s' := by
  unfold wp
  rw [hx]

theorem wp_of_error {x : Prog σ ε α} {e : ε} {s' : σ} (hx : x s = some (.error e, s')) :
    wp d x s Q E ↔ E e s' := by
  unfold wp
  rw [hx]

/-- Without a fault none has to be excused. -/
theorem wp_of_total {x : Prog σ ε α} (h : wp False x s Q E) : wp d x s Q E := by
  unfold wp at *
  split at h
  · exact h.elim
  · exact h
  · exact h

/-- A weaker postcondition. -/
theorem wp_mono {x : Prog σ ε α} {Q' : α → σ → Prop} {E' : ε → σ → Prop} (h : wp d x s Q E)
    (hQ : ∀ a s', Q a s' → Q' a s') (hE : ∀ e s', E e s' → E' e s') : wp d x s Q' E' := by
  unfold wp at *
  split at h
  · exact h
  · exact hQ _ _ h
  · exact hE _ _ h

/-- Two postconditions at once. -/
theorem wp_and {x : Prog σ ε α} {Q' : α → σ → Prop} {E' : ε → σ → Prop} (h : wp d x s Q E)
    (h' : wp d x s Q' E') : wp d x s (fun a s' => Q a s' ∧ Q' a s') fun e s' =>
    E e s' ∧ E' e s' := by
  unfold wp at *
  cases hx : x s with
  | none => rw [hx] at h; exact h
  | some r =>
      rw [hx] at h h'
      obtain ⟨r | a, s'⟩ := r <;> exact ⟨h, h'⟩

/-- What is known short of faults is known where there is none. -/
theorem wp_and_of_true {x : Prog σ ε α} {Q' : α → σ → Prop} {E' : ε → σ → Prop} (h : wp d x s Q E)
    (h' : wp True x s Q' E') : wp d x s (fun a s' => Q a s' ∧ Q' a s') fun e s' =>
    E e s' ∧ E' e s' := by
  unfold wp at *
  cases hx : x s with
  | none => rw [hx] at h; exact h
  | some r =>
      rw [hx] at h h'
      obtain ⟨r | a, s'⟩ := r <;> exact ⟨h, h'⟩

/-- **The loop rule**: what holds with the elements `rest` still to come. -/
theorem wp_forEach {f : α → Prog σ ε Unit} (Inv : List α → σ → Prop)
    (hstep : ∀ a rest s, Inv (a :: rest) s → wp d (f a) s (fun _ => Inv rest) E) :
    ∀ (l : List α) {s : σ}, Inv l s → wp d (forEach l f) s (fun _ => Inv []) E := by
  intro l
  induction l with
  | nil => exact fun h => h
  | cons a rest ih =>
      intro s h
      unfold forEach
      rw [wp_bind]
      exact wp_mono (hstep a rest s h) (fun _ _ h' => ih h') fun _ _ h' => h'

/-- The loop rule for a loop that counts `n` steps from `a` on. -/
theorem wp_forRange' {f : Nat → Prog σ ε Unit} (Inv : Nat → σ → Prop) {a n : Nat}
    (hstep : ∀ i s, a ≤ i → i < a + n → Inv i s → wp d (f i) s (fun _ => Inv (i + 1)) E) {s : σ}
    (h : Inv a s) : wp d (forEach (List.range' a n) f) s (fun _ => Inv (a + n)) E := by
  have hloop : wp d (forEach (List.range' a n) f) s
      (fun _ s' => ∃ i, [] = List.range' i (a + n - i) ∧ a ≤ i ∧ i ≤ a + n ∧ Inv i s') E := by
    refine wp_forEach (fun rest s' => ∃ i, rest = List.range' i (a + n - i) ∧ a ≤ i ∧ i ≤ a + n ∧
      Inv i s') ?_ _ ⟨a, by rw [Nat.add_sub_cancel_left], Nat.le_refl a, Nat.le_add_right a n, h⟩
    rintro b rest s' ⟨i, hrest, hge, hle, hinv⟩
    obtain ⟨m, hm⟩ : ∃ m, a + n - i = m + 1 := by
      cases hn : a + n - i with
      | zero => rw [hn] at hrest; cases hrest
      | succ m => exact ⟨m, rfl⟩
    rw [hm, List.range'_succ] at hrest
    obtain ⟨rfl, rfl⟩ := List.cons.inj hrest
    refine wp_mono (hstep b s' hge (by omega) hinv)
      (fun _ _ h' => ⟨b + 1, ?_, by omega, by omega, h'⟩) fun _ _ h' => h'
    rw [show a + n - (b + 1) = m by omega]
  refine wp_mono hloop ?_ fun _ _ h' => h'
  rintro _ s' ⟨i, hnil, hge, hle, hinv⟩
  have hlen := congrArg List.length hnil
  rw [List.length_nil, List.length_range'] at hlen
  obtain rfl : i = a + n := by omega
  exact hinv

/-- The loop rule for a loop that counts from 0 to `n`. -/
theorem wp_forRange {f : Nat → Prog σ ε Unit} (Inv : Nat → σ → Prop) {n : Nat}
    (hstep : ∀ i s, i < n → Inv i s → wp d (f i) s (fun _ => Inv (i + 1)) E) {s : σ}
    (h : Inv 0 s) : wp d (forEach (List.range n) f) s (fun _ => Inv n) E := by
  have hloop := wp_forRange' (d := d) (E := E) (f := f) Inv (n := n)
    (fun i s' _ hi hs' => hstep i s' (by omega) hs') h
  rwa [← List.range_eq_range', Nat.zero_add] at hloop

/-- Two loops whose bodies do the same in every state that is reached do the same. -/
theorem forRange_congr {f g : Nat → Prog σ ε Unit} (Inv : Nat → σ → Prop) {n : Nat}
    (hsame : ∀ i s, i < n → Inv i s → f i s = g i s)
    (hstep : ∀ i s, i < n → Inv i s → wp True (f i) s (fun _ => Inv (i + 1)) fun _ _ => True)
    {s : σ} (h : Inv 0 s) : forEach (List.range n) f s = forEach (List.range n) g s := by
  have hloop : ∀ (k i : Nat) (s : σ), i + k = n → Inv i s →
      forEach (List.range' i k) f s = forEach (List.range' i k) g s := by
    intro k
    induction k with
    | zero => exact fun _ _ _ _ => rfl
    | succ k ih =>
        intro i s hn hi
        have hwp := hstep i s (by omega) hi
        rw [List.range'_succ]
        show Prog.bind (f i) (fun _ => forEach _ f) s = Prog.bind (g i) (fun _ => forEach _ g) s
        unfold Prog.bind
        rw [← hsame i s (by omega) hi]
        cases hf : f i s with
        | none => rfl
        | some r =>
            obtain ⟨e | a, s'⟩ := r
            · rfl
            · exact ih (i + 1) s' (by omega) ((wp_of_ok hf).mp hwp)
  rw [List.range_eq_range']
  exact hloop n 0 s (Nat.zero_add n) h

/-- With faults excluded there is a result. -/
theorem exists_of_wp {x : Prog σ ε α} (h : wp False x s Q E) :
    ∃ r s', x s = some (r, s') ∧ (∀ a, r = .ok a → Q a s') ∧ ∀ e, r = .error e → E e s' := by
  unfold wp at h
  split at h
  · exact h.elim
  · rename_i a s' hx
    exact ⟨.ok a, s', hx, by rintro b ⟨⟩; exact h, by rintro e ⟨⟩⟩
  · rename_i e s' hx
    exact ⟨.error e, s', hx, by rintro b ⟨⟩, by rintro e ⟨⟩; exact h⟩

/-- What is known of a result. -/
theorem of_wp_ok {x : Prog σ ε α} (h : wp d x s Q E) {a : α} {s' : σ}
    (hx : x s = some (.ok a, s')) : Q a s' := (wp_of_ok hx).mp h

theorem of_wp_error {x : Prog σ ε α} (h : wp d x s Q E) {e : ε} {s' : σ}
    (hx : x s = some (.error e, s')) : E e s' := (wp_of_error hx).mp h

/-! ### Programs that return no error -/

/-- `x` returns no error. -/
def Unfailing (x : Prog σ ε α) : Prop := ∀ s, wp True x s (fun _ _ => True) fun _ _ => False

theorem Unfailing.bind {x : Prog σ ε α} {f : α → Prog σ ε β} (hx : x.Unfailing)
    (hf : ∀ a, (f a).Unfailing) : (x >>= f).Unfailing := by
  intro s
  rw [wp_bind]
  exact wp_mono (hx s) (fun a s' _ => hf a s') fun _ _ h => h

theorem Unfailing.pure (a : α) : (pure a : Prog σ ε α).Unfailing := fun _ => trivial

theorem Unfailing.read (f : σ → Option α) : (read f : Prog σ ε α).Unfailing := by
  intro s
  rw [wp_read]
  exact ⟨fun _ => trivial, fun _ _ => trivial⟩

theorem Unfailing.modify (f : σ → σ) : (modify f : Prog σ ε Unit).Unfailing := fun _ => trivial

theorem Unfailing.assert (c : σ → Prop) [DecidablePred c] :
    (assert c : Prog σ ε Unit).Unfailing := by
  intro s
  rw [wp_assert]
  exact ⟨fun _ => trivial, fun _ => trivial⟩

theorem Unfailing.ite {c : Prop} [Decidable c] {x y : Prog σ ε α} (hx : x.Unfailing)
    (hy : y.Unfailing) : (if c then x else y).Unfailing := by
  by_cases hc : c
  · rwa [if_pos hc]
  · rwa [if_neg hc]

theorem Unfailing.when {c : Prop} [Decidable c] {x : Prog σ ε Unit} (hx : x.Unfailing) :
    (when c x).Unfailing := hx.ite (.pure ())

theorem Unfailing.forEach {f : α → Prog σ ε Unit} (hf : ∀ a, (f a).Unfailing) :
    ∀ l : List α, (forEach l f).Unfailing := by
  intro l
  induction l with
  | nil => exact .pure ()
  | cons a rest ih => exact (hf a).bind fun _ => ih

/-- What follows on a return that cannot be an error. -/
theorem Unfailing.wp {x : Prog σ ε α} (hx : x.Unfailing) (s : σ) :
    wp True x s (fun _ _ => True) E :=
  wp_mono (hx s) (fun _ _ h => h) fun _ _ h => h.elim

theorem Unfailing.bind_wp {x : Prog σ ε α} {f : α → Prog σ ε β} {Q : β → σ → Prop}
    (hx : x.Unfailing) (s : σ) (hf : ∀ a s', Prog.wp True (f a) s' Q E) :
    Prog.wp True (x >>= f) s Q E := by
  rw [wp_bind]
  exact wp_mono (hx s) (fun a s' _ => hf a s') fun _ _ h => h.elim

/-! ### What holds of a program when it holds of its parts -/

/-- A property that a program has when its parts have it, and its errors meet `P`. -/
structure Compositional (P : ε → Prop) (K : ∀ {α : Type}, Prog σ ε α → Prop) : Prop where
  pure : ∀ {α : Type} (a : α), K (pure a : Prog σ ε α)
  error : ∀ {α : Type} (e : ε), P e → K (error e : Prog σ ε α)
  bind : ∀ {α β : Type} {x : Prog σ ε α} {f : α → Prog σ ε β}, K x → (∀ a, K (f a)) → K (x >>= f)
  read : ∀ {α : Type} (f : σ → Option α), K (read f : Prog σ ε α)
  assert : ∀ (c : σ → Prop) [DecidablePred c], K (assert c : Prog σ ε Unit)

namespace Compositional

variable {P : ε → Prop} {K : ∀ {α : Type}, Prog σ ε α → Prop} (hK : Compositional P K)
include hK

omit hK in
theorem ite (_ : Compositional P K) {c : Prop} [Decidable c] {x y : Prog σ ε α} (hx : K x)
    (hy : K y) : K (if c then x else y) := by
  by_cases hc : c
  · rwa [if_pos hc]
  · rwa [if_neg hc]

theorem require {c : Prop} [Decidable c] {e : ε} (he : P e) : K (require c e : Prog σ ε Unit) :=
  hK.ite (hK.pure ()) (hK.error e he)

theorem orError (o : Option α) {e : ε} (he : P e) : K (orError o e : Prog σ ε α) := by
  cases o with
  | none => exact hK.error e he
  | some a => exact hK.pure a

theorem when {c : Prop} [Decidable c] {x : Prog σ ε Unit} (hx : K x) : K (when c x) :=
  hK.ite hx (hK.pure ())

/-- Only the elements of the list matter. -/
theorem forEach_mem {f : α → Prog σ ε Unit} :
    ∀ l : List α, (∀ a ∈ l, K (f a)) → K (forEach l f) := by
  intro l
  induction l with
  | nil => exact fun _ => hK.pure ()
  | cons a rest ih =>
      intro hf
      exact hK.bind (hf a List.mem_cons_self) fun _ =>
        ih fun b hb => hf b (List.mem_cons_of_mem a hb)

theorem forEach {f : α → Prog σ ε Unit} (hf : ∀ a, K (f a)) (l : List α) : K (forEach l f) :=
  hK.forEach_mem l fun a _ => hf a

end Compositional

/-- `x` leads from a state only to states that `r` relates it to. -/
def Within (r : σ → σ → Prop) (x : Prog σ ε α) : Prop :=
  ∀ s, Prog.wp True x s (fun _ s' => r s s') fun _ s' => r s s'

/-- To stay within a preorder is compositional. -/
theorem within_compositional {P : ε → Prop} {r : σ → σ → Prop} (hrefl : ∀ s, r s s)
    (htrans : ∀ s₁ s₂ s₃, r s₁ s₂ → r s₂ s₃ → r s₁ s₃) :
    Compositional P fun {α} (x : Prog σ ε α) => Within r x where
  pure := fun _ s => hrefl s
  error := fun _ _ s => hrefl s
  bind := by
    intro α β x f hx hf s
    rw [wp_bind]
    refine wp_mono (hx s) (fun a s' hs => ?_) fun _ _ hs => hs
    exact wp_mono (hf a s') (fun _ _ h => htrans _ _ _ hs h) fun _ _ h => htrans _ _ _ hs h
  read := by
    intro α f s
    rw [wp_read]
    exact ⟨fun _ => trivial, fun _ _ => hrefl s⟩
  assert := by
    intro c _ s
    rw [wp_assert]
    exact ⟨fun _ => hrefl s, fun _ => trivial⟩

theorem Within.modify {r : σ → σ → Prop} {f : σ → σ} (h : ∀ s, r s (f s)) :
    Within r (modify f : Prog σ ε Unit) := fun s => h s

/-- From a state with the invariant `x` leads only to states with it. -/
def Keeps (Inv : σ → Prop) (x : Prog σ ε α) : Prop :=
  ∀ s, Inv s → Prog.wp True x s (fun _ => Inv) fun _ => Inv

/-- To keep an invariant is compositional. -/
theorem keeps_compositional {P : ε → Prop} (Inv : σ → Prop) :
    Compositional P fun {α} (x : Prog σ ε α) => Keeps Inv x where
  pure := fun _ _ h => h
  error := fun _ _ _ h => h
  bind := by
    intro α β x f hx hf s h
    rw [wp_bind]
    exact wp_mono (hx s h) (fun a s' h' => hf a s' h') fun _ _ h' => h'
  read := by
    intro α f s h
    rw [wp_read]
    exact ⟨fun _ => trivial, fun _ _ => h⟩
  assert := by
    intro c _ s h
    rw [wp_assert]
    exact ⟨fun _ => h, fun _ => trivial⟩

theorem Keeps.modify {Inv : σ → Prop} {f : σ → σ} (hf : ∀ s, Inv s → Inv (f s)) :
    Keeps Inv (modify f : Prog σ ε Unit) := hf

/-- What is kept from a state on. -/
theorem Keeps.result {Inv : σ → Prop} {x : Prog σ ε α} (hx : Keeps Inv x) {s s' : σ} (h : Inv s)
    {r : Except ε α} (hr : x s = some (r, s')) : Inv s' := by
  cases r with
  | ok a => exact of_wp_ok (hx s h) hr
  | error e => exact of_wp_error (hx s h) hr

/-- The errors of `x` meet `P`. -/
def Errors (P : ε → Prop) (x : Prog σ ε α) : Prop :=
  ∀ s, Prog.wp True x s (fun _ _ => True) fun e _ => P e

/-- The errors of a program are those of its parts. -/
theorem errors_compositional (P : ε → Prop) :
    Compositional P fun {α} (x : Prog σ ε α) => Errors P x where
  pure := fun _ _ => trivial
  error := fun _ he _ => he
  bind := by
    intro α β x f hx hf s
    rw [wp_bind]
    exact wp_mono (hx s) (fun a s' _ => hf a s') fun _ _ h => h
  read := by
    intro α f s
    rw [wp_read]
    exact ⟨fun _ => trivial, fun _ _ => trivial⟩
  assert := by
    intro c _ s
    rw [wp_assert]
    exact ⟨fun _ => trivial, fun _ => trivial⟩

theorem Unfailing.errors {P : ε → Prop} {x : Prog σ ε α} (hx : x.Unfailing) : Errors P x :=
  fun s => wp_mono (hx s) (fun _ _ h => h) fun _ _ h => h.elim

/-! ### Two programs over different states -/

section Simulates

variable {τ : Type}

/-- Where `x` has a result, `y` has the same from a related state, and the states after it
are related. -/
def Simulates (R : σ → τ → Prop) (x : Prog σ ε α) (y : Prog τ ε α) : Prop :=
  ∀ s t r s', R s t → x s = some (r, s') → ∃ t', y t = some (r, t') ∧ R s' t'

variable {R : σ → τ → Prop}

theorem Simulates.pure (a : α) : Simulates R (pure a : Prog σ ε α) (pure a) := by
  intro s t r s' hR hx
  cases hx
  exact ⟨t, rfl, hR⟩

theorem Simulates.error (e : ε) : Simulates R (error e : Prog σ ε α) (error e) := by
  intro s t r s' hR hx
  cases hx
  exact ⟨t, rfl, hR⟩

/-- A fault is excused. -/
theorem Simulates.fault (y : Prog τ ε α) : Simulates R fault y := by
  intro s t r s' _ hx
  cases hx

theorem Simulates.bind {x : Prog σ ε α} {y : Prog τ ε α} {f : α → Prog σ ε β} {g : α → Prog τ ε β}
    (hxy : Simulates R x y) (hfg : ∀ a, Simulates R (f a) (g a)) :
    Simulates R (x >>= f) (y >>= g) := by
  intro s t r s' hR hx
  have hbind : Prog.bind x f s = some (r, s') := hx
  show ∃ t', Prog.bind y g t = some (r, t') ∧ R s' t'
  unfold Prog.bind at hbind ⊢
  cases hres : x s with
  | none =>
      rw [hres] at hbind
      cases hbind
  | some res =>
      obtain ⟨a, s₁⟩ := res
      rw [hres] at hbind
      obtain ⟨t₁, hy, hR₁⟩ := hxy s t a s₁ hR hres
      rw [hy]
      cases a with
      | error e =>
          cases hbind
          exact ⟨t₁, rfl, hR₁⟩
      | ok a => exact hfg a s₁ t₁ r s' hR₁ hbind

/-- A step of `y` alone. -/
theorem Simulates.stutter {x : Prog σ ε β} {c : Prog τ ε α} {g : α → Prog τ ε β}
    (hc : ∀ s t, R s t → ∃ a t', c t = some (.ok a, t') ∧ R s t')
    (hg : ∀ a, Simulates R x (g a)) : Simulates R x (c >>= g) := by
  intro s t r s' hR hx
  obtain ⟨a, t₁, hct, hR₁⟩ := hc s t hR
  obtain ⟨t', hgt, hR'⟩ := hg a s t₁ r s' hR₁ hx
  refine ⟨t', ?_, hR'⟩
  show Prog.bind c g t = _
  unfold Prog.bind
  rw [hct]
  exact hgt

theorem Simulates.ite {c : Prop} [Decidable c] {x x' : Prog σ ε α} {y y' : Prog τ ε α}
    (h : Simulates R x y) (h' : Simulates R x' y') :
    Simulates R (if c then x else x') (if c then y else y') := by
  by_cases hc : c
  · rwa [if_pos hc, if_pos hc]
  · rwa [if_neg hc, if_neg hc]

theorem Simulates.when {c : Prop} [Decidable c] {x : Prog σ ε Unit} {y : Prog τ ε Unit}
    (h : Simulates R x y) : Simulates R (when c x) (when c y) := h.ite (.pure ())

theorem Simulates.require (c : Prop) [Decidable c] (e : ε) :
    Simulates R (require c e : Prog σ ε Unit) (require c e) := .ite (.pure ()) (.error e)

theorem Simulates.orError (o : Option α) (e : ε) :
    Simulates R (orError o e : Prog σ ε α) (orError o e) := by
  cases o with
  | none => exact .error e
  | some a => exact .pure a

end Simulates

end Prog

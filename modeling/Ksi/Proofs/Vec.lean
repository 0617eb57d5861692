/-
The ids of a vector over a whole run.

The history keeps, beside the vector, which items have been inserted under which ids and
not been deleted.  `VecInv` says that the vector holds just these, that the free list has
all the holes below `size`, and that `size` has not outgrown the array; every call that
its caller may make keeps it.
-/
import Ksi.Lib.Runs
import Ksi.Vec

namespace Ksi

open Runs

variable {α : Type}

/-! ### Runs -/

/-- A vector, and the items that live in it by what has been called. -/
structure VecHistory (α : Type) where
  vec : KsiVec α
  live : Nat → Option α

/-- A call on the vector. -/
inductive VecCall (α : Type)
  | insert (item : α)
  | delete (id : Nat)

namespace VecHistory

/-- A vector just set up; what `ksiMalloc` gives has any content. -/
def init (capacity : Nat) (data : Nat → Option α) : VecHistory α where
  vec := { ksiVecInit α capacity with data := data }
  live := fun _ => none

def step (s : VecHistory α) : VecCall α → Option (VecHistory α)
  | .insert item => some
      { vec := (ksiVecInsert s.vec item).2
        live := Function.update s.live (ksiVecInsert s.vec item).1 (some item) }
  | .delete id => some
      { vec := ksiVecDelete s.vec id
        live := Function.update s.live id none }

/-- The id of a deletion passes CHECK_VEC. -/
def Checked (s : VecHistory α) : VecCall α → Prop
  | .insert _ => True
  | .delete id => ∃ item, s.vec.check id = some (some item)

end VecHistory

/-! ### The invariant -/

/-- What a vector and its history have in common after any run. -/
structure VecInv (s : VecHistory α) : Prop where
  tidy : s.vec.Tidy
  /-- every hole is on the free list -/
  holes : ∀ i, i < s.vec.size → s.vec.data i = none → i ∈ s.vec.freelist
  room : s.vec.size ≤ s.vec.capacity
  positive : 1 ≤ s.vec.capacity
  holds : ∀ i item, s.vec.Holds i item ↔ s.live i = some item

namespace VecInv

variable {s : VecHistory α} {capacity id : Nat} {item : α}

theorem init (hcap : 1 ≤ capacity) (data : Nat → Option α) :
    VecInv (VecHistory.init capacity data) where
  tidy := ⟨fun i hi => (by cases hi), List.nodup_nil⟩
  holes := fun i hi _ => absurd hi (Nat.not_lt_zero i)
  room := Nat.zero_le capacity
  positive := hcap
  holds := by
    intro i item
    constructor
    · intro h
      exact absurd h.1 (Nat.not_lt_zero i)
    · intro h
      cases h

/-- The id that an insertion takes is inside of the array. -/
theorem insert_lt (h : VecInv s) (item : α) :
    (ksiVecInsert s.vec item).1 < (ksiVecInsert s.vec item).2.capacity := by
  have hroom := h.room
  have hpos := h.positive
  unfold ksiVecInsert
  split
  · rename_i ret next hfree
    have hret := (h.tidy.free ret (by rw [hfree]; exact List.mem_cons_self)).1
    simp only
    omega
  · simp only
    split
    · omega
    · omega

theorem insert (h : VecInv s) (item : α) :
    VecInv { vec := (ksiVecInsert s.vec item).2
             live := Function.update s.live (ksiVecInsert s.vec item).1 (some item) } where
  tidy := h.tidy.insert item
  holes := by
    intro i hi hnone
    unfold ksiVecInsert at hi hnone ⊢
    split at hi
    · rename_i ret next hfree
      rw [hfree] at hnone
      simp only at hi hnone ⊢
      by_cases hret : i = ret
      · rw [hret, Function.update_self] at hnone
        cases hnone
      · rw [Function.update_of_ne hret] at hnone
        have hmem := h.holes i hi hnone
        rw [hfree] at hmem
        exact (List.mem_cons.mp hmem).resolve_left hret
    · rename_i hfree
      rw [hfree] at hnone
      simp only at hi hnone ⊢
      by_cases hlast : i = s.vec.size
      · rw [hlast, Function.update_self] at hnone
        cases hnone
      · rw [Function.update_of_ne hlast] at hnone
        exact h.holes i (by omega) hnone
  room := by
    have hroom := h.room
    have hpos := h.positive
    unfold ksiVecInsert
    split
    · exact hroom
    · simp only
      split
      · omega
      · omega
  positive := by
    have hpos := h.positive
    unfold ksiVecInsert
    split
    · exact hpos
    · simp only
      split
      · exact hpos
      · omega
  holds := by
    intro i a
    rw [KsiVec.holds_insert h.tidy]
    by_cases hi : i = (ksiVecInsert s.vec item).1
    · subst hi
      simp [eq_comm]
    · simp [hi, h.holds]

theorem delete (h : VecInv s) (hid : s.vec.Holds id item) :
    VecInv { vec := ksiVecDelete s.vec id, live := Function.update s.live id none } where
  tidy := h.tidy.delete hid
  holes := by
    intro i hi hnone
    have hlt := hid.1
    unfold ksiVecDelete at hi hnone ⊢
    by_cases hlast : id + 1 = s.vec.size
    · rw [if_pos hlast] at hi hnone ⊢
      simp only at hi
      exact h.holes i (by omega) hnone
    · rw [if_neg hlast] at hi hnone ⊢
      simp only at hi hnone
      by_cases heq : i = id
      · rw [heq]
        exact List.mem_cons_self
      · rw [Function.update_of_ne heq] at hnone
        exact List.mem_cons_of_mem id (h.holes i hi hnone)
  room := by
    have hroom := h.room
    unfold ksiVecDelete
    split
    · simp only
      omega
    · exact hroom
  positive := by
    unfold ksiVecDelete
    split
    · exact h.positive
    · exact h.positive
  holds := by
    intro i a
    rw [KsiVec.holds_delete hid]
    by_cases hi : i = id
    · simp [hi]
    · simp [hi, h.holds]

theorem step {call : VecCall α} {s' : VecHistory α} (h : VecInv s) (hc : s.Checked call)
    (hs : s.step call = some s') : VecInv s' := by
  cases call with
  | insert item =>
      obtain rfl := Option.some.inj hs
      exact h.insert item
  | delete id =>
      obtain rfl := Option.some.inj hs
      obtain ⟨item, hitem⟩ := hc
      exact h.delete (KsiVec.check_some hitem).1

end VecInv

/-! ### Iterating -/

variable {data : Nat → Option α}

/-- The loop stops at the slots that are not NULL. -/
theorem mem_ksiVecVisits (i : Nat) (item : α) :
    ∀ rest start : Nat, (i, item) ∈ ksiVecVisits data start rest ↔
      start ≤ i ∧ i < start + rest ∧ data i = some item := by
  intro rest
  induction rest with
  | zero =>
      intro start
      unfold ksiVecVisits
      simp only [List.not_mem_nil, false_iff]
      omega
  | succ rest ih =>
      intro start
      unfold ksiVecVisits
      split
      · rename_i hnone
        rw [ih]
        constructor
        · intro h
          exact ⟨by omega, by omega, h.2.2⟩
        · intro h
          have hne : start ≠ i := by
            intro heq
            rw [heq, h.2.2] at hnone
            cases hnone
          exact ⟨by omega, by omega, h.2.2⟩
      · rename_i first hsome
        rw [List.mem_cons, ih]
        constructor
        · intro h
          rcases h with heq | h
          · obtain ⟨rfl, rfl⟩ := Prod.mk.inj heq
            exact ⟨Nat.le_refl i, by omega, hsome⟩
          · exact ⟨by omega, by omega, h.2.2⟩
        · intro h
          by_cases heq : i = start
          · subst heq
            rw [hsome] at h
            exact .inl (by rw [Option.some.inj h.2.2])
          · exact .inr ⟨by omega, by omega, h.2.2⟩

/-- It stops at them in the order of the slots. -/
theorem pairwise_ksiVecVisits : ∀ rest start : Nat,
    (ksiVecVisits data start rest).Pairwise fun a b => a.1 < b.1 := by
  intro rest
  induction rest with
  | zero =>
      intro start
      exact List.Pairwise.nil
  | succ rest ih =>
      intro start
      unfold ksiVecVisits
      split
      · exact ih (start + 1)
      · refine List.pairwise_cons.mpr ⟨fun b hb => ?_, ih (start + 1)⟩
        obtain ⟨i, item⟩ := b
        exact ((mem_ksiVecVisits i item rest (start + 1)).mp hb).1

/-! ### The result -/

/-- **Ids are stable and unique.**  After any run of insertions and of deletions that pass
CHECK_VEC, the next write is inside of the array, whichever call makes it; the free list
has each hole below `size` once; a new id is not a live one, and a live id has the item it
was given for; the iteration comes to each live item once, in the order of the ids. -/
theorem vec_stable {capacity : Nat} (hcap : 1 ≤ capacity) (data : Nat → Option α)
    {s : VecHistory α}
    (h : Reaches VecHistory.step VecHistory.Checked (VecHistory.init capacity data) s) :
    (∀ item, (ksiVecInsert s.vec item).1 < (ksiVecInsert s.vec item).2.capacity) ∧
    (∀ id, s.Checked (.delete id) → id < s.vec.capacity) ∧
    s.vec.freelist.Nodup ∧
    (∀ i, i ∈ s.vec.freelist ↔ i < s.vec.size ∧ s.vec.data i = none) ∧
    (∀ item, s.live (ksiVecInsert s.vec item).1 = none) ∧
    (∀ id item, s.live id = some item → id < s.vec.size ∧ s.vec.data id = some item) ∧
    (ksiVecBeginIterate s.vec).Pairwise (fun a b => a.1 < b.1) ∧
    (∀ id item, (id, item) ∈ ksiVecBeginIterate s.vec ↔ s.live id = some item) := by
  have hinv : VecInv s := h.invariant VecInv (VecInv.init hcap data)
    fun _ _ _ hi hc hs => hi.step hc hs
  have hdelete : ∀ id, s.Checked (.delete id) → id < s.vec.capacity := by
    intro id hid
    obtain ⟨item, hitem⟩ := hid
    have hlt := (KsiVec.check_some hitem).1.1
    have hroom := hinv.room
    rw [Int.toNat_natCast] at hlt
    omega
  have hfree : ∀ i, i ∈ s.vec.freelist ↔ i < s.vec.size ∧ s.vec.data i = none := by
    intro i
    constructor
    · intro hi
      exact hinv.tidy.free i hi
    · intro hi
      exact hinv.holes i hi.1 hi.2
  have hnew : ∀ item, s.live (ksiVecInsert s.vec item).1 = none := by
    intro item
    rw [Option.eq_none_iff_forall_not_mem]
    intro b hb
    exact KsiVec.not_holds_insert hinv.tidy item ((hinv.holds _ b).mpr hb)
  have hvisit : ∀ id item, (id, item) ∈ ksiVecBeginIterate s.vec ↔ s.live id = some item := by
    intro id item
    unfold ksiVecBeginIterate
    rw [mem_ksiVecVisits, ← hinv.holds]
    unfold KsiVec.Holds
    simp
  exact ⟨hinv.insert_lt, hdelete, hinv.tidy.nodup, hfree, hnew,
    fun id item hid => (hinv.holds id item).mpr hid, pairwise_ksiVecVisits s.vec.size 0, hvisit⟩

/-- Two items are inserted, the first one is deleted, and its id goes to a third one. -/
theorem vec_stable_reused : ∃ s : VecHistory Nat,
    Reaches VecHistory.step VecHistory.Checked (VecHistory.init 1 fun _ => none) s ∧
    s.live 0 = some 9 ∧ s.live 1 = some 7 ∧
    (∀ id item, (id, item) ∈ ksiVecBeginIterate s.vec ↔ s.live id = some item) := by
  have h₂ : Reaches VecHistory.step VecHistory.Checked (VecHistory.init 1 fun _ => none) _ :=
    .tail (.insert 7) (.tail (.insert 5) .refl trivial rfl) trivial rfl
  have h₃ : Reaches VecHistory.step VecHistory.Checked (VecHistory.init 1 fun _ => none) _ :=
    .tail (.delete 0) h₂ ⟨5, rfl⟩ rfl
  have h : Reaches VecHistory.step VecHistory.Checked (VecHistory.init 1 fun _ => none) _ :=
    .tail (.insert 9) h₃ trivial rfl
  obtain ⟨-, -, -, -, -, -, -, hvisit⟩ := vec_stable (Nat.le_refl 1) (fun _ => none) h
  exact ⟨_, h, rfl, rfl, hvisit⟩

end Ksi

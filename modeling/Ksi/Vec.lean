/-
The vector with unique ids of vec.h.

An id is the index of a slot.  Deleting the last slot shrinks the vector, and its
content stays behind above `size`; deleting another one stores NULL there and puts the
id on the free list, which the next insertion uses first.  Slots are read without a
bound other than the one of CHECK_VEC, so `data` has all indices.  `capacity` grows
without the bound of a 32-bit integer.
-/
import Mathlib.Logic.Function.Basic

namespace Ksi

/-- `KsiVec`; a slot that holds NULL is `none`. -/
structure KsiVec (α : Type) where
  size : Nat
  capacity : Nat
  data : Nat → Option α
  freelist : List Nat

variable {α : Type}

def ksiVecInit (α : Type) (capacity : Nat) : KsiVec α where
  size := 0
  capacity := capacity
  data := fun _ => none
  freelist := []

/-- `ksiVecInsert`: the id and the vector. -/
def ksiVecInsert (v : KsiVec α) (item : α) : Nat × KsiVec α :=
  match v.freelist with
  | ret :: next =>
      (ret, { v with data := Function.update v.data ret (some item), freelist := next })
  | [] =>
      (v.size, { v with
        capacity := if v.size < v.capacity - 1 then v.capacity else v.capacity * 2
        data := Function.update v.data v.size (some item)
        size := v.size + 1 })

/-- `ksiVecDelete`. -/
def ksiVecDelete (v : KsiVec α) (id : Nat) : KsiVec α :=
  if id + 1 = v.size then { v with size := v.size - 1 }
  else { v with data := Function.update v.data id none, freelist := id :: v.freelist }

/-- The indices from `i` on that the loop of `ksiVecBeginIterate` stops at, with their
items, when `rest` are left. -/
def ksiVecVisits (data : Nat → Option α) (i : Nat) : Nat → List (Nat × α)
  | 0 => []
  | rest + 1 =>
      match data i with
      | none => ksiVecVisits data (i + 1) rest
      | some item => (i, item) :: ksiVecVisits data (i + 1) rest

/-- `ksiVecBeginIterate`: what its body is run with. -/
def ksiVecBeginIterate (v : KsiVec α) : List (Nat × α) := ksiVecVisits v.data 0 v.size

namespace KsiVec

/-- CHECK_VEC: the item with this id, `some none` where there is none.  The macro does
not test for a negative id, and then reads below the array. -/
def check (v : KsiVec α) (id : Int) : Option (Option α) :=
  if (v.size : Int) ≤ id then some none
  else if id < 0 then none
  else some (v.data id.toNat)

/-- The id `i` is in use, by `a`. -/
def Holds (v : KsiVec α) (i : Nat) (a : α) : Prop := i < v.size ∧ v.data i = some a

/-- The free list names the slots below `size` that hold NULL, some of them, and none
twice. -/
structure Tidy (v : KsiVec α) : Prop where
  free : ∀ i ∈ v.freelist, i < v.size ∧ v.data i = none
  nodup : v.freelist.Nodup

variable {v : KsiVec α} {a b : α} {i j : Nat} {id : Int}

theorem check_some (h : v.check id = some (some a)) : v.Holds id.toNat a ∧ 0 ≤ id := by
  unfold check at h
  split at h
  · simp at h
  · split at h
    · simp at h
    · exact ⟨⟨by omega, by simpa using h⟩, by omega⟩

theorem check_nonneg {o : Option α} (h : v.check id = some o) : 0 ≤ id := by
  by_contra hneg
  unfold check at h
  rw [if_neg (by omega), if_pos (by omega)] at h
  cases h

theorem check_ne_none (h : 0 ≤ id) : v.check id ≠ none := by
  unfold check
  split
  · simp
  · rw [if_neg (by omega)]
    simp

theorem Holds.check (h : v.Holds i a) : v.check i = some (some a) := by
  obtain ⟨hlt, hdata⟩ := h
  unfold KsiVec.check
  rw [if_neg (by omega), if_neg (by omega), Int.toNat_natCast, hdata]

theorem Holds.unique (h : v.Holds i a) (h' : v.Holds i b) : a = b :=
  Option.some.inj (h.2.symm.trans h'.2)

/-! ### Insertion -/

/-- An insertion brings in the new item only, under the new id. -/
theorem holds_of_insert {item : α} (h : (ksiVecInsert v item).2.Holds i a) :
    (i = (ksiVecInsert v item).1 ∧ a = item) ∨ v.Holds i a := by
  unfold ksiVecInsert Holds at *
  split at h
  · rename_i ret next hfree
    by_cases heq : i = ret
    · subst heq
      exact .inl ⟨rfl, by simpa using h.2.symm⟩
    · exact .inr (by simpa [heq] using h)
  · by_cases heq : i = v.size
    · subst heq
      exact .inl ⟨rfl, by simpa using h.2.symm⟩
    · refine .inr ⟨?_, by simpa [heq] using h.2⟩
      have := h.1
      simp only at this
      omega

/-- The id of a new item was not in use. -/
theorem not_holds_insert (ht : v.Tidy) (item : α) : ¬ v.Holds (ksiVecInsert v item).1 a := by
  rintro ⟨hlt, hdata⟩
  unfold ksiVecInsert at hlt hdata
  split at hlt
  · rename_i ret next hfree
    rw [hfree] at hdata
    simp only at hdata
    have := (ht.free ret (by rw [hfree]; exact List.mem_cons_self)).2
    rw [this] at hdata
    cases hdata
  · exact Nat.lt_irrefl _ hlt

/-- After an insertion the new id holds the new item, and every other id what it held
before. -/
theorem holds_insert (ht : v.Tidy) (item : α) :
    (ksiVecInsert v item).2.Holds i a ↔
      (i = (ksiVecInsert v item).1 ∧ a = item) ∨ (i ≠ (ksiVecInsert v item).1 ∧ v.Holds i a) := by
  unfold ksiVecInsert Holds
  split
  · rename_i ret next hfree
    have hret := (ht.free ret (by rw [hfree]; exact List.mem_cons_self)).1
    by_cases heq : i = ret
    · subst heq
      simp only [Function.update_self, Option.some.injEq, hret, true_and, ne_eq, not_true_eq_false,
        false_and, or_false]
      exact eq_comm
    · simp [heq]
  · by_cases heq : i = v.size
    · subst heq
      simp only [Function.update_self, Option.some.injEq, Nat.lt_succ_self, true_and, ne_eq,
        not_true_eq_false, false_and, or_false]
      exact eq_comm
    · simp only [Function.update_of_ne heq, heq, false_and, ne_eq, not_false_eq_true, true_and,
        false_or]
      constructor
      · exact fun h => ⟨by omega, h.2⟩
      · exact fun h => ⟨by omega, h.2⟩

theorem Tidy.insert (ht : v.Tidy) (item : α) : (ksiVecInsert v item).2.Tidy := by
  unfold ksiVecInsert
  split
  · rename_i ret next hfree
    have hnodup := ht.nodup
    rw [hfree, List.nodup_cons] at hnodup
    refine ⟨fun i hi => ?_, hnodup.2⟩
    have hne : i ≠ ret := fun heq => hnodup.1 (heq ▸ hi)
    have := ht.free i (by rw [hfree]; exact List.mem_cons_of_mem _ hi)
    exact ⟨this.1, by rw [← this.2]; exact Function.update_of_ne hne _ _⟩
  · refine ⟨fun i hi => ?_, ht.nodup⟩
    have := ht.free i hi
    refine ⟨Nat.lt_succ_of_lt this.1, ?_⟩
    rw [← this.2]
    exact Function.update_of_ne (Nat.ne_of_lt this.1) _ _

/-! ### Deletion -/

/-- A deletion brings nothing in. -/
theorem holds_of_delete (h : (ksiVecDelete v i).Holds j b) : v.Holds j b := by
  unfold ksiVecDelete Holds at *
  split at h
  · exact ⟨Nat.lt_of_lt_of_le h.1 (Nat.sub_le _ _), h.2⟩
  · by_cases hj : j = i
    · subst hj
      simp at h
    · simpa [hj] using h

/-- After the deletion of a live id the others hold what they held before. -/
theorem holds_delete (hid : v.Holds i a) : (ksiVecDelete v i).Holds j b ↔ j ≠ i ∧ v.Holds j b := by
  have hlt := hid.1
  unfold ksiVecDelete Holds
  split
  · simp only
    constructor
    · exact fun h => ⟨by omega, by omega, h.2⟩
    · exact fun h => ⟨by omega, h.2.2⟩
  · by_cases heq : j = i
    · subst heq
      simp [Function.update_self]
    · simp [heq]

theorem Tidy.delete (ht : v.Tidy) (hid : v.Holds i a) : (ksiVecDelete v i).Tidy := by
  have hnot : ∀ j ∈ v.freelist, j ≠ i := by
    rintro j hj rfl
    have := (ht.free j hj).2
    rw [hid.2] at this
    cases this
  unfold ksiVecDelete
  split
  · refine ⟨fun j hj => ?_, ht.nodup⟩
    have := ht.free j hj
    have := hnot j hj
    exact ⟨by simp only; omega, by simp only; exact (ht.free j hj).2⟩
  · refine ⟨fun j hj => ?_, List.nodup_cons.mpr ⟨fun h => hnot i h rfl, ht.nodup⟩⟩
    rcases List.mem_cons.mp hj with rfl | hj
    · exact ⟨hid.1, Function.update_self ..⟩
    · have := ht.free j hj
      exact ⟨this.1, by rw [← this.2]; exact Function.update_of_ne (hnot j hj) _ _⟩

end KsiVec

end Ksi

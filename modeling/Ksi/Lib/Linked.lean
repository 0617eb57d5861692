/-
Linked lists.

`next` says of each node which one comes after it.  A list of nodes is linked if each
points to the one that follows it and the last one to nothing; then what can be reached
from a node of the list is what follows it there.  It is doubly linked if `prev` links it
the other way round as well.
-/
import Mathlib.Logic.Relation
import Mathlib.Logic.Function.Basic
import Mathlib.Data.List.Nodup

variable {ν : Type} {next : ν → Option ν} {l l₁ l₂ : List ν} {a b n : ν}

/-- Each node of the list points to the one after it. -/
def Linked (next : ν → Option ν) : List ν → Prop
  | [] => True
  | a :: rest => next a = rest.head? ∧ Linked next rest

namespace Linked

theorem append_right (h : Linked next (l₁ ++ l₂)) : Linked next l₂ := by
  induction l₁ with
  | nil => exact h
  | cons a rest ih => exact ih h.2

theorem next_eq (h : Linked next (l₁ ++ a :: l₂)) : next a = l₂.head? := h.append_right.1

/-- A node outside of the list may point anywhere. -/
theorem update [DecidableEq ν] (h : Linked next l) (hn : n ∉ l) (x : Option ν) :
    Linked (Function.update next n x) l := by
  induction l with
  | nil => trivial
  | cons a rest ih =>
      rw [List.mem_cons, not_or] at hn
      exact ⟨by rw [Function.update_of_ne (Ne.symm hn.1)]; exact h.1, ih h.2 hn.2⟩

/-- The last node is made to point to a new one. -/
theorem snoc [DecidableEq ν] (h : Linked next (l ++ [a])) (hnodup : (l ++ [a]).Nodup)
    (hb : b ∉ l ++ [a]) (hnext : next b = none) :
    Linked (Function.update next a (some b)) (l ++ [a, b]) := by
  induction l with
  | nil =>
      have hne : b ≠ a := fun heq => hb (by simp [heq])
      exact ⟨Function.update_self .., by rw [Function.update_of_ne hne, hnext]; rfl, trivial⟩
  | cons c rest ih =>
      rw [List.cons_append, List.nodup_cons] at hnodup
      rw [List.cons_append, List.mem_cons, not_or] at hb
      have hca : c ≠ a := fun heq => hnodup.1 (by simp [heq])
      refine ⟨?_, ih h.2 hnodup.2 hb.2⟩
      rw [Function.update_of_ne hca, h.1]
      cases rest <;> rfl

/-- A node is made the last one. -/
theorem cut [DecidableEq ν] (h : Linked next (l₁ ++ a :: l₂)) (hnodup : (l₁ ++ [a]).Nodup) :
    Linked (Function.update next a none) (l₁ ++ [a]) := by
  induction l₁ with
  | nil => exact ⟨Function.update_self .., trivial⟩
  | cons c rest ih =>
      rw [List.cons_append, List.nodup_cons] at hnodup
      have hca : c ≠ a := fun heq => hnodup.1 (by simp [heq])
      refine ⟨?_, ih h.2 hnodup.2⟩
      rw [Function.update_of_ne hca, h.1]
      cases rest <;> rfl

/-- What can be reached from the first node is in the list. -/
theorem mem_of_reaches (h : Linked next l) (ha : a ∈ l)
    (hr : Relation.ReflTransGen (fun x y => next x = some y) a b) : b ∈ l := by
  induction hr with
  | refl => exact ha
  | tail _ hstep ih =>
      obtain ⟨l₁, l₂, rfl⟩ := List.append_of_mem ih
      rw [h.next_eq] at hstep
      exact List.mem_append_right _ (List.mem_cons_of_mem _ (List.mem_of_mem_head? hstep))

/-- What is in the list can be reached from the first node. -/
theorem reaches_of_mem : ∀ {l : List ν} {a : ν}, Linked next (a :: l) → b ∈ a :: l →
    Relation.ReflTransGen (fun x y => next x = some y) a b := by
  intro l
  induction l with
  | nil =>
      intro a _ hb
      rw [List.mem_singleton.mp hb]
  | cons c rest ih =>
      intro a h hb
      rcases List.mem_cons.mp hb with rfl | hb
      · exact .refl
      · exact .head h.1 (ih h.2 hb)

end Linked

/-- The nodes from `n` on, in the order in which they come; `none` if there are more than
`fuel`. -/
def walk (next : ν → Option ν) : Nat → Option ν → Option (List ν)
  | _, none => some []
  | 0, some _ => none
  | fuel + 1, some n => (walk next fuel (next n)).map (n :: ·)

/-- A linked list is walked from its first node to its end. -/
theorem Linked.walk_eq : ∀ {l : List ν} {fuel : Nat}, Linked next l → l.length ≤ fuel →
    walk next fuel l.head? = some l := by
  intro l
  induction l with
  | nil =>
      intro fuel _ _
      cases fuel <;> rfl
  | cons a rest ih =>
      intro fuel h hlen
      cases fuel with
      | zero => exact absurd hlen (Nat.not_succ_le_zero _)
      | succ fuel =>
          show (walk next fuel (next a)).map _ = _
          rw [h.1, ih h.2 (Nat.le_of_succ_le_succ hlen)]
          rfl

/-! ### Both ways -/

variable {prev : ν → Option ν}

/-- The list is linked by `next` from its first node and by `prev` from its last one. -/
structure DoublyLinked (next prev : ν → Option ν) (l : List ν) : Prop where
  forth : Linked next l
  back : Linked prev l.reverse
  nodup : l.Nodup

namespace DoublyLinked

theorem singleton (hnext : next a = none) (hprev : prev a = none) : DoublyLinked next prev [a] :=
  ⟨⟨hnext, trivial⟩, ⟨hprev, trivial⟩, List.nodup_singleton a⟩

/-- A new node is put after the last one. -/
theorem snoc [DecidableEq ν] (h : DoublyLinked next prev (l ++ [a])) (hb : b ∉ l ++ [a]) :
    DoublyLinked (Function.update (Function.update next b none) a (some b))
      (Function.update prev b (some a)) (l ++ [a, b]) := by
  have hsplit : l ++ [a, b] = (l ++ [a]) ++ [b] := by simp
  refine ⟨(h.forth.update hb none).snoc h.nodup hb (Function.update_self ..), ?_, ?_⟩
  · have hback := h.back.update (fun hmem => hb (List.mem_reverse.mp hmem)) (some a)
    rw [hsplit, List.reverse_append]
    refine ⟨?_, hback⟩
    rw [Function.update_self, List.reverse_append]
    rfl
  · rw [hsplit, List.nodup_append]
    exact ⟨h.nodup, List.nodup_singleton b,
      fun x hx y hy heq => hb (List.mem_singleton.mp hy ▸ heq ▸ hx)⟩

/-- The last node is cut off. -/
theorem dropLast [DecidableEq ν] (h : DoublyLinked next prev (l ++ [a, b])) :
    DoublyLinked (Function.update next a none) prev (l ++ [a]) := by
  have hsplit : l ++ [a, b] = (l ++ [a]) ++ [b] := by simp
  have hnodup : (l ++ [a]).Nodup := (hsplit ▸ h.nodup).of_append_left
  refine ⟨h.forth.cut hnodup, ?_, hnodup⟩
  have hback := h.back
  rw [hsplit, List.reverse_append] at hback
  exact hback.2

/-- The first node is cut off. -/
theorem tail [DecidableEq ν] (h : DoublyLinked next prev (a :: b :: l)) :
    DoublyLinked next (Function.update prev b none) (b :: l) := by
  have hnodup : (b :: l).Nodup := (List.nodup_cons.mp h.nodup).2
  refine ⟨h.forth.2, ?_, hnodup⟩
  have hback := h.back
  have hsplit : (a :: b :: l).reverse = l.reverse ++ b :: [a] := by simp
  rw [hsplit] at hback
  rw [List.reverse_cons]
  exact hback.cut (by rw [← List.reverse_cons]; exact List.nodup_reverse.mpr hnodup)

/-- The node before the last one. -/
theorem prev_eq (h : DoublyLinked next prev (l ++ [a])) : prev a = l.getLast? := by
  have hback := h.back
  rw [List.reverse_append] at hback
  exact hback.1.trans List.head?_reverse

end DoublyLinked

/-
Merging sorted sources.

Each source is a list whose keys do not decrease, with a cursor into it.  A reader that
takes, again and again, the element at the first of the least cursors yields all elements
in the order of their keys, ties by the source and then by the place in it.

An element is named by its cell, the number of its source and its place there.  `Merges`
says that a list of cells is what is still to come from the cursors `pos`, in that order.
`exists_order` is the rule for a reader given by a step function: it is enough to say what
one step does.
-/
import Mathlib.Algebra.BigOperators.Group.Finset.Basic
import Mathlib.Algebra.Order.BigOperators.Group.Finset
import Mathlib.Data.List.Sort
import Mathlib.Logic.Function.Iterate

namespace Merge

variable {α κ : Type} [LinearOrder κ] (key : α → κ) (qs : List (List α))

/-- The element of a cell. -/
def cell (p : Nat × Nat) : Option α := (qs[p.1]?).bind fun q => q[p.2]?

/-- The cell `p` has an element that comes before the one of `p'`. -/
def Before (p p' : Nat × Nat) : Prop := ∃ a a', cell qs p = some a ∧ cell qs p' = some a' ∧
  (key a < key a' ∨ key a = key a' ∧ (p.1 < p'.1 ∨ p.1 = p'.1 ∧ p.2 < p'.2))

/-- `a` is at the cursor of source `k`, and no cursor has less, none before it as little. -/
structure FirstLeast (pos : Nat → Nat) (k : Nat) (a : α) : Prop where
  here : cell qs (k, pos k) = some a
  le : ∀ k' a', cell qs (k', pos k') = some a' → key a ≤ key a'
  lt : ∀ k' a', k' < k → cell qs (k', pos k') = some a' → key a < key a'

/-- All sources are at their ends. -/
def Exhausted (pos : Nat → Nat) : Prop := ∀ k, cell qs (k, pos k) = none

/-- The cells from the cursors on, each once and in order. -/
structure Merges (pos : Nat → Nat) (order : List (Nat × Nat)) : Prop where
  mem : ∀ p : Nat × Nat, p ∈ order ↔ (∃ a, cell qs p = some a) ∧ pos p.1 ≤ p.2
  sorted : order.Pairwise (Before key qs)

/-- The keys of no source decrease. -/
def Sorted : Prop := ∀ q ∈ qs, q.Pairwise fun a b => key a ≤ key b

variable {key qs} {pos : Nat → Nat} {k j j' : Nat} {a b : α} {order : List (Nat × Nat)}

/-- Before the end of a source there is an element in every place. -/
theorem exists_cell (h : cell qs (k, j) = some a) (hle : j' ≤ j) :
    ∃ b, cell qs (k, j') = some b := by
  obtain ⟨q, hq, hj⟩ := Option.bind_eq_some_iff.mp h
  have hlen : j < q.length := (List.getElem?_eq_some_iff.mp hj).1
  refine ⟨q[j'], ?_⟩
  unfold cell
  rw [hq]
  exact List.getElem?_eq_getElem (by simp only; omega)

/-- The keys of a sorted source follow the places. -/
theorem Sorted.key_le (hs : Sorted key qs) (ha : cell qs (k, j) = some a)
    (hb : cell qs (k, j') = some b) (hle : j ≤ j') : key a ≤ key b := by
  obtain ⟨q, hq, hj⟩ := Option.bind_eq_some_iff.mp ha
  obtain ⟨q', hq', hj'⟩ := Option.bind_eq_some_iff.mp hb
  obtain rfl : q = q' := Option.some.inj (hq.symm.trans hq')
  rcases Nat.eq_or_lt_of_le hle with rfl | hlt
  · rw [Option.some.inj (hj.symm.trans hj')]
  · obtain ⟨hlen, rfl⟩ := List.getElem?_eq_some_iff.mp hj
    obtain ⟨hlen', rfl⟩ := List.getElem?_eq_some_iff.mp hj'
    exact List.pairwise_iff_getElem.mp (hs q (List.mem_of_getElem? hq)) _ _ hlen hlen' hlt

/-- What is taken comes before all that is left. -/
theorem FirstLeast.before (hs : Sorted key qs) (h : FirstLeast key qs pos k a) {p : Nat × Nat}
    (hb : cell qs p = some b) (hpos : Function.update pos k (pos k + 1) p.1 ≤ p.2) :
    Before key qs (k, pos k) p := by
  obtain ⟨k', j⟩ := p
  refine ⟨a, b, h.here, hb, ?_⟩
  by_cases hk : k' = k
  · subst hk
    rw [Function.update_self] at hpos
    rcases lt_or_eq_of_le (hs.key_le h.here hb (by simp only at hpos; omega)) with hlt | heq
    · exact .inl hlt
    · exact .inr ⟨heq, .inr ⟨rfl, hpos⟩⟩
  · rw [Function.update_of_ne hk] at hpos
    obtain ⟨c, hc⟩ := exists_cell hb hpos
    have hcb := hs.key_le hc hb hpos
    by_cases hlt : k' < k
    · exact .inl (lt_of_lt_of_le (h.lt k' c hlt hc) hcb)
    · rcases lt_or_eq_of_le ((h.le k' c hc).trans hcb) with hlt' | heq
      · exact .inl hlt'
      · exact .inr ⟨heq, .inl (by simp only; omega)⟩

/-- At the ends of the sources nothing is to come. -/
theorem Exhausted.merges (h : Exhausted qs pos) : Merges key qs pos [] where
  mem := by
    intro p
    simp only [List.not_mem_nil, false_iff]
    intro hp
    obtain ⟨⟨a, ha⟩, hle⟩ := hp
    obtain ⟨b, hb⟩ := exists_cell ha hle
    rw [h p.1] at hb
    cases hb
  sorted := List.Pairwise.nil

/-- What is taken, and then what comes after it. -/
theorem FirstLeast.merges (hs : Sorted key qs) (h : FirstLeast key qs pos k a)
    (hm : Merges key qs (Function.update pos k (pos k + 1)) order) :
    Merges key qs pos ((k, pos k) :: order) where
  mem := by
    intro p
    obtain ⟨k', j⟩ := p
    rw [List.mem_cons, hm.mem, Prod.mk.injEq]
    by_cases hk : k' = k
    · subst hk
      simp only [Function.update_self]
      constructor
      · intro hp
        rcases hp with ⟨-, rfl⟩ | hp
        · exact ⟨⟨a, h.here⟩, Nat.le_refl _⟩
        · exact ⟨hp.1, by omega⟩
      · intro hp
        rcases Nat.eq_or_lt_of_le hp.2 with heq | hlt
        · exact .inl ⟨trivial, heq.symm⟩
        · exact .inr ⟨hp.1, hlt⟩
    · simp [hk]
  sorted := by
    refine List.pairwise_cons.mpr ⟨fun p hp => ?_, hm.sorted⟩
    obtain ⟨⟨b, hb⟩, hpos⟩ := (hm.mem p).mp hp
    exact h.before hs hb hpos

/-- The elements that the cells of an order stand for. -/
theorem elements_of_cells (h : ∀ p ∈ order, ∃ a, cell qs p = some a) :
    ∃ as : List α, order.map (cell qs) = as.map some := by
  induction order with
  | nil => exact ⟨[], rfl⟩
  | cons p rest ih =>
      obtain ⟨a, ha⟩ := h p List.mem_cons_self
      obtain ⟨as, has⟩ := ih fun p' hp' => h p' (List.mem_cons_of_mem p hp')
      exact ⟨a :: as, by rw [List.map_cons, List.map_cons, ha, has]⟩

/-- All elements of the sources, by their keys. -/
theorem Merges.elements (h : Merges key qs (fun _ => 0) order) :
    ∃ as : List α, (∀ i : Nat, (order[i]?).bind (cell qs) = as[i]?) ∧
      as.Pairwise (fun a b => key a ≤ key b) ∧ ∀ a, a ∈ as ↔ ∃ q ∈ qs, a ∈ q := by
  obtain ⟨as, has⟩ := elements_of_cells fun p hp => ((h.mem p).mp hp).1
  have hget : ∀ i : Nat, (order[i]?).bind (cell qs) = as[i]? := by
    intro i
    have hi : (order.map (cell qs))[i]? = (as.map some)[i]? := by rw [has]
    rw [List.getElem?_map, List.getElem?_map] at hi
    cases ho : order[i]? with
    | none =>
        rw [ho] at hi
        exact (Option.map_eq_none_iff.mp hi.symm).symm
    | some p =>
        rw [ho] at hi
        obtain ⟨a, ha, heq⟩ := Option.map_eq_some_iff.mp hi.symm
        rw [ha, Option.bind_some, ← heq]
  have hlen : order.length = as.length := by simpa using congrArg List.length has
  refine ⟨as, hget, ?_, fun a => ?_⟩
  · rw [List.pairwise_iff_getElem]
    intro i j hi hj hij
    obtain ⟨a, b, ha, hb, hab⟩ :=
      List.pairwise_iff_getElem.mp h.sorted i j (by omega) (by omega) hij
    have hi' := hget i
    have hj' := hget j
    rw [List.getElem?_eq_getElem (by omega), Option.bind_some, ha,
      List.getElem?_eq_getElem hi] at hi'
    rw [List.getElem?_eq_getElem (by omega), Option.bind_some, hb,
      List.getElem?_eq_getElem hj] at hj'
    rw [← Option.some.inj hi', ← Option.some.inj hj']
    rcases hab with hlt | ⟨heq, -⟩
    · exact le_of_lt hlt
    · exact le_of_eq heq
  · have hmem : some a ∈ order.map (cell qs) ↔ a ∈ as := by
      rw [has]
      simp
    rw [← hmem, List.mem_map]
    constructor
    · intro hp
      obtain ⟨p, -, hp⟩ := hp
      obtain ⟨q, hq, ha⟩ := Option.bind_eq_some_iff.mp hp
      exact ⟨q, List.mem_of_getElem? hq, List.mem_of_getElem? ha⟩
    · intro hq
      obtain ⟨q, hq, ha⟩ := hq
      obtain ⟨k, hk, rfl⟩ := List.mem_iff_getElem.mp hq
      obtain ⟨j, hj, rfl⟩ := List.mem_iff_getElem.mp ha
      have hp : cell qs (k, j) = some qs[k][j] := by
        unfold cell
        rw [List.getElem?_eq_getElem hk, Option.bind_some, List.getElem?_eq_getElem hj]
      exact ⟨(k, j), (h.mem _).mpr ⟨⟨_, hp⟩, Nat.zero_le _⟩, hp⟩

/-! ### A reader given by its steps -/

/-- How many elements are left. -/
def left (qs : List (List α)) (pos : Nat → Nat) : Nat :=
  ∑ k ∈ Finset.range qs.length, ((qs[k]?.getD []).length - pos k)

theorem left_update (h : cell qs (k, pos k) = some a) :
    left qs (Function.update pos k (pos k + 1)) < left qs pos := by
  obtain ⟨q, hq, hj⟩ := Option.bind_eq_some_iff.mp h
  have hk : k < qs.length := (List.getElem?_eq_some_iff.mp hq).1
  have hlen : pos k < q.length := (List.getElem?_eq_some_iff.mp hj).1
  refine Finset.sum_lt_sum (fun i _ => ?_) ⟨k, Finset.mem_range.mpr hk, ?_⟩
  · by_cases hi : i = k
    · rw [hi, Function.update_self]
      omega
    · rw [Function.update_of_ne hi]
  · rw [Function.update_self]
    simp only at hq
    rw [hq, Option.getD_some]
    omega

/-- **The merge rule.**  A reader whose step yields nothing when all sources are at their
ends, and otherwise takes the first of the least cursors, reads all that is left in order,
and then nothing any more. -/
theorem exists_order {σ : Type} (next : σ → Option α × σ) (At : (Nat → Nat) → σ → Prop)
    (hs : Sorted key qs)
    (hstep : ∀ pos s, At pos s →
      (Exhausted qs pos ∧ (next s).1 = none ∧ At pos (next s).2) ∨
      ∃ k a, FirstLeast key qs pos k a ∧ (next s).1 = some a ∧
        At (Function.update pos k (pos k + 1)) (next s).2) :
    ∀ (pos : Nat → Nat) (s : σ), At pos s → ∃ order, Merges key qs pos order ∧
      ∀ n, (next ((fun s => (next s).2)^[n] s)).1 = (order[n]?).bind (cell qs) := by
  intro pos
  induction hn : left qs pos using Nat.strongRecOn generalizing pos with
  | ind m ih =>
      intro s hat
      rcases hstep pos s hat with ⟨hend, -, -⟩ | ⟨k, a, hfirst, hres, hnext⟩
      · refine ⟨[], hend.merges, fun n => ?_⟩
        have hstay : ∀ n, At pos ((fun s => (next s).2)^[n] s) := by
          intro n
          induction n with
          | zero => exact hat
          | succ n ihn =>
              rw [Function.iterate_succ_apply']
              rcases hstep pos _ ihn with ⟨-, -, h⟩ | ⟨k, a, h, -, -⟩
              · exact h
              · exact absurd ((hend k).symm.trans h.here) (Option.some_ne_none a).symm
        rcases hstep pos _ (hstay n) with ⟨-, h, -⟩ | ⟨k, a, h, -, -⟩
        · rw [h]
          rfl
        · exact absurd ((hend k).symm.trans h.here) (Option.some_ne_none a).symm
      · obtain ⟨order, hm, hread⟩ := ih _ (hn ▸ left_update hfirst.here) _ rfl _ hnext
        refine ⟨(k, pos k) :: order, hfirst.merges hs hm, fun n => ?_⟩
        cases n with
        | zero =>
            rw [Function.iterate_zero_apply, hres]
            exact hfirst.here.symm
        | succ n =>
            rw [Function.iterate_succ_apply, hread n]
            rfl

end Merge

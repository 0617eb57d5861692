/-
The memory of a tree.

The nodes of a tree are those that the links lead to from its root, and with the sentinel they
are all the memory that belongs to it: what happens to other nodes does not touch the tree,
and destroying it frees these and nothing else.
-/
import Ksi.Proofs.RBTree.Lookup

namespace Ksi.RBTree

open BinaryTree Prog

variable {ε : Type} {s s' : KsiRBTree} {p q z : Ptr} {E : ε → KsiRBTree → Prop}
  {t : BinaryTree Ptr}

/-- A node that the links lead to from the root. -/
inductive Attached (s : KsiRBTree) : Ptr → Prop
  | root {p : Ptr} : s.root = some p → s.sentinel ≠ some p → Attached s p
  | child {p q : Ptr} (d : Side) : Attached s p → s.links.child d p = some q →
      s.sentinel ≠ some q → Attached s q

theorem Forms.not_sentinel (h : Forms s t) (hp : p ∈ t.inorder) : s.sentinel ≠ some p := by
  obtain ⟨z, hz, hnot⟩ := h.sentinel
  rw [hz.sentinel]
  exact fun heq => hnot (Option.some.inj heq ▸ hp)

/-- Below an attached node all are attached. -/
theorem attached_of_shaped (hsent : ∀ a ∈ t.inorder, s.sentinel ≠ some a) {o : Option Ptr}
    (h : s.links.Shaped o t) (htop : ∀ a, t.top none = some a → Attached s a) :
    ∀ a ∈ t.inorder, Attached s a := by
  induction t generalizing o with
  | nil => rintro a ⟨⟩
  | node v l r ihl ihr =>
      obtain ⟨-, hl, hr, hsl, hsr⟩ := h
      have hv := htop v rfl
      have hmem : ∀ a, a ∈ (node v l r).inorder ↔ a = v ∨ a ∈ l.inorder ∨ a ∈ r.inorder :=
        fun a => mem_join (d := .left)
      -- the top of a subtree hangs on `v`
      have hbelow : ∀ (d : Side) (u : BinaryTree Ptr), (∀ a ∈ u.inorder, a ∈ (node v l r).inorder) →
          s.links.child d v = u.top s.sentinel → ∀ a, u.top none = some a → Attached s a := by
        intro d u hu hchild a ha
        cases u with
        | nil => cases ha
        | node b l' r' =>
            cases ha
            exact .child d hv hchild (hsent a (hu a (mem_of_top rfl)))
      intro a ha
      rcases (hmem a).mp ha with rfl | ha | ha
      · exact hv
      · have hu : ∀ a ∈ l.inorder, a ∈ (node v l r).inorder :=
          fun a ha => (hmem a).mpr (.inr (.inl ha))
        exact ihl (fun a ha => hsent a (hu a ha)) hsl (hbelow .left l hu hl) a ha
      · have hu : ∀ a ∈ r.inorder, a ∈ (node v l r).inorder :=
          fun a ha => (hmem a).mpr (.inr (.inr ha))
        exact ihr (fun a ha => hsent a (hu a ha)) hsr (hbelow .right r hu hr) a ha

/-- The attached nodes are those of the tree that the memory holds. -/
theorem Forms.attached_iff (h : Forms s t) : Attached s p ↔ p ∈ t.inorder := by
  constructor
  · intro hp
    induction hp with
    | root hroot hns =>
        rw [h.root] at hroot
        cases t with
        | nil => exact absurd hroot hns
        | node v l r =>
            cases hroot
            exact mem_of_top rfl
    | child d _ hchild hns ih =>
        rcases h.child_mem d ih with hsent | ⟨q, hq, heq⟩
        · exact absurd (hsent.symm.trans hchild) hns
        · rw [hchild] at heq
          cases heq
          exact hq
  · refine attached_of_shaped (fun a => h.not_sentinel) h.shaped (fun a ha => ?_) p
    refine .root ?_ (h.not_sentinel (mem_of_top ha))
    rw [h.root]
    cases t with
    | nil => cases ha
    | node v l r => exact ha

/-- The memory that belongs to a tree. -/
def Owns (s : KsiRBTree) (p : Ptr) : Prop := s.sentinel = some p ∨ Attached s p

theorem Forms.owns_iff (h : Forms s t) (hz : s.sentinel = some z) :
    Owns s p ↔ p = z ∨ p ∈ t.inorder := by
  unfold Owns
  rw [h.attached_iff, hz, Option.some.injEq, eq_comm]

/-! ### What happens elsewhere -/

/-- The two trees have the same root, sentinel and nodes. -/
structure SameTree (s s' : KsiRBTree) : Prop where
  root : s'.root = s.root
  sentinel : s'.sentinel = s.sentinel
  node : ∀ p, Owns s p → s'.node p = s.node p

theorem SameTree.links (h : SameTree s s') (hp : Owns s p) :
    (∀ d, s'.links.child d p = s.links.child d p) ∧ s'.links.parent p = s.links.parent p := by
  unfold KsiRBTree.links
  simp only [h.node p hp, implies_true, and_self]

theorem SameTree.keyOf (h : SameTree s s') (hp : Owns s p) : s'.keyOf p = s.keyOf p := by
  unfold KsiRBTree.keyOf
  rw [h.node p hp]

theorem SameTree.forms (h : SameTree s s') (ht : Forms s t) : Forms s' t := by
  obtain ⟨z, hz, hnot⟩ := ht.sentinel
  have howns : ∀ a ∈ t.inorder, Owns s a := fun a ha => .inr (ht.attached_iff.mpr ha)
  refine ⟨?_, ?_, ht.nodup, fun a ha => ?_, z, ⟨?_, ?_⟩, hnot⟩
  · rw [h.root, h.sentinel]
    exact ht.root
  · exact ht.shaped.same ht.nodup h.sentinel (fun a ha => (h.links (howns a ha)).1)
      fun a ha => (h.links (howns a ha)).2
  · unfold KsiRBTree.Alloc
    rw [h.node a (howns a ha)]
    exact ht.alloc a ha
  · rw [h.sentinel]
    exact hz.sentinel
  · rw [h.node z (.inl hz.sentinel)]
    exact hz.node

theorem SameTree.sorted (h : SameTree s s') (ht : Forms s t) (hsorted : Sorted s t.inorder) :
    Sorted s' t.inorder := by
  have howns : ∀ a ∈ t.inorder, Owns s a := fun a ha => .inr (ht.attached_iff.mpr ha)
  refine List.Pairwise.imp_of_mem (fun {a b} ha hb hab => ?_) hsorted
  rw [h.keyOf (howns a ha), h.keyOf (howns b hb)]
  exact hab

theorem SameTree.attached_iff (h : SameTree s s') (ht : Forms s t) :
    Attached s' p ↔ Attached s p := by
  rw [(h.forms ht).attached_iff, ht.attached_iff]

theorem SameTree.owns_iff (h : SameTree s s') (ht : Forms s t) : Owns s' p ↔ Owns s p := by
  unfold Owns
  rw [h.sentinel, h.attached_iff ht]

/-! ### Destroying a tree -/

/-- `s` with the nodes `l` freed. -/
def freed (s : KsiRBTree) (l : List Ptr) : KsiRBTree :=
  { s with node := fun q => if q ∈ l then none else s.node q }

@[simp] theorem freed_sentinel (l : List Ptr) : (freed s l).sentinel = s.sentinel := rfl

theorem freed_node {l : List Ptr} (hp : p ∉ l) : (freed s l).node p = s.node p := if_neg hp

theorem freed_alloc {l : List Ptr} (hp : p ∉ l) (h : s.Alloc p) : (freed s l).Alloc p := by
  unfold KsiRBTree.Alloc
  rw [freed_node hp]
  exact h

theorem freed_child {l : List Ptr} (hp : p ∉ l) (d : Side) :
    (freed s l).links.child d p = s.links.child d p := by
  unfold KsiRBTree.links
  simp only [freed_node hp]

/-- One node more. -/
theorem freed_update (l : List Ptr) (p : Ptr) :
    { freed s l with node := Function.update (freed s l).node p none } = freed s (l ++ [p]) := by
  have hnode : Function.update (freed s l).node p none = (freed s (l ++ [p])).node := by
    funext q
    unfold freed
    by_cases hq : q = p
    · subst hq
      simp
    · simp [hq]
  rw [hnode]
  rfl

theorem free_wp {D : Prop} {Q : Unit → KsiRBTree → Prop} (hp : s.Alloc p)
    (hQ : Q () { s with node := Function.update s.node p none }) : wp D (free (some p)) s Q E := by
  have hfind : (some p).filter (fun q => (s.node q).isSome) = some p :=
    Option.filter_eq_some_iff.mpr ⟨rfl, hp⟩
  unfold free
  rw [wp_bind, wp_read, hfind]
  refine ⟨nofun, fun a ha => ?_⟩
  cases ha
  exact hQ

/-- Destroying a subtree frees its nodes. -/
theorem ksiRBNodeDestroy_wp {D : Prop} {l : List Ptr} {o : Option Ptr} (hz : s.sentinel = some z)
    (hshaped : s.links.Shaped o t) (hnodup : t.inorder.Nodup) (hnot : z ∉ t.inorder)
    (halloc : ∀ a ∈ t.inorder, s.Alloc a) (hl : ∀ a ∈ t.inorder, a ∉ l) {fuel : Nat}
    (hfuel : D ∨ t.inorder.length + 1 ≤ fuel) :
    wp D (ksiRBNodeDestroy fuel (t.top s.sentinel)) (freed s l)
      (fun _ s' => ∃ l', s' = freed s l' ∧ ∀ a, a ∈ l' ↔ a ∈ l ∨ a ∈ t.inorder) E := by
  induction t generalizing fuel l o with
  | nil =>
      cases fuel with
      | zero => exact hfuel.resolve_right (by omega)
      | succ fuel =>
          unfold ksiRBNodeDestroy
          rw [wp_bind, wp_sentinel, wp_ite]
          refine ⟨fun _ => ⟨l, rfl, fun a => ?_⟩, fun hne => absurd rfl hne⟩
          rw [or_iff_left]
          exact List.not_mem_nil
  | node v x y ihx ihy =>
      cases fuel with
      | zero => exact hfuel.resolve_right (by omega)
      | succ fuel =>
          obtain ⟨-, hx, hy, hsx, hsy⟩ := hshaped
          obtain ⟨hvx, hvy, hnx, hny, hxy⟩ := join_nodup (d := .left) hnodup
          have hmem : ∀ a, a ∈ (node v x y).inorder ↔ a = v ∨ a ∈ x.inorder ∨ a ∈ y.inorder :=
            fun a => mem_join (d := .left)
          have hlen : (node v x y).inorder.length = x.inorder.length + (y.inorder.length + 1) := by
            simp [inorder]
          have hfuelx : D ∨ x.inorder.length + 1 ≤ fuel := hfuel.imp_right fun h => by omega
          have hfuely : D ∨ y.inorder.length + 1 ≤ fuel := hfuel.imp_right fun h => by omega
          have hv : v ∈ (node v x y).inorder := (hmem v).mpr (.inl rfl)
          have hinx : ∀ a ∈ x.inorder, a ∈ (node v x y).inorder :=
            fun a ha => (hmem a).mpr (.inr (.inl ha))
          have hiny : ∀ a ∈ y.inorder, a ∈ (node v x y).inorder :=
            fun a ha => (hmem a).mpr (.inr (.inr ha))
          -- a child is a node or the sentinel, and never NULL
          have hsome : ∀ u : BinaryTree Ptr, u.top s.sentinel ≠ none := by
            intro u
            cases u with
            | nil =>
                rw [show (nil : BinaryTree Ptr).top s.sentinel = some z from hz]
                exact Option.some_ne_none z
            | node b l' r' => exact Option.some_ne_none b
          show wp D (ksiRBNodeDestroy (fuel + 1) (some v)) (freed s l) _ _
          unfold ksiRBNodeDestroy
          rw [wp_bind, wp_sentinel, wp_ite]
          refine ⟨fun heq => ?_, fun _ => ?_⟩
          · rw [freed_sentinel, hz] at heq
            exact absurd (Option.some.inj heq ▸ hv) hnot
          · have hvl := freed_alloc (hl v hv) (halloc v hv)
            rw [wp_bind, wp_child hvl, freed_child (hl v hv), hx, wp_bind, wp_when]
            refine ⟨fun _ => ?_, fun hnone => absurd (hsome x) hnone⟩
            rw [wp_bind, wp_child hvl, freed_child (hl v hv), hx]
            refine wp_mono (ihx hsx hnx (fun h => hnot (hinx z h))
              (fun a ha => halloc a (hinx a ha))
              (fun a ha => hl a (hinx a ha)) hfuelx) ?_ fun _ _ hE => hE
            rintro _ _ ⟨l₁, rfl, hl₁⟩
            have hv₁ : v ∉ l₁ := by
              rw [hl₁]
              exact not_or.mpr ⟨hl v hv, hvx⟩
            have hvl₁ := freed_alloc hv₁ (halloc v hv)
            rw [wp_bind, wp_child hvl₁, freed_child hv₁, hy, wp_bind, wp_when]
            refine ⟨fun _ => ?_, fun hnone => absurd (hsome y) hnone⟩
            rw [wp_bind, wp_child hvl₁, freed_child hv₁, hy]
            refine wp_mono (ihy hsy hny (fun h => hnot (hiny z h))
              (fun a ha => halloc a (hiny a ha))
              (fun a ha => ?_) hfuely) ?_ fun _ _ hE => hE
            · rw [hl₁]
              exact not_or.mpr ⟨hl a (hiny a ha), fun hax => hxy a hax ha⟩
            · rintro _ _ ⟨l₂, rfl, hl₂⟩
              have hv₂ : v ∉ l₂ := by
                rw [hl₂]
                exact not_or.mpr ⟨hv₁, hvy⟩
              refine free_wp (freed_alloc hv₂ (halloc v hv))
                ⟨l₂ ++ [v], freed_update l₂ v, fun a => ?_⟩
              rw [List.mem_append, List.mem_singleton, hl₂, hl₁, hmem, or_left_comm (a := a ∈ l),
                or_assoc (c := _ ∈ _)]
              exact or_comm

/-- **Destroying a tree** frees the memory that belongs to it, and nothing else. -/
theorem Forms.destroy {D : Prop} (h : Forms s t) {fuel : Nat}
    (hfuel : D ∨ t.inorder.length + 1 ≤ fuel) :
    wp D (ksiRBTreeDestroy fuel) s
      (fun _ s' => ∀ p, (Owns s p → s'.node p = none) ∧ (¬ Owns s p → s'.node p = s.node p)) E := by
  obtain ⟨z, hz, hnot⟩ := h.sentinel
  have hstart : s = freed s [] := by
    unfold freed
    simp
  unfold ksiRBTreeDestroy
  rw [wp_bind, wp_root, wp_bind, h.root]
  have hnodes := ksiRBNodeDestroy_wp (E := E) (l := []) hz.sentinel h.shaped h.nodup hnot h.alloc
    (fun a _ => List.not_mem_nil) hfuel
  rw [← hstart] at hnodes
  refine wp_mono hnodes ?_ fun _ _ hE => hE
  rintro _ _ ⟨l, rfl, hl⟩
  have hzl : z ∉ l := by
    rw [hl]
    exact not_or.mpr ⟨List.not_mem_nil, hnot⟩
  rw [wp_bind, wp_sentinel, freed_sentinel, hz.sentinel]
  refine free_wp (freed_alloc hzl hz.alloc) fun p => ?_
  rw [freed_update, h.owns_iff hz.sentinel]
  have hmem : p ∈ l ++ [z] ↔ p = z ∨ p ∈ t.inorder := by
    rw [List.mem_append, List.mem_singleton, hl]
    simp only [List.not_mem_nil, false_or]
    exact or_comm
  rw [← hmem]
  exact ⟨fun hp => if_pos hp, fun hp => if_neg hp⟩

end Ksi.RBTree

/-
Looking up a key, and walking on from there.

The search keeps the least key that it has turned left at; it runs on through the sentinel,
whose key is less than any from 0 on, and ends at its right child, which is NULL.

The walk does not end: from the last node the climb stops at the root and returns it, or
follows the root's parent, which is NULL.  So it visits what it should only if there is
nothing to visit.
-/
import Ksi.Proofs.RBTree.Attach

namespace Ksi.RBTree

open BinaryTree Prog

variable {ε : Type} {s s' : KsiRBTree} {p q z : Ptr} {k : Int} {E : ε → KsiRBTree → Prop}
  {t : BinaryTree Ptr} {path : List (Step Ptr)} {fuel : Nat} {c : Option Ptr}

/-! ### The search -/

/-- `r` is a node with the least key from `k` on, or there is none. -/
def LeastFrom (s : KsiRBTree) (l : List Ptr) (k : Int) : Option Ptr → Prop
  | none => ∀ a ∈ l, s.keyOf a < k
  | some q => q ∈ l ∧ k ≤ s.keyOf q ∧ ∀ a ∈ l, k ≤ s.keyOf a → s.keyOf q ≤ s.keyOf a

/-- What lies before the place is less than `k`, and `c` is the least of what lies after
it. -/
structure Best (s : KsiRBTree) (path : List (Step Ptr)) (k : Int) (c : Option Ptr) : Prop where
  less : ∀ a ∈ before path, s.keyOf a < k
  nothing : c = none → after path = []
  least : ∀ q, c = some q → q ∈ after path ∧ k < s.keyOf q ∧ ∀ a ∈ after path, s.keyOf q ≤ s.keyOf a

/-- Nothing after the place is less than what is at it. -/
theorem Sorted.place_after (h : Sorted s (t.plug path).inorder) {a b : Ptr} (ha : a ∈ t.inorder)
    (hb : b ∈ after path) : s.keyOf a ≤ s.keyOf b := by
  rw [inorder_plug] at h
  exact (List.pairwise_append.mp h).2.2 a (List.mem_append_right _ ha) b hb

section

variable {l r : BinaryTree Ptr} (hsorted : Sorted s ((BinaryTree.node q l r).plug path).inorder)
include hsorted

/-- A turn to the left, where the node may be better than the best so far. -/
theorem Best.left (h : Best s path k c) (hk : k < s.keyOf q) {better : Bool}
    (hnone : c = none → better = true)
    (hsome : ∀ b, c = some b → better = decide (s.keyOf q < s.keyOf b)) :
    Best s (⟨.left, q, r⟩ :: path) k (if better then some q else c) := by
  have hmem : ∀ a, a ∈ after (⟨.left, q, r⟩ :: path) ↔ a = q ∨ a ∈ r.inorder ∨ a ∈ after path := by
    intro a
    simp [after]
  -- everything that now lies after the place is at least `q`
  have hleast : ∀ a ∈ after (⟨.left, q, r⟩ :: path), s.keyOf q ≤ s.keyOf a := by
    intro a ha
    rcases (hmem a).mp ha with rfl | ha | ha
    · exact Int.le_refl _
    · exact hsorted.node.2 a ha
    · exact hsorted.place_after (mem_of_top rfl) ha
  refine ⟨h.less, fun heq => ?_, fun b hb => ?_⟩
  · cases c with
    | none =>
        rw [hnone rfl] at heq
        cases heq
    | some b =>
        split at heq <;> cases heq
  · by_cases hbetter : better = true
    · rw [if_pos hbetter] at hb
      obtain rfl : q = b := Option.some.inj hb
      exact ⟨(hmem q).mpr (.inl rfl), hk, hleast⟩
    · rw [if_neg hbetter] at hb
      obtain ⟨hin, hkb, hbest⟩ := h.least b hb
      rw [hsome b hb, decide_eq_true_eq, Int.not_lt] at hbetter
      exact ⟨(hmem b).mpr (.inr (.inr hin)), hkb,
        fun a ha => Int.le_trans hbetter (hleast a ha)⟩

/-- A turn to the right. -/
theorem Best.right (h : Best s path k c) (hk : s.keyOf q < k) :
    Best s (⟨.right, q, l⟩ :: path) k c := by
  refine ⟨fun a ha => ?_, h.nothing, h.least⟩
  rcases List.mem_append.mp ha with ha | ha
  · rcases List.mem_append.mp ha with ha | ha
    · exact h.less a ha
    · exact Int.lt_of_le_of_lt (hsorted.node.1 a ha) hk
  · obtain rfl := List.mem_singleton.mp ha
    exact hk

end

/-- At a leaf the best is the least of all. -/
theorem Best.leaf (h : Best s path k c) : LeastFrom s (nil.plug path).inorder k c := by
  have hmem : ∀ a, a ∈ (nil.plug path).inorder ↔ a ∈ before path ∨ a ∈ after path := by
    intro a
    simp [inorder_plug, inorder]
  cases c with
  | none =>
      intro a ha
      rcases (hmem a).mp ha with ha | ha
      · exact h.less a ha
      · rw [h.nothing rfl] at ha
        cases ha
  | some q =>
      obtain ⟨hin, hk, hleast⟩ := h.least q rfl
      refine ⟨(hmem q).mpr (.inr hin), Int.le_of_lt hk, fun a ha hka => ?_⟩
      rcases (hmem a).mp ha with ha | ha
      · exact absurd (h.less a ha) (Int.not_lt.mpr hka)
      · exact hleast a ha

theorem Sentinel.ends (h : Sentinel s z) : s.keyOf z = -1 ∧ ∀ d, s.links.child d z = none := by
  obtain ⟨n, hn, hleft, hright, hkey, -⟩ := h.node
  refine ⟨?_, fun d => ?_⟩
  · unfold KsiRBTree.keyOf
    rw [hn]
    exact hkey
  · unfold KsiRBTree.links
    simp only [hn]
    cases d with
    | left => exact hleft
    | right => exact hright

theorem isBetter_wp {D : Prop} (hq : s.Alloc q) (hc : ∀ b, c = some b → s.Alloc b) :
    wp D (isBetter (some q) c) s (fun better s' => s' = s ∧ (c = none → better = true) ∧
      ∀ b, c = some b → better = decide (s.keyOf q < s.keyOf b)) E := by
  unfold isBetter
  cases c with
  | none => exact ⟨rfl, fun _ => rfl, by rintro b ⟨⟩⟩
  | some b =>
      rw [if_neg (by simp), wp_bind, wp_key hq, wp_bind, wp_key (hc b rfl)]
      refine ⟨rfl, by rintro ⟨⟩, ?_⟩
      rintro b' ⟨⟩
      rfl

/-- What the search ends with, where `c` is the least: from a key below 0 on the sentinel is
found, unless a node of the tree comes before it. -/
def Sought (s : KsiRBTree) (k : Int) (c r : Option Ptr) : Prop :=
  r = c ∨ k < 0 ∧ r = s.sentinel ∧ ∀ b, c = some b → -1 < s.keyOf b

/-- The search at a leaf: the sentinel, and then NULL. -/
theorem nextForKey_leaf {D : Prop} (hz : Sentinel s z) (hbest : Best s path k c)
    (halloc : ∀ b, c = some b → s.Alloc b) (hfuel : D ∨ 2 ≤ fuel) :
    wp D (nextForKey k fuel (some z) c) s (fun r s' => s' = s ∧ Sought s k c r) E := by
  obtain ⟨hkey, hchild⟩ := hz.ends
  obtain _ | fuel := fuel
  · exact hfuel.resolve_right (by omega)
  · unfold nextForKey
    rw [wp_bind, wp_key hz.alloc, hkey, wp_ite]
    refine ⟨fun hlt => ?_, fun hle => ?_⟩
    · rw [wp_bind]
      refine wp_mono (isBetter_wp (E := E) hz.alloc halloc) ?_ fun _ _ hE => hE
      rintro better s₁ ⟨hsame, hnone, hsome⟩
      obtain rfl : s = s₁ := hsame.symm
      rw [wp_bind, wp_child hz.alloc, hchild]
      obtain _ | fuel := fuel
      · exact hfuel.resolve_right (by omega)
      · refine ⟨rfl, ?_⟩
        by_cases hbetter : better = true
        · rw [if_pos hbetter]
          refine .inr ⟨by omega, hz.sentinel.symm, fun b hb => ?_⟩
          have hdecide := hsome b hb
          rw [hbetter, hkey] at hdecide
          exact of_decide_eq_true hdecide.symm
        · rw [if_neg hbetter]
          exact .inl rfl
    · rw [wp_bind, wp_key hz.alloc, hkey, wp_ite]
      refine ⟨fun hgt => ?_, fun hge => ?_⟩
      · rw [wp_bind, wp_child hz.alloc, hchild]
        obtain _ | fuel := fuel
        · exact hfuel.resolve_right (by omega)
        · exact ⟨rfl, .inl rfl⟩
      · refine ⟨rfl, .inr ⟨by omega, hz.sentinel.symm, fun b hb => ?_⟩⟩
        have hlt := (hbest.least b hb).2.1
        omega

/-- **The search** comes to the least key from `k` on, or to the sentinel. -/
theorem nextForKey_run {D : Prop} (fuel : Nat) (h : Forms s (t.plug path))
    (hsorted : Sorted s (t.plug path).inorder) (hbest : Best s path k c)
    (hfuel : D ∨ t.height + 2 ≤ fuel) :
    wp D (nextForKey k fuel (t.top s.sentinel) c) s
      (fun r s' => s' = s ∧ ∃ c, LeastFrom s (t.plug path).inorder k c ∧ Sought s k c r) E := by
  induction fuel generalizing t path c with
  | zero => exact hfuel.resolve_right (by omega)
  | succ fuel ih =>
      have hallocs : ∀ b, c = some b → s.Alloc b := fun b hb =>
        h.alloc_around (List.mem_append_right _ (hbest.least b hb).1)
      cases t with
      | nil =>
          obtain ⟨z, hz, -⟩ := h.sentinel
          rw [show (nil : BinaryTree Ptr).top s.sentinel = some z from hz.sentinel]
          refine wp_mono (nextForKey_leaf (E := E) hz hbest hallocs ?_) ?_ fun _ _ hE => hE
          · simpa [height] using hfuel
          · exact fun r s' hr => ⟨hr.1, c, hbest.leaf, hr.2⟩
      | node q l r =>
          have haq : s.Alloc q := h.alloc_place (mem_of_top rfl)
          obtain ⟨-, hl, hr, -, -⟩ := h.shaped.of_plug
          have hlen : D ∨ max l.height r.height + 1 + 2 ≤ fuel + 1 := hfuel
          show wp D (nextForKey k (fuel + 1) (some q) c) _ _ _
          unfold nextForKey
          rw [wp_bind, wp_key haq, wp_ite]
          refine ⟨fun hlt => ?_, fun hle => ?_⟩
          · rw [wp_bind]
            refine wp_mono (isBetter_wp (E := E) haq hallocs) ?_ fun _ _ hE => hE
            rintro better s₁ ⟨hsame, hnone, hsome⟩
            obtain rfl : s = s₁ := hsame.symm
            rw [wp_bind, wp_child haq, hl]
            have hleft : Forms s (l.plug (⟨.left, q, r⟩ :: path)) := h
            exact ih hleft hsorted (hbest.left hsorted hlt hnone hsome)
              (hlen.imp_right fun hle => by omega)
          · rw [wp_bind, wp_key haq, wp_ite]
            refine ⟨fun hgt => ?_, fun heq => ?_⟩
            · rw [wp_bind, wp_child haq, hr]
              have hright : Forms s (r.plug (⟨.right, q, l⟩ :: path)) := h
              exact ih hright hsorted (hbest.right hsorted hgt) (hlen.imp_right fun hle => by omega)
            · have hkq : s.keyOf q = k := by omega
              refine ⟨rfl, some q, ⟨mem_plug.mpr (.inl (mem_of_top rfl)), Int.le_of_eq hkq.symm,
                fun a _ hka => ?_⟩, .inl rfl⟩
              rw [hkq]
              exact hka

/-- The search in a whole tree. -/
theorem ksiRBTreeNextForKey_run {D : Prop} (h : Forms s t) (hsorted : Sorted s t.inorder)
    (hfuel : D ∨ t.height + 2 ≤ fuel) :
    wp D (ksiRBTreeNextForKey fuel k : Prog KsiRBTree ε (Option Ptr)) s
      (fun r s' => s' = s ∧ ∃ c, LeastFrom s t.inorder k c ∧ Sought s k c r) E := by
  unfold ksiRBTreeNextForKey
  rw [wp_bind, wp_root, h.root]
  exact nextForKey_run fuel (show Forms s (t.plug []) from h) hsorted
    ⟨by rintro a ⟨⟩, fun _ => rfl, by rintro q ⟨⟩⟩ hfuel

/-- The look-up in a tree that holds the nodes, in as many rounds as the tree is high. -/
theorem Holds.lookup_of_height {nodes : List (Ptr × KsiRBNode)} (h : Holds s z t nodes) (hk : 0 ≤ k)
    (hfuel : t.height + 2 ≤ fuel) :
    ∃ r, (ksiRBTreeNextForKey fuel k : Prog KsiRBTree ε (Option Ptr)) s = some (.ok r, s) ∧
      LeastFrom s t.inorder k r := by
  have hwp : wp False (ksiRBTreeNextForKey fuel k : Prog KsiRBTree ε (Option Ptr)) s _ fun _ _ =>
    False :=
    ksiRBTreeNextForKey_run h.tree.forms h.tree.sorted (.inr hfuel)
  obtain ⟨r, s', hr, hok, herr⟩ := exists_of_wp hwp
  cases r with
  | error e => exact (herr e rfl).elim
  | ok r =>
      obtain ⟨rfl, c, hleast, rfl | ⟨hneg, -⟩⟩ := hok r rfl
      · exact ⟨_, hr, hleast⟩
      · omega

/-- The look-up in a tree that holds the nodes. -/
theorem Holds.lookup {nodes : List (Ptr × KsiRBNode)} (h : Holds s z t nodes) (hk : 0 ≤ k)
    (hfuel : nodes.length + 2 ≤ fuel) :
    ∃ r, (ksiRBTreeNextForKey fuel k : Prog KsiRBTree ε (Option Ptr)) s = some (.ok r, s) ∧
      LeastFrom s t.inorder k r :=
  h.lookup_of_height hk (Nat.le_trans (Nat.add_le_add_right h.height_le 2) hfuel)

theorem Holds.keyOf {nodes : List (Ptr × KsiRBNode)} {n : KsiRBNode} (h : Holds s z t nodes)
    (hmem : (p, n) ∈ nodes) : s.keyOf p = n.key := keyOf_of_dataOf (h.data p n hmem)

/-- The nodes of the tree are those that were attached. -/
theorem Holds.mem_iff {nodes : List (Ptr × KsiRBNode)} (h : Holds s z t nodes) :
    p ∈ t.inorder ↔ ∃ n, (p, n) ∈ nodes := by
  rw [h.members.mem_iff, List.mem_map]
  constructor
  · rintro ⟨⟨q, n⟩, hmem, rfl⟩
    exact ⟨n, hmem⟩
  · rintro ⟨n, hmem⟩
    exact ⟨(p, n), hmem, rfl⟩

/-- **Looking up a key** from 0 on in a tree that has been built of any nodes: the search ends
at an attached node with the least key that is not less, and at NULL only if there is none. -/
theorem nextForKey_least (z : Ptr) (garbage : KsiRBNode) (nodes : List (Ptr × KsiRBNode))
    (hfresh : Fresh z nodes) (k : Int) (hk : 0 ≤ k) (fuel : Nat) (hfuel : nodes.length + 2 ≤ fuel) :
    ∃ s r, build fuel z garbage nodes = some s ∧
      (ksiRBTreeNextForKey fuel k : Prog KsiRBTree Empty (Option Ptr)) s = some (.ok r, s) ∧
      (r = none ↔ ∀ x ∈ nodes, x.2.key < k) ∧
      ∀ p, r = some p → p ≠ z ∧ ∃ n, (p, n) ∈ nodes ∧ k ≤ n.key ∧
        ∀ x ∈ nodes, k ≤ x.2.key → n.key ≤ x.2.key := by
  obtain ⟨s, t, hbuild, h⟩ := build_holds garbage hfresh (show nodes.length ≤ fuel by omega)
  obtain ⟨r, hrun, hleast⟩ := h.lookup (ε := Empty) hk hfuel
  have hin : ∀ x ∈ nodes, x.1 ∈ t.inorder ∧ s.keyOf x.1 = x.2.key := fun x hx =>
    ⟨h.mem_iff.mpr ⟨x.2, hx⟩, h.keyOf hx⟩
  refine ⟨s, r, hbuild, hrun, ?_, ?_⟩
  · cases r with
    | none =>
        refine iff_of_true rfl fun x hx => ?_
        rw [← (hin x hx).2]
        exact hleast x.1 (hin x hx).1
    | some p =>
        obtain ⟨hmem, hkp, -⟩ := hleast
        obtain ⟨n, hn⟩ := h.mem_iff.mp hmem
        refine iff_of_false (by simp) fun hless => ?_
        have hlt := hless (p, n) hn
        rw [h.keyOf hn] at hkp
        exact absurd hlt (Int.not_lt.mpr hkp)
  · rintro p rfl
    obtain ⟨hmem, hkp, hbest⟩ := hleast
    obtain ⟨n, hn⟩ := h.mem_iff.mp hmem
    rw [h.keyOf hn] at hkp hbest
    refine ⟨?_, n, hn, hkp, fun x hx hkx => ?_⟩
    · rintro rfl
      exact hfresh.2 (List.mem_map_of_mem hn)
    · rw [← (hin x hx).2] at hkx ⊢
      exact hbest x.1 (hin x hx).1 hkx

/-- A node with uninitialised links and colour. -/
def note (key : Int) (type : BitVec 32) : KsiRBNode where
  parent := some 0
  right := some 0
  left := some 0
  key := key
  type := type
  data := { tone := 64, velocity := 127 }

/-- Three notes, two of them of a chord. -/
def chord : List (Ptr × KsiRBNode) :=
  [(2, note 3 0), (3, note 1 0xFFFFFFFF), (4, note 3 0xDEADBEEF)]

theorem nextForKey_chord : ∃ s r, build 5 1 (note 0 0) chord = some s ∧
    (ksiRBTreeNextForKey 5 2 : Prog KsiRBTree Empty (Option Ptr)) s = some (.ok r, s) ∧
    (r = none ↔ ∀ x ∈ chord, x.2.key < 2) ∧
    ∀ p, r = some p → p ≠ 1 ∧ ∃ n, (p, n) ∈ chord ∧ 2 ≤ n.key ∧
      ∀ x ∈ chord, 2 ≤ x.2.key → n.key ≤ x.2.key :=
  nextForKey_least 1 (note 0 0) chord (by decide) 2 (by decide) 5 (by decide)

/-! ### The walk -/

/-- From `p` on, `ksiRBTreeNext` comes to NULL over the nodes `l`. -/
inductive Walk (s : KsiRBTree) : Option Ptr → List Ptr → Prop where
  | stop : Walk s none []
  | step (p : Ptr) (r : Option Ptr) (l : List Ptr) (fuel : Nat)
      (hnext : (ksiRBTreeNext fuel (some p) : Prog KsiRBTree Empty (Option Ptr)) s =
        some (.ok r, s))
      (hrest : Walk s r l) : Walk s (some p) (p :: l)

/-- What a walk from the key `k` on is to be: it ends, its keys do not decrease, and it visits
each of the nodes with such a key once and no other. -/
def WalksFrom (s : KsiRBTree) (nodes : List (Ptr × KsiRBNode)) (k : Int) : Prop :=
  ∃ fuel first l, (ksiRBTreeNextForKey fuel k : Prog KsiRBTree Empty (Option Ptr)) s =
      some (.ok first, s) ∧
    Walk s first l ∧ Sorted s l ∧ l.Nodup ∧ ∀ p, p ∈ l ↔ ∃ n, (p, n) ∈ nodes ∧ k ≤ n.key

section

variable (h : Forms s t)
include h

theorem Forms.child_mem (d : Side) (hp : p ∈ t.inorder) :
    s.links.child d p = s.sentinel ∨ ∃ q ∈ t.inorder, s.links.child d p = some q := by
  obtain ⟨l, r, path, rfl⟩ := exists_place hp
  obtain ⟨-, hl, hr, -, -⟩ := h.shaped.of_plug
  have hsub : ∀ u : BinaryTree Ptr, (∀ a ∈ u.inorder, a ∈ (BinaryTree.node p l r).inorder) →
      s.links.child d p = u.top s.sentinel → s.links.child d p = s.sentinel ∨
        ∃ q ∈ ((BinaryTree.node p l r).plug path).inorder, s.links.child d p = some q := by
    intro u hu hchild
    cases u with
    | nil => exact .inl hchild
    | node q l' r' => exact .inr ⟨q, mem_plug.mpr (.inl (hu q (mem_of_top rfl))), hchild⟩
  cases d with
  | left => exact hsub l (fun a ha => (mem_join (d := .left)).mpr (.inr (.inl ha))) hl
  | right => exact hsub r (fun a ha => (mem_join (d := .left)).mpr (.inr (.inr ha))) hr

/-- The root has no parent, and any other node has one in the tree. -/
theorem Forms.parent_mem (hp : p ∈ t.inorder) :
    s.links.parent p = none ∨ ∃ q ∈ t.inorder, s.links.parent p = some q := by
  obtain ⟨l, r, path, rfl⟩ := exists_place hp
  rw [h.parent_focus rfl]
  cases path with
  | nil => exact .inl rfl
  | cons f path =>
      exact .inr ⟨f.value, mem_plug.mpr (.inr (mem_around_head rfl)), rfl⟩

/-- Down to the left from a node of the tree. -/
theorem Forms.nodeMin (fuel : Nat) (hp : p ∈ t.inorder) :
    wp True (rbtreeNodeMin fuel (some p)) s
      (fun r s' => s' = s ∧ ∃ q ∈ t.inorder, r = some q) E := by
  induction fuel generalizing p with
  | zero => trivial
  | succ fuel ih =>
      have hap := h.alloc p hp
      unfold rbtreeNodeMin
      rw [wp_bind, wp_child hap, wp_bind, wp_sentinel, wp_ite]
      refine ⟨fun hne => ?_, fun _ => ⟨rfl, p, hp, rfl⟩⟩
      rw [wp_bind, wp_child hap]
      obtain ⟨q, hq, hchild⟩ := (h.child_mem .left hp).resolve_left hne
      rw [hchild]
      exact ih hq

/-- The climb ends in the tree, if it ends. -/
theorem Forms.climb (fuel : Nat) (n r : Option Ptr) (hr : r = none ∨ ∃ q ∈ t.inorder, r = some q)
    (hroot : s.root ≠ none) :
    wp True (climb fuel n r) s (fun r s' => s' = s ∧ ∃ q ∈ t.inorder, r = some q) E := by
  induction fuel generalizing n r with
  | zero => trivial
  | succ fuel ih =>
      unfold RBTree.climb
      rw [wp_bind, wp_root, wp_ite]
      rcases hr with rfl | ⟨q, hq, rfl⟩
      · -- NULL is followed
        refine ⟨fun _ => ?_, fun heq => absurd (not_not.mp heq).symm hroot⟩
        trivial
      · have haq := h.alloc q hq
        refine ⟨fun _ => ?_, fun _ => ⟨rfl, q, hq, rfl⟩⟩
        rw [wp_bind, wp_child haq, wp_ite]
        refine ⟨fun _ => ?_, fun _ => ⟨rfl, q, hq, rfl⟩⟩
        rw [wp_bind, wp_parent haq]
        exact ih _ _ (h.parent_mem hq)

/-- **The successor** of a node of the tree, if there is a result, is a node of the tree: it
is never NULL. -/
theorem Forms.next (hp : p ∈ t.inorder) :
    wp True (ksiRBTreeNext fuel (some p)) s
      (fun r s' => s' = s ∧ ∃ q ∈ t.inorder, r = some q) E := by
  have hap := h.alloc p hp
  have hroot : s.root ≠ none := by
    rw [h.root]
    cases t with
    | nil => cases hp
    | node v l r => exact Option.some_ne_none v
  have hns : some p ≠ s.sentinel := by
    obtain ⟨z, hz, hnot⟩ := h.sentinel
    rw [hz.sentinel]
    exact fun heq => hnot (Option.some.inj heq ▸ hp)
  unfold ksiRBTreeNext
  rw [wp_bind, wp_sentinel, wp_ite]
  refine ⟨fun heq => absurd heq hns, fun _ => ?_⟩
  rw [wp_bind, wp_child hap, wp_bind, wp_sentinel, wp_ite]
  refine ⟨fun hne => ?_, fun _ => ?_⟩
  · rw [wp_bind, wp_child hap]
    obtain ⟨q, hq, hchild⟩ := (h.child_mem .right hp).resolve_left hne
    rw [hchild]
    exact h.nodeMin fuel hq
  · rw [wp_bind, wp_parent hap]
    exact h.climb fuel _ _ (h.parent_mem hp) hroot

/-- So a walk from a node of the tree does not end. -/
theorem Forms.not_walk {r : Option Ptr} {l : List Ptr} (hw : Walk s r l) :
    ¬ ∃ p ∈ t.inorder, r = some p := by
  induction hw with
  | stop =>
      rintro ⟨p, -, ⟨⟩⟩
  | step p r l fuel hnext _ ih =>
      rintro ⟨q, hq, ⟨⟩⟩
      have hstep := of_wp_ok (h.next (E := fun _ _ => True) hq) hnext
      exact ih hstep.2

end

/-- With a node to visit there is no walk. -/
theorem Holds.not_walksFrom {nodes : List (Ptr × KsiRBNode)} {x : Ptr × KsiRBNode}
    (h : Holds s z t nodes) (hx : x ∈ nodes) (hkx : k ≤ x.2.key) : ¬ WalksFrom s nodes k := by
  rintro ⟨fuel, first, l, -, hwalk, -, -, hmem⟩
  have hin : x.1 ∈ l := (hmem x.1).mpr ⟨x.2, hx, hkx⟩
  cases hwalk with
  | stop => cases hin
  | step p r l fuel hnext hrest =>
      obtain ⟨n, hn, -⟩ := (hmem p).mp List.mem_cons_self
      exact h.tree.forms.not_walk (.step p r l fuel hnext hrest) ⟨p, h.mem_iff.mpr ⟨n, hn⟩, rfl⟩

/-- **The walk** does what it is to do exactly if there is no node to visit. -/
theorem walksFrom_iff (z : Ptr) (garbage : KsiRBNode) (nodes : List (Ptr × KsiRBNode))
    (hfresh : Fresh z nodes) (k : Int) (hk : 0 ≤ k) (fuel : Nat) (hfuel : nodes.length ≤ fuel) :
    ∃ s, build fuel z garbage nodes = some s ∧
      (WalksFrom s nodes k ↔ ∀ x ∈ nodes, x.2.key < k) := by
  obtain ⟨s, t, hbuild, h⟩ := build_holds garbage hfresh hfuel
  refine ⟨s, hbuild, fun hwalks x hx => ?_, fun hless => ?_⟩
  · by_contra hkx
    exact h.not_walksFrom hx (Int.not_lt.mp hkx) hwalks
  · obtain ⟨r, hrun, hleast⟩ := h.lookup (ε := Empty) hk (Nat.le_refl _)
    have hnone : r = none := by
      cases r with
      | none => rfl
      | some p =>
          obtain ⟨n, hn⟩ := h.mem_iff.mp hleast.1
          have hkp := hleast.2.1
          rw [h.keyOf hn] at hkp
          exact absurd (hless (p, n) hn) (Int.not_lt.mpr hkp)
    subst hnone
    refine ⟨_, none, [], hrun, .stop, List.Pairwise.nil, List.nodup_nil, fun p => ?_⟩
    refine iff_of_false List.not_mem_nil ?_
    rintro ⟨n, hn, hkn⟩
    exact absurd (hless (p, n) hn) (Int.not_lt.mpr hkn)

theorem walksFrom_iff_chord : ∃ s, build 5 1 (note 0 0) chord = some s ∧
    (WalksFrom s chord 4 ↔ ∀ x ∈ chord, x.2.key < 4) :=
  walksFrom_iff 1 (note 0 0) chord (by decide) 4 (by decide) 5 (by decide)

/-- From the first note of the chord, the walk goes round in the tree. -/
theorem not_walksFrom : ¬ ∀ (z : Ptr) (garbage : KsiRBNode) (nodes : List (Ptr × KsiRBNode)),
    Fresh z nodes → ∀ k, 0 ≤ k → ∀ fuel, nodes.length ≤ fuel →
    ∃ s, build fuel z garbage nodes = some s ∧ WalksFrom s nodes k := by
  intro h
  obtain ⟨s, hbuild, hwalks⟩ := h 1 (note 0 0) chord (by decide) 0 (by decide) 3 (by decide)
  obtain ⟨s', t, hbuild', hholds⟩ :=
    build_holds (note 0 0) (show Fresh 1 chord by decide) (show chord.length ≤ 3 by decide)
  rw [hbuild'] at hbuild
  cases hbuild
  exact hholds.not_walksFrom (x := (2, note 3 0)) (by simp [chord]) (by decide) hwalks

end Ksi.RBTree

/-
The tree is a red-black tree, so a look-up takes logarithmically many rounds.

Each loop of an insertion and of a look-up runs at most as often as the tree is high, which
for a balanced tree is at most twice the logarithm of its size.  The budget of rounds below
is that of every single loop.
-/
import Ksi.Proofs.RBTree.Lookup

namespace Ksi.RBTree

open BinaryTree Prog

variable {s : KsiRBTree} {t : BinaryTree Ptr} {z : Ptr} {nodes : List (Ptr × KsiRBNode)}

/-- The nodes are held by a red-black tree. -/
structure HoldsBalanced (s : KsiRBTree) (z : Ptr) (t : BinaryTree Ptr)
    (nodes : List (Ptr × KsiRBNode)) : Prop where
  holds : Holds s z t nodes
  redBlack : RedBlack s t

/-- The root is black, or the sentinel is. -/
theorem Holds.rootBlack (h : Holds s z t nodes) : t.RootBlack s.isBlack :=
  fun v hv => h.tree.rootBlack v (h.tree.forms.root.trans (top_of_node hv))

/-- The height of the tree is logarithmic in the number of its nodes. -/
theorem HoldsBalanced.height_le (h : HoldsBalanced s z t nodes) :
    t.height ≤ 2 * (nodes.length + 1).log2 := by
  obtain ⟨n, hn⟩ := h.redBlack
  have hheight := hn.height_le_log h.holds.rootBlack
  rw [h.holds.members.length_eq, List.length_map] at hheight
  exact hheight

/-- **Building a red-black tree** in loops of logarithmically many rounds. -/
theorem build_balanced (garbage : KsiRBNode) {fuel : Nat} (hfresh : Fresh z nodes)
    (hfuel : 2 * (nodes.length + 1).log2 < fuel) :
    ∃ s t, build fuel z garbage nodes = some s ∧ HoldsBalanced s z t nodes := by
  refine build_rule hfresh (fun s t done => HoldsBalanced s z t done)
    ⟨holds_init z garbage, 0, .nil⟩ ?_
  intro s t done n x h hnot hns hlength
  have hlog : (done.length + 1).log2 ≤ (nodes.length + 1).log2 :=
    (Nat.le_log2 (Nat.succ_ne_zero _)).mpr
      (Nat.le_trans (Nat.log2_self_le (Nat.succ_ne_zero _)) (by omega))
  have hheight := h.height_le
  refine wp_mono (h.holds.attach_wp hnot hns (by omega)) ?_ fun _ _ hE => hE
  rintro _ s' ⟨t', h', hmended⟩
  exact ⟨t', h', hmended h.redBlack⟩

/-- **Insertion and look-up take logarithmically many rounds.**  Whatever nodes are attached, and
in whatever order, no loop of an insertion takes more than `2 * log2 (n + 1) + 2` rounds; the
nodes end up in a red-black tree, in the order of their keys; and in it a look-up, of a key
from 0 on, takes no more rounds to the least key that is not less. -/
theorem logarithmic (z : Ptr) (garbage : KsiRBNode) (nodes : List (Ptr × KsiRBNode))
    (hfresh : Fresh z nodes) (fuel : Nat) (hfuel : 2 * (nodes.length + 1).log2 + 2 ≤ fuel) :
    ∃ s t, build fuel z garbage nodes = some s ∧ Forms s t ∧ t.RootBlack s.isBlack ∧ RedBlack s t ∧
      t.inorder.Perm (nodes.map Prod.fst) ∧ Sorted s t.inorder ∧
      t.height ≤ 2 * (nodes.length + 1).log2 ∧
      ∀ k, 0 ≤ k → ∃ r, (ksiRBTreeNextForKey fuel k : Prog KsiRBTree Empty (Option Ptr)) s =
        some (.ok r, s) ∧ LeastFrom s t.inorder k r := by
  obtain ⟨s, t, hbuild, h⟩ := build_balanced garbage hfresh (show _ < fuel by omega)
  have hheight := h.height_le
  exact ⟨s, t, hbuild, h.holds.tree.forms, h.holds.rootBlack, h.redBlack, h.holds.members,
    h.holds.tree.sorted, hheight, fun k hk => h.holds.lookup_of_height hk (by omega)⟩

/-- Seven notes in the order of their keys, which would be a list in a tree that is not balanced. -/
def scale : List (Ptr × KsiRBNode) :=
  [(2, note 1 0), (3, note 2 0), (4, note 3 0), (5, note 4 0), (6, note 5 0), (7, note 6 0),
    (8, note 7 0)]

theorem logarithmic_scale : ∃ s t, build 8 1 (note 0 0) scale = some s ∧ Forms s t ∧
    t.RootBlack s.isBlack ∧ RedBlack s t ∧ t.inorder.Perm (scale.map Prod.fst) ∧
    Sorted s t.inorder ∧ t.height ≤ 2 * (scale.length + 1).log2 ∧
    ∀ k, 0 ≤ k → ∃ r, (ksiRBTreeNextForKey 8 k : Prog KsiRBTree Empty (Option Ptr)) s =
      some (.ok r, s) ∧ LeastFrom s t.inorder k r :=
  logarithmic 1 (note 0 0) scale (by decide) 8 (by decide)

end Ksi.RBTree

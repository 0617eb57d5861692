/-
Attaching nodes to a tree.

The descent comes to a leaf with no greater key before it and no smaller one after it; the
node goes there, and re-balancing keeps the order.  So after any number of attachments the
tree has the attached nodes, with the keys they came with, in the order of their keys.  A
red-black tree stays one, and the descent takes no more rounds than the tree is high.
-/
import Ksi.Proofs.RBTree.Rebalance

namespace Ksi.RBTree

open BinaryTree Prog

variable {ε : Type} {s s' s'' : KsiRBTree} {p q : Ptr} {E : ε → KsiRBTree → Prop} {F : Prop}
  {t : BinaryTree Ptr} {path : List (Step Ptr)} {f : Step Ptr} {fuel : Nat}

/-! ### Keys and data -/

def KsiRBTree.keyOf (s : KsiRBTree) (q : Ptr) : Int := ((s.node q).map KsiRBNode.key).getD 0

/-- The key and the data of a node. -/
def KsiRBTree.dataOf (s : KsiRBTree) (q : Ptr) : Option (Int × Note) :=
  (s.node q).map fun n => (n.key, n.data)

/-- Keys and data have stayed, and the pointer to the sentinel. -/
structure SameData (s s' : KsiRBTree) : Prop where
  data : s'.dataOf = s.dataOf
  sentinel : s'.sentinel = s.sentinel

theorem keyOf_of_dataOf {k : Int} {x : Note} (h : s.dataOf q = some (k, x)) : s.keyOf q = k := by
  obtain ⟨n, hn, heq⟩ := Option.map_eq_some_iff.mp h
  cases heq
  unfold KsiRBTree.keyOf
  rw [hn]
  rfl

theorem SameData.keyOf (h : SameData s s') : s'.keyOf q = s.keyOf q := by
  have hkey : ∀ s : KsiRBTree, s.keyOf q = ((s.dataOf q).map Prod.fst).getD 0 := by
    intro s
    unfold KsiRBTree.keyOf KsiRBTree.dataOf
    rw [Option.map_map]
    rfl
  rw [hkey, hkey, h.data]

theorem wp_key {Q : Int → KsiRBTree → Prop} (h : s.Alloc p) :
    wp F (key (some p)) s Q E ↔ Q (s.keyOf p) s := by
  obtain ⟨n, hn⟩ := Option.isSome_iff_exists.mp h
  unfold key
  rw [wp_bind, wp_deref hn, wp_pure]
  simp [KsiRBTree.keyOf, hn]

theorem update_sameData {φ : KsiRBNode → KsiRBNode}
    (h : ∀ n, (φ n).key = n.key ∧ (φ n).data = n.data) : SameData s (s.update p φ) := by
  refine ⟨funext fun q => ?_, rfl⟩
  unfold KsiRBTree.dataOf KsiRBTree.update
  dsimp only
  split
  · cases s.node q with
    | none => rfl
    | some n => simp [h n]
  · rfl

theorem sameData_compositional : Compositional (fun _ : ε => True)
    fun {α} (x : Prog KsiRBTree ε α) => Within SameData x :=
  within_compositional (fun _ => ⟨rfl, rfl⟩) fun _ _ _ h h' =>
    ⟨h'.data.trans h.data, h'.sentinel.trans h.sentinel⟩

section

variable {d : Side} {r r' : Option Ptr}

theorem assign_sameData {φ : KsiRBNode → KsiRBNode}
    (h : ∀ n, (φ n).key = n.key ∧ (φ n).data = n.data) :
    Within SameData (assign r φ : Prog KsiRBTree ε Unit) :=
  sameData_compositional.bind (sameData_compositional.read _) fun _ =>
    Within.modify fun _ => update_sameData h

theorem field_sameData {α : Type} (φ : KsiRBNode → α) :
    Within SameData (deref r >>= fun n => pure (φ n) : Prog KsiRBTree ε α) :=
  sameData_compositional.bind (sameData_compositional.read _) fun _ => sameData_compositional.pure _

theorem child_sameData : Within SameData (child d r : Prog KsiRBTree ε (Option Ptr)) :=
  field_sameData _

theorem parent_sameData : Within SameData (parent r : Prog KsiRBTree ε (Option Ptr)) :=
  field_sameData _

theorem root_sameData : Within SameData (root : Prog KsiRBTree ε (Option Ptr)) :=
  sameData_compositional.read _

theorem sentinel_sameData : Within SameData (sentinel : Prog KsiRBTree ε (Option Ptr)) :=
  sameData_compositional.read _

theorem setRoot_sameData : Within SameData (setRoot r : Prog KsiRBTree ε Unit) :=
  Within.modify fun _ => ⟨rfl, rfl⟩

theorem setChild_sameData : Within SameData (setChild d r r' : Prog KsiRBTree ε Unit) :=
  assign_sameData fun _ => by cases d <;> exact ⟨rfl, rfl⟩

theorem setParent_sameData : Within SameData (setParent r r' : Prog KsiRBTree ε Unit) :=
  assign_sameData fun _ => ⟨rfl, rfl⟩

theorem replaceChild_sameData : Within SameData (replaceChild d r r' : Prog KsiRBTree ε Unit) := by
  have hK := sameData_compositional (ε := ε)
  unfold replaceChild
  exact hK.bind root_sameData fun _ => hK.ite setRoot_sameData <|
    hK.bind parent_sameData fun _ => hK.bind child_sameData fun _ => hK.ite
      (hK.bind parent_sameData fun _ => setChild_sameData)
      (hK.bind parent_sameData fun _ => setChild_sameData)

theorem rotate_sameData : Within SameData (rotate d r : Prog KsiRBTree ε Unit) := by
  have hK := sameData_compositional (ε := ε)
  unfold rotate
  refine hK.bind child_sameData fun _ => hK.bind child_sameData fun _ =>
    hK.bind setChild_sameData fun _ => hK.bind child_sameData fun _ =>
    hK.bind sentinel_sameData fun _ => hK.bind (hK.when ?_) fun _ => ?_
  · exact hK.bind child_sameData fun _ => setParent_sameData
  · exact hK.bind parent_sameData fun _ => hK.bind setParent_sameData fun _ =>
      hK.bind replaceChild_sameData fun _ => hK.bind setChild_sameData fun _ => setParent_sameData

theorem rebalanceSide_sameData :
    Within SameData (rebalanceSide d r : Prog KsiRBTree ε (Option Ptr)) := by
  have hK := sameData_compositional (ε := ε)
  have hblack : ∀ r, Within SameData (assign r KsiRBNode.black : Prog KsiRBTree ε Unit) :=
    fun r => assign_sameData fun _ => ⟨rfl, rfl⟩
  have hred : ∀ r, Within SameData (assign r KsiRBNode.red : Prog KsiRBTree ε Unit) :=
    fun r => assign_sameData fun _ => ⟨rfl, rfl⟩
  have hinside : Within SameData (insideInsert d r : Prog KsiRBTree ε (Option Ptr)) := by
    unfold insideInsert
    exact hK.bind parent_sameData fun _ => hK.bind child_sameData fun _ => hK.ite
      (hK.bind parent_sameData fun _ => hK.bind rotate_sameData fun _ => hK.pure _) (hK.pure _)
  unfold rebalanceSide
  refine hK.bind parent_sameData fun _ => hK.bind parent_sameData fun _ =>
    hK.bind child_sameData fun _ => hK.bind (field_sameData _) fun _ => hK.ite ?_ ?_
  · exact hK.bind parent_sameData fun _ => hK.bind (hblack _) fun _ => hK.bind (hblack _) fun _ =>
      hK.bind parent_sameData fun _ => hK.bind parent_sameData fun _ => hK.bind (hred _) fun _ =>
      hK.bind parent_sameData fun _ => parent_sameData
  · exact hK.bind hinside fun _ => hK.bind parent_sameData fun _ => hK.bind (hblack _) fun _ =>
      hK.bind parent_sameData fun _ => hK.bind parent_sameData fun _ => hK.bind (hred _) fun _ =>
      hK.bind parent_sameData fun _ => hK.bind parent_sameData fun _ =>
      hK.bind rotate_sameData fun _ => hK.pure _

theorem rebalance_sameData (fuel : Nat) (r : Option Ptr) :
    Within SameData (rebalance fuel r : Prog KsiRBTree ε Unit) := by
  have hK := sameData_compositional (ε := ε)
  induction fuel generalizing r with
  | zero => exact fun _ => trivial
  | succ fuel ih =>
      unfold rebalance
      exact hK.bind root_sameData fun _ => hK.ite (hK.pure _) <|
        hK.bind parent_sameData fun _ => hK.bind (field_sameData _) fun _ => hK.ite (hK.pure _) <|
        hK.bind parent_sameData fun _ => hK.bind parent_sameData fun _ =>
        hK.bind parent_sameData fun _ => hK.bind child_sameData fun _ =>
        hK.bind rebalanceSide_sameData fun _ => ih _

theorem descend_sameData (fuel : Nat) (r : Option Ptr) :
    Within SameData (descend r' fuel r : Prog KsiRBTree ε (Option Ptr × Side)) := by
  have hK := sameData_compositional (ε := ε)
  induction fuel generalizing r with
  | zero => exact fun _ => trivial
  | succ fuel ih =>
      unfold descend
      exact hK.bind (field_sameData _) fun _ => hK.bind (field_sameData _) fun _ =>
        hK.bind child_sameData fun _ => hK.bind sentinel_sameData fun _ => hK.ite (hK.pure _) (ih _)

/-- Attaching a node keeps the keys and the data of all nodes. -/
theorem ksiRBTreeAttach_sameData (fuel : Nat) :
    Within SameData (ksiRBTreeAttach fuel r : Prog KsiRBTree ε Unit) := by
  have hK := sameData_compositional (ε := ε)
  have hblack : ∀ r, Within SameData (assign r KsiRBNode.black : Prog KsiRBTree ε Unit) :=
    fun r => assign_sameData fun _ => ⟨rfl, rfl⟩
  unfold ksiRBTreeAttach rbtreeInsert
  refine hK.bind root_sameData fun _ => hK.bind sentinel_sameData fun _ => hK.ite ?_ ?_
  · exact hK.bind setParent_sameData fun _ => hK.bind sentinel_sameData fun _ =>
      hK.bind setChild_sameData fun _ => hK.bind sentinel_sameData fun _ =>
      hK.bind setChild_sameData fun _ => hK.bind (hblack _) fun _ => setRoot_sameData
  · exact hK.bind root_sameData fun _ => hK.bind (descend_sameData fuel _) fun _ =>
      hK.bind setChild_sameData fun _ => hK.bind setParent_sameData fun _ =>
      hK.bind sentinel_sameData fun _ => hK.bind setChild_sameData fun _ =>
      hK.bind sentinel_sameData fun _ => hK.bind setChild_sameData fun _ =>
      hK.bind (assign_sameData fun _ => ⟨rfl, rfl⟩) fun _ =>
        hK.bind (rebalance_sameData fuel r) fun _ =>
      hK.bind root_sameData fun _ => hblack _

end

/-! ### The descent -/

/-- The nodes stand in the order of their keys. -/
def Sorted (s : KsiRBTree) (l : List Ptr) : Prop := l.Pairwise fun a b => s.keyOf a ≤ s.keyOf b

/-- The keys on either side of a place. -/
structure Between (s : KsiRBTree) (path : List (Step Ptr)) (k : Int) : Prop where
  before : ∀ a ∈ before path, s.keyOf a ≤ k
  after : ∀ a ∈ after path, k ≤ s.keyOf a

/-- A node and its subtrees in the order. -/
theorem Sorted.node {l r : BinaryTree Ptr}
    (h : Sorted s ((BinaryTree.node q l r).plug path).inorder) :
    (∀ a ∈ l.inorder, s.keyOf a ≤ s.keyOf q) ∧ ∀ a ∈ r.inorder, s.keyOf q ≤ s.keyOf a := by
  rw [inorder_plug, List.append_assoc] at h
  have hplace := (List.pairwise_append.mp (List.pairwise_append.mp h).2.1).1
  have hnode := List.pairwise_append.mp hplace
  exact ⟨fun a ha => hnode.2.2 a ha q List.mem_cons_self, (List.pairwise_cons.mp hnode.2.1).1⟩

/-- One step down to the left, or to the right. -/
theorem Between.left {l r : BinaryTree Ptr} {k : Int} (h : Between s path k)
    (hsorted : Sorted s ((BinaryTree.node q l r).plug path).inorder) (hk : k ≤ s.keyOf q) :
    Between s (⟨.left, q, r⟩ :: path) k where
  before := h.before
  after := by
    intro a ha
    rcases List.mem_append.mp ha with ha | ha
    · rcases List.mem_cons.mp ha with rfl | ha
      · exact hk
      · exact Int.le_trans hk (hsorted.node.2 a ha)
    · exact h.after a ha

theorem Between.right {l r : BinaryTree Ptr} {k : Int} (h : Between s path k)
    (hsorted : Sorted s ((BinaryTree.node q l r).plug path).inorder) (hk : s.keyOf q ≤ k) :
    Between s (⟨.right, q, l⟩ :: path) k where
  before := by
    intro a ha
    rcases List.mem_append.mp ha with ha | ha
    · rcases List.mem_append.mp ha with ha | ha
      · exact h.before a ha
      · exact Int.le_trans (hsorted.node.1 a ha) hk
    · obtain rfl := List.mem_singleton.mp ha
      exact hk
  after := h.after

/-- **The descent** comes to a leaf that the key fits in. -/
theorem descend_wp {n : Ptr} (fuel : Nat) (h : Forms s (t.plug path)) (ht : t.top none = some q)
    (hn : s.Alloc n) (hsorted : Sorted s (t.plug path).inorder) (hfuel : t.height ≤ fuel)
    (hbetween : Between s path (s.keyOf n)) :
    wp False (descend (some n) fuel (some q)) s (fun r s' => s' = s ∧ ∃ f path',
      r = (some f.value, f.side) ∧ nil.plug (f :: path') = t.plug path ∧
      Between s (f :: path') (s.keyOf n)) E := by
  induction fuel generalizing t path q with
  | zero =>
      cases t with
      | nil => cases ht
      | node v l r => exact absurd hfuel (Nat.not_succ_le_zero _)
  | succ fuel ih =>
      cases t with
      | nil => cases ht
      | node v l r =>
          cases ht
          obtain ⟨-, hl, hr, -, -⟩ := h.shaped.of_plug
          have haq : s.Alloc q := h.alloc_place (mem_of_top rfl)
          have hlen : max l.height r.height + 1 ≤ fuel + 1 := hfuel
          unfold descend
          rw [wp_bind, wp_key hn, wp_bind, wp_key haq]
          -- the subtree on the side of the key, and the place that it is at
          suffices hstep : ∀ d c o, BinaryTree.node q l r = join d q c o →
              Between s (⟨d, q, o⟩ :: path) (s.keyOf n) →
              c.height ≤ fuel → wp False (child d (some q) >>= fun p => sentinel >>= fun z =>
                if p = z then pure (some q, d) else descend (some n) fuel p) s (fun p s' => s' = s ∧
                  ∃ f path', p = (some f.value, f.side) ∧
                    nil.plug (f :: path') = (BinaryTree.node q l r).plug path ∧
                    Between s (f :: path') (s.keyOf n)) E by
            by_cases hk : s.keyOf n < s.keyOf q
            · rw [if_pos hk]
              exact hstep .left l r rfl (hbetween.left hsorted (Int.le_of_lt hk)) (by omega)
            · rw [if_neg hk]
              exact hstep .right r l rfl (hbetween.right hsorted (Int.not_lt.mp hk)) (by omega)
          intro d c o hnode hside hlen
          have hplace : (BinaryTree.node q l r).plug path = c.plug (⟨d, q, o⟩ :: path) := by
            rw [hnode]
            rfl
          rw [hplace] at h hsorted ⊢
          have hchild := (Links.shaped_join.mp
            (Links.Shaped.of_plug (t := join d q c o) h.shaped)).2.1
          rw [wp_bind, wp_child haq, hchild, wp_bind, wp_sentinel, wp_ite]
          refine ⟨fun hleaf => ?_, fun hne => ?_⟩
          · cases c with
            | nil => exact ⟨rfl, ⟨d, q, o⟩, path, rfl, rfl, hside⟩
            | node v l r => exact absurd hleaf (h.top_ne_sentinel rfl)
          · cases c with
            | nil => exact absurd rfl hne
            | node v l r => exact ih h rfl hsorted hlen hside

/-! ### The insertion -/

/-- A search tree: the memory holds it, in the order of the keys, and its root is black. -/
structure SearchTree (s : KsiRBTree) (t : BinaryTree Ptr) : Prop where
  forms : Forms s t
  sorted : Sorted s t.inorder
  rootBlack : ∀ r, s.root = some r → s.isBlack r = true

/-- The writes that make `n` the child of a node, with no children of its own. -/
def hung (s : KsiRBTree) (f : Step Ptr) (n : Ptr) : KsiRBTree :=
  ((((s.update f.value (·.setChild f.side (some n))).update n (·.setParent (some f.value))).update n
    (·.setChild .left s.sentinel)).update n (·.setChild .right s.sentinel)).update n KsiRBNode.red

theorem hung_links {n : Ptr} (haf : s.Alloc f.value) (han : s.Alloc n) :
    (∀ a, (hung s f n).links.parent a = if a = n then some f.value else s.links.parent a) ∧
    (∀ c a, a ≠ n → (hung s f n).links.child c a =
      if a = f.value ∧ c = f.side then some n else s.links.child c a) ∧
    ∀ c, (hung s f n).links.child c n = s.sentinel := by
  unfold hung
  refine ⟨fun a => ?_, fun c a ha => ?_, fun c => ?_⟩
  · simp [update_parent, han]
  · simp [update_child, han, haf, ha]
  · cases c <;> simp [update_child, han]

/-- A new leaf keeps the tree linked. -/
theorem hung_forms {n : Ptr} (h : Forms s (nil.plug (f :: path))) (han : s.Alloc n)
    (hnot : n ∉ around (f :: path)) (hns : some n ≠ s.sentinel) :
    Forms (hung s f n) ((BinaryTree.node n nil nil).plug (f :: path)) := by
  have haf : s.Alloc f.value := h.alloc_around (mem_around_head rfl)
  have hne : f.value ≠ n := fun heq => hnot (heq ▸ mem_around_head rfl)
  have hmem : ∀ a, a ∈ ((BinaryTree.node n nil nil).plug (f :: path)).inorder ↔
      a = n ∨ a ∈ around (f :: path) := by
    intro a
    rw [mem_plug]
    simp [inorder]
  obtain ⟨hparent, hchild, hleaf⟩ := hung_links haf han
  refine ⟨?_, ?_, ?_, fun a ha => ?_, ?_⟩
  · exact h.root.trans (top_plug_cons _ _ _)
  · refine h.shaped.replace h.nodup ⟨?_, hleaf .left, hleaf .right, trivial, trivial⟩ rfl
      (fun a ha => ?_) (fun a ha c hc => ?_) ?_
    · rw [hparent, if_pos rfl]
      rfl
    · have han' : a ≠ n := fun heq => hnot (heq ▸ ha)
      rw [hparent, if_neg han']
    · have han' : a ≠ n := fun heq => hnot (heq ▸ ha)
      rw [hchild c a han', if_neg fun heq => hc f rfl heq.1 heq.2]
    · rintro g ⟨⟩
      rw [hchild _ _ hne, if_pos ⟨rfl, rfl⟩]
      rfl
  · refine (inorder_plug_perm _).nodup_iff.mpr (List.nodup_cons.mpr ⟨hnot, ?_⟩)
    exact (plug_nodup h.nodup).2.1
  · have ha' : s.Alloc a := by
      rcases (hmem a).mp ha with rfl | ha
      · exact han
      · exact h.alloc_around ha
    simpa [hung] using ha'
  · obtain ⟨z, hz, hzt⟩ := h.sentinel
    have hzn : z ≠ n := fun heq => hns (heq ▸ hz.sentinel.symm)
    have hza : z ∉ around (f :: path) := fun hmem => hzt (mem_plug.mpr (.inr hmem))
    have hzf : z ≠ f.value := fun heq => hza (heq ▸ mem_around_head rfl)
    refine ⟨z, ⟨hz.sentinel, ?_⟩, fun hz' => ((hmem z).mp hz').elim hzn hza⟩
    have hnode : (hung s f n).node z = s.node z := by
      unfold hung
      rw [update_other hzn, update_other hzn, update_other hzn, update_other hzn, update_other hzf]
    rw [hnode]
    exact hz.node

/-- A new leaf is red, and a leaf above it may be too. -/
theorem hung_painted {n : Ptr} (h : RedBlack s (nil.plug (f :: path))) (han : s.Alloc n)
    (hnot : n ∉ around (f :: path)) :
    Painted (hung s f n) (.node n nil nil) (f :: path) n := by
  have hcolour : ∀ a, (hung s f n).isBlack a = if a = n then false else s.isBlack a := fun a => by
    unfold hung
    rw [update_red (by simpa using han), setChild_isBlack, setChild_isBlack, setParent_isBlack,
      setChild_isBlack]
  obtain ⟨m, hm⟩ := h
  obtain ⟨k, hk, hfits, -⟩ := hm.unplug
  obtain rfl : k = 0 := by
    cases hk
    rfl
  have hred : (hung s f n).isBlack n = false := by rw [hcolour, if_pos rfl]
  refine ⟨hred, 0, .red hred .nil .nil (by rintro a ⟨⟩) (by rintro a ⟨⟩),
    hfits.congr fun a ha => ?_⟩
  have han' : a ≠ n := fun heq => hnot (heq ▸ ha)
  rw [hcolour, if_neg han']

theorem Between.sorted {n : Ptr} (h : Between s path (s.keyOf n))
    (hsorted : Sorted s (nil.plug path).inorder) :
    Sorted s ((BinaryTree.node n nil nil).plug path).inorder := by
  rw [inorder_plug] at hsorted ⊢
  simp only [inorder, List.nil_append, List.append_nil] at hsorted ⊢
  obtain ⟨hbefore, hafter, hboth⟩ := List.pairwise_append.mp hsorted
  rw [List.append_assoc]
  refine List.pairwise_append.mpr ⟨hbefore, List.pairwise_cons.mpr ⟨h.after, hafter⟩, ?_⟩
  intro a ha b hb
  rcases List.mem_cons.mp hb with rfl | hb
  · exact h.before a ha
  · exact hboth a ha b hb

theorem Sorted.sameData {l : List Ptr} (h : Sorted s l) (hdata : SameData s s') : Sorted s' l := by
  refine List.Pairwise.imp (fun {a b} hab => ?_) h
  rw [hdata.keyOf, hdata.keyOf]
  exact hab

/-- The first node of a tree. -/
theorem rbtreeInsert_nil {n : Ptr} (h : Forms s nil) (han : s.Alloc n) (hns : some n ≠ s.sentinel) :
    wp False (rbtreeInsert fuel (some n)) s (fun _ s' => Forms s' (.node n nil nil) ∧
      ∀ r, s'.root = some r → s'.isBlack r = true) E := by
  unfold rbtreeInsert setParent setChild
  rw [wp_bind, wp_root, wp_bind, wp_sentinel, wp_ite]
  refine ⟨fun _ => ?_, fun hne => absurd h.root hne⟩
  rw [wp_bind, wp_assign han, wp_bind, wp_sentinel, wp_bind, wp_assign (by simpa using han),
    wp_bind,
    wp_sentinel, wp_bind, wp_assign (by simpa using han), wp_bind, wp_assign (by simpa using han),
    wp_setRoot]
  simp only [update_sentinel]
  refine ⟨⟨rfl, ⟨?_, ?_, ?_, trivial, trivial⟩, List.nodup_singleton n, fun a ha => ?_, ?_⟩, ?_⟩
  · simp [update_parent, han]
  · simp [update_child, han, top]
  · simp [update_child, han, top]
  · obtain rfl := List.mem_singleton.mp ha
    simpa using han
  · obtain ⟨z, hz, -⟩ := h.sentinel
    have hzn : z ≠ n := fun heq => hns (heq ▸ hz.sentinel.symm)
    refine ⟨z, ⟨hz.sentinel, ?_⟩, fun hmem => hzn (List.mem_singleton.mp hmem)⟩
    rw [withRoot_node, update_other hzn, update_other hzn, update_other hzn, update_other hzn]
    exact hz.node
  · intro r hr
    obtain rfl : n = r := Option.some.inj hr
    rw [withRoot_isBlack, update_black (by simpa using han), if_pos rfl]

/-- The loop starts at the new leaf. -/
theorem hung_balancing {n : Ptr} (h : Forms s (nil.plug (f :: path))) (han : s.Alloc n)
    (hnot : n ∉ around (f :: path)) (hns : some n ≠ s.sentinel)
    (hblack : ∀ r, s.root = some r → s.isBlack r = true) :
    Balancing (hung s f n) ((BinaryTree.node n nil nil).plug (f :: path)).inorder
      (.node n nil nil) (f :: path) n := by
  refine ⟨hung_forms h han hnot hns, rfl, rfl, fun _ r hr => ?_⟩
  have hne : r ≠ n := fun heq => hnot (heq ▸ h.root_mem (List.cons_ne_nil f path) hr)
  unfold hung
  rw [update_red (by simpa using han), if_neg hne, setChild_isBlack, setChild_isBlack,
    setParent_isBlack, setChild_isBlack]
  exact hblack r hr

/-- The insertion, with the keys as they were before. -/
theorem rbtreeInsert_wp {n : Ptr} (h : SearchTree s t) (han : s.Alloc n) (hnot : n ∉ t.inorder)
    (hns : some n ≠ s.sentinel) (hfuel : t.height < fuel) :
    wp False (rbtreeInsert fuel (some n)) s (fun _ s' => ∃ t', Forms s' t' ∧
      (∀ r, s'.root = some r → s'.isBlack r = true) ∧ Sorted s t'.inorder ∧
      t'.inorder.Perm (n :: t.inorder) ∧ (RedBlack s t → RedBlack s' t')) E := by
  cases t with
  | nil =>
      refine wp_mono (rbtreeInsert_nil h.forms han hns) (fun _ s' h' => ?_) fun _ _ hE => hE
      exact ⟨_, h'.1, h'.2, List.pairwise_singleton _ _, List.Perm.refl _,
        fun _ => ⟨1, .black (h'.2 n h'.1.root) .nil .nil⟩⟩
  | node v l r =>
      have hroot : s.root = some v := h.forms.root
      have hforms : Forms s ((BinaryTree.node v l r).plug []) := h.forms
      unfold rbtreeInsert setParent setChild
      rw [wp_bind, wp_root, wp_bind, wp_sentinel, wp_ite]
      refine ⟨fun heq => ?_, fun _ => ?_⟩
      · rw [hroot] at heq
        exact absurd heq (hforms.top_ne_sentinel rfl)
      · rw [wp_bind, wp_root, wp_bind, hroot]
        refine wp_mono (descend_wp fuel hforms rfl han h.sorted (Nat.le_of_lt hfuel)
          ⟨by rintro a ⟨⟩, by rintro a ⟨⟩⟩) ?_ fun _ _ hE => hE
        rintro _ s₁ ⟨hsame, f, path, rfl, hplace, hbetween⟩
        obtain rfl : s = s₁ := hsame.symm
        have horder : around (f :: path) = (BinaryTree.node v l r).inorder := by
          rw [show (BinaryTree.node v l r) = nil.plug (f :: path) from hplace.symm, inorder_plug]
          simp [around, inorder]
        have hforms : Forms s (nil.plug (f :: path)) := hplace ▸ h.forms
        have hsorted : Sorted s (nil.plug (f :: path)).inorder := hplace ▸ h.sorted
        have haf : s.Alloc f.value := hforms.alloc_around (mem_around_head rfl)
        have hlen := length_add_height_le (t := nil) (f :: path)
        have hbalance := hung_balancing hforms han (horder ▸ hnot) hns h.rootBlack
        dsimp only
        rw [wp_bind, wp_assign haf, wp_bind, wp_assign (by simpa using han), wp_bind, wp_sentinel,
          wp_bind, wp_assign (by simpa using han), wp_bind, wp_sentinel, wp_bind,
          wp_assign (by simpa using han), wp_bind, wp_assign (by simpa using han), wp_bind]
        refine wp_mono (rebalance_wp fuel hbalance ?_) ?_ fun _ _ hE => hE
        · rw [hplace] at hlen
          exact Nat.lt_of_le_of_lt (Nat.le_of_add_right_le hlen) hfuel
        · rintro _ s' ⟨t', hforms', hlist, hmended⟩
          have hperm : t'.inorder.Perm (n :: (BinaryTree.node v l r).inorder) := by
            rw [hlist, ← horder]
            exact inorder_plug_perm _
          obtain ⟨b, hb⟩ : ∃ b, t'.top none = some b := by
            cases t' with
            | nil => exact absurd hperm.length_eq (by simp [inorder])
            | node b l r => exact ⟨b, rfl⟩
          have hroot' : s'.root = some b :=
            (Forms.root_eq_iff (show Forms s' (t'.plug []) from hforms') hb).mpr rfl
          have hab : s'.Alloc b := hforms'.alloc b (mem_of_top hb)
          rw [wp_bind, wp_root, hroot', wp_assign hab]
          refine ⟨t', hforms'.black (mem_of_top hb), fun r hr => ?_,
            hlist ▸ hbetween.sorted hsorted, hperm, fun hred => ?_⟩
          · rw [update_root, hroot'] at hr
            rw [update_black hab, if_pos (Option.some.inj hr).symm]
          · obtain ⟨m, hm⟩ := hmended (hung_painted (hplace ▸ hred) han (horder ▸ hnot))
            refine hm.paint_top hforms'.nodup hb ?_ fun a _ hne => ?_
            · rw [update_black hab, if_pos rfl]
            · rw [update_black hab, if_neg hne]

/-- **Attaching a node** makes it one of the tree. -/
theorem ksiRBTreeAttach_wp {n : Ptr} (h : SearchTree s t) (han : s.Alloc n) (hnot : n ∉ t.inorder)
    (hns : some n ≠ s.sentinel) (hfuel : t.height < fuel) :
    wp False (ksiRBTreeAttach fuel (some n)) s (fun _ s' => SameData s s' ∧
      ∃ t', SearchTree s' t' ∧ t'.inorder.Perm (n :: t.inorder) ∧
      (RedBlack s t → RedBlack s' t')) E := by
  have hwp := rbtreeInsert_wp (E := E) h han hnot hns hfuel
  have hdata := ksiRBTreeAttach_sameData (ε := ε) fuel (r := some n) s
  unfold ksiRBTreeAttach at hdata ⊢
  unfold wp at *
  split at hwp
  · exact hwp.elim
  · rename_i s' hrun
    rw [hrun] at hdata
    obtain ⟨t', hforms, hblack, hsorted, hperm, hmended⟩ := hwp
    exact ⟨hdata, t', ⟨hforms, hsorted.sameData hdata, hblack⟩, hperm, hmended⟩
  · exact hwp

/-! ### Building a tree -/

section

variable {n : Ptr} {x : KsiRBNode}

@[simp] theorem withNode_self : (s.withNode n x).node n = some x := Function.update_self ..

theorem withNode_other (h : q ≠ n) : (s.withNode n x).node q = s.node q :=
  Function.update_of_ne h ..

theorem withNode_dataOf : (s.withNode n x).dataOf q = if q = n then some (x.key, x.data)
    else s.dataOf q := by
  unfold KsiRBTree.dataOf
  by_cases hq : q = n
  · subst hq
    simp
  · rw [withNode_other hq, if_neg hq]

/-- A node that the client allocates leaves the tree alone. -/
theorem SearchTree.withNode (h : SearchTree s t) (hnot : n ∉ t.inorder)
    (hns : some n ≠ s.sentinel) : SearchTree (s.withNode n x) t := by
  have hin : ∀ a ∈ t.inorder, (s.withNode n x).node a = s.node a :=
    fun a ha => withNode_other fun heq => hnot (heq ▸ ha)
  obtain ⟨z, hz, hzt⟩ := h.forms.sentinel
  have hzn : z ≠ n := fun heq => hns (heq ▸ hz.sentinel.symm)
  refine ⟨⟨h.forms.root, ?_, h.forms.nodup, fun a ha => ?_, z, ⟨hz.sentinel, ?_⟩, hzt⟩, ?_,
    fun r hr => ?_⟩
  · refine h.forms.shaped.same h.forms.nodup rfl (fun a ha c => ?_) fun a ha => ?_
    · simp [KsiRBTree.links, hin a ha]
    · simp [KsiRBTree.links, hin a ha]
  · unfold KsiRBTree.Alloc
    rw [hin a ha]
    exact h.forms.alloc a ha
  · rw [withNode_other hzn]
    exact hz.node
  · refine List.Pairwise.imp_of_mem (fun {a b} ha hb hab => ?_) h.sorted
    unfold KsiRBTree.keyOf
    rw [hin a ha, hin b hb]
    exact hab
  · have hrn : r ≠ n := by
      have hroot : t.top s.sentinel = some r := h.forms.root.symm.trans hr
      cases t with
      | nil => exact fun heq => hns (heq ▸ hroot.symm)
      | node v l r' =>
          cases hroot
          exact fun heq => hnot (heq ▸ mem_of_top rfl)
    unfold KsiRBTree.isBlack
    rw [withNode_other hrn]
    exact h.rootBlack r hr

end

/-- The tree has exactly the nodes `nodes`, with their keys and data. -/
structure Holds (s : KsiRBTree) (z : Ptr) (t : BinaryTree Ptr)
    (nodes : List (Ptr × KsiRBNode)) : Prop where
  tree : SearchTree s t
  sentinel : s.sentinel = some z
  members : t.inorder.Perm (nodes.map Prod.fst)
  data : ∀ p n, (p, n) ∈ nodes → s.dataOf p = some (n.key, n.data)

theorem holds_init (z : Ptr) (garbage : KsiRBNode) : Holds (ksiRBTreeInit z garbage) z nil [] := by
  have hnode : (ksiRBTreeInit z garbage).node z = some (rbtreeNodeInit garbage).black := by
    unfold ksiRBTreeInit
    simp
  have hz : Sentinel (ksiRBTreeInit z garbage) z :=
    ⟨rfl, _, hnode, rfl, rfl, rfl, isBlack_black _⟩
  refine ⟨⟨⟨rfl, trivial, List.nodup_nil, by rintro a ⟨⟩, z, hz, by rintro ⟨⟩⟩, List.Pairwise.nil,
    fun r hr => ?_⟩, rfl, List.Perm.refl _, by rintro p n ⟨⟩⟩
  obtain rfl : z = r := Option.some.inj hr
  exact hz.black

/-- A node that the client allocates leaves the colours of the tree alone. -/
theorem RedBlack.withNode {n : Ptr} {x : KsiRBNode} (h : RedBlack s t) (hnot : n ∉ t.inorder) :
    RedBlack (s.withNode n x) t := by
  obtain ⟨m, hm⟩ := h
  refine ⟨m, hm.congr fun a ha => ?_⟩
  have han : a ≠ n := fun heq => hnot (heq ▸ ha)
  unfold KsiRBTree.isBlack
  rw [withNode_other han]

/-- One node more, in as many rounds as the tree is high. -/
theorem Holds.attach_wp {z : Ptr} {nodes : List (Ptr × KsiRBNode)} {n : Ptr} {x : KsiRBNode}
    (h : Holds s z t nodes) (hnot : n ∉ nodes.map Prod.fst) (hns : n ≠ z)
    (hfuel : t.height < fuel) :
    wp False (malloc n x >>= fun _ => ksiRBTreeAttach fuel (some n)) s
      (fun _ s' => ∃ t', Holds s' z t' (nodes ++ [(n, x)]) ∧
        (RedBlack s t → RedBlack s' t')) E := by
  have hnt : n ∉ t.inorder := fun hmem => hnot (h.members.mem_iff.mp hmem)
  have hsent : some n ≠ s.sentinel := fun heq => hns (Option.some.inj (heq.trans h.sentinel))
  unfold malloc
  rw [wp_bind, wp_modify]
  refine wp_mono (ksiRBTreeAttach_wp (s := s.withNode n x) (h.tree.withNode hnt hsent) ?_ hnt
    hsent hfuel)
    ?_ fun _ _ hE => hE
  · unfold KsiRBTree.Alloc
    rw [withNode_self]
    rfl
  · rintro _ s' ⟨hdata, t', htree, hperm, hmended⟩
    refine ⟨t', ⟨htree, hdata.sentinel.trans h.sentinel, ?_, fun p y hmem => ?_⟩,
      fun hred => hmended (hred.withNode hnt)⟩
    · rw [List.map_append, List.map_singleton]
      exact (hperm.trans (h.members.cons n)).trans (List.perm_append_singleton n _).symm
    · rw [congrFun hdata.data p, withNode_dataOf]
      rcases List.mem_append.mp hmem with hmem | hmem
      · have hpn : p ≠ n := fun heq => hnot (heq ▸ List.mem_map_of_mem hmem)
        rw [if_neg hpn]
        exact h.data p y hmem
      · cases List.mem_singleton.mp hmem
        rw [if_pos rfl]

/-- The height of the tree is at most the number of its nodes. -/
theorem Holds.height_le {z : Ptr} {nodes : List (Ptr × KsiRBNode)} (h : Holds s z t nodes) :
    t.height ≤ nodes.length := by
  have hlength := h.members.length_eq
  rw [List.length_map] at hlength
  exact hlength ▸ height_le_length

/-- One node more. -/
theorem Holds.attach {z : Ptr} {nodes : List (Ptr × KsiRBNode)} {n : Ptr} {x : KsiRBNode}
    (h : Holds s z t nodes) (hnot : n ∉ nodes.map Prod.fst) (hns : n ≠ z)
    (hfuel : nodes.length < fuel) :
    wp False (malloc n x >>= fun _ => ksiRBTreeAttach fuel (some n)) s
      (fun _ s' => ∃ t', Holds s' z t' (nodes ++ [(n, x)])) E := by
  refine wp_mono (h.attach_wp hnot hns (Nat.lt_of_le_of_lt h.height_le hfuel)) ?_ fun _ _ hE => hE
  rintro _ s' ⟨t', h', -⟩
  exact ⟨t', h'⟩

/-- The pointers that `malloc` has returned for the sentinel and the nodes. -/
def Fresh (z : Ptr) (nodes : List (Ptr × KsiRBNode)) : Prop :=
  (nodes.map Prod.fst).Nodup ∧ z ∉ nodes.map Prod.fst

instance (z : Ptr) (nodes : List (Ptr × KsiRBNode)) : Decidable (Fresh z nodes) := by
  unfold Fresh
  infer_instance

/-- What each attachment keeps holds of a tree that has been built. -/
theorem build_rule {z : Ptr} {garbage : KsiRBNode} {nodes : List (Ptr × KsiRBNode)}
    (hfresh : Fresh z nodes) (Inv : KsiRBTree → BinaryTree Ptr → List (Ptr × KsiRBNode) → Prop)
    (hinit : Inv (ksiRBTreeInit z garbage) nil [])
    (hstep : ∀ s t done n x, Inv s t done → n ∉ done.map Prod.fst → n ≠ z →
      done.length < nodes.length →
      wp False (malloc n x >>= fun _ => ksiRBTreeAttach fuel (some n)) s
        (fun _ s' => ∃ t', Inv s' t' (done ++ [(n, x)])) fun (_ : Empty) _ => True) :
    ∃ s t, build fuel z garbage nodes = some s ∧ Inv s t nodes := by
  have hloop := wp_forEach (d := False) (E := fun (_ : Empty) _ => True)
    (f := fun x : Ptr × KsiRBNode => malloc x.1 x.2 >>= fun _ => ksiRBTreeAttach fuel (some x.1))
    (fun rest s => ∃ done t, nodes = done ++ rest ∧ Inv s t done) ?_ nodes
    (s := ksiRBTreeInit z garbage) ⟨[], nil, rfl, hinit⟩
  · obtain ⟨r, s, hr, hok, -⟩ := exists_of_wp hloop
    obtain e | ⟨⟩ := r
    · exact e.elim
    · obtain ⟨done, t, hdone, hinv⟩ := hok () rfl
      rw [List.append_nil] at hdone
      subst hdone
      refine ⟨s, t, ?_, hinv⟩
      unfold build
      rw [hr]
      rfl
  · rintro ⟨n, x⟩ rest s ⟨done, t, rfl, h⟩
    obtain ⟨hnodup, hz⟩ := hfresh
    rw [List.map_append, List.map_cons] at hnodup hz
    have hnot : n ∉ done.map Prod.fst := fun hmem =>
      (List.nodup_append.mp hnodup).2.2 n hmem n List.mem_cons_self rfl
    have hns : n ≠ z := fun heq =>
      hz (List.mem_append_right _ (List.mem_cons.mpr (.inl heq.symm)))
    have hlength : done.length < (done ++ (n, x) :: rest).length := by
      rw [List.length_append, List.length_cons]
      omega
    refine wp_mono (hstep s t done n x h hnot hns hlength) ?_ fun _ _ hE => hE
    rintro _ s' ⟨t', h'⟩
    exact ⟨done ++ [(n, x)], t', by rw [List.append_assoc]; rfl, h'⟩

/-- **Building a tree**: with enough fuel nothing faults, and the tree has the nodes. -/
theorem build_holds {z : Ptr} (garbage : KsiRBNode) {nodes : List (Ptr × KsiRBNode)}
    (hfresh : Fresh z nodes) (hfuel : nodes.length ≤ fuel) :
    ∃ s t, build fuel z garbage nodes = some s ∧ Holds s z t nodes := by
  refine build_rule hfresh (fun s t done => Holds s z t done) (holds_init z garbage) ?_
  intro s t done n x h hnot hns hlength
  exact h.attach hnot hns (Nat.lt_of_lt_of_le hlength hfuel)

end Ksi.RBTree

/-
Red-black trees.

The colours are told apart from the tree, by a function of the nodes, so that repainting a
node and turning a tree are separate things.  A tree is balanced if every way from the root
to a leaf has the same number of black nodes and no two red ones in a row; so it is at most
twice as high as the logarithm of its size.

An insertion hangs a red node where a leaf was.  All is well then but for a red node above
it, and there are three ways to mend that: to repaint, which moves the trouble two steps up,
or to turn the node above that one, once the lower two lie on one side.  What is at a place
and what is around it are balanced one by one, and fit if they agree on the number of black
nodes.
-/
import Ksi.Lib.Tree
import Mathlib.Algebra.Group.Nat.Defs

namespace BinaryTree

variable {ν : Type} {black black' : ν → Bool} {t u a b : BinaryTree ν} {v w : ν} {d : Side}
  {n : Nat} {path : List (Step ν)} {f g : Step ν}

/-- The root is black; a leaf is. -/
def RootBlack (black : ν → Bool) (t : BinaryTree ν) : Prop :=
  ∀ v, t.top none = some v → black v = true

/-- There are `n` black nodes on each way from the root to a leaf, and no two red ones in a
row. -/
inductive Balanced (black : ν → Bool) : BinaryTree ν → Nat → Prop
  | nil : Balanced black nil 0
  | black {v : ν} {l r : BinaryTree ν} {n : Nat} (hv : black v = true) (hl : Balanced black l n)
      (hr : Balanced black r n) : Balanced black (node v l r) (n + 1)
  | red {v : ν} {l r : BinaryTree ν} {n : Nat} (hv : black v = false) (hl : Balanced black l n)
      (hr : Balanced black r n) (hbl : l.RootBlack black) (hbr : r.RootBlack black) :
      Balanced black (node v l r) n

theorem rootBlack_join : (join d v t u).RootBlack black ↔ black v = true := by
  unfold RootBlack
  rw [top_join]
  simp

theorem Balanced.join_black (hv : black v = true) (ht : Balanced black t n)
    (hu : Balanced black u n) : Balanced black (join d v t u) (n + 1) := by
  cases d with
  | left => exact .black hv ht hu
  | right => exact .black hv hu ht

theorem Balanced.join_red (hv : black v = false) (ht : Balanced black t n)
    (hu : Balanced black u n) (htb : t.RootBlack black) (hub : u.RootBlack black) :
    Balanced black (join d v t u) n := by
  cases d with
  | left => exact .red hv ht hu htb hub
  | right => exact .red hv hu ht hub htb

/-- Below a black node. -/
theorem Balanced.of_black (h : Balanced black (join d v t u) n) (hv : black v = true) :
    ∃ m, n = m + 1 ∧ Balanced black t m ∧ Balanced black u m := by
  cases d with
  | left =>
      cases h with
      | black _ hl hr => exact ⟨_, rfl, hl, hr⟩
      | red hred => exact absurd (hv.symm.trans hred) (by decide)
  | right =>
      cases h with
      | black _ hl hr => exact ⟨_, rfl, hr, hl⟩
      | red hred => exact absurd (hv.symm.trans hred) (by decide)

/-- Below a red node. -/
theorem Balanced.of_red (h : Balanced black (join d v t u) n) (hv : black v = false) :
    Balanced black t n ∧ Balanced black u n ∧ t.RootBlack black ∧ u.RootBlack black := by
  cases d with
  | left =>
      cases h with
      | black hblack => exact absurd (hv.symm.trans hblack) (by decide)
      | red _ hl hr hbl hbr => exact ⟨hl, hr, hbl, hbr⟩
  | right =>
      cases h with
      | black hblack => exact absurd (hv.symm.trans hblack) (by decide)
      | red _ hl hr hbl hbr => exact ⟨hr, hl, hbr, hbl⟩

theorem RootBlack.congr (h : t.RootBlack black) (hc : ∀ v ∈ t.inorder, black' v = black v) :
    t.RootBlack black' := fun v hv => (hc v (mem_of_top hv)).trans (h v hv)

theorem mem_node {l r : BinaryTree ν} : w ∈ (node v l r).inorder ↔ w = v ∨ w ∈ l.inorder ∨
    w ∈ r.inorder :=
  mem_join (d := .left)

/-- Only the colours of its own nodes matter. -/
theorem Balanced.congr (h : Balanced black t n) (hc : ∀ v ∈ t.inorder, black' v = black v) :
    Balanced black' t n := by
  induction h with
  | nil => exact .nil
  | black hv hl hr ihl ihr =>
      exact .black ((hc _ (mem_node.mpr (.inl rfl))).trans hv)
        (ihl fun v hv => hc v (mem_node.mpr (.inr (.inl hv))))
        (ihr fun v hv => hc v (mem_node.mpr (.inr (.inr hv))))
  | red hv hl hr hbl hbr ihl ihr =>
      have hcl := fun v hv => hc v (mem_node.mpr (.inr (.inl hv)))
      have hcr := fun v hv => hc v (mem_node.mpr (.inr (.inr hv)))
      exact .red ((hc _ (mem_node.mpr (.inl rfl))).trans hv) (ihl hcl) (ihr hcr) (hbl.congr hcl)
        (hbr.congr hcr)

/-- A red root is painted black. -/
theorem Balanced.paint_root (h : Balanced black t n) (hnodup : t.inorder.Nodup)
    (htop : t.top none = some v) (hv : black v = false) (hv' : black' v = true)
    (hc : ∀ w ∈ t.inorder, w ≠ v → black' w = black w) : Balanced black' t (n + 1) := by
  cases h with
  | nil => cases htop
  | black hblack =>
      cases htop
      exact absurd (hv.symm.trans hblack) (by decide)
  | red _ hl hr =>
      cases htop
      obtain ⟨hvl, hvr, -⟩ := join_nodup (d := .left) hnodup
      exact .black hv' (hl.congr fun w hw =>
        hc w (mem_node.mpr (.inr (.inl hw))) fun heq => hvl (heq ▸ hw))
        (hr.congr fun w hw => hc w (mem_node.mpr (.inr (.inr hw))) fun heq => hvr (heq ▸ hw))

/-- The root is painted black, whatever it was. -/
theorem Balanced.paint_top (h : Balanced black t n) (hnodup : t.inorder.Nodup)
    (htop : t.top none = some v) (hv' : black' v = true)
    (hc : ∀ w ∈ t.inorder, w ≠ v → black' w = black w) : ∃ m, Balanced black' t m := by
  cases hv : black v with
  | false => exact ⟨n + 1, h.paint_root hnodup htop hv hv' hc⟩
  | true =>
      refine ⟨n, h.congr fun w hw => ?_⟩
      by_cases heq : w = v
      · rw [heq, hv', hv]
      · exact hc w hw heq

/-! ### The height -/

/-- On the longest way every other node may be red. -/
theorem Balanced.height_le (h : Balanced black t n) :
    t.height ≤ 2 * n + 1 ∧ (t.RootBlack black → t.height ≤ 2 * n) := by
  induction h with
  | nil => exact ⟨Nat.zero_le _, fun _ => Nat.zero_le _⟩
  | black hv hl hr ihl ihr =>
      unfold height
      omega
  | red hv hl hr hbl hbr ihl ihr =>
      have hle_l := ihl.2 hbl
      have hle_r := ihr.2 hbr
      refine ⟨by unfold height; omega, fun hroot => ?_⟩
      exact absurd (hv.symm.trans (hroot _ rfl)) (by decide)

theorem Balanced.two_pow_le (h : Balanced black t n) : 2 ^ n ≤ t.inorder.length + 1 := by
  induction h with
  | nil => exact Nat.le_refl _
  | black hv hl hr ihl ihr =>
      rw [Nat.pow_succ, inorder, List.length_append, List.length_cons]
      omega
  | red hv hl hr hbl hbr ihl ihr =>
      rw [inorder, List.length_append, List.length_cons]
      omega

/-- **The height of a red-black tree** is logarithmic in its size. -/
theorem Balanced.height_le_log (h : Balanced black t n) (hroot : t.RootBlack black) :
    t.height ≤ 2 * (t.inorder.length + 1).log2 := by
  have hlog : n ≤ (t.inorder.length + 1).log2 :=
    (Nat.le_log2 (Nat.succ_ne_zero _)).mpr h.two_pow_le
  exact Nat.le_trans (h.height_le.2 hroot) (Nat.mul_le_mul_left 2 hlog)

theorem height_le_length : t.height ≤ t.inorder.length := by
  induction t with
  | nil => exact Nat.le_refl _
  | node v l r ihl ihr =>
      unfold height inorder
      rw [List.length_append, List.length_cons]
      omega

theorem height_join : (join d v t u).height = max t.height u.height + 1 := by
  cases d with
  | left => rfl
  | right => exact congrArg (· + 1) (Nat.max_comm _ _)

/-- A place is not higher than the whole, by as much as it is below the root. -/
theorem length_add_height_le (path : List (Step ν)) :
    path.length + t.height ≤ (t.plug path).height := by
  induction path generalizing t with
  | nil => exact Nat.le_of_eq (Nat.zero_add _)
  | cons f path ih =>
      have hle := ih (t := join f.side f.value t f.sibling)
      rw [height_join] at hle
      rw [plug, List.length_cons]
      omega

/-! ### Places -/

/-- The node above the place is black, if there is one. -/
def Open (black : ν → Bool) (path : List (Step ν)) : Prop := ∀ f ∈ path.head?, black f.value = true

/-- What is around the place is balanced with a tree in it that has `n` black nodes on each
way, but for two red nodes where they meet. -/
def Fits (black : ν → Bool) : List (Step ν) → Nat → Prop
  | [], _ => True
  | f :: path, n => Balanced black f.sibling n ∧ (black f.value = true → Fits black path (n + 1)) ∧
      (black f.value = false → f.sibling.RootBlack black ∧ Open black path ∧ Fits black path n)

theorem open_cons : Open black (f :: path) ↔ black f.value = true := by
  unfold Open
  simp

/-- What fits makes a balanced tree. -/
theorem Fits.plug (h : Fits black path n) (ht : Balanced black t n)
    (hmeet : t.RootBlack black ∨ Open black path) : ∃ m, Balanced black (t.plug path) m := by
  induction path generalizing t n with
  | nil => exact ⟨n, ht⟩
  | cons f path ih =>
      obtain ⟨hsib, hblack, hred⟩ := h
      cases hf : black f.value with
      | true => exact ih (hblack hf) (.join_black hf ht hsib) (.inl (rootBlack_join.mpr hf))
      | false =>
          obtain ⟨hsibroot, hopen, hfits⟩ := hred hf
          have hroot : t.RootBlack black := by
            refine hmeet.resolve_right fun hopen => ?_
            exact absurd (hf.symm.trans (open_cons.mp hopen)) (by decide)
          exact ih hfits (.join_red hf ht hsib hroot hsibroot) (.inr hopen)

/-- ... and a balanced tree is made of what fits. -/
theorem Balanced.unplug (h : Balanced black (t.plug path) n) :
    ∃ m, Balanced black t m ∧ Fits black path m ∧ (t.RootBlack black ∨ Open black path) := by
  induction path generalizing t with
  | nil => exact ⟨n, h, trivial, .inr (by rintro f ⟨⟩)⟩
  | cons f path ih =>
      obtain ⟨m, hjoin, hfits, hmeet⟩ := ih h
      cases hf : black f.value with
      | true =>
          obtain ⟨k, rfl, ht, hsib⟩ := hjoin.of_black hf
          exact ⟨k, ht, ⟨hsib, fun _ => hfits, fun hred => absurd (hf.symm.trans hred) (by decide)⟩,
            .inr (open_cons.mpr hf)⟩
      | false =>
          obtain ⟨ht, hsib, htroot, hsibroot⟩ := hjoin.of_red hf
          have hopen : Open black path := by
            refine hmeet.resolve_left fun hroot => ?_
            exact absurd (hf.symm.trans (rootBlack_join.mp hroot)) (by decide)
          exact ⟨m, ht, ⟨hsib, fun hblack => absurd (hf.symm.trans hblack) (by decide),
            fun _ => ⟨hsibroot, hopen, hfits⟩⟩, .inl htroot⟩

/-- Only the colours of the nodes around the place matter. -/
theorem Fits.congr (h : Fits black path n) (hc : ∀ v ∈ around path, black' v = black v) :
    Fits black' path n := by
  induction path generalizing n with
  | nil => trivial
  | cons f path ih =>
      obtain ⟨hsib, hblack, hred⟩ := h
      have hf : black' f.value = black f.value := hc _ (mem_around_cons.mpr (.inl rfl))
      have hcs : ∀ v ∈ f.sibling.inorder, black' v = black v :=
        fun v hv => hc v (mem_around_cons.mpr (.inr (.inl hv)))
      have hcp : ∀ v ∈ around path, black' v = black v :=
        fun v hv => hc v (mem_around_cons.mpr (.inr (.inr hv)))
      refine ⟨hsib.congr hcs, fun hv => ih (hblack (hf ▸ hv)) hcp, fun hv => ?_⟩
      obtain ⟨hroot, hopen, hfits⟩ := hred (hf ▸ hv)
      refine ⟨hroot.congr hcs, fun g hg => ?_, ih hfits hcp⟩
      exact (hcp g.value (mem_around_head hg)).trans (hopen g hg)

/-- What is around the trouble: a red node above the place, and a black one above that. -/
theorem Fits.above (h : Fits black (f :: g :: path) n) (hf : black f.value = false) :
    Balanced black f.sibling n ∧ f.sibling.RootBlack black ∧ black g.value = true ∧
      Balanced black g.sibling n ∧ Fits black path (n + 1) := by
  obtain ⟨hsib, -, hred⟩ := h
  obtain ⟨hroot, hopen, hsib', hblack, -⟩ := hred hf
  have hg := open_cons.mp hopen
  exact ⟨hsib, hroot, hg, hsib', hblack hg⟩

/-! ### Mending -/

/-- The two nodes above a place, their other subtrees and what is further above have no node
in common. -/
theorem plug_apart (h : (t.plug (f :: g :: path)).inorder.Nodup) :
    (∀ v, v ∈ t.inorder ∨ v ∈ f.sibling.inorder → v ≠ f.value ∧ v ≠ g.value ∧
      v ∉ g.sibling.inorder) ∧
    (∀ v ∈ g.sibling.inorder, v ≠ f.value ∧ v ≠ g.value) ∧
    (∀ v ∈ around path, v ≠ f.value ∧ v ≠ g.value ∧ v ∉ g.sibling.inorder) ∧
    g.sibling.inorder.Nodup := by
  have hplace : (t.plug (f :: g :: path)).inorder =
      ((join g.side g.value (join f.side f.value t f.sibling) g.sibling).plug path).inorder := rfl
  rw [hplace] at h
  obtain ⟨hg, -, hout⟩ := plug_nodup h
  obtain ⟨hgf, hgs, hf, hsib, hsibs⟩ := join_nodup hg
  obtain ⟨hft, hfs, -⟩ := join_nodup hf
  have hmem : ∀ v, v ∈ t.inorder ∨ v ∈ f.sibling.inorder →
    v ∈ (join f.side f.value t f.sibling).inorder :=
    fun v hv => mem_join.mpr (.inr hv)
  have hmem_f : f.value ∈ (join f.side f.value t f.sibling).inorder := mem_join.mpr (.inl rfl)
  refine ⟨fun v hv => ⟨?_, ?_, hsibs v (hmem v hv)⟩, fun v hv => ⟨?_, ?_⟩, fun v hv =>
    ⟨?_, ?_, ?_⟩, hsib⟩
  · rintro rfl
    exact hv.elim hft hfs
  · rintro rfl
    exact hgf (hmem _ hv)
  · rintro rfl
    exact hsibs _ hmem_f hv
  · rintro rfl
    exact hgs hv
  · rintro rfl
    exact hout _ (mem_join.mpr (.inr (.inl hmem_f))) hv
  · rintro rfl
    exact hout _ (mem_join.mpr (.inl rfl)) hv
  · exact fun hv' => hout v (mem_join.mpr (.inr (.inr hv'))) hv

section

variable (h : Fits black (f :: g :: path) n) (hf : black f.value = false)
include h hf

/-- The other subtree has a red root: the two are painted black, and the node above red. -/
theorem Fits.repaint (hnodup : (t.plug (f :: g :: path)).inorder.Nodup) (ht : Balanced black t n)
    (htop : g.sibling.top none = some w) (hw : black w = false) (hf' : black' f.value = true)
    (hg' : black' g.value = false) (hw' : black' w = true)
    (hc : ∀ v, v ≠ f.value → v ≠ g.value → v ≠ w → black' v = black v) :
    Balanced black' (join g.side g.value (join f.side f.value t f.sibling) g.sibling) (n + 1) ∧
      Fits black' path (n + 1) := by
  obtain ⟨hplace, hsib, hpath, hnodup'⟩ := plug_apart hnodup
  obtain ⟨hfsib, -, -, hgsib, hfits⟩ := h.above hf
  have hmem := mem_of_top htop
  have hkeep : ∀ v, v ≠ f.value ∧ v ≠ g.value ∧ v ∉ g.sibling.inorder → black' v = black v :=
    fun v hv => hc v hv.1 hv.2.1 fun heq => hv.2.2 (heq ▸ hmem)
  refine ⟨.join_red hg' (.join_black hf' ?_ ?_) ?_ (rootBlack_join.mpr hf') ?_, ?_⟩
  · exact ht.congr fun v hv => hkeep v (hplace v (.inl hv))
  · exact hfsib.congr fun v hv => hkeep v (hplace v (.inr hv))
  · exact hgsib.paint_root hnodup' htop hw hw' fun v hv hne => hc v (hsib v hv).1 (hsib v hv).2 hne
  · intro v hv
    rw [htop] at hv
    exact Option.some.inj hv ▸ hw'
  · exact hfits.congr fun v hv => hkeep v (hpath v hv)

/-- The other subtree has a black root, and the place is on the same side: the upper node is
painted red and turned about the lower one, which is painted black. -/
theorem Fits.turn_outer (hnodup : (t.plug (f :: g :: path)).inorder.Nodup) (ht : Balanced black t n)
    (hroot : g.sibling.RootBlack black) (hf' : black' f.value = true) (hg' : black' g.value = false)
    (hc : ∀ v, v ≠ f.value → v ≠ g.value → black' v = black v) :
    Balanced black' t n ∧
      Fits black' (⟨d, f.value, join d.other g.value g.sibling f.sibling⟩ :: path) n := by
  obtain ⟨hplace, hsib, hpath, -⟩ := plug_apart hnodup
  obtain ⟨hfsib, hfroot, -, hgsib, hfits⟩ := h.above hf
  have hcf : ∀ v ∈ f.sibling.inorder, black' v = black v :=
    fun v hv => hc v (hplace v (.inr hv)).1 (hplace v (.inr hv)).2.1
  have hcg : ∀ v ∈ g.sibling.inorder, black' v = black v :=
    fun v hv => hc v (hsib v hv).1 (hsib v hv).2
  refine ⟨ht.congr fun v hv => hc v (hplace v (.inl hv)).1 (hplace v (.inl hv)).2.1, ?_,
    fun _ => ?_, fun hred => absurd (hf'.symm.trans hred) (by decide)⟩
  · exact .join_red hg' (hgsib.congr hcg) (hfsib.congr hcf) (hroot.congr hcg) (hfroot.congr hcf)
  · exact hfits.congr fun v hv => hc v (hpath v hv).1 (hpath v hv).2.1

/-- ... and the place is on the other side: the lower node is turned about the one at the
place, which brings the two to one side. -/
theorem Fits.turn_inner (ht : Balanced black (join d v a b) n) (hv : black v = false) :
    Balanced black (join d f.value f.sibling a) n ∧ Fits black (⟨d, v, b⟩ :: g :: path) n := by
  obtain ⟨ha, hb, haroot, hbroot⟩ := ht.of_red hv
  obtain ⟨hfsib, -, hred⟩ := h
  obtain ⟨hfroot, hopen, hfits⟩ := hred hf
  exact ⟨.join_red hf hfsib ha hfroot haroot, hb,
    fun hblack => absurd (hv.symm.trans hblack) (by decide), fun _ => ⟨hbroot, hopen, hfits⟩⟩

end

end BinaryTree

/-
Binary trees whose nodes are linked by pointers.

A place in a tree is a subtree together with the steps that lead from it to the root; each
step names the node it comes to and the subtree on that node's other side.  The nodes from
left to right are then those before the place, those of the subtree, and those after it.

Of linked nodes it is said which tree they form.  What a change of some links does to the
tree is told from the links of the nodes one by one: a subtree may be put in the place of
another, and a node may be turned about its child, which leaves the order of the nodes as
it is.
-/
import Mathlib.Data.Tree.Basic
import Mathlib.Data.List.Nodup
import Mathlib.Data.List.Perm.Basic

inductive Side where
  | left
  | right
  deriving DecidableEq, Repr

namespace Side

def other : Side → Side
  | left => right
  | right => left

@[simp] theorem other_other (d : Side) : d.other.other = d := by
  cases d <;> rfl

@[simp] theorem other_ne (d : Side) : d.other ≠ d := by
  cases d <;> decide

theorem eq_other_of_ne {c d : Side} (h : c ≠ d) : c = d.other := by
  cases c <;> cases d <;> first | rfl | exact absurd rfl h

end Side

namespace BinaryTree

variable {ν : Type} {t u x y z : BinaryTree ν} {a v w : ν} {d : Side}

/-! ### The order of the nodes -/

/-- The nodes from left to right. -/
def inorder : BinaryTree ν → List ν
  | nil => []
  | node v l r => l.inorder ++ v :: r.inorder

/-- `v` with `t` on side `d` and `u` on the other one. -/
def join (d : Side) (v : ν) (t u : BinaryTree ν) : BinaryTree ν :=
  match d with
  | .left => node v t u
  | .right => node v u t

@[simp] theorem join_other : join d.other v t u = join d v u t := by
  cases d <;> rfl

theorem inorder_join_perm : (join d v t u).inorder.Perm (v :: (t.inorder ++ u.inorder)) := by
  cases d with
  | left => exact List.perm_middle
  | right => exact List.perm_middle.trans (List.perm_append_comm.cons v)

theorem mem_join : a ∈ (join d v t u).inorder ↔ a = v ∨ a ∈ t.inorder ∨ a ∈ u.inorder := by
  rw [inorder_join_perm.mem_iff, List.mem_cons, List.mem_append]

/-- Turning `v` about its child `w` keeps the order. -/
theorem inorder_turn :
    (join d w (join d v x y) z).inorder = (join d v x (join d w y z)).inorder := by
  cases d <;> simp [join, inorder]

/-! ### Places in a tree -/

/-- A step from a subtree up to the node that it hangs on. -/
structure Step (ν : Type) where
  side : Side
  value : ν
  sibling : BinaryTree ν

/-- The tree with `t` at the place that the steps lead from. -/
def plug (t : BinaryTree ν) : List (Step ν) → BinaryTree ν
  | [] => t
  | f :: path => (join f.side f.value t f.sibling).plug path

theorem plug_append (path path' : List (Step ν)) :
    t.plug (path ++ path') = (t.plug path).plug path' := by
  induction path generalizing t with
  | nil => rfl
  | cons f path ih => exact ih

/-- A node is at some place. -/
theorem exists_place (h : a ∈ t.inorder) : ∃ l r path, t = (node a l r).plug path := by
  induction t with
  | nil => cases h
  | node v l r ihl ihr =>
      rcases (mem_join (d := .left)).mp h with rfl | h | h
      · exact ⟨l, r, [], rfl⟩
      · obtain ⟨l', r', path, rfl⟩ := ihl h
        exact ⟨l', r', path ++ [⟨.left, v, r⟩], by rw [plug_append]; rfl⟩
      · obtain ⟨l', r', path, rfl⟩ := ihr h
        exact ⟨l', r', path ++ [⟨.right, v, l⟩], by rw [plug_append]; rfl⟩

/-- The nodes to the left of a place. -/
def before : List (Step ν) → List ν
  | [] => []
  | f :: path =>
      match f.side with
      | .left => before path
      | .right => before path ++ f.sibling.inorder ++ [f.value]

/-- The nodes to the right of a place. -/
def after : List (Step ν) → List ν
  | [] => []
  | f :: path =>
      match f.side with
      | .left => f.value :: f.sibling.inorder ++ after path
      | .right => after path

theorem inorder_plug (path : List (Step ν)) :
    (t.plug path).inorder = before path ++ t.inorder ++ after path := by
  induction path generalizing t with
  | nil => simp [plug, before, after]
  | cons f path ih =>
      obtain ⟨d, v, u⟩ := f
      rw [plug, ih]
      cases d <;> simp [join, inorder, before, after]

/-- The nodes that are not at the place. -/
def around (path : List (Step ν)) : List ν := before path ++ after path

theorem mem_around_cons {f : Step ν} {path : List (Step ν)} :
    a ∈ around (f :: path) ↔ a = f.value ∨ a ∈ f.sibling.inorder ∨ a ∈ around path := by
  obtain ⟨d, v, u⟩ := f
  cases d <;> simp only [around, before, after, List.mem_append, List.mem_cons,
    List.not_mem_nil, or_false] <;> tauto

theorem inorder_plug_perm (path : List (Step ν)) :
    (t.plug path).inorder.Perm (t.inorder ++ around path) := by
  rw [inorder_plug, List.append_assoc]
  exact List.perm_append_comm_assoc ..

theorem mem_plug {path : List (Step ν)} :
    a ∈ (t.plug path).inorder ↔ a ∈ t.inorder ∨ a ∈ around path := by
  rw [(inorder_plug_perm path).mem_iff, List.mem_append]

theorem mem_around_head {f : Step ν} {path : List (Step ν)} (hf : f ∈ path.head?) :
    f.value ∈ around path := by
  cases path with
  | nil => cases hf
  | cons g path =>
      cases hf
      exact mem_around_cons.mpr (.inl rfl)

/-- A place has no node in common with what is around it. -/
theorem plug_nodup {path : List (Step ν)} (h : (t.plug path).inorder.Nodup) :
    t.inorder.Nodup ∧ (around path).Nodup ∧ ∀ a ∈ t.inorder, a ∉ around path := by
  have happend := List.nodup_append.mp ((inorder_plug_perm path).nodup_iff.mp h)
  exact ⟨happend.1, happend.2.1, fun a ha ha' => happend.2.2 a ha a ha' rfl⟩

/-- A node has nothing in common with its subtrees, nor they with each other. -/
theorem join_nodup (h : (join d v t u).inorder.Nodup) :
    v ∉ t.inorder ∧ v ∉ u.inorder ∧ t.inorder.Nodup ∧ u.inorder.Nodup ∧
      ∀ a ∈ t.inorder, a ∉ u.inorder := by
  have hcons := List.nodup_cons.mp (inorder_join_perm.nodup_iff.mp h)
  have happend := List.nodup_append.mp hcons.2
  rw [List.mem_append, not_or] at hcons
  exact ⟨hcons.1.1, hcons.1.2, happend.1, happend.2.1, fun a ha ha' => happend.2.2 a ha a ha' rfl⟩

/-! ### Linked nodes -/

/-- The pointers of the nodes; `leaf` stands where there is no child. -/
structure Links (ν : Type) where
  child : Side → ν → Option ν
  parent : ν → Option ν
  leaf : Option ν

/-- What points to a subtree. -/
def top (leaf : Option ν) : BinaryTree ν → Option ν
  | nil => leaf
  | node v _ _ => some v

@[simp] theorem top_join (leaf : Option ν) : (join d v t u).top leaf = some v := by
  cases d <;> rfl

/-- Where there is a node, it does not matter what a leaf is. -/
theorem top_of_node {leaf : Option ν} (h : t.top none = some a) : t.top leaf = some a := by
  cases t with
  | nil => cases h
  | node v l r => exact h

theorem mem_of_top (h : t.top none = some a) : a ∈ t.inorder := by
  cases t with
  | nil => cases h
  | node v l r =>
      cases h
      exact (mem_join (d := .left)).mpr (.inl rfl)

/-- The root is not at a place below it. -/
theorem top_plug_mem {f : Step ν} (path : List (Step ν)) (leaf : Option ν) :
    ∃ b ∈ around (f :: path), (t.plug (f :: path)).top leaf = some b := by
  induction path generalizing f t with
  | nil => exact ⟨f.value, mem_around_cons.mpr (.inl rfl), top_join leaf⟩
  | cons g path ih =>
      obtain ⟨b, hb, htop⟩ := ih (f := g) (t := join f.side f.value t f.sibling)
      exact ⟨b, mem_around_cons.mpr (.inr (.inr hb)), htop⟩

/-- ... but above it. -/
theorem top_plug_cons {f : Step ν} {path : List (Step ν)} (leaf : Option ν) (t u : BinaryTree ν) :
    (t.plug (f :: path)).top leaf = (u.plug (f :: path)).top leaf := by
  induction path generalizing f t u with
  | nil => exact (top_join leaf).trans (top_join leaf).symm
  | cons g path ih => exact ih _ _

/-- The node above a place. -/
def up (path : List (Step ν)) : Option ν := path.head?.map Step.value

/-- The links are those of the tree, and its root has the parent `p`. -/
def Links.Shaped (L : Links ν) : Option ν → BinaryTree ν → Prop
  | _, nil => True
  | p, node v l r => L.parent v = p ∧ L.child .left v = l.top L.leaf ∧
      L.child .right v = r.top L.leaf ∧ L.Shaped (some v) l ∧ L.Shaped (some v) r

namespace Links

variable {L L' : Links ν} {p p' : Option ν} {path : List (Step ν)} {f : Step ν}

theorem shaped_join : L.Shaped p (join d v t u) ↔ L.parent v = p ∧ L.child d v = t.top L.leaf ∧
    L.child d.other v = u.top L.leaf ∧ L.Shaped (some v) t ∧ L.Shaped (some v) u := by
  cases d with
  | left => exact Iff.rfl
  | right =>
      show L.parent v = p ∧ _ ∧ _ ∧ _ ∧ _ ↔ _
      tauto

/-- What is at a place is linked to the node above. -/
theorem Shaped.of_plug (h : L.Shaped none (t.plug path)) : L.Shaped (up path) t := by
  induction path generalizing t with
  | nil => exact h
  | cons f path ih => exact (shaped_join.mp (ih h)).2.2.2.1

theorem Shaped.parent (h : L.Shaped p t) (ha : t.top none = some a) : L.parent a = p := by
  cases t with
  | nil => cases ha
  | node v l r =>
      cases ha
      exact h.1

/-- A tree whose links have stayed, but for the parent of its root. -/
theorem Shaped.congr (h : L.Shaped p t) (hnodup : t.inorder.Nodup) (hleaf : L'.leaf = L.leaf)
    (hchild : ∀ a ∈ t.inorder, ∀ c, L'.child c a = L.child c a)
    (hparent : ∀ a ∈ t.inorder, t.top none ≠ some a → L'.parent a = L.parent a)
    (htop : ∀ a, t.top none = some a → L'.parent a = p') : L'.Shaped p' t := by
  induction t generalizing p p' with
  | nil => trivial
  | node v l r ihl ihr =>
      obtain ⟨-, hl, hr, hsl, hsr⟩ := h
      obtain ⟨hvl, hvr, hnl, hnr, -⟩ := join_nodup (d := .left) hnodup
      have hmem : ∀ a, a ∈ (node v l r).inorder ↔ a = v ∨ a ∈ l.inorder ∨ a ∈ r.inorder :=
        fun a => mem_join (d := .left)
      -- below `v` every parent has stayed
      have hkeep : ∀ a, a ∈ l.inorder ∨ a ∈ r.inorder → L'.parent a = L.parent a := by
        intro a ha
        refine hparent a ((hmem a).mpr (.inr ha)) fun heq => ?_
        obtain rfl : v = a := Option.some.inj heq
        exact ha.elim hvl hvr
      refine ⟨htop v rfl, ?_, ?_, ?_, ?_⟩
      · rw [hleaf, hchild v ((hmem v).mpr (.inl rfl)), hl]
      · rw [hleaf, hchild v ((hmem v).mpr (.inl rfl)), hr]
      · exact ihl hsl hnl (fun a ha => hchild a ((hmem a).mpr (.inr (.inl ha))))
          (fun a ha _ => hkeep a (.inl ha))
          fun a ha => (hkeep a (.inl (mem_of_top ha))).trans (hsl.parent ha)
      · exact ihr hsr hnr (fun a ha => hchild a ((hmem a).mpr (.inr (.inr ha))))
          (fun a ha _ => hkeep a (.inr ha))
          fun a ha => (hkeep a (.inr (mem_of_top ha))).trans (hsr.parent ha)

/-- A tree whose links have all stayed. -/
theorem Shaped.same (h : L.Shaped p t) (hnodup : t.inorder.Nodup) (hleaf : L'.leaf = L.leaf)
    (hchild : ∀ a ∈ t.inorder, ∀ c, L'.child c a = L.child c a)
    (hparent : ∀ a ∈ t.inorder, L'.parent a = L.parent a) : L'.Shaped p t :=
  h.congr hnodup hleaf hchild (fun a ha _ => hparent a ha)
    fun a ha => (hparent a (mem_of_top ha)).trans (h.parent ha)

/-- Another subtree is put at a place: around it only the node above has got another
child. -/
theorem Shaped.replace (h : L.Shaped none (t.plug path)) (hnodup : (t.plug path).inorder.Nodup)
    (ht : L'.Shaped (up path) u) (hleaf : L'.leaf = L.leaf)
    (hparent : ∀ a ∈ around path, L'.parent a = L.parent a)
    (hchild : ∀ a ∈ around path, ∀ c, (∀ f ∈ path.head?, a = f.value → c ≠ f.side) →
      L'.child c a = L.child c a)
    (hlink : ∀ f ∈ path.head?, L'.child f.side f.value = u.top L.leaf) :
    L'.Shaped none (u.plug path) := by
  induction path generalizing t u with
  | nil => exact ht
  | cons f path ih =>
      obtain ⟨hpar, hc, hoc, hst, hsib⟩ :=
        shaped_join.mp (Shaped.of_plug (t := join f.side f.value t f.sibling) h)
      obtain ⟨hnf, hnpath, hdisj⟩ := plug_nodup (t := join f.side f.value t f.sibling) hnodup
      obtain ⟨-, hfsib, -, hnsib, -⟩ := join_nodup hnf
      have hkeep : ∀ a ∈ f.sibling.inorder, L'.parent a = L.parent a :=
        fun a ha => hparent a (mem_around_cons.mpr (.inr (.inl ha)))
      refine ih h hnodup (shaped_join.mpr ⟨?_, ?_, ?_, ht, ?_⟩)
        (fun a ha => hparent a (mem_around_cons.mpr (.inr (.inr ha)))) (fun a ha c hac => ?_)
        fun g hg => ?_
      · rw [hparent f.value (mem_around_cons.mpr (.inl rfl)), hpar]
      · rw [hleaf]
        exact hlink f rfl
      · rw [hleaf, hchild f.value (mem_around_cons.mpr (.inl rfl)) _ ?_, hoc]
        rintro g ⟨⟩ -
        exact Side.other_ne _
      · refine hsib.same hnsib hleaf (fun a ha c => ?_) hkeep
        refine hchild a (mem_around_cons.mpr (.inr (.inl ha))) c ?_
        rintro g ⟨⟩ rfl
        exact absurd ha hfsib
      · refine hchild a (mem_around_cons.mpr (.inr (.inr ha))) c ?_
        rintro g ⟨⟩ rfl
        exact absurd ha (hdisj f.value (mem_join.mpr (.inl rfl)))
      · -- the node further above has kept its child
        cases path with
        | nil => cases hg
        | cons g' path =>
            cases hg
            have habove : L.Shaped none ((join g.side g.value (join f.side f.value t f.sibling)
              g.sibling).plug path) := h
            have hup := (shaped_join.mp habove.of_plug).2.1
            have hmem : g.value ∈ around (g :: path) := mem_around_head rfl
            rw [top_join] at hup ⊢
            rw [hchild g.value (mem_around_cons.mpr (.inr (.inr hmem))) _ ?_, hup]
            rintro f' ⟨⟩ heq
            exact absurd (heq ▸ hmem) (hdisj f.value (mem_join.mpr (.inl rfl)))

/-- **Turning a node about its child** keeps the tree linked: `v`, which had `x` on side `d`
and `w` on the other, goes below `w` on side `d` and takes over `y`. -/
theorem Shaped.turn {d : Side} {v w : ν} {x y z : BinaryTree ν}
    (h : L.Shaped none ((join d v x (join d w y z)).plug path))
    (hnodup : ((join d v x (join d w y z)).plug path).inorder.Nodup) (hleaf : L'.leaf = L.leaf)
    (hv : L'.parent v = some w) (hw : L'.parent w = up path)
    (hy : ∀ a, y.top none = some a → L'.parent a = some v)
    (hparent : ∀ a, a ≠ v → a ≠ w → y.top none ≠ some a → L'.parent a = L.parent a)
    (hvc : L'.child d.other v = y.top L.leaf) (hwc : L'.child d w = some v)
    (hlink : ∀ f ∈ path.head?, L'.child f.side f.value = some w)
    (hchild : ∀ a c, (a = v → c ≠ d.other) → (a = w → c ≠ d) →
      (∀ f ∈ path.head?, a = f.value → c ≠ f.side) → L'.child c a = L.child c a) :
    L'.Shaped none ((join d w (join d v x y) z).plug path) := by
  obtain ⟨-, hvx, -, hsx, hsw⟩ := shaped_join.mp h.of_plug
  obtain ⟨-, -, hwz, hsy, hsz⟩ := shaped_join.mp hsw
  obtain ⟨hnv, -, hdisj⟩ := plug_nodup hnodup
  obtain ⟨hv_x, hv_w, hnx, hnw, hxw⟩ := join_nodup hnv
  obtain ⟨hw_y, hw_z, hny, hnz, hyz⟩ := join_nodup hnw
  have hvw : v ≠ w := fun heq => hv_w (mem_join.mpr (.inl heq))
  have hinw : ∀ a, a ∈ y.inorder ∨ a ∈ z.inorder → a ∈ (join d w y z).inorder :=
    fun a ha => mem_join.mpr (.inr ha)
  have hinv : ∀ a, a ∈ x.inorder ∨ a ∈ (join d w y z).inorder →
      a ∈ (join d v x (join d w y z)).inorder := fun a ha => mem_join.mpr (.inr ha)
  -- nothing of the place is the node above it
  have hnotup : ∀ a ∈ (join d v x (join d w y z)).inorder, ∀ f ∈ path.head?, a ≠ f.value := by
    intro a ha f hf heq
    exact hdisj a ha (heq ▸ mem_around_head hf)
  have hkeep : ∀ a, a ∈ x.inorder ∨ a ∈ y.inorder ∨ a ∈ z.inorder → ∀ c,
      L'.child c a = L.child c a := by
    intro a ha c
    have hmem : a ∈ (join d v x (join d w y z)).inorder := by
      rcases ha with ha | ha
      · exact hinv a (.inl ha)
      · exact hinv a (.inr (hinw a ha))
    refine hchild a c (fun heq => ?_) (fun heq => ?_) fun f hf heq => ?_
    · subst heq
      rcases ha with ha | ha
      · exact absurd ha hv_x
      · exact absurd (hinw a ha) hv_w
    · subst heq
      rcases ha with ha | ha | ha
      · exact absurd (mem_join.mpr (.inl rfl)) (hxw a ha)
      · exact absurd ha hw_y
      · exact absurd ha hw_z
    · exact absurd heq (hnotup a hmem f hf)
  have hparent_z : ∀ a ∈ z.inorder, L'.parent a = L.parent a := by
    intro a ha
    refine hparent a (fun heq => hv_w (heq ▸ hinw a (.inr ha))) (fun heq => hw_z (heq ▸ ha))
      fun heq => hyz a (mem_of_top heq) ha
  have hparent_x : ∀ a ∈ x.inorder, L'.parent a = L.parent a := by
    intro a ha
    refine hparent a (fun heq => hv_x (heq ▸ ha)) (fun heq => hxw a ha (mem_join.mpr (.inl heq)))
      fun heq => hxw a ha (hinw a (.inl (mem_of_top heq)))
  have hmem_w : w ∈ (join d v x (join d w y z)).inorder := hinv w (.inr (mem_join.mpr (.inl rfl)))
  have hmem_v : v ∈ (join d v x (join d w y z)).inorder := mem_join.mpr (.inl rfl)
  refine h.replace hnodup (shaped_join.mpr ⟨hw, ?_, ?_, shaped_join.mpr ⟨hv, ?_, ?_, ?_, ?_⟩, ?_⟩)
    hleaf (fun a ha => ?_) (fun a ha c hc => ?_) fun f hf => ?_
  · rw [hwc, top_join]
  · rw [hleaf, ← hwz]
    exact hchild w _ (fun heq => absurd heq.symm hvw) (fun _ => Side.other_ne d)
      fun f hf heq => absurd heq (hnotup w hmem_w f hf)
  · rw [hleaf, ← hvx]
    exact hchild v _ (fun _ => (Side.other_ne d).symm) (fun heq => absurd heq hvw)
      fun f hf heq => absurd heq (hnotup v hmem_v f hf)
  · rw [hleaf, hvc]
  · exact hsx.same hnx hleaf (fun a ha => hkeep a (.inl ha)) hparent_x
  · exact hsy.congr hny hleaf (fun a ha => hkeep a (.inr (.inl ha)))
      (fun a ha hne => hparent a (fun heq => hv_w (heq ▸ hinw a (.inl ha)))
        (fun heq => hw_y (heq ▸ ha)) hne) hy
  · exact hsz.same hnz hleaf (fun a ha => hkeep a (.inr (.inr ha))) hparent_z
  · exact hparent a (fun heq => hdisj v hmem_v (heq ▸ ha)) (fun heq => hdisj w hmem_w (heq ▸ ha))
      fun heq => hdisj a (hinv a (.inr (hinw a (.inl (mem_of_top heq))))) ha
  · exact hchild a c (fun heq => absurd (heq ▸ ha) (hdisj v hmem_v))
      (fun heq => absurd (heq ▸ ha) (hdisj w hmem_w)) hc
  · rw [top_join]
    exact hlink f hf

end Links

end BinaryTree

/-
The tree that the pointers form.

`Forms s t` says that the memory holds the tree `t`, with a sentinel outside of it that has
no children.  A rotation turns a node about its child; nothing else in it matters than which
pointers it changes, and these are told one by one.
-/
import Ksi.RBTree

namespace Ksi.RBTree

open BinaryTree Prog

variable {ε : Type} {s s' : KsiRBTree} {p q : Ptr} {c d : Side} {F : Prop}
  {E : ε → KsiRBTree → Prop}

/-! ### Reading and writing nodes -/

/-- The pointers of the nodes. -/
def KsiRBTree.links (s : KsiRBTree) : Links Ptr where
  child := fun c q => (s.node q).bind fun n => n.child c
  parent := fun q => (s.node q).bind fun n => n.parent
  leaf := s.sentinel

def KsiRBTree.isBlack (s : KsiRBTree) (q : Ptr) : Bool := (s.node q).any KsiRBNode.isBlack

/-- The node is allocated. -/
def KsiRBTree.Alloc (s : KsiRBTree) (q : Ptr) : Prop := (s.node q).isSome = true

theorem wp_deref {Q : KsiRBNode → KsiRBTree → Prop} {n : KsiRBNode} (h : s.node p = some n) :
    wp F (deref (some p)) s Q E ↔ Q n s := by
  unfold deref
  rw [wp_read]
  simp [h]

theorem wp_child {Q : Option Ptr → KsiRBTree → Prop} (h : s.Alloc p) :
    wp F (child c (some p)) s Q E ↔ Q (s.links.child c p) s := by
  obtain ⟨n, hn⟩ := Option.isSome_iff_exists.mp h
  unfold child
  rw [wp_bind, wp_deref hn, wp_pure]
  simp [KsiRBTree.links, hn]

theorem wp_parent {Q : Option Ptr → KsiRBTree → Prop} (h : s.Alloc p) :
    wp F (parent (some p)) s Q E ↔ Q (s.links.parent p) s := by
  obtain ⟨n, hn⟩ := Option.isSome_iff_exists.mp h
  unfold parent
  rw [wp_bind, wp_deref hn, wp_pure]
  simp [KsiRBTree.links, hn]

theorem wp_isBlack {Q : Bool → KsiRBTree → Prop} (h : s.Alloc p) :
    wp F (isBlack (some p)) s Q E ↔ Q (s.isBlack p) s := by
  obtain ⟨n, hn⟩ := Option.isSome_iff_exists.mp h
  unfold isBlack
  rw [wp_bind, wp_deref hn, wp_pure]
  simp [KsiRBTree.isBlack, hn]

theorem wp_assign {Q : Unit → KsiRBTree → Prop} {f : KsiRBNode → KsiRBNode} (h : s.Alloc p) :
    wp F (assign (some p) f) s Q E ↔ Q () (s.update p f) := by
  unfold assign
  rw [wp_bind, wp_read]
  have hfilter : (some p).filter (fun q => (s.node q).isSome) = some p := by
    rw [Option.filter_some]
    exact if_pos h
  simp [hfilter]

@[simp] theorem wp_root {Q : Option Ptr → KsiRBTree → Prop} : wp F root s Q E ↔ Q s.root s := by
  unfold root
  simp

@[simp] theorem wp_sentinel {Q : Option Ptr → KsiRBTree → Prop} :
    wp F sentinel s Q E ↔ Q s.sentinel s := by
  unfold sentinel
  simp

@[simp] theorem wp_setRoot {Q : Unit → KsiRBTree → Prop} {r : Option Ptr} :
    wp F (setRoot r) s Q E ↔ Q () (s.withRoot r) := Iff.rfl

/-! ### ... after a write -/

section

variable {f : KsiRBNode → KsiRBNode} {x : Option Ptr}

@[simp] theorem update_root : (s.update p f).root = s.root := rfl

@[simp] theorem update_sentinel : (s.update p f).sentinel = s.sentinel := rfl

@[simp] theorem links_leaf : s.links.leaf = s.sentinel := rfl

@[simp] theorem update_alloc : (s.update p f).Alloc q ↔ s.Alloc q := by
  unfold KsiRBTree.Alloc KsiRBTree.update
  dsimp only
  split <;> simp

@[simp] theorem withRoot_alloc {r : Option Ptr} : (s.withRoot r).Alloc q ↔ s.Alloc q := Iff.rfl

@[simp] theorem withRoot_links {r : Option Ptr} : (s.withRoot r).links = s.links := rfl

@[simp] theorem withRoot_node {r : Option Ptr} : (s.withRoot r).node = s.node := rfl

@[simp] theorem withRoot_sentinel {r : Option Ptr} : (s.withRoot r).sentinel = s.sentinel := rfl

@[simp] theorem withRoot_isBlack {r : Option Ptr} : (s.withRoot r).isBlack q = s.isBlack q := rfl

theorem update_other (h : q ≠ p) : (s.update p f).node q = s.node q := if_neg h

@[simp] theorem child_setChild (d : Side) (n : KsiRBNode) :
    (n.setChild d x).child c = if c = d then x else n.child c := by
  cases c <;> cases d <;> rfl

@[simp] theorem parent_setChild (d : Side) (n : KsiRBNode) :
    (n.setChild d x).parent = n.parent := by
  cases d <;> rfl

@[simp] theorem isBlack_setChild (d : Side) (n : KsiRBNode) :
    (n.setChild d x).isBlack = n.isBlack := by
  cases d <;> rfl

/-- A write that keeps the pointers. -/
theorem update_links (h : ∀ n, (∀ c, (f n).child c = n.child c) ∧ (f n).parent = n.parent) :
    (s.update p f).links = s.links := by
  unfold KsiRBTree.links KsiRBTree.update
  congr 1
  · funext c q
    dsimp only
    split
    · cases s.node q with
      | none => rfl
      | some n => exact (h n).1 c
    · rfl
  · funext q
    dsimp only
    split
    · cases s.node q with
      | none => rfl
      | some n => exact (h n).2
    · rfl

theorem update_child (halloc : s.Alloc p) : (s.update p (·.setChild d x)).links.child c q =
    if q = p ∧ c = d then x else s.links.child c q := by
  obtain ⟨n, hn⟩ := Option.isSome_iff_exists.mp halloc
  unfold KsiRBTree.links KsiRBTree.update
  dsimp only
  by_cases hq : q = p
  · subst hq
    simp [hn]
  · simp [hq]

@[simp] theorem update_child_parent :
    (s.update p (·.setChild d x)).links.parent q = s.links.parent q := by
  unfold KsiRBTree.links KsiRBTree.update
  dsimp only
  split
  · cases s.node q <;> simp
  · rfl

theorem update_parent (halloc : s.Alloc p) : (s.update p (·.setParent x)).links.parent q =
    if q = p then x else s.links.parent q := by
  obtain ⟨n, hn⟩ := Option.isSome_iff_exists.mp halloc
  unfold KsiRBTree.links KsiRBTree.update
  dsimp only
  by_cases hq : q = p
  · subst hq
    simp [hn, KsiRBNode.setParent]
  · simp [hq]

@[simp] theorem update_parent_child :
    (s.update p (·.setParent x)).links.child c q = s.links.child c q := by
  unfold KsiRBTree.links KsiRBTree.update
  dsimp only
  split
  · cases s.node q with
    | none => rfl
    | some n => cases c <;> rfl
  · rfl

/-- A write that keeps the colour. -/
theorem update_isBlack (h : ∀ n, (f n).isBlack = n.isBlack) :
    (s.update p f).isBlack q = s.isBlack q := by
  unfold KsiRBTree.isBlack KsiRBTree.update
  dsimp only
  split
  · cases s.node q with
    | none => rfl
    | some n => exact h n
  · rfl

@[simp] theorem setChild_isBlack : (s.update p (·.setChild d x)).isBlack q = s.isBlack q :=
  update_isBlack fun n => isBlack_setChild d n

@[simp] theorem setParent_isBlack : (s.update p (·.setParent x)).isBlack q = s.isBlack q :=
  update_isBlack fun _ => rfl

end

/-! ### The tree -/

/-- The sentinel has no children, the key -1, and is black. -/
structure Sentinel (s : KsiRBTree) (z : Ptr) : Prop where
  sentinel : s.sentinel = some z
  node : ∃ n, s.node z = some n ∧ n.left = none ∧ n.right = none ∧ n.key = -1 ∧ n.isBlack = true

/-- The memory holds the tree `t`. -/
structure Forms (s : KsiRBTree) (t : BinaryTree Ptr) : Prop where
  root : s.root = t.top s.sentinel
  shaped : s.links.Shaped none t
  nodup : t.inorder.Nodup
  alloc : ∀ q ∈ t.inorder, s.Alloc q
  sentinel : ∃ z, Sentinel s z ∧ z ∉ t.inorder

namespace Forms

variable {t : BinaryTree Ptr} {path : List (Step Ptr)} {f : Step Ptr} {v : Ptr}

/-- A leaf is the sentinel, which is no node of the tree. -/
theorem top_ne_sentinel (h : Forms s (t.plug path)) (ht : t.top none = some v) :
    some v ≠ s.sentinel := by
  obtain ⟨z, hz, hnot⟩ := h.sentinel
  intro heq
  rw [hz.sentinel] at heq
  obtain rfl : v = z := Option.some.inj heq
  exact hnot (mem_plug.mpr (.inl (mem_of_top ht)))

theorem alloc_place (h : Forms s (t.plug path)) (hv : v ∈ t.inorder) : s.Alloc v :=
  h.alloc v (mem_plug.mpr (.inl hv))

theorem alloc_around (h : Forms s (t.plug path)) (hv : v ∈ around path) : s.Alloc v :=
  h.alloc v (mem_plug.mpr (.inr hv))

/-- Only the whole tree has the root. -/
theorem root_eq_iff (h : Forms s (t.plug path)) (ht : t.top none = some v) :
    s.root = some v ↔ path = [] := by
  cases path with
  | nil =>
      refine iff_of_true ?_ rfl
      rw [h.root]
      cases t with
      | nil => cases ht
      | node b l r => exact ht
  | cons f path =>
      refine iff_of_false (fun heq => ?_) (List.cons_ne_nil f path)
      obtain ⟨b, hb, htop⟩ := top_plug_mem (t := t) (f := f) path s.sentinel
      rw [h.root, htop] at heq
      obtain rfl : b = v := Option.some.inj heq
      exact (plug_nodup h.nodup).2.2 b (mem_of_top ht) hb

/-- Above a place, it is the child on the one side and not on the other. -/
theorem child_head (h : Forms s (t.plug path)) (ht : t.top none = some v) (hf : f ∈ path.head?) :
    s.links.child f.side f.value = some v ∧ s.links.child f.side.other f.value ≠ some v := by
  cases path with
  | nil => cases hf
  | cons g path =>
      cases hf
      have hparent : Forms s ((join f.side f.value t f.sibling).plug path) := h
      obtain ⟨-, hside, hother, -, -⟩ := Links.shaped_join.mp hparent.shaped.of_plug
      have hnot := (join_nodup (plug_nodup hparent.nodup).1).2.2.2.2 v (mem_of_top ht)
      rw [hside, hother]
      cases t with
      | nil => cases ht
      | node b l r =>
          refine ⟨ht, fun heq => ?_⟩
          cases hsib : f.sibling with
          | nil =>
              rw [hsib] at heq
              exact h.top_ne_sentinel ht heq.symm
          | node b' l' r' =>
              rw [hsib] at heq hnot
              exact hnot (mem_of_top heq)

end Forms

/-! ### Rotations -/

section

variable {v w : Ptr} {x y z : BinaryTree Ptr} {path : List (Step Ptr)}

/-- A write to a node, if there is one. -/
def KsiRBTree.updateAt (s : KsiRBTree) (p : Option Ptr) (f : KsiRBNode → KsiRBNode) : KsiRBTree :=
  match p with
  | none => s
  | some q => s.update q f

section

variable {o r : Option Ptr}

@[simp] theorem updateAt_root {f : KsiRBNode → KsiRBNode} : (s.updateAt o f).root = s.root := by
  cases o <;> rfl

@[simp] theorem updateAt_sentinel {f : KsiRBNode → KsiRBNode} :
    (s.updateAt o f).sentinel = s.sentinel := by
  cases o <;> rfl

@[simp] theorem updateAt_alloc {f : KsiRBNode → KsiRBNode} :
    (s.updateAt o f).Alloc q ↔ s.Alloc q := by
  cases o with
  | none => rfl
  | some p => exact update_alloc

theorem updateAt_other {f : KsiRBNode → KsiRBNode} (h : o ≠ some q) :
    (s.updateAt o f).node q = s.node q := by
  cases o with
  | none => rfl
  | some p => exact update_other fun heq => h (heq ▸ rfl)

@[simp] theorem updateAt_child :
    (s.updateAt o (·.setParent r)).links.child c q = s.links.child c q := by
  cases o with
  | none => rfl
  | some p => exact update_parent_child

theorem updateAt_parent (h : ∀ p, o = some p → s.Alloc p) :
    (s.updateAt o (·.setParent r)).links.parent q = if o = some q then r else s.links.parent q := by
  cases o with
  | none => rfl
  | some p =>
      show (s.update p _).links.parent q = _
      rw [update_parent (h p rfl)]
      simp only [Option.some.injEq, eq_comm]

end

/-- The writes of a rotation. -/
def turned (s : KsiRBTree) (d : Side) (v w : Ptr) (y : BinaryTree Ptr) (path : List (Step Ptr)) :
    KsiRBTree :=
  let s₁ := s.update v (·.setChild d.other (y.top s.sentinel))
  let s₂ := s₁.updateAt (y.top none) (·.setParent (some v))
  let s₃ := s₂.update w (·.setParent (up path))
  let s₄ := match path.head? with
    | none => s₃.withRoot (some w)
    | some f => s₃.update f.value (·.setChild f.side (some w))
  let s₅ := s₄.update w (·.setChild d (some v))
  s₅.update v (·.setParent (some w))

theorem replaceChild_run {Q : Unit → KsiRBTree → Prop} {r : Option Ptr} (path : List (Step Ptr))
    (hav : s.Alloc v)
    (hparent : s.links.parent v = up path) (halloc : ∀ f ∈ path.head?, s.Alloc f.value)
    (hroot : s.root = some v ↔ path = [])
    (hchild : ∀ f ∈ path.head?, s.links.child f.side f.value = some v ∧
      s.links.child f.side.other f.value ≠ some v)
    (hQ : Q () (match path.head? with
      | none => s.withRoot r
      | some f => s.update f.value (·.setChild f.side r))) :
    wp F (replaceChild d (some v) r) s Q E := by
  unfold replaceChild setChild
  rw [wp_bind, wp_root, wp_ite]
  refine ⟨fun heq => ?_, fun hne => ?_⟩
  · obtain rfl := hroot.mp heq.symm
    exact hQ
  · cases path with
    | nil => exact absurd (hroot.mpr rfl).symm hne
    | cons f path =>
        have haf := halloc f rfl
        have hup : s.links.parent v = some f.value := hparent
        obtain ⟨hside, hother⟩ := hchild f rfl
        rw [wp_bind, wp_parent hav, hup, wp_bind, wp_child haf, wp_ite]
        refine ⟨fun heq => ?_, fun hne => ?_⟩
        · obtain rfl : d = f.side := by
            by_contra hd
            rw [Side.eq_other_of_ne hd] at heq
            exact hother heq.symm
          rw [wp_bind, wp_parent hav, hup, wp_assign haf]
          exact hQ
        · have hd : d.other = f.side := by
            have hne' : f.side ≠ d := fun heq => hne (heq ▸ hside.symm)
            exact (Side.eq_other_of_ne hne').symm
          rw [wp_bind, wp_parent hav, hup, wp_assign haf, hd]
          exact hQ

/-- The nodes that a rotation writes to are different ones. -/
theorem Forms.turning (h : Forms s ((join d v x (join d w y z)).plug path)) :
    (s.Alloc v ∧ s.Alloc w ∧ w ≠ v) ∧
    (∀ f ∈ path.head?, s.Alloc f.value ∧ f.value ≠ v ∧ f.value ≠ w) ∧
    ∀ b, y.top none = some b → s.Alloc b ∧ b ≠ v ∧ b ≠ w ∧ some b ≠ s.sentinel := by
  have hmem_v : v ∈ (join d v x (join d w y z)).inorder := mem_join.mpr (.inl rfl)
  have hmem_w : w ∈ (join d v x (join d w y z)).inorder :=
    mem_join.mpr (.inr (.inr (mem_join.mpr (.inl rfl))))
  have hdisj := (plug_nodup h.nodup).2.2
  refine ⟨⟨h.alloc_place hmem_v, h.alloc_place hmem_w, ?_⟩, fun f hf => ?_, fun b hb => ?_⟩
  · rintro rfl
    exact (join_nodup (plug_nodup h.nodup).1).2.1 (mem_join.mpr (.inl rfl))
  · exact ⟨h.alloc_around (mem_around_head hf),
      fun heq => hdisj v hmem_v (heq ▸ mem_around_head hf),
      fun heq => hdisj w hmem_w (heq ▸ mem_around_head hf)⟩
  · have hplace : Forms s (y.plug (⟨d, w, z⟩ :: ⟨d.other, v, x⟩ :: path)) := by
      simpa only [plug, join_other] using h
    have hnot := (plug_nodup hplace.nodup).2.2 b (mem_of_top hb)
    simp only [mem_around_cons, not_or] at hnot
    exact ⟨hplace.alloc_place (mem_of_top hb), hnot.2.2.1, hnot.1, hplace.top_ne_sentinel hb⟩

theorem rotate_run {Q : Unit → KsiRBTree → Prop}
    (h : Forms s ((join d v x (join d w y z)).plug path))
    (hQ : Q () (turned s d v w y path)) : wp F (rotate d (some v)) s Q E := by
  obtain ⟨hvp, hvx, hvw, -, hsw⟩ := Links.shaped_join.mp h.shaped.of_plug
  obtain ⟨-, hwy, -, hsy, -⟩ := Links.shaped_join.mp hsw
  rw [top_join] at hvw
  obtain ⟨⟨hav, haw, hwv⟩, hup, hy⟩ := h.turning
  unfold rotate
  rw [wp_bind, wp_child hav, hvw, wp_bind, wp_child haw, hwy, wp_bind]
  unfold setChild setParent
  rw [wp_assign hav, wp_bind, wp_child (update_alloc.mpr haw), update_child hav,
    if_neg fun heq => hwv heq.1, hwy, wp_bind, wp_sentinel, wp_bind]
  -- the child that `v` takes over
  suffices hrest : ∀ s₂, s₂ = (s.update v (·.setChild d.other (y.top s.sentinel))).updateAt
    (y.top none)
      (·.setParent (some v)) → wp F (do
        assign (some w) (KsiRBNode.setParent (← parent (some v)))
        replaceChild d (some v) (some w)
        assign (some w) (KsiRBNode.setChild d (some v))
        assign (some v) (KsiRBNode.setParent (some w))) s₂ Q E by
    rw [wp_when]
    cases y with
    | nil => exact ⟨fun hne => absurd rfl hne, fun _ => hrest _ rfl⟩
    | node b l r =>
        obtain ⟨hab, -, -, hb⟩ := hy b rfl
        refine ⟨fun _ => ?_, fun hne => absurd hb hne⟩
        rw [wp_bind, wp_child (update_alloc.mpr haw), update_child hav,
          if_neg fun heq => hwv heq.1, hwy]
        show wp F (assign (some b) _) _ _ _
        rw [wp_assign (update_alloc.mpr hab)]
        exact hrest _ rfl
  rintro s₂ rfl
  have hpar : ((s.update v (·.setChild d.other (y.top s.sentinel))).updateAt (y.top none)
      (·.setParent (some v))).links.parent v = up path := by
    rw [updateAt_parent fun b hb => update_alloc.mpr (hy b hb).1, if_neg fun hb =>
      (hy v hb).2.1 rfl, update_child_parent, hvp]
  rw [wp_bind, wp_parent (by simpa using hav), hpar, wp_bind, wp_assign (by simpa using haw),
    wp_bind]
  refine replaceChild_run path (by simpa using hav) ?_ (fun f hf => ?_) ?_ (fun f hf => ?_) ?_
  · rw [update_parent (by simpa using haw), if_neg (Ne.symm hwv), hpar]
  · simpa using (hup f hf).1
  · rw [update_root, updateAt_root, update_root]
    exact h.root_eq_iff (top_join none)
  · simp only [update_parent_child, updateAt_child]
    rw [update_child hav, update_child hav, if_neg fun heq => (hup f hf).2.1 heq.1,
      if_neg fun heq => (hup f hf).2.1 heq.1]
    exact h.child_head (top_join none) hf
  · rw [wp_bind]
    unfold turned at hQ
    cases path with
    | nil =>
        rw [wp_assign (by simpa using haw), wp_assign (by simpa using hav)]
        exact hQ
    | cons f path =>
        rw [wp_assign (by simpa using haw), wp_assign (by simpa using hav)]
        exact hQ

/-- The pointers after a rotation. -/
theorem turned_links (hav : s.Alloc v) (haw : s.Alloc w) (hwv : w ≠ v)
    (hup : ∀ f ∈ path.head?, s.Alloc f.value ∧ f.value ≠ v ∧ f.value ≠ w)
    (hy : ∀ b, y.top none = some b → s.Alloc b) :
    (∀ q, (turned s d v w y path).links.parent q = if q = v then some w else if q = w then up path
      else if y.top none = some q then some v else s.links.parent q) ∧
    (∀ c q, (q = v → c ≠ d.other) → (q = w → c ≠ d) →
      (∀ f ∈ path.head?, q = f.value → c ≠ f.side) →
      (turned s d v w y path).links.child c q = s.links.child c q) ∧
    (turned s d v w y path).links.child d.other v = y.top s.sentinel ∧
    (turned s d v w y path).links.child d w = some v ∧
    ∀ f ∈ path.head?, (turned s d v w y path).links.child f.side f.value = some w := by
  unfold turned
  have hab : ∀ b, y.top none = some b →
      (s.update v (·.setChild d.other (y.top s.sentinel))).Alloc b :=
    fun b hb => update_alloc.mpr (hy b hb)
  cases path with
  | nil =>
      refine ⟨fun q => ?_, fun c q hv hw _ => ?_, ?_, ?_, by rintro f ⟨⟩⟩
      · simp [update_parent, updateAt_parent hab, hav, haw]
      · have hv' : ¬ (q = v ∧ c = d.other) := fun heq => hv heq.1 heq.2
        have hw' : ¬ (q = w ∧ c = d) := fun heq => hw heq.1 heq.2
        simp [update_child, hav, haw, hv', hw']
      · simp [update_child, hav, haw, hwv.symm]
      · simp [update_child, haw]
  | cons f path =>
      obtain ⟨haf, hfv, hfw⟩ := hup f rfl
      refine ⟨fun q => ?_, fun c q hv hw hf => ?_, ?_, ?_, ?_⟩
      · simp [update_parent, updateAt_parent hab, hav, haw]
      · have hv' : ¬ (q = v ∧ c = d.other) := fun heq => hv heq.1 heq.2
        have hw' : ¬ (q = w ∧ c = d) := fun heq => hw heq.1 heq.2
        have hf' : ¬ (q = f.value ∧ c = f.side) := fun heq => hf f rfl heq.1 heq.2
        simp [update_child, hav, haw, haf, hv', hw', hf']
      · simp [update_child, hav, haw, haf, hfv.symm, hwv.symm]
      · simp [update_child, haw]
      · rintro g ⟨⟩
        simp [update_child, haw, haf, hfw]

@[simp] theorem turned_sentinel : (turned s d v w y path).sentinel = s.sentinel := by
  cases path <;> simp [turned]

@[simp] theorem turned_alloc : (turned s d v w y path).Alloc q ↔ s.Alloc q := by
  cases path <;> simp [turned]

/-- The other nodes stay as they are. -/
theorem turned_node (hv : q ≠ v) (hw : q ≠ w) (hy : y.top none ≠ some q)
    (hup : ∀ f ∈ path.head?, q ≠ f.value) : (turned s d v w y path).node q = s.node q := by
  unfold turned
  cases path with
  | nil => simp [update_other hv, update_other hw, updateAt_other hy]
  | cons f path =>
      simp [update_other hv, update_other hw, updateAt_other hy, update_other (hup f rfl)]

/-- A rotation keeps the colours. -/
theorem turned_isBlack : (turned s d v w y path).isBlack q = s.isBlack q := by
  unfold turned
  cases path with
  | nil => cases y <;> simp [KsiRBTree.updateAt, top]
  | cons f path => cases y <;> simp [KsiRBTree.updateAt, top]

/-- **A rotation** turns a node about its child. -/
theorem rotate_forms (h : Forms s ((join d v x (join d w y z)).plug path)) :
    Forms (turned s d v w y path) ((join d w (join d v x y) z).plug path) := by
  have horder : ((join d w (join d v x y) z).plug path).inorder =
      ((join d v x (join d w y z)).plug path).inorder := by
    rw [inorder_plug, inorder_plug, inorder_turn]
  obtain ⟨⟨hav, haw, hwv⟩, hup, hy⟩ := h.turning
  obtain ⟨hparent, hchild, hvc, hwc, hlink⟩ := turned_links (d := d) hav haw hwv hup
    fun b hb => (hy b hb).1
  refine ⟨?_, ?_, horder ▸ h.nodup, fun q hq => ?_, ?_⟩
  · rw [turned_sentinel]
    cases path with
    | nil => exact (top_join _).symm
    | cons f path =>
        rw [top_plug_cons _ _ (join d v x (join d w y z)), ← h.root]
        simp [turned]
  · refine h.shaped.turn h.nodup turned_sentinel ?_ ?_ (fun b hb => ?_) (fun q hqv hqw hqy => ?_)
      hvc hwc hlink fun q c => hchild c q
    · rw [hparent, if_pos rfl]
    · rw [hparent, if_neg hwv, if_pos rfl]
    · rw [hparent, if_neg (hy b hb).2.1, if_neg (hy b hb).2.2.1, if_pos hb]
    · rw [hparent, if_neg hqv, if_neg hqw, if_neg hqy]
  · rw [turned_alloc]
    exact h.alloc q (horder ▸ hq)
  · obtain ⟨u, hu, hnot⟩ := h.sentinel
    refine ⟨u, ⟨turned_sentinel.trans hu.sentinel, ?_⟩, by rwa [horder]⟩
    have hout : ∀ q, q ∈ ((join d v x (join d w y z)).plug path).inorder → u ≠ q :=
      fun q hq heq => hnot (heq ▸ hq)
    have hplace : ∀ q, q = v ∨ q = w ∨ y.top none = some q → u ≠ q := by
      intro q hq
      refine hout q (mem_plug.mpr (.inl (mem_join.mpr ?_)))
      rcases hq with hq | hq | hq
      · exact .inl hq
      · exact .inr (.inr (mem_join.mpr (.inl hq)))
      · exact .inr (.inr (mem_join.mpr (.inr (.inl (mem_of_top hq)))))
    rw [turned_node (hplace v (.inl rfl)) (hplace w (.inr (.inl rfl)))
      (fun hb => hplace u (.inr (.inr hb)) rfl)
      fun f hf => hout _ (mem_plug.mpr (.inr (mem_around_head hf)))]
    exact hu.node

end

end Ksi.RBTree

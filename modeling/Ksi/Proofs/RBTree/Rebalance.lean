/-
Re-balancing keeps the order of the nodes.

A round of the loop recolours, or rotates once or twice, and goes on nearer to the root.
Of the colours only this is needed for the order: the root is black unless the loop has come
to it, so a red parent has a parent of its own, and the sentinel is black, so it is neither
recoloured nor rotated.  If before the loop all was well with the colours but for the node
that it starts at, all is well with them after it.
-/
import Ksi.Lib.Balance
import Ksi.Proofs.RBTree.Shape

namespace Ksi.RBTree

open BinaryTree Prog

variable {ε : Type} {s s' : KsiRBTree} {p q : Ptr} {E : ε → KsiRBTree → Prop}
  {t : BinaryTree Ptr} {path : List (Step Ptr)} {f g : Step Ptr}

/-! ### Colours -/

theorem isBlack_black (n : KsiRBNode) : n.black.isBlack = true := by
  have hbit : (n.type ||| 1) &&& 1 = 1 := by
    ext i
    simp
    intro h
    exact .inr h
  unfold KsiRBNode.isBlack KsiRBNode.black
  rw [hbit]
  decide

theorem isBlack_red (n : KsiRBNode) : n.red.isBlack = false := by
  have hbit : (n.type &&& ~~~1) &&& 1 = 0 := by
    rw [BitVec.and_assoc]
    simp
  unfold KsiRBNode.isBlack KsiRBNode.red
  rw [hbit]
  decide

theorem update_black (h : s.Alloc p) :
    (s.update p KsiRBNode.black).isBlack q = if q = p then true else s.isBlack q := by
  obtain ⟨n, hn⟩ := Option.isSome_iff_exists.mp h
  unfold KsiRBTree.isBlack KsiRBTree.update
  dsimp only
  by_cases hq : q = p
  · subst hq
    simp [hn, isBlack_black]
  · simp [hq]

theorem update_red (h : s.Alloc p) :
    (s.update p KsiRBNode.red).isBlack q = if q = p then false else s.isBlack q := by
  obtain ⟨n, hn⟩ := Option.isSome_iff_exists.mp h
  unfold KsiRBTree.isBlack KsiRBTree.update
  dsimp only
  by_cases hq : q = p
  · subst hq
    simp [hn, isBlack_red]
  · simp [hq]

/-- A node of the tree gets another colour. -/
theorem Forms.recolour {φ : KsiRBNode → KsiRBNode} (h : Forms s t) (hp : p ∈ t.inorder)
    (hφ : (s.update p φ).links = s.links) : Forms (s.update p φ) t where
  root := h.root
  shaped := by
    rw [hφ]
    exact h.shaped
  nodup := h.nodup
  alloc := fun q hq => update_alloc.mpr (h.alloc q hq)
  sentinel := by
    obtain ⟨z, hz, hnot⟩ := h.sentinel
    have hzp : z ≠ p := fun heq => hnot (heq ▸ hp)
    refine ⟨z, ⟨hz.sentinel, ?_⟩, hnot⟩
    rw [update_other hzp]
    exact hz.node

@[simp] theorem black_links : (s.update p KsiRBNode.black).links = s.links :=
  update_links fun _ => ⟨fun c => by cases c <;> rfl, rfl⟩

@[simp] theorem red_links : (s.update p KsiRBNode.red).links = s.links :=
  update_links fun _ => ⟨fun c => by cases c <;> rfl, rfl⟩

theorem Forms.black (h : Forms s t) (hp : p ∈ t.inorder) : Forms (s.update p KsiRBNode.black) t :=
  h.recolour hp black_links

theorem Forms.red (h : Forms s t) (hp : p ∈ t.inorder) : Forms (s.update p KsiRBNode.red) t :=
  h.recolour hp red_links

/-- The sentinel is black. -/
theorem Sentinel.black {z : Ptr} (h : Sentinel s z) : s.isBlack z = true := by
  obtain ⟨n, hn, -, -, -, hblack⟩ := h.node
  unfold KsiRBTree.isBlack
  rw [hn]
  exact hblack

theorem Sentinel.alloc {z : Ptr} (h : Sentinel s z) : s.Alloc z := by
  obtain ⟨n, hn, -⟩ := h.node
  unfold KsiRBTree.Alloc
  rw [hn]
  rfl

/-! ### A round of the loop -/

/-- The loop is at the root of `t`: it has the nodes `l` in their order, and the root of the
tree is black if it lies above. -/
structure Balancing (s : KsiRBTree) (l : List Ptr) (t : BinaryTree Ptr) (path : List (Step Ptr))
    (p : Ptr) : Prop where
  forms : Forms s (t.plug path)
  order : (t.plug path).inorder = l
  focus : t.top none = some p
  rootBlack : path ≠ [] → ∀ r, s.root = some r → s.isBlack r = true

/-- What points above. -/
theorem Forms.parent_focus (h : Forms s (t.plug path)) (ht : t.top none = some p) :
    s.links.parent p = up path := h.shaped.of_plug.parent ht

/-- The root of the tree lies above a place. -/
theorem Forms.root_mem {r : Ptr} (h : Forms s (t.plug path)) (hpath : path ≠ [])
    (hr : s.root = some r) : r ∈ around path := by
  cases path with
  | nil => contradiction
  | cons f path =>
      obtain ⟨b, hb, htop⟩ := top_plug_mem (t := t) (f := f) path s.sentinel
      rw [h.root, htop] at hr
      exact Option.some.inj hr ▸ hb

section

variable {l : List Ptr} (h : Balancing s l t (f :: g :: path) p)
include h

/-- The parent and the grandparent are nodes of their own. -/
theorem Balancing.above : s.Alloc p ∧ s.Alloc f.value ∧ s.Alloc g.value ∧
    s.links.parent p = some f.value ∧ s.links.parent f.value = some g.value ∧
    p ≠ f.value ∧ f.value ≠ g.value ∧ p ≠ g.value := by
  have hmem_f : f.value ∈ around (f :: g :: path) := mem_around_cons.mpr (.inl rfl)
  have hmem_g : g.value ∈ around (f :: g :: path) :=
    mem_around_cons.mpr (.inr (.inr (mem_around_cons.mpr (.inl rfl))))
  have hout := (plug_nodup h.forms.nodup).2.2 p (mem_of_top h.focus)
  have hparent : Forms s ((join f.side f.value t f.sibling).plug (g :: path)) := h.forms
  refine ⟨h.forms.alloc_place (mem_of_top h.focus), h.forms.alloc_around hmem_f,
    h.forms.alloc_around hmem_g, h.forms.parent_focus h.focus, hparent.parent_focus (top_join none),
    fun heq => hout (heq ▸ hmem_f), fun heq => ?_, fun heq => hout (heq ▸ hmem_g)⟩
  exact (plug_nodup hparent.nodup).2.2 f.value (mem_join.mpr (.inl rfl))
    (heq ▸ mem_around_cons.mpr (.inl rfl))

/-- The root of the tree, if it is above the grandparent, is black and none of the two. -/
theorem Balancing.root_above {r : Ptr} (hpath : path ≠ []) (hr : s.root = some r) :
    s.isBlack r = true ∧ r ≠ g.value := by
  have habove : Forms s ((join g.side g.value (join f.side f.value t f.sibling) g.sibling).plug
      path) := h.forms
  have hmem := habove.root_mem hpath hr
  refine ⟨h.rootBlack (List.cons_ne_nil _ _) r hr, ?_⟩
  rintro rfl
  exact (plug_nodup habove.nodup).2.2 _ (mem_join.mpr (.inl rfl)) hmem

/-- A red uncle: the colours move up. -/
theorem Balancing.recolour {b : Ptr} (hb : g.sibling.top none = some b) :
    Balancing (((s.update f.value KsiRBNode.black).update b KsiRBNode.black).update g.value
      KsiRBNode.red) l (join g.side g.value (join f.side f.value t f.sibling) g.sibling) path
      g.value := by
  obtain ⟨-, haf, hag, -⟩ := h.above
  have hmem : ∀ a, a = f.value ∨ a = b ∨ a = g.value → a ∈ (t.plug (f :: g :: path)).inorder := by
    intro a ha
    refine mem_plug.mpr (.inr (mem_around_cons.mpr ?_))
    rcases ha with ha | ha | ha
    · exact .inl ha
    · exact .inr (.inr (mem_around_cons.mpr (.inr (.inl (mem_of_top (ha ▸ hb))))))
    · exact .inr (.inr (mem_around_cons.mpr (.inl ha)))
  have hab : s.Alloc b := h.forms.alloc b (hmem b (.inr (.inl rfl)))
  refine ⟨((h.forms.black (hmem _ (.inl rfl))).black (hmem _ (.inr (.inl rfl)))).red
    (hmem _ (.inr (.inr rfl))), h.order, top_join none, fun hpath r hr => ?_⟩
  obtain ⟨hblack, hne⟩ := h.root_above hpath hr
  rw [update_red (by simpa using hag), if_neg hne, update_black (by simpa using hab),
    update_black haf, hblack, ite_self, ite_self]

/-- A black uncle, and a node on the same side as its parent: the grandparent is turned. -/
theorem Balancing.outer (hside : f.side = g.side) :
    Balancing (turned ((s.update f.value KsiRBNode.black).update g.value KsiRBNode.red)
        g.side.other g.value f.value f.sibling path) l t
      (⟨g.side, f.value, join g.side.other g.value g.sibling f.sibling⟩ :: path) p := by
  obtain ⟨-, haf, hag, -, -, -, hfg, -⟩ := h.above
  have hforms := (h.forms.black (p := f.value) (mem_plug.mpr (.inr (mem_around_head rfl)))).red
    (p := g.value) (mem_plug.mpr (.inr (mem_around_cons.mpr (.inr (.inr (mem_around_head rfl))))))
  have hplace :
    (join g.side.other g.value g.sibling (join g.side.other f.value f.sibling t)).plug path =
      t.plug (f :: g :: path) := by
    simp only [plug, join_other, hside]
  have hplace' : t.plug (⟨g.side, f.value, join g.side.other g.value g.sibling f.sibling⟩ :: path) =
      (join g.side.other f.value (join g.side.other g.value g.sibling f.sibling) t).plug path := by
    simp only [plug, join_other]
  have hturned := rotate_forms (hplace ▸ hforms)
  refine ⟨hplace' ▸ hturned, ?_, h.focus, fun _ r hr => ?_⟩
  · rw [hplace', inorder_plug, inorder_turn, ← inorder_plug, hplace, h.order]
  · rw [turned_isBlack, update_red (by simpa using hag), update_black haf]
    cases path with
    | nil =>
        rw [hturned.root] at hr
        obtain rfl : f.value = r := Option.some.inj ((top_join _).symm.trans hr)
        rw [if_neg hfg, if_pos rfl]
    | cons f' path =>
        have hroot : s.root = some r := by
          rw [← hr]
          simp [turned]
        obtain ⟨hblack, hne⟩ := h.root_above (List.cons_ne_nil f' path) hroot
        rw [if_neg hne, hblack, ite_self]

end

/-- ... and a node on the other side: first the parent is turned. -/
theorem Balancing.inner {l : List Ptr} {a b : BinaryTree Ptr}
    (h : Balancing s l (join g.side p a b) (f :: g :: path) p) (hside : f.side = g.side.other) :
    Forms s ((join g.side f.value f.sibling (join g.side p a b)).plug (g :: path)) ∧
    Balancing (turned s g.side f.value p a (g :: path)) l (join g.side f.value f.sibling a)
      (⟨g.side, p, b⟩ :: g :: path) f.value := by
  have hplace : (join g.side f.value f.sibling (join g.side p a b)).plug (g :: path) =
      (join g.side p a b).plug (f :: g :: path) := by
    simp only [plug, join_other, hside]
  have hplace' : (join g.side f.value f.sibling a).plug (⟨g.side, p, b⟩ :: g :: path) =
      (join g.side p (join g.side f.value f.sibling a) b).plug (g :: path) := rfl
  have hforms : Forms s ((join g.side f.value f.sibling (join g.side p a b)).plug (g :: path)) :=
    hplace ▸ h.forms
  have hturned := rotate_forms hforms
  refine ⟨hforms, hplace' ▸ hturned, ?_, top_join none, fun _ r hr => ?_⟩
  · rw [hplace', inorder_plug, inorder_turn, ← inorder_plug, hplace, h.order]
  · rw [turned_isBlack]
    exact h.rootBlack (List.cons_ne_nil _ _) r (by simpa [turned] using hr)

/-- All is well with the colours. -/
def RedBlack (s : KsiRBTree) (t : BinaryTree Ptr) : Prop := ∃ n, Balanced s.isBlack t n

/-- ... but that the red node of the loop may have a red parent. -/
structure Painted (s : KsiRBTree) (t : BinaryTree Ptr) (path : List (Step Ptr))
    (p : Ptr) : Prop where
  red : s.isBlack p = false
  fits : ∃ n, Balanced s.isBlack t n ∧ Fits s.isBlack path n

theorem Painted.redBlack (h : Painted s t path p) (hopen : Open s.isBlack path) :
    RedBlack s (t.plug path) := by
  obtain ⟨n, ht, hfits⟩ := h.fits
  exact hfits.plug ht (.inr hopen)

section

variable {l : List Ptr} (hp : Painted s t (f :: g :: path) p)
  (h : Balancing s l t (f :: g :: path) p)
  (hf : s.isBlack f.value = false)
include hp h hf

theorem Painted.recolour {b : Ptr} (hb : g.sibling.top none = some b) (hred : s.isBlack b = false) :
    Painted (((s.update f.value KsiRBNode.black).update b KsiRBNode.black).update g.value
      KsiRBNode.red) (join g.side g.value (join f.side f.value t f.sibling) g.sibling) path
        g.value := by
  obtain ⟨-, haf, hag, -, -, -, hfg, -⟩ := h.above
  have hbg := ((plug_apart h.forms.nodup).2.1 b (mem_of_top hb)).2
  have hab : s.Alloc b := h.forms.alloc_around (mem_around_cons.mpr
    (.inr (.inr (mem_around_cons.mpr (.inr (.inl (mem_of_top hb)))))))
  have hcolour : ∀ v, (((s.update f.value KsiRBNode.black).update b KsiRBNode.black).update g.value
      KsiRBNode.red).isBlack v = if v = g.value then false else if v = b then true
        else if v = f.value then true else s.isBlack v := fun v => by
    rw [update_red (by simpa using hag), update_black (by simpa using hab), update_black haf]
  obtain ⟨n, ht, hfits⟩ := hp.fits
  refine ⟨by rw [hcolour, if_pos rfl], n + 1,
    hfits.repaint hf h.forms.nodup ht hb hred ?_ ?_ ?_ fun v hvf hvg hvb => ?_⟩
  · rw [hcolour, if_neg hfg, if_pos rfl, ite_self]
  · rw [hcolour, if_pos rfl]
  · rw [hcolour, if_neg hbg, if_pos rfl]
  · rw [hcolour, if_neg hvg, if_neg hvb, if_neg hvf]

theorem Painted.outer (hroot : g.sibling.RootBlack s.isBlack) :
    Painted (turned ((s.update f.value KsiRBNode.black).update g.value KsiRBNode.red)
        g.side.other g.value f.value f.sibling path) t
      (⟨g.side, f.value, join g.side.other g.value g.sibling f.sibling⟩ :: path) p := by
  obtain ⟨-, haf, hag, -, -, hpf, hfg, hpg⟩ := h.above
  have hcolour : ∀ v, (turned ((s.update f.value KsiRBNode.black).update g.value KsiRBNode.red)
      g.side.other g.value f.value f.sibling path).isBlack v = if v = g.value then false
        else if v = f.value then true else s.isBlack v := fun v => by
    rw [turned_isBlack, update_red (by simpa using hag), update_black haf]
  obtain ⟨n, ht, hfits⟩ := hp.fits
  refine ⟨by rw [hcolour, if_neg hpg, if_neg hpf, hp.red], n,
    hfits.turn_outer hf h.forms.nodup ht hroot ?_ ?_ fun v hvf hvg => ?_⟩
  · rw [hcolour, if_neg hfg, if_pos rfl]
  · rw [hcolour, if_pos rfl]
  · rw [hcolour, if_neg hvg, if_neg hvf]

end

theorem Painted.inner {a b : BinaryTree Ptr} (hp : Painted s (join g.side p a b) (f :: g :: path) p)
    (hf : s.isBlack f.value = false) :
    Painted (turned s g.side f.value p a (g :: path)) (join g.side f.value f.sibling a)
      (⟨g.side, p, b⟩ :: g :: path) f.value := by
  have hcolour : (turned s g.side f.value p a (g :: path)).isBlack = s.isBlack :=
    funext fun _ => turned_isBlack
  obtain ⟨n, ht, hfits⟩ := hp.fits
  refine ⟨hcolour ▸ hf, n, ?_⟩
  rw [hcolour]
  exact hfits.turn_inner hf ht hp.red

/-- The recolouring and the rotation of a node on the same side as its parent. -/
theorem Balancing.outer_run {l : List Ptr} {F : Prop} {Q : Option Ptr → KsiRBTree → Prop}
    (h : Balancing s l t (f :: g :: path) p) (hside : f.side = g.side)
    (hQ : Q (some p) (turned ((s.update f.value KsiRBNode.black).update g.value KsiRBNode.red)
      g.side.other g.value f.value f.sibling path)) :
    wp F (do
      assign (← parent (some p)) KsiRBNode.black
      assign (← parent (← parent (some p))) KsiRBNode.red
      rotate g.side.other (← parent (← parent (some p)))
      pure (some p)) s Q E := by
  obtain ⟨hap, haf, hag, hpf, hfg, -, -, -⟩ := h.above
  have hforms := (h.forms.black (p := f.value) (mem_plug.mpr (.inr (mem_around_head rfl)))).red
    (p := g.value) (mem_plug.mpr (.inr (mem_around_cons.mpr (.inr (.inr (mem_around_head rfl))))))
  have hplace :
    (join g.side.other g.value g.sibling (join g.side.other f.value f.sibling t)).plug path =
      t.plug (f :: g :: path) := by
    simp only [plug, join_other, hside]
  rw [wp_bind, wp_parent hap, hpf, wp_bind, wp_assign haf, wp_bind,
    wp_parent (update_alloc.mpr hap),
    black_links, hpf, wp_bind, wp_parent (update_alloc.mpr haf), black_links, hfg, wp_bind,
    wp_assign (update_alloc.mpr hag), wp_bind, wp_parent (by simpa using hap), red_links,
    black_links, hpf, wp_bind, wp_parent (by simpa using haf), red_links, black_links, hfg, wp_bind]
  exact rotate_run (hplace ▸ hforms) hQ

/-- The uncle is a node or the sentinel, which is black. -/
theorem Balancing.uncle {l : List Ptr} (h : Balancing s l t (f :: g :: path) p) :
    ∃ u, g.sibling.top s.sentinel = some u ∧ s.Alloc u ∧
      (s.isBlack u = false → g.sibling.top none = some u) := by
  cases hsib : g.sibling with
  | nil =>
      obtain ⟨z, hz, -⟩ := h.forms.sentinel
      refine ⟨z, hz.sentinel, hz.alloc, fun hred => ?_⟩
      rw [hz.black] at hred
      cases hred
  | node b l r =>
      have hb : b ∈ g.sibling.inorder := hsib ▸ mem_of_top rfl
      exact ⟨b, rfl, h.forms.alloc_around
        (mem_around_cons.mpr (.inr (.inr (mem_around_cons.mpr (.inr (.inl hb)))))), fun _ => rfl⟩

/-- **A round of the loop** keeps the order, mends the colours and comes nearer to the root. -/
theorem rebalanceSide_wp {l : List Ptr} (h : Balancing s l t (f :: g :: path) p) :
    wp False (rebalanceSide g.side (some p)) s (fun r s' => ∃ q t' path', r = some q ∧
      Balancing s' l t' path' q ∧ path'.length < (f :: g :: path).length ∧
      (s.isBlack f.value = false → Painted s t (f :: g :: path) p → Painted s' t' path' q)) E := by
  obtain ⟨hap, haf, hag, hpf, hfg, hne_pf, -, -⟩ := h.above
  obtain ⟨u, hu, hau, hred⟩ := h.uncle
  have huncle : s.links.child g.side.other g.value = g.sibling.top s.sentinel :=
    (Links.shaped_join.mp (Links.Shaped.of_plug
      (t := join g.side g.value (join f.side f.value t f.sibling) g.sibling) h.forms.shaped)).2.2.1
  unfold rebalanceSide
  rw [wp_bind, wp_parent hap, hpf, wp_bind, wp_parent haf, hfg, wp_bind, wp_child hag, huncle, hu,
    wp_bind, wp_isBlack hau, wp_ite]
  refine ⟨fun hb => ?_, fun hblack => ?_⟩
  · have hb := Bool.eq_false_iff.mpr hb
    have hround := h.recolour (hred hb)
    rw [wp_bind, wp_parent hap, hpf, wp_bind, wp_assign haf, wp_bind,
      wp_assign (by simpa using hau), wp_bind, wp_parent (by simpa using hap)]
    simp only [black_links, hpf]
    rw [wp_bind, wp_parent (by simpa using haf)]
    simp only [black_links, hfg]
    rw [wp_bind, wp_assign (by simpa using hag), wp_bind, wp_parent (by simpa using hap)]
    simp only [red_links, black_links, hpf]
    rw [wp_parent (by simpa using haf)]
    simp only [red_links, black_links, hfg]
    exact ⟨g.value, _, path, rfl, hround, by rw [List.length_cons, List.length_cons]; omega,
      fun hf hp => hp.recolour h hf (hred hb) hb⟩
  · have hroot : g.sibling.RootBlack s.isBlack := by
      intro v hv
      rw [top_of_node hv] at hu
      rw [Option.some.inj hu]
      exact not_not.mp hblack
    -- once the node is on the same side as its parent
    suffices hrest : ∀ s' t' f' p', f'.side = g.side → Balancing s' l t' (f' :: g :: path) p' →
        (s.isBlack f.value = false → Painted s t (f :: g :: path) p → s'.isBlack f'.value = false ∧
          g.sibling.RootBlack s'.isBlack ∧ Painted s' t' (f' :: g :: path) p') →
        wp False (do
          assign (← parent (some p')) KsiRBNode.black
          assign (← parent (← parent (some p'))) KsiRBNode.red
          rotate g.side.other (← parent (← parent (some p')))
          pure (some p')) s' (fun r s' => ∃ q t' path', r = some q ∧
            Balancing s' l t' path' q ∧ path'.length < (f :: g :: path).length ∧
            (s.isBlack f.value = false → Painted s t (f :: g :: path) p → Painted s' t' path' q))
              E by
      have hchild := h.forms.child_head h.focus (f := f) rfl
      unfold insideInsert
      rw [wp_bind, wp_bind, wp_parent hap, hpf, wp_bind, wp_child haf, wp_ite]
      refine ⟨fun heq => ?_, fun hne => ?_⟩
      · have hside : f.side = g.side.other := by
          refine Side.eq_other_of_ne fun hside => hchild.2 ?_
          rw [hside, ← heq]
        obtain ⟨a, b, rfl⟩ : ∃ a b, t = join g.side p a b := by
          have hfocus := h.focus
          cases t with
          | nil => cases hfocus
          | node v l r =>
              cases hfocus
              cases g.side with
              | left => exact ⟨l, r, rfl⟩
              | right => exact ⟨r, l, rfl⟩
        obtain ⟨hforms, hinner⟩ := h.inner hside
        rw [wp_bind, wp_parent hap, hpf, wp_bind]
        refine rotate_run hforms ?_
        rw [wp_pure]
        refine hrest _ _ ⟨g.side, p, b⟩ _ rfl hinner fun hf hp => ⟨?_, ?_, hp.inner hf⟩
        · exact turned_isBlack.trans hp.red
        · exact fun v hv => turned_isBlack.trans (hroot v hv)
      · have hside : f.side = g.side := by
          by_contra hside
          exact hne (Side.eq_other_of_ne hside ▸ hchild.1.symm)
        rw [wp_pure]
        exact hrest _ _ _ _ hside h fun hf hp => ⟨hf, hroot, hp⟩
    intro s' t' f' p' hside h' hpainted
    refine h'.outer_run hside ⟨p', t', _, rfl, h'.outer hside, Nat.lt_succ_self _, fun hf hp => ?_⟩
    obtain ⟨hf', hroot', hp'⟩ := hpainted hf hp
    exact hp'.outer h' hf' hroot'

/-- **The loop** ends, with the nodes in their order and the colours mended. -/
theorem rebalance_wp {l : List Ptr} (fuel : Nat) (h : Balancing s l t path p)
    (hfuel : path.length < fuel) :
    wp False (rebalance fuel (some p)) s (fun _ s' => ∃ t', Forms s' t' ∧ t'.inorder = l ∧
      (Painted s t path p → RedBlack s' t')) E := by
  induction fuel generalizing s t path p with
  | zero => omega
  | succ fuel ih =>
      unfold rebalance
      rw [wp_bind, wp_root, wp_ite]
      refine ⟨fun heq => ?_, fun hne => ?_⟩
      · obtain rfl := (h.forms.root_eq_iff h.focus).mp heq.symm
        exact ⟨_, h.forms, h.order, fun hp => hp.redBlack (by rintro f ⟨⟩)⟩
      have hap := h.forms.alloc_place (mem_of_top h.focus)
      cases path with
      | nil => exact absurd ((h.forms.root_eq_iff h.focus).mpr rfl).symm hne
      | cons f path =>
          have hpf : s.links.parent p = some f.value := h.forms.parent_focus h.focus
          have haf := h.forms.alloc_around (v := f.value) (mem_around_head rfl)
          rw [wp_bind, wp_parent hap, hpf, wp_bind, wp_isBlack haf, wp_ite]
          refine ⟨fun hblack => ⟨_, h.forms, h.order, fun hp => hp.redBlack (open_cons.mpr hblack)⟩,
            fun hred => ?_⟩
          have hparent : Forms s ((join f.side f.value t f.sibling).plug path) := h.forms
          cases path with
          | nil =>
              -- the parent is the root, which is black
              have hroot := (hparent.root_eq_iff (top_join none)).mpr rfl
              exact absurd (h.rootBlack (List.cons_ne_nil _ _) _ hroot) hred
          | cons g path =>
              obtain ⟨-, -, hag, -, hfg, -, -, -⟩ := h.above
              obtain ⟨hchild, hother⟩ := hparent.child_head (top_join none) (f := g) rfl
              rw [wp_bind, wp_parent hap, hpf, wp_bind, wp_parent hap, hpf, wp_bind,
                wp_parent haf, hfg, wp_bind, wp_child hag]
              have hside : (if some f.value = s.links.child .left g.value then Side.left
                else Side.right) =
                  g.side := by
                cases hg : g.side with
                | left =>
                    rw [hg] at hchild
                    rw [if_pos hchild.symm]
                | right =>
                    rw [hg] at hother
                    exact if_neg (Ne.symm hother)
              rw [hside, wp_bind]
              refine wp_mono (rebalanceSide_wp h) ?_ fun _ _ hE => hE
              rintro _ s' ⟨q, t', path', rfl, h', hlt, hpainted⟩
              refine wp_mono (ih h' (by omega)) ?_ fun _ _ hE => hE
              rintro _ s'' ⟨t'', hforms, horder, hmended⟩
              exact ⟨t'', hforms, horder,
                fun hp => hmended (hpainted (Bool.eq_false_iff.mpr hred) hp)⟩

end Ksi.RBTree

/-
Players refer to resources that are loaded.

Nothing but the steps themselves keeps them from referring to others: an unload does not look
for players, an editing command that sets another tree leaves the cursor in the old one, and a
look-up from a key below 0 may end at the sentinel.  `Allowed` excludes these steps, and then
the memory of the trees, `Loaded`, and what the players refer to are kept by every step.
-/
import Ksi.Audio.Players
import Ksi.Proofs.RBTree.Memory
import Ksi.Proofs.Resource
import Ksi.Lib.Runs

namespace Ksi.Audio.Players

open Dag (KsiError)
open Dag.KsiError Ksi.RBTree Resource Cmd Scarlet Prog Runs

variable {d d' : PlayerEngine} {a b : TreePtr} {p : Ptr} {s s' : KsiRBTree} {env env' : PluginEnv}
  {h : Heap} {m : Mallocs} {lines : List (List Char)} {fuel : Nat}

/-! ### What is claimed -/

/-- The tree is NULL or that of a resource, and the cursor NULL or a node of it. -/
structure RefersTo (d : PlayerEngine) (env : PluginEnv) : Prop where
  tree : ∀ a, env.tree = some a → ∃ id, d.timeseqResources.Holds id a
  current : ∀ p, env.current = some p →
    ∃ a s, env.tree = some a ∧ d.heap.view a = some s ∧ Attached s p

/-- Every player refers to resources that are loaded. -/
def Refers (d : PlayerEngine) : Prop := ∀ n env, d.args n = some env → RefersTo d env

/-- The look-up starts from a key that is not below 0, or there is a note between them. -/
def InTime (s : KsiRBTree) (k : Int) : Prop :=
  0 ≤ k ∨ ∃ p, Attached s p ∧ k ≤ s.keyOf p ∧ s.keyOf p ≤ -1

/-- The steps that keep it: a resource is unloaded only when no player has its tree, the tree
of a player is changed only when its cursor is NULL, and a cursor is set in time. -/
def Allowed (d : PlayerEngine) : Label → Prop
  | .unload id _ => ∀ a, d.timeseqResources.check id = some (some a) →
      ∀ n env, d.args n = some env → env.tree ≠ some a
  | .edit n ('m' :: args) => ∀ env mid a, d.args n = some env → scanD args = some mid →
      d.timeseqResources.check mid.1 = some (some a) → env.current = none ∨ env.tree = some a
  | .run n _ _ => ∀ env a s, d.args n = some env → env.current = none → env.tree = some a →
      d.heap.view a = some s → InTime s (startKey d.timeStamp)
  | _ => True

/-! ### The memory -/

/-- The resources are trees, each in memory of its own. -/
structure Loaded (d : PlayerEngine) : Prop where
  tidy : d.timeseqResources.Tidy
  formed : ∀ id a, d.timeseqResources.Holds id a →
    ∃ s t, d.heap.view a = some s ∧ Forms s t ∧ Sorted s t.inorder
  once : ∀ id id' a, d.timeseqResources.Holds id a → d.timeseqResources.Holds id' a → id = id'
  apart : ∀ id id' a b s s', d.timeseqResources.Holds id a →
    d.timeseqResources.Holds id' b → a ≠ b →
    d.heap.view a = some s → d.heap.view b = some s' → ∀ p, Owns s p → ¬ Owns s' p

theorem view_node (hview : h.view a = some s) (p : Ptr) : s.node p = h.node p := by
  obtain ⟨n, -, rfl⟩ := Option.map_eq_some_iff.mp hview
  rfl

theorem view_tree (hview : h.view a = some s) :
    h.tree a = some { root := s.root, sentinel := s.sentinel } := by
  obtain ⟨n, hn, rfl⟩ := Option.map_eq_some_iff.mp hview
  exact hn

theorem view_of_tree {n : Tree} (htree : h.tree a = some n) :
    h.view a = some { root := n.root, sentinel := n.sentinel, node := h.node } := by
  unfold Heap.view
  rw [htree]
  rfl

/-- What belongs to a tree is allocated. -/
theorem node_of_owns {t : BinaryTree Ptr} (hview : h.view a = some s) (hforms : Forms s t)
    (howns : Owns s p) : h.node p ≠ none := by
  have halloc : s.Alloc p := by
    obtain ⟨z, hz, -⟩ := hforms.sentinel
    rcases (hforms.owns_iff hz.sentinel).mp howns with rfl | hp
    · exact hz.alloc
    · exact hforms.alloc p hp
  rw [← view_node hview]
  exact Option.isSome_iff_ne_none.mp halloc

/-- What a look-up finds. -/
theorem call_wp {α : Type} {x : Prog KsiRBTree Empty α} {r : α} {Q : α → Prop}
    (hview : h.view a = some s) (hx : wp True x s (fun r _ => Q r) fun _ _ => True)
    (hrun : h.call (some a) x = some r) : Q r := by
  unfold Heap.call at hrun
  rw [Option.bind_some, hview, Option.bind_some] at hrun
  split at hrun
  · rename_i hr
    cases hrun
    exact of_wp_ok hx hr
  · cases hrun

/-! ### A player's part of a callback -/

section

variable {t : BinaryTree Ptr} (hview : h.view a = some s) (hforms : Forms s t)
include hview hforms

/-- The cursor is moved from node to node. -/
theorem play_attached {timeStamp i : Nat} (rounds : Nat) : ∀ {current : Option Ptr}
    {localNextEvent : Int} {r : Option Ptr × Int}, (∀ p, current = some p → Attached s p) →
    play h (some a) timeStamp fuel i rounds current localNextEvent = some r →
    ∀ p, r.1 = some p → Attached s p := by
  induction rounds with
  | zero =>
      intro current localNextEvent r hcurrent hrun
      unfold play at hrun
      split at hrun
      · cases hrun
        exact hcurrent
      · cases hrun
  | succ rounds ih =>
      intro current localNextEvent r hcurrent hrun
      unfold play at hrun
      split at hrun
      · cases hrun
        exact hcurrent
      · obtain ⟨p, hp, hrun⟩ := Option.bind_eq_some_iff.mp hrun
        obtain ⟨n, -, hrun⟩ := Option.bind_eq_some_iff.mp hrun
        obtain ⟨next, hnext, hrun⟩ := Option.bind_eq_some_iff.mp hrun
        have hmem := hforms.attached_iff.mp (hcurrent p hp)
        have hstep : ∃ q ∈ t.inorder, next = some q :=
          call_wp (Q := fun r => ∃ q ∈ t.inorder, r = some q) hview
            (wp_mono (hforms.next (E := fun _ _ => True) hmem) (fun _ _ hr => hr.2)
              fun _ _ hE => hE) hnext
        obtain ⟨q, hq, rfl⟩ := hstep
        obtain ⟨key, -, hrun⟩ := Option.bind_eq_some_iff.mp hrun
        refine ih (fun p hp => ?_) hrun
        cases hp
        exact hforms.attached_iff.mpr hq

theorem frames_attached {timeStamp : Nat} (is : List Nat) : ∀ {current : Option Ptr}
    {localNextEvent : Int} {r : Option Ptr}, (∀ p, current = some p → Attached s p) →
    frames h (some a) timeStamp fuel is current localNextEvent = some r →
    ∀ p, r = some p → Attached s p := by
  induction is with
  | nil =>
      intro current localNextEvent r hcurrent hrun
      cases hrun
      exact hcurrent
  | cons i rest ih =>
      intro current localNextEvent r hcurrent hrun
      obtain ⟨x, hplay, hrest⟩ := Option.bind_eq_some_iff.mp hrun
      exact ih (play_attached hview hforms fuel hcurrent hplay) hrest

/-- A look-up in time finds a node, or nothing. -/
theorem call_attached {k : Int} {r : Option Ptr} (hsorted : Sorted s t.inorder) (hk : InTime s k)
    (hrun : h.call (some a) (ksiRBTreeNextForKey fuel k) = some r) :
    ∀ p, r = some p → Attached s p := by
  have hfound : ∃ c, LeastFrom s t.inorder k c ∧ Sought s k c r :=
    call_wp (Q := fun r => ∃ c, LeastFrom s t.inorder k c ∧ Sought s k c r) hview
      (wp_mono (ksiRBTreeNextForKey_run (E := fun _ _ => True) hforms hsorted (.inl trivial))
        (fun _ _ hr => hr.2) fun _ _ hE => hE) hrun
  obtain ⟨c, hleast, hsought⟩ := hfound
  intro p hp
  rw [hforms.attached_iff]
  have hsame : r = c := by
    rcases hsought with heq | ⟨hneg, -, hlate⟩
    · exact heq
    · -- a note before the sentinel would have been found
      exfalso
      rcases hk with hk | ⟨q, hq, hkq, hq1⟩
      · omega
      · have hqt := hforms.attached_iff.mp hq
        cases c with
        | none => exact absurd (hleast q hqt) (Int.not_lt.mpr hkq)
        | some b =>
            have hbq := hleast.2.2 q hqt hkq
            have hb := hlate b rfl
            omega
  subst hsame
  rw [hp] at hleast
  exact hleast.1

end

theorem run_refers (hl : Loaded d) (href : RefersTo d env) {bufsize : Nat}
    (hintime : ∀ a s, env.current = none → env.tree = some a → d.heap.view a = some s →
      InTime s (startKey d.timeStamp))
    (hrun : kscarletMidiSeg d.heap d.timeStamp bufsize fuel env = some env') : RefersTo d env' := by
  unfold kscarletMidiSeg at hrun
  obtain ⟨current, hcurrent, hrun⟩ := Option.bind_eq_some_iff.mp hrun
  unfold lookUp at hcurrent
  cases htree : env.tree with
  | none =>
      -- without a tree there is no cursor
      have hnone : env.current = none := by
        cases hc : env.current with
        | none => rfl
        | some p =>
            obtain ⟨a, s, ha, -⟩ := href.current p hc
            rw [htree] at ha
            cases ha
      rw [hnone, htree] at hcurrent
      cases hcurrent
      cases hrun
      exact ⟨href.tree, nofun⟩
  | some a =>
      obtain ⟨id, hid⟩ := href.tree a htree
      obtain ⟨s, t, hview, hforms, hsorted⟩ := hl.formed id a hid
      have hattached : ∀ p, current = some p → Attached s p := by
        rw [htree] at hcurrent
        cases hc : env.current with
        | none =>
            rw [hc] at hcurrent
            exact call_attached hview hforms hsorted (hintime a s hc htree hview) hcurrent
        | some q =>
            rw [hc] at hcurrent
            cases hcurrent
            obtain ⟨a', s', ha', hview', hq⟩ := href.current q hc
            rw [htree] at ha'
            cases ha'
            rw [hview] at hview'
            cases hview'
            rintro p ⟨⟩
            exact hq
      -- a player with this cursor refers to what is loaded
      have hrefers : ∀ {c : Option Ptr}, (∀ p, c = some p → Attached s p) →
          RefersTo d { env with current := c } := fun hc =>
        ⟨href.tree, fun p hp => ⟨a, s, htree, hview, hc p hp⟩⟩
      cases current with
      | none =>
          cases hrun
          exact hrefers nofun
      | some p =>
          obtain ⟨key, -, hrun⟩ := Option.bind_eq_some_iff.mp hrun
          split at hrun
          · cases hrun
            exact hrefers hattached
          · obtain ⟨r, hframes, rfl⟩ := Option.map_eq_some_iff.mp hrun
            rw [htree] at hframes
            exact hrefers (frames_attached hview hforms _ hattached hframes)

/-! ### A load -/

/-- In memory that is not in use a new tree leaves the others, and is what has been built. -/
theorem add_sameTree {n : KsiRBTree} {t : BinaryTree Ptr} (hview : h.view b = some s)
    (hforms : Forms s t) (hne : b ≠ a) : ∃ s', (h.add a n).view b = some s' ∧ SameTree s s' := by
  refine ⟨{ s with node := (h.add a n).node },
    view_of_tree (n := { root := s.root, sentinel := s.sentinel }) ?_, rfl, rfl, fun p hp => ?_⟩
  · exact (Function.update_of_ne hne _ _).trans (view_tree hview)
  · rw [view_node hview]
    exact Option.or_of_isSome (Option.isSome_iff_ne_none.mpr (node_of_owns hview hforms hp))

theorem add_new {n : KsiRBTree} (hfree : ∀ p, Owns n p → h.node p = none) :
    ∃ s', (h.add a n).view a = some s' ∧ SameTree n s' := by
  refine ⟨{ n with node := (h.add a n).node },
    view_of_tree (n := { root := n.root, sentinel := n.sentinel }) ?_, rfl, rfl, fun p hp => ?_⟩
  · exact Function.update_self _ _ _
  · unfold Heap.add
    dsimp only
    rw [hfree p hp, Option.none_or]

/-- A player keeps what it refers to where its tree and the resource stay. -/
theorem RefersTo.frame (href : RefersTo d env) (hl : Loaded d)
    (hkeep : ∀ id a s, env.tree = some a → d.timeseqResources.Holds id a → d.heap.view a = some s →
      (∃ id', d'.timeseqResources.Holds id' a) ∧ ∃ s', d'.heap.view a = some s' ∧ SameTree s s') :
    RefersTo d' env := by
  refine ⟨fun a ha => ?_, fun p hp => ?_⟩
  · obtain ⟨id, hid⟩ := href.tree a ha
    obtain ⟨s, t, hview, -⟩ := hl.formed id a hid
    exact (hkeep id a s ha hid hview).1
  · obtain ⟨a, s, ha, hview, hattached⟩ := href.current p hp
    obtain ⟨id, hid⟩ := href.tree a ha
    obtain ⟨s₁, t, hview₁, hforms, -⟩ := hl.formed id a hid
    obtain rfl : s₁ = s := Option.some.inj (hview₁.symm.trans hview)
    obtain ⟨-, s', hview', hsame⟩ := hkeep id a s₁ ha hid hview
    exact ⟨a, s', ha, hview', (hsame.attached_iff hforms).mpr hattached⟩

section

variable {n : KsiRBTree} (hl : Loaded d) (hunused : d.heap.Unused a m lines.length)
  (hload : ksiTimeSeqLoadFromTextFile lines.length m lines d.framesPerSecond =
    some (ksiErrorNone, n))
include hl hunused hload

/-- The engine with a resource that has been loaded. -/
theorem load_loaded : Loaded { d with
      timeseqResources := (ksiVecInsert d.timeseqResources a).2, heap := d.heap.add a n } ∧
    ∀ env, RefersTo d env → RefersTo { d with
      timeseqResources := (ksiVecInsert d.timeseqResources a).2, heap := d.heap.add a n } env := by
  obtain ⟨htree, hsentinel, hnotes⟩ := hunused
  obtain ⟨t, nodes, hholds, hnodes⟩ := load_holds (Nat.le_refl _) hload
  have hforms := hholds.tree.forms
  -- the new tree is in memory that was not in use
  have hfree : ∀ p, Owns n p → d.heap.node p = none := by
    intro p hp
    rcases (hforms.owns_iff hholds.sentinel).mp hp with rfl | hp
    · exact hsentinel
    · obtain ⟨j, hj, rfl⟩ := hnodes p (hholds.members.mem_iff.mp hp)
      exact hnotes j hj
  have hnot : ∀ id, ¬ d.timeseqResources.Holds id a := by
    intro id hid
    obtain ⟨s, -, hview, -⟩ := hl.formed id a hid
    have hsome := view_tree hview
    rw [htree] at hsome
    cases hsome
  obtain ⟨new, hnew, hsameNew⟩ := add_new (a := a) hfree
  -- an id holds the new tree, or an old one that has stayed
  have hcases : ∀ id b, (ksiVecInsert d.timeseqResources a).2.Holds id b →
      (id = (ksiVecInsert d.timeseqResources a).1 ∧ b = a ∧ (d.heap.add a n).view b = some new) ∨
      ∃ s t s', d.timeseqResources.Holds id b ∧ b ≠ a ∧ d.heap.view b = some s ∧ Forms s t ∧
        Sorted s t.inorder ∧ (d.heap.add a n).view b = some s' ∧ SameTree s s' := by
    intro id b hid
    rcases KsiVec.holds_of_insert hid with ⟨rfl, rfl⟩ | hid
    · exact .inl ⟨rfl, rfl, hnew⟩
    · obtain ⟨s, t, hview, hf, hs⟩ := hl.formed id b hid
      have hne : b ≠ a := fun heq => hnot id (heq ▸ hid)
      obtain ⟨s', hview', hsame⟩ := add_sameTree (n := n) hview hf hne
      exact .inr ⟨s, t, s', hid, hne, hview, hf, hs, hview', hsame⟩
  refine ⟨⟨hl.tidy.insert a, fun id b hid => ?_, fun id id' b hid hid' => ?_, ?_⟩,
    fun env href => ?_⟩
  · rcases hcases id b hid with ⟨-, rfl, hview⟩ | ⟨s, t', s', -, -, -, hf, hs, hview', hsame⟩
    · exact ⟨new, t, hview, hsameNew.forms hforms, hsameNew.sorted hforms hholds.tree.sorted⟩
    · exact ⟨s', t', hview', hsame.forms hf, hsame.sorted hf hs⟩
  · rcases hcases id b hid with ⟨rfl, rfl, -⟩ | ⟨_, _, _, hold, hne, -⟩
    · rcases hcases id' b hid' with ⟨rfl, -, -⟩ | ⟨_, _, _, -, hne, -⟩
      · rfl
      · exact absurd rfl hne
    · rcases hcases id' b hid' with ⟨-, heq, -⟩ | ⟨_, _, _, hold', -⟩
      · exact absurd heq hne
      · exact hl.once id id' b hold hold'
  · intro id id' b c s s' hid hid' hbc hview hview' p hp hp'
    rcases hcases id b hid with ⟨-, rfl, hb⟩ | ⟨s₁, t₁, s₁', hold, -, hv₁, hf₁, -, hv₁', hsame₁⟩
    · rcases hcases id' c hid' with ⟨-, rfl, -⟩ | ⟨s₂, t₂, s₂', -, -, hv₂, hf₂, -, hv₂', hsame₂⟩
      · exact hbc rfl
      · obtain rfl : new = s := Option.some.inj (hb.symm.trans hview)
        obtain rfl : s₂' = s' := Option.some.inj (hv₂'.symm.trans hview')
        exact node_of_owns hv₂ hf₂ ((hsame₂.owns_iff hf₂).mp hp')
          (hfree p ((hsameNew.owns_iff hforms).mp hp))
    · obtain rfl : s₁' = s := Option.some.inj (hv₁'.symm.trans hview)
      have howns₁ := (hsame₁.owns_iff hf₁).mp hp
      rcases hcases id' c hid' with ⟨-, rfl, hc⟩ | ⟨s₂, t₂, s₂', hold', -, hv₂, hf₂, -,
        hv₂', hsame₂⟩
      · obtain rfl : new = s' := Option.some.inj (hc.symm.trans hview')
        exact node_of_owns hv₁ hf₁ howns₁ (hfree p ((hsameNew.owns_iff hforms).mp hp'))
      · obtain rfl : s₂' = s' := Option.some.inj (hv₂'.symm.trans hview')
        exact hl.apart id id' b c s₁ s₂ hold hold' hbc hv₁ hv₂ p howns₁
          ((hsame₂.owns_iff hf₂).mp hp')
  · refine href.frame hl fun id b s hb hid hview => ?_
    obtain ⟨s₁, t₁, hv₁, hf₁, -⟩ := hl.formed id b hid
    obtain rfl : s₁ = s := Option.some.inj (hv₁.symm.trans hview)
    have hne : b ≠ a := fun heq => hnot id (heq ▸ hid)
    refine ⟨⟨id, (KsiVec.holds_insert hl.tidy a).mpr (.inr ⟨?_, hid⟩)⟩, add_sameTree hview hf₁ hne⟩
    exact fun heq => KsiVec.not_holds_insert hl.tidy a (heq ▸ hid)

end

/-! ### An unload -/

/-- Another tree stays when the memory of one is freed. -/
theorem remove_sameTree {n : KsiRBTree} (hviewa : h.view a = some s) (hview : h.view b = some s')
    (hne : b ≠ a) (hapart : ∀ p, Owns s' p → ¬ Owns s p)
    (hfreed : ∀ p, (Owns s p → n.node p = none) ∧ (¬ Owns s p → n.node p = s.node p)) :
    ∃ s'', (h.remove a n).view b = some s'' ∧ SameTree s' s'' := by
  refine ⟨{ s' with node := n.node },
    view_of_tree (n := { root := s'.root, sentinel := s'.sentinel }) ?_, rfl, rfl, fun p hp => ?_⟩
  · exact (Function.update_of_ne hne _ _).trans (view_tree hview)
  · show n.node p = s'.node p
    rw [(hfreed p).2 (hapart p hp), view_node hviewa, view_node hview]

/-- The engine without a resource. -/
theorem unload_loaded {n : KsiRBTree} {id : Nat} (hl : Loaded d)
    (hid : d.timeseqResources.Holds id a) (hview : d.heap.view a = some s)
    (hfreed : ∀ p, (Owns s p → n.node p = none) ∧ (¬ Owns s p → n.node p = s.node p)) :
    Loaded { d with
      timeseqResources := ksiVecDelete d.timeseqResources id, heap := d.heap.remove a n } ∧
    ∀ env, RefersTo d env → env.tree ≠ some a → RefersTo { d with
      timeseqResources := ksiVecDelete d.timeseqResources id, heap := d.heap.remove a n } env := by
  -- what another id holds stays
  have hkeep : ∀ j b, j ≠ id → d.timeseqResources.Holds j b → ∃ s₁ t s₁', d.heap.view b = some s₁ ∧
      Forms s₁ t ∧ Sorted s₁ t.inorder ∧ (d.heap.remove a n).view b = some s₁' ∧
        SameTree s₁ s₁' := by
    intro j b hj hb
    obtain ⟨s₁, t, hv, hf, hs⟩ := hl.formed j b hb
    have hne : b ≠ a := fun heq => hj (hl.once j id a (heq ▸ hb) hid)
    obtain ⟨s₁', hv', hsame⟩ := remove_sameTree (n := n) hview hv hne
      (fun p hp => hl.apart j id b a s₁ s hb hid hne hv hview p hp) hfreed
    exact ⟨s₁, t, s₁', hv, hf, hs, hv', hsame⟩
  have hholds : ∀ {j b}, (ksiVecDelete d.timeseqResources id).Holds j b ↔
      j ≠ id ∧ d.timeseqResources.Holds j b := KsiVec.holds_delete hid
  refine ⟨⟨hl.tidy.delete hid, fun j b hb => ?_, fun j j' b hb hb' => ?_, ?_⟩,
    fun env href hnot => ?_⟩
  · obtain ⟨hj, hb⟩ := hholds.mp hb
    obtain ⟨s₁, t, s₁', -, hf, hs, hv', hsame⟩ := hkeep j b hj hb
    exact ⟨s₁', t, hv', hsame.forms hf, hsame.sorted hf hs⟩
  · exact hl.once j j' b (hholds.mp hb).2 (hholds.mp hb').2
  · intro j j' b c s₁ s₂ hb hc hbc hv₁ hv₂ p hp hp'
    obtain ⟨hj, hb⟩ := hholds.mp hb
    obtain ⟨hj', hc⟩ := hholds.mp hc
    obtain ⟨s₃, t₃, s₃', hv₃, hf₃, -, hv₃', hsame₃⟩ := hkeep j b hj hb
    obtain ⟨s₄, t₄, s₄', hv₄, hf₄, -, hv₄', hsame₄⟩ := hkeep j' c hj' hc
    obtain rfl : s₃' = s₁ := Option.some.inj (hv₃'.symm.trans hv₁)
    obtain rfl : s₄' = s₂ := Option.some.inj (hv₄'.symm.trans hv₂)
    exact hl.apart j j' b c s₃ s₄ hb hc hbc hv₃ hv₄ p ((hsame₃.owns_iff hf₃).mp hp)
      ((hsame₄.owns_iff hf₄).mp hp')
  · refine href.frame hl fun j b s₁ hb hj hv => ?_
    have hne : j ≠ id := fun heq => hnot (KsiVec.Holds.unique (heq ▸ hj) hid ▸ hb)
    obtain ⟨s₂, t, s₂', hv₂, -, -, hv₂', hsame⟩ := hkeep j b hne hj
    obtain rfl : s₂ = s₁ := Option.some.inj (hv₂.symm.trans hv)
    exact ⟨⟨j, hholds.mpr ⟨hne, hj⟩⟩, s₂', hv₂', hsame⟩

/-! ### Every step -/

theorem setArgs_self (d : PlayerEngine) (n : ArgsPtr) (o : Option PluginEnv) :
    (d.setArgs n o).args n = o := by
  simp [PlayerEngine.setArgs]

theorem setArgs_other {n n' : ArgsPtr} (hn : n' ≠ n) (o : Option PluginEnv) :
    (d.setArgs n o).args n' = d.args n' := by
  simp [PlayerEngine.setArgs, hn]

/-- A step that changes one player. -/
theorem refers_setArgs {n : ArgsPtr} {o : Option PluginEnv} (href : Refers d)
    (ho : ∀ env, o = some env → RefersTo d env) : Refers (d.setArgs n o) := by
  intro n' env henv
  have hto : RefersTo d env := by
    by_cases hn : n' = n
    · subst hn
      rw [setArgs_self] at henv
      exact ho env henv
    · rw [setArgs_other hn] at henv
      exact href n' env henv
  exact ⟨hto.tree, hto.current⟩

theorem loaded_setArgs {n : ArgsPtr} {o : Option PluginEnv} (hl : Loaded d) :
    Loaded (d.setArgs n o) :=
  ⟨hl.tidy, hl.formed, hl.once, hl.apart⟩

/-- An edit sets a tree that is loaded, and leaves the cursor. -/
theorem edit_refers {args : List Char} {r : KsiError × PluginEnv} (href : RefersTo d env)
    (hallowed : ∀ l mid a, args = 'm' :: l → scanD l = some mid →
      d.timeseqResources.check mid.1 = some (some a) → env.current = none ∨ env.tree = some a)
    (hedit : kscarletMidiSegEditCmd d.timeseqResources args env = some r) : RefersTo d r.2 := by
  unfold kscarletMidiSegEditCmd at hedit
  split at hedit
  · rename_i l
    split at hedit
    · cases hedit
      exact href
    · rename_i mid hscan
      obtain ⟨o, hcheck, hedit⟩ := Option.bind_eq_some_iff.mp hedit
      cases o with
      | none =>
          cases hedit
          exact href
      | some a =>
          cases hedit
          refine ⟨fun b hb => ?_, fun p hp => ?_⟩
          · cases hb
            exact ⟨_, (KsiVec.check_some hcheck).1⟩
          · rcases hallowed l mid a rfl hscan hcheck with hnone | hsame
            · rw [hnone] at hp
              cases hp
            · obtain ⟨b, s, hb, hview, hattached⟩ := href.current p hp
              rw [hsame] at hb
              cases hb
              exact ⟨a, s, rfl, hview, hattached⟩
  · cases hedit
    exact href
  · cases hedit
    exact href
  · cases hedit
    exact href

/-- **Every step** that is allowed keeps the memory, and what the players refer to. -/
theorem step_refers {l : Label} (hl : Loaded d) (href : Refers d) (hallowed : Allowed d l)
    (hstep : step d l = some d') : Loaded d' ∧ Refers d' := by
  cases l with
  | load m a file =>
      rw [step] at hstep
      split at hstep
      · rename_i hunused
        obtain ⟨⟨err, o, d₁⟩, hload, rfl⟩ := Option.map_eq_some_iff.mp hstep
        cases file with
        | none =>
            cases hload
            exact ⟨hl, href⟩
        | some lines =>
            obtain ⟨⟨err', n⟩, hn, hload⟩ := Option.bind_eq_some_iff.mp hload
            dsimp only at hload
            split at hload
            · rename_i herr
              subst herr
              cases hload
              obtain ⟨hl', hkeep⟩ := load_loaded hl hunused hn
              exact ⟨hl', fun n env henv => hkeep env (href n env henv)⟩
            · cases hload
              exact ⟨hl, href⟩
      · cases hstep
  | unload id fuel =>
      obtain ⟨⟨err, d₁⟩, hunload, rfl⟩ := Option.map_eq_some_iff.mp hstep
      obtain ⟨o, hcheck, hunload⟩ := Option.bind_eq_some_iff.mp hunload
      cases o with
      | none =>
          cases hunload
          exact ⟨hl, href⟩
      | some a =>
          obtain ⟨s, hview, hunload⟩ := Option.bind_eq_some_iff.mp hunload
          obtain ⟨⟨r, n⟩, hdestroy, hunload⟩ := Option.bind_eq_some_iff.mp hunload
          cases hunload
          obtain ⟨hid, -⟩ := KsiVec.check_some hcheck
          obtain ⟨s', t, hview', hforms, -⟩ := hl.formed _ a hid
          obtain rfl : s' = s := Option.some.inj (hview'.symm.trans hview)
          have hfreed : ∀ p, (Owns s' p → n.node p = none) ∧
            (¬ Owns s' p → n.node p = s'.node p) := by
            have hwp : wp True (ksiRBTreeDestroy fuel : Prog KsiRBTree Empty Unit) s'
              _ fun _ _ => True :=
              hforms.destroy (.inl trivial)
            rcases r with e | u
            · exact e.elim
            · exact of_wp_ok hwp hdestroy
          obtain ⟨hl', hkeep⟩ := unload_loaded hl hid hview hfreed
          exact ⟨hl', fun n' env henv =>
            hkeep env (href n' env henv) (hallowed a hcheck n' env henv)⟩
  | create n =>
      rw [step] at hstep
      split at hstep
      · cases hstep
        refine ⟨loaded_setArgs hl, refers_setArgs href fun env henv => ?_⟩
        cases henv
        exact ⟨nofun, nofun⟩
      · cases hstep
  | destroy n =>
      obtain ⟨env, -, rfl⟩ := Option.map_eq_some_iff.mp hstep
      exact ⟨loaded_setArgs hl, refers_setArgs href nofun⟩
  | edit n args =>
      obtain ⟨env, henv, hstep⟩ := Option.bind_eq_some_iff.mp hstep
      obtain ⟨r, hedit, hstep⟩ := Option.bind_eq_some_iff.mp hstep
      cases hstep
      refine ⟨loaded_setArgs hl, refers_setArgs href fun env' henv' => ?_⟩
      cases henv'
      refine edit_refers (href n env henv) (fun l mid a hargs => ?_) hedit
      subst hargs
      exact hallowed env mid a henv
  | time timeStamp =>
      cases hstep
      exact ⟨⟨hl.tidy, hl.formed, hl.once, hl.apart⟩, fun n env henv =>
        ⟨(href n env henv).tree, (href n env henv).current⟩⟩
  | reset n =>
      obtain ⟨env, henv, rfl⟩ := Option.map_eq_some_iff.mp hstep
      refine ⟨loaded_setArgs hl, refers_setArgs href fun env' henv' => ?_⟩
      cases henv'
      exact ⟨(href n env henv).tree, nofun⟩
  | run n bufsize fuel =>
      obtain ⟨env, henv, hstep⟩ := Option.bind_eq_some_iff.mp hstep
      obtain ⟨env₁, hrun, hstep⟩ := Option.bind_eq_some_iff.mp hstep
      cases hstep
      refine ⟨loaded_setArgs hl, refers_setArgs href fun env' henv' => ?_⟩
      cases henv'
      exact run_refers hl (href n env henv)
        (fun a s hc ht hv => hallowed env a s henv hc ht hv) hrun

/-- The player that a step concerns. -/
def Label.player? : Label → Option ArgsPtr
  | .create n | .destroy n | .edit n _ | .reset n | .run n _ _ => some n
  | .load _ _ _ | .unload _ _ | .time _ => none

/-- A step leaves the other players alone. -/
theorem step_args {l : Label} {n : ArgsPtr} (hl : l.player? ≠ some n)
    (hstep : step d l = some d') : d'.args n = d.args n := by
  have hother : ∀ {n' : ArgsPtr} {o : Option PluginEnv}, some n' ≠ some n →
      (d.setArgs n' o).args n = d.args n :=
    fun hne => setArgs_other (fun heq => hne (congrArg some heq.symm)) _
  cases l with
  | load m a file =>
      rw [step] at hstep
      split at hstep
      · obtain ⟨⟨err, o, d₁⟩, hload, rfl⟩ := Option.map_eq_some_iff.mp hstep
        cases file with
        | none =>
            cases hload
            rfl
        | some lines =>
            obtain ⟨⟨err', t⟩, -, hload⟩ := Option.bind_eq_some_iff.mp hload
            dsimp only at hload
            split at hload
            · cases hload
              rfl
            · cases hload
              rfl
      · cases hstep
  | unload id fuel =>
      obtain ⟨⟨err, d₁⟩, hunload, rfl⟩ := Option.map_eq_some_iff.mp hstep
      obtain ⟨o, -, hunload⟩ := Option.bind_eq_some_iff.mp hunload
      cases o with
      | none =>
          cases hunload
          rfl
      | some a =>
          obtain ⟨s, -, hunload⟩ := Option.bind_eq_some_iff.mp hunload
          obtain ⟨r, -, hunload⟩ := Option.bind_eq_some_iff.mp hunload
          cases hunload
          rfl
  | create n' =>
      rw [step] at hstep
      split at hstep
      · cases hstep
        exact hother hl
      · cases hstep
  | destroy n' =>
      obtain ⟨env, -, rfl⟩ := Option.map_eq_some_iff.mp hstep
      exact hother hl
  | edit n' args =>
      obtain ⟨env, -, hstep⟩ := Option.bind_eq_some_iff.mp hstep
      obtain ⟨r, -, hstep⟩ := Option.bind_eq_some_iff.mp hstep
      cases hstep
      exact hother hl
  | time timeStamp =>
      cases hstep
      rfl
  | reset n' =>
      obtain ⟨env, -, rfl⟩ := Option.map_eq_some_iff.mp hstep
      exact hother hl
  | run n' bufsize fuel =>
      obtain ⟨env, -, hstep⟩ := Option.bind_eq_some_iff.mp hstep
      obtain ⟨env₁, -, hstep⟩ := Option.bind_eq_some_iff.mp hstep
      cases hstep
      exact hother hl

theorem init_refers (framesPerSecond : Int) (capacity : Nat) :
    Loaded (init framesPerSecond capacity) ∧ Refers (init framesPerSecond capacity) := by
  have hempty : ∀ id a, ¬ (ksiVecInit TreePtr capacity).Holds id a := by
    rintro id a ⟨-, hdata⟩
    cases hdata
  refine ⟨⟨⟨by rintro i ⟨⟩, List.nodup_nil⟩, fun id a hid => absurd hid (hempty id a),
    fun id _ a hid => absurd hid (hempty id a), fun id _ a _ _ _ hid => absurd hid (hempty id a)⟩,
    ?_⟩
  rintro n env ⟨⟩

/-- **Players refer to loaded resources** in every state of a run whose steps are allowed. -/
theorem refers_of_reaches {framesPerSecond : Int} {capacity : Nat}
    (h : Reaches step Allowed (init framesPerSecond capacity) d) : Refers d :=
  (h.invariant (fun d => Loaded d ∧ Refers d) (init_refers framesPerSecond capacity)
    fun _ _ _ hinv hallowed hstep => step_refers hinv.1 hinv.2 hallowed hstep).2

/-- A resource with one note, 9 bars from the start, in the memory from `a` on. -/
def loadAt (a : Ptr) (tree : TreePtr) : Label :=
  .load { inARow with
      sentinel := a
      note := fun i => a + (i + 1)
      injective := fun _ _ h => Nat.succ.inj (Nat.add_left_cancel h)
      apart := fun i => Nat.ne_of_gt (Nat.lt_add_of_pos_right (Nat.succ_pos i)) }
    tree (some [['4', '\n'], ['9', ' ', '4', ' ', '0', ' ', '6', '4', ' ', '9', '9', '\n']])

/-- A player is made and given the first of two resources, a callback sets its cursor, and
the other resource is unloaded. -/
theorem refers_of_reaches_unload : ∃ d, Reaches step Allowed (init 48000 32) d ∧
    d.args 0 = some { tree := some 0, current := some 1 } ∧
    d.timeseqResources.check 1 = some none ∧ Refers d := by
  have hrun : ((run step (init 48000 32) [loadAt 0 0, loadAt 10 1, .create 0]).bind fun d₁ =>
      (step d₁ (.edit 0 ['m', '0'])).bind fun d₂ => (step d₂ (.run 0 64 4)).bind fun d₃ =>
      (step d₃ (.unload 1 8)).map fun d₄ =>
        ([d₁.args 0, d₃.args 0, d₄.args 0], d₂.timeStamp,
          [d₃.timeseqResources.check 1, d₄.timeseqResources.check 1])) =
      some ([some kscarletMidiSegInit, some { tree := some 0, current := some 1 },
        some { tree := some 0, current := some 1 }], 0, [some (some 1), some none]) := by
    decide +kernel
  obtain ⟨d₁, h₁, hrun⟩ := Option.bind_eq_some_iff.mp hrun
  obtain ⟨d₂, h₂, hrun⟩ := Option.bind_eq_some_iff.mp hrun
  obtain ⟨d₃, h₃, hrun⟩ := Option.bind_eq_some_iff.mp hrun
  obtain ⟨d₄, h₄, hobs⟩ := Option.map_eq_some_iff.mp hrun
  simp only [Prod.mk.injEq, List.cons.injEq, and_true] at hobs
  obtain ⟨⟨hnew, hcursor, hlast⟩, htime, hother, hunloaded⟩ := hobs
  -- there is no other player
  have halone : ∀ n, n ≠ 0 → d₃.args n = none := by
    intro n hn
    have hfree : Reaches step (fun _ l => l.player? ≠ some n) (init 48000 32) d₁ := by
      refine reaches_of_forall _ ?_ h₁
      simp [loadAt, Label.player?, Ne.symm hn]
    have hnone : d₁.args n = none :=
      hfree.invariant (fun d => d.args n = none) rfl fun _ _ _ hnone hl hstep =>
        (step_args hl hstep).trans hnone
    have hne : some 0 ≠ some n := fun heq => hn (Option.some.inj heq).symm
    have hkept := step_args (l := .edit 0 ['m', '0']) hne h₂
    exact (step_args (l := .run 0 64 4) hne h₃).trans (hkept.trans hnone)
  have hedit : Allowed d₁ (.edit 0 ['m', '0']) := by
    intro env mid a henv _ _
    cases hnew.symm.trans henv
    exact .inl rfl
  have hplay : Allowed d₂ (.run 0 64 4) := by
    intro env a s _ _ _ _
    rw [htime]
    exact .inl (Int.le_refl 0)
  have hunload : Allowed d₃ (.unload 1 8) := by
    intro a ha n env henv
    cases hother.symm.trans ha
    by_cases hn : n = 0
    · subst hn
      cases hcursor.symm.trans henv
      nofun
    · cases (halone n hn).symm.trans henv
  have hmade : Reaches step Allowed (init 48000 32) d₁ := by
    refine reaches_of_forall _ ?_ h₁
    simp [loadAt, Allowed]
  have hreach : Reaches step Allowed (init 48000 32) d₄ :=
    ((hmade.tail _ hedit h₂).tail _ hplay h₃).tail _ hunload h₄
  exact ⟨d₄, hreach, hlast, hunloaded, refers_of_reaches hreach⟩

/-- **An unload** leaves a player that has the tree with the tree that it has freed. -/
theorem not_refers : ¬ ∀ (framesPerSecond : Int) (capacity : Nat) (d : PlayerEngine),
    Reaches step Free (init framesPerSecond capacity) d → Refers d := by
  intro h
  have hrun : (run step (init 48000 32)
      [loadAt 0 0, .create 0, .edit 0 ['m', '0'], .unload 0 4]).map
        (fun d => (d.args 0, d.timeseqResources.size)) =
          some (some { tree := some 0, current := none }, 0) := by
    decide +kernel
  obtain ⟨d, hd, hobs⟩ := Option.map_eq_some_iff.mp hrun
  obtain ⟨hargs, hsize⟩ := Prod.mk.inj hobs
  obtain ⟨id, hid, -⟩ := (h 48000 32 d (reaches_of_run _ hd) 0 _ hargs).tree 0 rfl
  omega

end Ksi.Audio.Players

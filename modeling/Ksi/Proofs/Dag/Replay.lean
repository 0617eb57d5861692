/-
The kernels and their replay.

Each kernel with flag 0 on one version and with flag 1 on the other is a pair of programs
in step: the replay takes every branch that the edit took.  RemoveNode is the one that
needs slots beyond the vector: it shrinks the vector first, and then reads the slots of the
successors, the node's own among them if it is wired to itself.
-/
import Ksi.Proofs.Dag.Lockstep

namespace Ksi.Dag

open Prog Relator

variable {π : NodePtr → NodePtr → Prop} {good : NodePtr → Prop} {ex : Place → Prop}
  {e c : Engine} {p q src src' des des' n n' : NodePtr} {i j port : Nat}

theorem checkInitialized_replays (h : Paired π good ex e c) :
    Replays bufJournal checkInitialized checkInitialized e c fun _ _ e' c' => e' = e ∧ c' = c := by
  exact .bind (.read fun a _ =>
    ⟨c.playing, fun l => rfl, .require (fun _ => h.playing) fun _ => ⟨rfl, rfl⟩⟩)

theorem checkDesPort_inStep (hpq : π p q) (port : Int) (err : KsiError) :
    InStep bufJournal (Paired π good ex) Eq (checkDesPort p port err)
      (checkDesPort q port err) := by
  refine .bind (load_inStep hpq) fun node node' ⟨hsame, _⟩ => .bind (.require ?_) fun _ _ _ => ?_
  · rw [hsame.inputs.length_eq]
  · refine .read fun e c _ type htype => ⟨type, fun l => ?_, rfl⟩
    obtain ⟨input, hinput, rfl⟩ := Option.map_eq_some_iff.mp htype
    unfold nth at hinput ⊢
    split at hinput
    · cases hinput
    · obtain ⟨input', hinput', hio⟩ := rel_some (rel_getElem? hsame.inputs _) hinput
      rw [if_neg ‹_›, hinput', Option.map_some, hio.type]

/-! ### Wires and biases -/

theorem any_eq_of_forall₂ {α β : Type} {R : α → β → Prop} {f : α → Bool} {g : β → Bool}
    (hfg : ∀ a b, R a b → f a = g b) {l : List α} {l' : List β} (h : List.Forall₂ R l l') :
    l.any f = l'.any g := by
  induction h with
  | nil => rfl
  | cons hab _ ih => rw [List.any_cons, List.any_cons, ih, hfg _ _ hab]

theorem rel_setGain {f g : Entry → Bool} (hfg : ∀ me me', SameEntry π me me' → f me = g me')
    (gain : KsiData) {l l' : List Entry} (h : List.Forall₂ (SameEntry π) l l') :
    List.Forall₂ (SameEntry π) (setGain f gain l) (setGain g gain l') := by
  induction h with
  | nil => exact .nil
  | cons hme hrest ih =>
      unfold setGain
      rw [hfg _ _ hme]
      split
      · exact .cons ⟨hme.src, hme.srcPort, rfl⟩ hrest
      · exact .cons hme ih

theorem sourced_setGain {f : Entry → Bool} {gain : KsiData} {l : List Entry} (h : Sourced good l) :
    Sourced good (setGain f gain l) := by
  intro me hme src hsrc
  obtain ⟨me', hme', heq, -⟩ := mem_setGain hme
  exact h me' hme' src (heq ▸ hsrc)

theorem link_inStep (hπ : BiUnique π) (hsrc : π src src') (hdes : π des des') (k : Nat) :
    InStep bufJournal (Steady π good) Whatever (link src des k) (link src' des' k) := by
  refine .bind (load_inStep hsrc) fun node node' ⟨hsame, _⟩ =>
    .ite (by rw [hsame.successors]) (.pure trivial)
    (.bind (update_inStep hπ hsrc (tame_successors (k :: ·))) fun _ _ _ =>
      update_inStep hπ hdes (tame_depNum (· + 1)))

/-- **A wire is made.** -/
theorem impl_ksiEngineMakeWire_replays (hπ : BiUnique π) (h : Steady π good e c)
    (hslots : SlotsLive e.graph)
    (srcId srcPort desId desPort : Int) (gain : KsiData)
    (hgood : ∀ p, e.graph.nodes.Holds srcId.toNat p → good p) :
    Replays bufJournal (impl_ksiEngineMakeWire srcId srcPort desId desPort gain .editing)
      (impl_ksiEngineMakeWire srcId srcPort desId desPort gain .committing) e c
      fun _ _ e' c' => Steady π good e' c' ∧ Whatever () () := by
  refine .bind ((checkInitialized_replays h).mono ?_)
  rintro _ _ e₁ c₁ ⟨rfl, rfl⟩
  refine .bind ((checkVec_replays h hslots srcId _).mono ?_)
  rintro src src' e₂ c₂ ⟨rfl, rfl, hheld, hsrc⟩
  have hsource := hgood src hheld
  refine .bind ((checkVec_replays h hslots desId _).mono ?_)
  rintro des des' e₃ c₃ ⟨rfl, rfl, -, hdes⟩
  have hcons : ∀ g : KsiData, Tame π good
      (·.updateEntries desPort.toNat ({ src := some src, srcPort := srcPort, gain := g } :: ·))
      (·.updateEntries desPort.toNat
        ({ src := some src', srcPort := srcPort, gain := g } :: ·)) := by
    refine fun g => tame_updateEntries _ (fun _ _ hl => .cons ⟨.some hsrc, rfl, rfl⟩ hl)
      fun l hl => ?_
    refine List.forall_mem_cons.mpr ⟨?_, hl⟩
    rintro _ ⟨⟩
    exact hsource
  refine InStep.bind (load_inStep hsrc) (fun srcNode srcNode' ⟨hnode, _⟩ => ?_) _ _ h
  refine .bind (.require (by rw [hnode.outputs])) fun _ _ _ => .bind (checkDesPort_inStep hdes _ _)
    fun desType _ heq => ?_
  subst heq
  refine .bind (V := Eq)
    (.read fun _ _ _ type htype => ⟨type, fun _ => by rw [hnode.outputs, htype], rfl⟩)
    fun srcType _ heq => ?_
  subst heq
  refine .bind (.require Iff.rfl) fun _ _ _ => .bind (link_inStep hπ hsrc hdes _) fun _ _ _ =>
    .bind (loadInput_inStep hdes _) fun input input' ⟨hinput, _⟩ => ?_
  have hany : input.entries.any (·.isFrom src srcPort) = input'.entries.any
    (·.isFrom src' srcPort) :=
    any_eq_of_forall₂ (fun _ _ hme => hme.isFrom hπ hsrc srcPort) hinput.entries
  rw [← hany]
  refine .ite Iff.rfl (.bind (.require Iff.rfl) fun _ _ _ => update_inStep hπ hdes (hcons 0))
    (.ite Iff.rfl ?_ ?_)
  · refine .bind (debug_check_node_inStep hπ hsrc) fun _ _ _ => .bind (update_inStep hπ hdes ?_)
      fun _ _ _ => refreshCopying_inStep hπ hdes _
    exact tame_updateEntries
      _ (fun _ _ hl => rel_setGain (fun _ _ hme => hme.isFrom hπ hsrc srcPort) gain hl)
      fun _ hl => sourced_setGain hl
  · exact .bind (update_inStep hπ hdes (hcons gain)) fun _ _ _ => refreshCopying_inStep hπ hdes _

theorem findBias_inStep (hπ : BiUnique π) {l l' : List Entry} (h : List.Forall₂ (SameEntry π) l l')
    (hl : Sourced good l) : InStep bufJournal (Paired π good ex) Eq (findBias l) (findBias l') := by
  induction h with
  | nil => exact .pure rfl
  | @cons me me' rest rest' hme _ ih =>
      obtain ⟨hfirst, hrest⟩ := List.forall_mem_cons.mp hl
      obtain ⟨s, sport, gain⟩ := me
      obtain ⟨s', sport', gain'⟩ := me'
      cases hme.src with
      | none => exact .pure rfl
      | some hss =>
          exact .bind (debug_check_node_inStep hπ hss) fun _ _ _ => ih hrest

/-- **A bias is set.** -/
theorem impl_ksiEngineMakeBias_replays (hπ : BiUnique π) (h : Steady π good e c)
    (hslots : SlotsLive e.graph) (desId desPort : Int)
    (bias : KsiData) :
    Replays bufJournal (impl_ksiEngineMakeBias desId desPort bias .editing)
      (impl_ksiEngineMakeBias desId desPort bias .committing) e c
      fun _ _ e' c' => Steady π good e' c' ∧ Whatever () () := by
  refine .bind ((checkInitialized_replays h).mono ?_)
  rintro _ _ e₁ c₁ ⟨rfl, rfl⟩
  refine .bind ((checkVec_replays h hslots desId _).mono ?_)
  rintro des des' e₂ c₂ ⟨rfl, rfl, -, hdes⟩
  refine InStep.bind (checkDesPort_inStep hdes _ _) (fun type _ heq => ?_) _ _ h
  subst heq
  refine .bind (.require Iff.rfl) fun _ _ _ => .bind (loadInput_inStep hdes _)
    fun input input' ⟨hinput, hsourced⟩ => .bind (findBias_inStep hπ hinput.entries hsourced)
      fun found _ heq => ?_
  subst heq
  refine .bind (update_inStep hπ hdes (tame_updateEntries _ (fun l l' hl => ?_) fun l hl => ?_))
    fun _ _ _ => refreshCopying_inStep hπ hdes _
  · split
    · refine rel_setGain (fun me me' hme => ?_) bias hl
      rw [← Option.not_isSome, ← Option.not_isSome, rel_isSome hme.src]
    · exact .cons ⟨.none, rfl, rfl⟩ hl
  · split
    · exact sourced_setGain hl
    · exact List.forall_mem_cons.mpr ⟨nofun, hl⟩

/-! ### Detaching and removing -/

theorem rel_without (hπ : BiUnique π) (hsrc : π src src') {l l' : List Entry}
    (h : List.Forall₂ (SameEntry π) l l') :
    List.Forall₂ (SameEntry π) (l.filter fun me => me.src != some src)
      (l'.filter fun me => me.src != some src') := by
  induction h with
  | nil => exact .nil
  | @cons me me' _ _ hme _ ih =>
      have heq : (me.src != some src) = (me'.src != some src') := by
        rw [Bool.eq_iff_iff, bne_iff_ne, bne_iff_ne]
        exact not_congr (hme.src_iff hπ hsrc)
      rw [List.filter_cons, List.filter_cons, heq]
      split
      · exact .cons hme ih
      · exact ih

theorem delete_src_inStep (hπ : BiUnique π) (hdes : π des des') (hsrc : π src src') (i : Nat) :
    InStep bufJournal (Steady π good) Whatever (delete_src des src .editing i)
      (delete_src des' src' .committing i) :=
  .bind (loadInput_inStep hdes i) fun _ _ _ => .bind (update_inStep hπ hdes (tame_updateEntries i
    (fun _ _ hl => rel_without hπ hsrc hl) fun _ hl me hme => hl me (List.mem_filter.mp hme).1))
      fun _ _ _ => refreshCopying_inStep hπ hdes i

/-- The same numbers on both sides. -/
theorem forall₂_same {α : Type} (l : List α) : List.Forall₂ Eq l l := List.forall₂_refl l

theorem deleteSrcs_inStep (hπ : BiUnique π) (hdes : π des des') (hsrc : π src src') :
    InStep bufJournal (Steady π good) Whatever (deleteSrcs des src .editing)
      (deleteSrcs des' src' .committing) := by
  refine .bind (load_inStep hdes) fun node node' ⟨hsame, _⟩ => ?_
  rw [hsame.inputs.length_eq]
  refine .forEach (fun i _ heq => ?_) (forall₂_same _)
  subst heq
  exact delete_src_inStep hπ hdes hsrc i

/-- **Two nodes are detached.** -/
theorem impl_ksiEngineDetachNodes_replays (hπ : BiUnique π) (h : Steady π good e c)
    (hslots : SlotsLive e.graph) (srcId desId : Int) :
    Replays bufJournal (impl_ksiEngineDetachNodes srcId desId .editing)
      (impl_ksiEngineDetachNodes srcId desId .committing) e c
      fun _ _ e' c' => Steady π good e' c' ∧ Whatever () () := by
  refine .bind ((checkInitialized_replays h).mono ?_)
  rintro _ _ e₁ c₁ ⟨rfl, rfl⟩
  refine .bind ((checkVec_replays h hslots srcId _).mono ?_)
  rintro src src' e₂ c₂ ⟨rfl, rfl, -, hsrc⟩
  refine .bind ((checkVec_replays h hslots desId _).mono ?_)
  rintro des des' e₃ c₃ ⟨rfl, rfl, -, hdes⟩
  exact InStep.bind (update_inStep hπ hdes (tame_depNum (· - 1))) (fun _ _ _ =>
    .bind (deleteSrcs_inStep hπ hdes hsrc) fun _ _ _ =>
      update_inStep hπ hsrc (tame_successors (·.erase _))) _ _ h

theorem ksiVecDelete_data {v : KsiVec NodePtr} (h : (ksiVecDelete v i).data j = some p) :
    v.data j = some p := by
  unfold ksiVecDelete at h
  split at h
  · exact h
  · dsimp only at h
    rw [Function.update_apply] at h
    split at h
    · cases h
    · exact h

/-- A slot is emptied in both vectors. -/
theorem Paired.delete (h : Paired π good ex e c) (id : Nat) :
    Paired π good ex { e with graph := { e.graph with nodes := ksiVecDelete e.graph.nodes id } }
      { c with graph := { c.graph with nodes := ksiVecDelete c.graph.nodes id } } := by
  have hsize := h.size
  constructor
  case playing => exact h.playing
  case framesPerBuffer => exact h.framesPerBuffer
  case resources => exact h.resources
  case size =>
    show (ksiVecDelete c.graph.nodes id).size = (ksiVecDelete e.graph.nodes id).size
    unfold ksiVecDelete
    rw [hsize]
    split <;> rfl
  case freelist =>
    show (ksiVecDelete c.graph.nodes id).freelist = (ksiVecDelete e.graph.nodes id).freelist
    unfold ksiVecDelete
    rw [hsize, h.freelist]
    split <;> rfl
  case slots =>
    intro i
    show Option.Rel π (((ksiVecDelete e.graph.nodes id).data i).filter _)
      (((ksiVecDelete c.graph.nodes id).data i).filter _)
    unfold ksiVecDelete
    rw [hsize]
    split
    · exact h.slots i
    · by_cases heq : i = id
      · subst heq
        simp only [Function.update_self]
        exact .none
      · simp only [Function.update_of_ne heq]
        exact h.slots i
  case finalNode => exact h.finalNode
  case heap => exact h.heap
  case env => exact h.env
  case output => exact h.output
  case next => exact h.next
  case given => exact fun i p hp => h.given i p (ksiVecDelete_data hp)
  case given' => exact fun i q hq => h.given' i q (ksiVecDelete_data hq)
  case fresh => exact h.fresh
  case sound => exact h.sound
  case tracked => exact h.tracked

/-- A slot that holds no live node faults on the edited version. -/
theorem releaseSuccessor_inStep (hπ : BiUnique π) (hn : π n n') (loc : Nat) :
    InStep bufJournal (Steady π good) Whatever (releaseSuccessor n .editing loc)
      (releaseSuccessor n' .committing loc) := by
  intro e c h
  cases hs : e.graph.nodes.data loc with
  | none =>
      exact .of_none (bind_of_none
        (read_of_none (f := fun e : Engine => e.graph.nodes.data loc) hs) _)
  | some s =>
      cases hlive : e.graph.heap s with
      | none =>
          have hread := read_of_some (ε := KsiError)
            (f := fun e : Engine => e.graph.nodes.data loc) hs
          refine .of_none ((bind_of_ok hread _).trans (bind_of_none ?_ _))
          exact bind_of_none (read_of_none (f := fun e : Engine => e.graph.heap s) hlive) _
      | some node =>
          obtain ⟨s', hs', hss⟩ :=
            rel_some (h.slots loc) (slot_eq_some.mpr ⟨hs, by rw [hlive]; rfl⟩)
          refine .bind (.read fun a ha => ⟨s', fun l => (slot_eq_some.mp hs').1, ?_⟩)
          obtain rfl : s = a := Option.some.inj (hs.symm.trans ha)
          exact InStep.bind (update_inStep hπ hss (tame_depNum (· - 1)))
            (fun _ _ _ => deleteSrcs_inStep hπ hss hn) e c h

theorem regPrecs_inStep (hπ : BiUnique π) {l l' : List Entry} (h : List.Forall₂ (SameEntry π) l l')
    (hl : Sourced good l) : ∀ {precs precs' : List NodePtr}, List.Forall₂ π precs precs' →
      InStep bufJournal (Steady π good) (List.Forall₂ π) (regPrecs l precs)
        (regPrecs l' precs') := by
  induction h with
  | nil => exact fun hprecs => .pure hprecs
  | @cons me me' rest rest' hme _ ih =>
      intro precs precs' hprecs
      obtain ⟨hfirst, hrest⟩ := List.forall_mem_cons.mp hl
      obtain ⟨s, sport, gain⟩ := me
      obtain ⟨s', sport', gain'⟩ := me'
      cases hme.src with
      | none => exact ih hrest hprecs
      | some hss =>
          refine .bind (debug_check_node_inStep hπ hss) fun _ _ _ => .bind (load_inStep hss)
            fun node node' ⟨hsame, _⟩ => .ite (by rw [hsame.type]) (.bind (update_inStep hπ hss
              (tame_type (f := (· ||| ksiNodeTypeScratchPredecessor))
                (mild_flag (by decide) (by decide))))
                fun _ _ _ => ih hrest (.cons hss hprecs)) (ih hrest hprecs)

theorem releasePrec_inStep (hπ : BiUnique π) (hpq : π p q) (id : Nat) :
    InStep bufJournal (Steady π good) Whatever (releasePrec id p) (releasePrec id q) :=
  .bind (update_inStep hπ hpq
    (tame_type (f := (· &&& ~~~ksiNodeTypeScratchPredecessor)) mild_unmark))
    fun _ _ _ => update_inStep hπ hpq (tame_successors (·.erase _))

theorem rel_flatMap {α β γ δ : Type} {R : α → β → Prop} {R' : γ → δ → Prop} {f : α → List γ}
    {g : β → List δ} (hfg : ∀ a b, R a b → List.Forall₂ R' (f a) (g b)) {l : List α} {l' : List β}
    (h : List.Forall₂ R l l') : List.Forall₂ R' (l.flatMap f) (l'.flatMap g) := by
  induction h with
  | nil => exact .nil
  | cons hab _ ih =>
      rw [List.flatMap_cons, List.flatMap_cons]
      exact List.rel_append (hfg _ _ hab) ih

/-- **A node is taken out.** -/
theorem impl_ksiEngineRemoveNode_replays (hπ : BiUnique π) (h : Steady π good e c)
    (hslots : SlotsLive e.graph) (id : Int) :
    Replays bufJournal (impl_ksiEngineRemoveNode id .editing)
      (impl_ksiEngineRemoveNode id .committing) e c
      fun n n' e' c' => Steady π good e' c' ∧ π n n' := by
  refine .bind ((checkInitialized_replays h).mono ?_)
  rintro _ _ e₁ c₁ ⟨rfl, rfl⟩
  refine .bind ((checkVec_replays h hslots id _).mono ?_)
  rintro n n' e₂ c₂ ⟨rfl, rfl, -, hn⟩
  refine .bind (.modify ⟨(List.append_nil _).symm, (List.append_nil _).symm⟩ (fun _ => rfl) ?_)
  refine InStep.bind (load_inStep hn) (fun node node' ⟨hsame, _⟩ => ?_) _ _ (h.delete id.toNat)
  rw [hsame.successors]
  refine .bind (.forEach (fun loc _ heq => ?_) (forall₂_same _)) fun _ _ _ => .bind (load_inStep hn)
    fun node₁ node₁' ⟨hsame₁, htracked₁⟩ => ?_
  · subst heq
    exact releaseSuccessor_inStep hπ hn loc
  have hsourced : Sourced good (node₁.inputs.flatMap (·.entries)) := by
    intro me hme
    obtain ⟨input, hinput, hme⟩ := List.mem_flatMap.mp hme
    exact htracked₁ input hinput me hme
  refine .bind (regPrecs_inStep hπ (rel_flatMap (fun _ _ hio => hio.entries) hsame₁.inputs)
    hsourced .nil)
    fun precs precs' hprecs => ?_
  rw [hsame₁.id]
  refine .bind (.forEach (f := releasePrec _) (g := releasePrec _)
    (fun _ _ hpq => releasePrec_inStep hπ hpq _) hprecs) fun _ _ _ =>
    .bind (load_inStep hn) fun node₂ node₂' ⟨hsame₂, _⟩ =>
      .bind (.when ?_ (setFinalNode_inStep .none))
      fun _ _ _ => .pure hn
  unfold KsiNode.isFinal
  rw [hsame₂.type]

/-- What the search leaves is the same on both sides, and has no new source. -/
structure SameFound (π : NodePtr → NodePtr → Prop) (good : NodePtr → Prop)
    (r r' : List Entry × Nat × Bool) : Prop where
  entries : List.Forall₂ (SameEntry π) r.1 r'.1
  sourced : Sourced good r.1
  found : r'.2 = r.2

theorem unwire_inStep (hπ : BiUnique π) (hsrc : π src src') (srcPort : Int) {l l' : List Entry}
    (h : List.Forall₂ (SameEntry π) l l') (hl : Sourced good l) : ∀ (foundEntries : Nat)
      (deleted : Bool), InStep bufJournal (Steady π good) (SameFound π good)
        (unwire src srcPort l foundEntries deleted)
        (unwire src' srcPort l' foundEntries deleted) := by
  induction h with
  | nil => exact fun _ _ => .pure ⟨.nil, hl, rfl⟩
  | @cons me me' rest rest' hme hrel ih =>
      intro foundEntries deleted
      obtain ⟨hfirst, hrest⟩ := List.forall_mem_cons.mp hl
      have hcons : ∀ r r', SameFound π good r r' →
          SameFound π good (me :: r.1, r.2.1, r.2.2) (me' :: r'.1, r'.2.1, r'.2.2) := by
        rintro r r' ⟨hentries, hsourced, hfound⟩
        exact ⟨.cons hme hentries, List.forall_mem_cons.mpr ⟨hfirst, hsourced⟩, hfound⟩
      unfold unwire
      by_cases hfrom : me.src = some src
      · rw [if_pos hfrom, if_pos ((hme.src_iff hπ hsrc).mp hfrom)]
        refine .bind (debug_check_node_inStep hπ hsrc) fun _ _ _ => ?_
        refine .ite (by rw [hme.srcPort]) (.ite Iff.rfl (.pure ⟨hrel, hrest, rfl⟩) (ih hrest _ _))
          (.ite Iff.rfl (.pure ⟨.cons hme hrel, hl, rfl⟩)
            (.bind (ih hrest _ _) fun r r' hr => .pure (hcons r r' hr)))
      · rw [if_neg hfrom, if_neg fun hfrom' => hfrom ((hme.src_iff hπ hsrc).mpr hfrom')]
        exact .bind (ih hrest _ _) fun r r' hr => .pure (hcons r r' hr)

/-- **A wire is removed.** -/
theorem impl_ksiEngineRemoveWire_replays (hπ : BiUnique π) (h : Steady π good e c)
    (hslots : SlotsLive e.graph)
    (srcId srcPort desId desPort : Int) :
    Replays bufJournal (impl_ksiEngineRemoveWire srcId srcPort desId desPort .editing)
      (impl_ksiEngineRemoveWire srcId srcPort desId desPort .committing) e c
      fun _ _ e' c' => Steady π good e' c' ∧ Whatever () () := by
  refine .bind ((checkInitialized_replays h).mono ?_)
  rintro _ _ e₁ c₁ ⟨rfl, rfl⟩
  refine .bind ((checkVec_replays h hslots srcId _).mono ?_)
  rintro src src' e₂ c₂ ⟨rfl, rfl, -, hsrc⟩
  refine .bind ((checkVec_replays h hslots desId _).mono ?_)
  rintro des des' e₃ c₃ ⟨rfl, rfl, -, hdes⟩
  refine InStep.bind (load_inStep hsrc) (fun srcNode srcNode' ⟨hnode, _⟩ => ?_) _ _ h
  refine .bind (.require (by rw [hnode.outputs])) fun _ _ _ => .bind (checkDesPort_inStep hdes _ _)
    fun type _ heq => ?_
  subst heq
  refine .bind (loadInput_inStep hdes _) fun input input' ⟨hinput, hsourced⟩ =>
    .bind (unwire_inStep hπ hsrc srcPort hinput.entries hsourced 0 false) fun r r' hr => ?_
  obtain ⟨entries, foundEntries, deleted⟩ := r
  obtain ⟨entries', foundEntries', deleted'⟩ := r'
  obtain ⟨hentries, hleft, hfound⟩ := hr
  cases hfound
  refine .bind (update_inStep hπ hdes
    (tame_updateEntries _ (fun _ _ _ => hentries) fun _ _ => hleft))
    fun _ _ _ => .bind (.when Iff.rfl ?_) fun _ _ _ =>
      .ite Iff.rfl (refreshCopying_inStep hπ hdes _) .error
  refine .bind (load_inStep hdes) fun desNode desNode' ⟨hdesNode, _⟩ => ?_
  rw [hdesNode.id]
  exact .bind (update_inStep hπ hsrc (tame_successors (·.erase _))) fun _ _ _ =>
    update_inStep hπ hdes (tame_depNum (· - 1))

/-! ### Giving up ports and nodes -/

theorem impl_delete_env_inStep (hpq : π p q) (i : Nat) :
    InStep bufJournal (Steady π good) Whatever (impl_delete_env p .editing i)
      (impl_delete_env q .committing i) := by
  intro e c h
  refine .bind ((loadInput_replays h hpq i).mono ?_)
  rintro input input' e' c' ⟨rfl, rfl, ⟨node, hnode, hinput⟩, hsame, -⟩
  refine .ite (by rw [hsame.type]) (fun _ => .pure ⟨h, trivial⟩) fun hevent => ?_
  have hsignal : node.HasSignal i := by
    refine ⟨input.type, ?_, Bool.eq_false_iff.mpr hevent⟩
    rw [List.getElem?_map, hinput]
    rfl
  refine .bind ((readEnv_replays h hpq hnode hsignal).mono ?_)
  rintro v _ e'' c'' ⟨rfl, rfl, rfl⟩
  exact free_inStep _ _ _ h

/-- The wiring is left alone. -/
theorem free_keeps {P : Graph → Prop} (ptr : Option BufPtr) :
    Keeps (fun e => P e.graph) (ksiMVCCDeferredFree ptr .editing) :=
  fun s h => (free_quiet (absurd trivial) ptr s).wp fun _ s' hs' => show P s'.graph by rwa [hs']

theorem impl_delete_env_keeps {P : Graph → Prop} (p : NodePtr) (i : Nat) :
    Keeps (fun e => P e.graph) (impl_delete_env p .editing i) := by
  have hK := keeps_compositional (P := (· ≠ KsiError.ksiErrorNone)) fun e : Engine => P e.graph
  exact hK.bind (hK.read _) fun _ => hK.ite (hK.pure ()) (hK.bind (hK.read _) fun _ => free_keeps _)

/-- The node is live and of this shape. -/
def OfShape (p : NodePtr) (shape : Bool × Nat × List PortType) (g : Graph) : Prop :=
  ∃ node, g.heap p = some node ∧ node.shape = shape

/-- The pair goes together, and the node is of this shape. -/
abbrev SteadyAt (π : NodePtr → NodePtr → Prop) (good : NodePtr → Prop) (p : NodePtr)
    (shape : Bool × Nat × List PortType) (e c : Engine) : Prop :=
  Steady π good e c ∧ OfShape p shape e.graph

variable {shape : Bool × Nat × List PortType}

theorem delete_envs_inStep (hpq : π p q) (l : List Nat) :
    InStep bufJournal (SteadyAt π good p shape) Whatever (forEach l (impl_delete_env p .editing))
      (forEach l (impl_delete_env q .committing)) := by
  refine .forEach (fun i _ heq => ?_) (forall₂_same l)
  subst heq
  exact (impl_delete_env_inStep hpq i).keeps (impl_delete_env_keeps p i)

/-- The outputs of a normal node. -/
theorem delete_outputs_inStep (hpq : π p q) (l : List Nat) :
    InStep bufJournal (SteadyAt π good p shape) Whatever
      (Prog.when (shape.1 = true) (forEach l (impl_delete_output p .editing)))
      (Prog.when (shape.1 = true) (forEach l (impl_delete_output q .committing))) := by
  by_cases hnormal : shape.1 = true
  case neg =>
    unfold Prog.when
    rw [if_neg hnormal, if_neg hnormal]
    exact .pure trivial
  refine .when Iff.rfl (.forEach (fun i _ heq => ?_) (forall₂_same l))
  subst heq
  rintro e c ⟨h, node, hnode, hshape⟩
  refine .bind ((loadOutput_replays h hpq fun node' hnode' => ?_).mono ?_)
  · obtain rfl : node = node' := Option.some.inj (hnode.symm.trans hnode')
    rw [← hnormal, ← hshape]
    rfl
  · rintro b _ e' c' ⟨rfl, rfl, rfl⟩
    exact (free_inStep b).keeps (free_keeps b) _ _ ⟨h, node, hnode, hshape⟩

theorem rel_filter {α β : Type} {R : α → β → Prop} {f : α → Bool} {g : β → Bool} {o : Option α}
    {o' : Option β} (h : Option.Rel R o o') (hfg : ∀ a b, R a b → f a = g b) :
    Option.Rel R (o.filter f)
      (o'.filter g) := by
  cases h with
  | none => exact .none
  | some hab =>
      rw [Option.filter_some, Option.filter_some, hfg _ _ hab]
      split
      · exact .some hab
      · exact .none

/-- Both nodes are freed. -/
theorem Paired.free (hπ : BiUnique π) (h : Paired π good ex e c) (hpq : π p q) :
    Paired π good ex
      { e with graph := { e.graph with heap := Function.update e.graph.heap p none } }
      { c with graph := { c.graph with heap := Function.update c.graph.heap q none } } := by
  have hold : ∀ p' node, Function.update e.graph.heap p none p' = some node →
    e.graph.heap p' = some node := by
    intro p' node hp'
    rw [Function.update_apply] at hp'
    split at hp'
    · cases hp'
    · exact hp'
  constructor
  case playing => exact h.playing
  case framesPerBuffer => exact h.framesPerBuffer
  case resources => exact h.resources
  case size => exact h.size
  case freelist => exact h.freelist
  case slots =>
    intro i
    have hslot : ∀ (g : Graph) (r : NodePtr),
      Graph.slot { g with heap := Function.update g.heap r none } i =
        (g.slot i).filter (· ≠ r) := by
      intro g r
      unfold Graph.slot
      rw [Option.filter_filter]
      congr 1
      funext s
      by_cases hs : s = r <;> simp [hs]
    rw [hslot, hslot]
    exact rel_filter (h.slots i) fun p' q' hpq' =>
      decide_eq_decide.mpr (not_congr (pair_iff hπ hpq' hpq))
  case finalNode => exact h.finalNode
  case next => exact h.next
  case given => exact h.given
  case given' => exact h.given'
  case fresh => exact h.fresh
  case heap =>
    intro p' q' hpq'
    have hiff := pair_iff hπ hpq' hpq
    show Option.Rel _ (Function.update e.graph.heap p none p')
      (Function.update c.graph.heap q none q')
    by_cases heq : p' = p
    · rw [heq, hiff.mp heq, Function.update_self, Function.update_self]
      exact .none
    · rw [Function.update_of_ne heq, Function.update_of_ne fun hq => heq (hiff.mpr hq)]
      exact h.heap p' q' hpq'
  case env => exact fun p' q' node j hpq' hp' => h.env p' q' node j hpq' (hold p' node hp')
  case output => exact fun p' q' node j hpq' hp' => h.output p' q' node j hpq' (hold p' node hp')
  case sound => exact fun p' node hg hp' => h.sound p' node hg (hold p' node hp')
  case tracked => exact fun p' node hp' => h.tracked p' node (hold p' node hp')

/-- **A node is destroyed**, with the buffers that are its own. -/
theorem ksiEngineDestroyNode_inStep (hπ : BiUnique π) (hpq : π p q) :
    InStep bufJournal (Steady π good) Whatever (ksiEngineDestroyNode p .editing)
      (ksiEngineDestroyNode q .committing) := by
  intro e c h
  refine .bind ((load_replays h hpq).mono ?_)
  rintro node node' e' c' ⟨rfl, rfl, hnode, hsame⟩
  have hnormal : node'.isNormal = node.isNormal := shape_isNormal hsame.shape
  rw [hsame.inputs.length_eq, hsame.outputs, hnormal]
  refine .bind ((delete_envs_inStep hpq _ _ _ ⟨h, node, hnode, rfl⟩).mono fun _ _ e₁ c₁ ⟨h₁, _⟩ =>
    .bind ((delete_outputs_inStep hpq _ _ _ h₁).mono fun _ _ e₂ c₂ ⟨⟨h₂, _⟩, _⟩ => ?_))
  exact .modify ⟨(List.append_nil _).symm, (List.append_nil _).symm⟩ (fun _ => rfl)
    ⟨h₂.free hπ hpq, trivial⟩

end Ksi.Dag

/-
RemoveWire and DetachNodes in a consistent graph.

Both take entries of one node away, and both take the two nodes apart: the destination
leaves the successor list of the source and is counted down.  A graph stays consistent if
that happens exactly when the last wire between the two goes.  RemoveWire looks for
another wire on the port of the one that it removes, and on no other port; DetachNodes
does not look at all.  So each is right where its guess is, and that is when it is.
-/
import Ksi.Proofs.Dag.Remove
import Ksi.Proofs.Dag.Unwire

namespace Ksi.Dag

open Prog Runs

variable {s s' : Engine} {g g' : Graph} {p q src des : NodePtr} {i : Nat} {flag : Flag}
  {srcId srcPort desId desPort : Int} {node srcNode desNode : KsiNode} {input : InputPort}
  {inputs : List InputPort}

/-! ### Fewer wires -/

theorem PortOk.sublist {entries : List Entry} (h : PortOk g input)
    (hsub : entries.Sublist input.entries) : PortOk g { input with entries := entries } :=
  ⟨fun e he => h.wires e (hsub.subset he), fun e he => h.biases e (hsub.subset he),
    h.nodup.sublist (hsub.map Entry.key)⟩

theorem KsiNode.dropSrc_preds (src : NodePtr) (n : KsiNode) :
    (n.dropSrc src).preds = n.preds.erase src := by
  ext q
  rw [Finset.mem_erase]
  show q ∈ (n.forget src 0).preds ↔ _
  exact KsiNode.mem_forget_preds

/-- What becomes of a node when `des`, whose id is `id`, gets other input ports, and is taken
apart from `src` if `apart`. -/
def KsiNode.parted (src des : NodePtr) (id : Nat) (inputs : List InputPort) (apart : Bool)
    (q : NodePtr) (node : KsiNode) : KsiNode :=
  { node with
    inputs := if q = des then inputs else node.inputs
    successors := if q = src ∧ apart then node.successors.erase id else node.successors
    depNum := if q = des ∧ apart then node.depNum - 1 else node.depNum }

theorem KsiNode.parted_preds {id : Nat} {apart : Bool} :
    (node.parted src des id inputs apart q).preds =
    if q = des then ({ node with inputs := inputs } : KsiNode).preds else node.preds := by
  split
  · exact preds_congr (if_pos ‹_›)
  · exact preds_congr (if_neg ‹_›)

/-- **Taken apart at the right time**: a graph whose node `des` has lost entries is consistent
if `src` and `des` are taken apart exactly when the last wire between them is gone. -/
theorem Consistent.parted (h : Consistent g) (hdes : g.heap des = some desNode)
    (hmem : src ∈ desNode.preds) (apart : Bool) (hok : ∀ port ∈ inputs, PortOk g port)
    (hpreds : ({ desNode with inputs := inputs } : KsiNode).preds =
      if apart then desNode.preds.erase src else desNode.preds) :
    Consistent (g.mapNodes (KsiNode.parted src des desNode.id inputs apart)) := by
  have hat : ∀ q m, g.heap q = some m → (m.id = desNode.id ↔ q = des) := by
    intro q m hq
    refine ⟨fun heq => h.id_inj hq hdes heq, fun heq => ?_⟩
    subst heq
    exact congrArg KsiNode.id (Option.some.inj (hq.symm.trans hdes))
  -- what a node has lost
  have hsucc : ∀ q m, g.heap q = some m → ∀ k,
      k ∈ (m.parted src des desNode.id inputs apart q).successors ↔
        ¬ (q = src ∧ apart = true ∧ k = desNode.id) ∧ k ∈ m.successors := by
    intro q m hq k
    unfold KsiNode.parted
    dsimp only
    by_cases hqs : q = src ∧ apart = true
    · rw [if_pos hqs, (h.nodup q m hq).mem_erase_iff]
      simp [hqs.1, hqs.2]
    · rw [if_neg hqs]
      exact (and_iff_right fun hlost => hqs ⟨hlost.1, hlost.2.1⟩).symm
  have hpred : ∀ q m, g.heap q = some m → ∀ p,
      p ∈ (m.parted src des desNode.id inputs apart q).preds ↔
        ¬ (q = des ∧ apart = true ∧ p = src) ∧ p ∈ m.preds := by
    intro q m hq p
    rw [KsiNode.parted_preds]
    by_cases hqd : q = des
    · subst hqd
      obtain rfl : desNode = m := Option.some.inj (hdes.symm.trans hq)
      rw [if_pos rfl, hpreds]
      cases apart with
      | false => simp
      | true => simp
    · rw [if_neg hqd]
      exact (and_iff_right fun hlost => hqd hlost.1).symm
  constructor
  case slots =>
    intro i q hq
    obtain ⟨m, hm, hid⟩ := h.slots i q hq
    exact ⟨_, Graph.mapNodes_of_heap hm, hid⟩
  case named =>
    intro q m' hq
    obtain ⟨m, hm, rfl⟩ := Option.map_eq_some_iff.mp hq
    exact h.named q m hm
  case ports =>
    intro q m' hq port hport
    obtain ⟨m, hm, rfl⟩ := Option.map_eq_some_iff.mp hq
    have hold : PortOk g port := by
      unfold KsiNode.parted at hport
      dsimp only at hport
      split at hport
      · exact hok port hport
      · exact h.ports q m hm port hport
    exact hold.of_outputs fun r n hn _ => ⟨_, Graph.mapNodes_of_heap hn, rfl⟩
  case successors =>
    intro q m' hq r n' hr
    obtain ⟨m, hm, rfl⟩ := Option.map_eq_some_iff.mp hq
    obtain ⟨n, hn, rfl⟩ := Option.map_eq_some_iff.mp hr
    rw [hsucc q m hm, hpred r n hn]
    show ¬ (q = src ∧ apart = true ∧ n.id = desNode.id) ∧ n.id ∈ m.successors ↔ _
    rw [hat r n hn, h.successors q m hm r n hn]
    exact and_congr_left' (not_congr ⟨fun ⟨a, b, c⟩ => ⟨c, b, a⟩, fun ⟨a, b, c⟩ => ⟨c, b, a⟩⟩)
  case successorsLive =>
    intro q m' hq d hd
    obtain ⟨m, hm, rfl⟩ := Option.map_eq_some_iff.mp hq
    obtain ⟨r, n, hn, hid⟩ := h.successorsLive q m hm d ((hsucc q m hm d).mp hd).2
    exact ⟨r, _, Graph.mapNodes_of_heap hn, hid⟩
  case nodup =>
    intro q m' hq
    obtain ⟨m, hm, rfl⟩ := Option.map_eq_some_iff.mp hq
    unfold KsiNode.parted
    dsimp only
    split
    · exact (h.nodup q m hm).erase _
    · exact h.nodup q m hm
  case depNum =>
    intro q m' hq
    obtain ⟨m, hm, rfl⟩ := Option.map_eq_some_iff.mp hq
    have hdep := h.depNum q m hm
    rw [KsiNode.parted_preds]
    unfold KsiNode.parted
    dsimp only
    by_cases hqd : q = des
    · subst hqd
      obtain rfl : desNode = m := Option.some.inj (hdes.symm.trans hm)
      rw [if_pos rfl, hpreds]
      cases apart with
      | false => simpa using hdep
      | true =>
          have hcard := Finset.card_erase_add_one hmem
          simp only [and_true, if_true, hdep]
          omega
    · rw [if_neg hqd, if_neg fun hq => hqd hq.1]
      exact hdep

/-! ### DetachNodes -/

/-- What DetachNodes is to do: the wires between the two nodes go, and nothing else. -/
structure Detached (g g' : Graph) (src des : NodePtr) (desId : Nat) : Prop where
  /-- no input port of `des` has an entry from `src` -/
  unwired : ∀ m, g'.heap des = some m → src ∉ m.preds
  /-- `des` is no successor of `src` -/
  unlisted : ∀ m, g'.heap src = some m → desId ∉ m.successors
  /-- the predecessors of `des` are counted -/
  counted : ∀ m, g'.heap des = some m → m.depNum = m.preds.card
  /-- every other entry, successor and count stays -/
  kept : ∃ depNum, g' = g.mapNodes fun q m => { m with
    inputs := if q = des then m.inputs.map (·.without src) else m.inputs
    successors := if q = src then m.successors.erase desId else m.successors
    depNum := if q = des then depNum else m.depNum }

theorem Graph.part_eq (hdes : g.heap des = some desNode) (id : Nat) : g.part src des id =
    g.mapNodes (KsiNode.parted src des id (desNode.inputs.map (·.without src)) true) := by
  refine ext_heap rfl rfl rfl fun q => ?_
  unfold part KsiNode.parted
  rw [heap_update, heap_update, heap_mapNodes]
  by_cases hqd : q = des
  · subst hqd
    rw [hdes]
    by_cases hqs : q = src <;> simp [hqs, KsiNode.dropSrc]
  · by_cases hqs : q = src
    · subst hqs
      simp [hqd]
    · simp [hqd, hqs]

section Detach

variable {d : Prop} (h : Consistent s.graph) (hplaying : s.playing ≠ -2)
  (hsrcId : s.graph.nodes.check srcId = some (some src))
  (hdesId : s.graph.nodes.check desId = some (some des))
include h hplaying hsrcId hdesId

theorem impl_ksiEngineDetachNodes_wp (hflag : ¬ d → flag = .editing) :
    wp d (impl_ksiEngineDetachNodes srcId desId flag) s
      (fun _ s' => s'.graph = s.graph.part src des desId.toNat) fun _ _ => False := by
  obtain ⟨srcNode, hsrc, -⟩ := h.slots _ _ (KsiVec.check_some hsrcId).1
  obtain ⟨desNode, hdes, -⟩ := h.slots _ _ (KsiVec.check_some hdesId).1
  rw [impl_ksiEngineDetachNodes_eq, wp_bind, wp_checkInitialized]
  refine ⟨fun _ => ?_, fun hno => hplaying hno⟩
  rw [wp_bind, wp_checkVec, hsrcId]
  refine ⟨nofun, nofun, fun src' hsrc' => ?_⟩
  obtain rfl : src = src' := by simpa using hsrc'
  rw [wp_bind, wp_checkVec, hdesId]
  refine ⟨nofun, nofun, fun des' hdes' => ?_⟩
  obtain rfl : des = des' := by simpa using hdes'
  exact detachRest_wp hflag hsrc hdes (fun _ input hinput => h.entriesLive.followable hdes hinput
    fun _ he => (List.mem_filter.mp he).1) fun _ _ hs' => hs'

/-- **DetachNodes does what it is to do** exactly where a wire joins the two nodes.  It
returns in any case. -/
theorem detached_iff_wired :
    (∃ s', impl_ksiEngineDetachNodes srcId desId .editing s = some (.ok (), s')) ∧
    ∀ flag r s', impl_ksiEngineDetachNodes srcId desId flag s = some (r, s') →
      (r = .ok () ∧ Detached s.graph s'.graph src des desId.toNat ↔
        ∃ m, s.graph.heap des = some m ∧ src ∈ m.preds) := by
  obtain ⟨desNode, hdes, hid⟩ := h.slots _ _ (KsiVec.check_some hdesId).1
  constructor
  · obtain ⟨r, s', hrun, hok, herr⟩ :=
      exists_of_wp (impl_ksiEngineDetachNodes_wp h hplaying hsrcId hdesId fun _ => rfl)
    cases r with
    | error err => exact (herr err rfl).elim
    | ok u => exact ⟨s', hrun⟩
  intro flag r s' hrun
  have hwp : wp True (impl_ksiEngineDetachNodes srcId desId flag) s
      (fun _ s' => s'.graph = s.graph.part src des desId.toNat) fun _ _ => False :=
    impl_ksiEngineDetachNodes_wp h hplaying hsrcId hdesId (absurd trivial)
  cases r with
  | error err => exact (of_wp_error hwp hrun).elim
  | ok u =>
  have hs' := (of_wp_ok hwp hrun).trans (Graph.part_eq hdes desId.toNat)
  have hat : s'.graph.heap des = some (desNode.parted src des desId.toNat
      (desNode.inputs.map (·.without src)) true des) := by
    rw [hs', Graph.heap_mapNodes, hdes]
    rfl
  have hpreds :
    (desNode.parted src des desId.toNat (desNode.inputs.map (·.without src)) true des).preds =
      desNode.preds.erase src := by
    rw [KsiNode.parted_preds, if_pos rfl]
    exact KsiNode.dropSrc_preds src desNode
  have hcount :
    (desNode.parted src des desId.toNat (desNode.inputs.map (·.without src)) true des).depNum =
      desNode.depNum - 1 := if_pos ⟨rfl, rfl⟩
  have hdep := h.depNum des desNode hdes
  constructor
  · rintro ⟨-, hdetached⟩
    refine ⟨desNode, hdes, by_contra fun hmem => ?_⟩
    -- without a wire the count is one too low
    have hcounted := hdetached.counted _ hat
    rw [hpreds, hcount, Finset.erase_eq_of_notMem hmem] at hcounted
    omega
  · rintro ⟨m, hm, hmem⟩
    obtain rfl : desNode = m := Option.some.inj (hdes.symm.trans hm)
    refine ⟨rfl, fun m hm => ?_, fun m hm => ?_, fun m hm => ?_, desNode.depNum - 1, ?_⟩
    · obtain rfl := Option.some.inj (hat.symm.trans hm)
      rw [hpreds]
      exact Finset.notMem_erase src _
    · rw [hs'] at hm
      obtain ⟨srcNode, hsrc, rfl⟩ := Option.map_eq_some_iff.mp hm
      show _ ∉ if src = src ∧ true = true then srcNode.successors.erase _ else _
      rw [if_pos ⟨rfl, rfl⟩]
      exact fun hlisted => ((h.nodup src srcNode hsrc).mem_erase_iff.mp hlisted).1 rfl
    · obtain rfl := Option.some.inj (hat.symm.trans hm)
      have hcard := Finset.card_erase_add_one hmem
      rw [hpreds, hcount]
      omega
    · rw [hs']
      refine Graph.mapNodes_congr fun q k hk => ?_
      unfold KsiNode.parted
      by_cases hqd : q = des
      · subst hqd
        obtain rfl : desNode = k := Option.some.inj (hdes.symm.trans hk)
        simp
      · simp [hqd]

end Detach

/-- Two Id nodes. -/
def twoNodes : List Call := [.addNode 0x10000, .addNode 0x10000]

/-- A new node once it has been wired: what it counts and lists, and its input ports. -/
def wiredNode (typeFlags : BitVec 32) (id : Nat) (depNum : Int) (successors : List Nat)
    (inputs : List (List Entry)) : KsiNode where
  depNum := depNum
  successors := successors
  id := id
  type := typeFlags
  inputs := inputs.map fun entries => { type := 0, entries := entries }
  outputs := [0]

/-- The wire from output port 0 of the first node. -/
def unitWire : Entry := { src := some 0, srcPort := 0, gain := 0x3F800000 }

/-- An Id node wired to another one. -/
def wiredPair : List Call := twoNodes ++ [.makeWire 0 0 1 0 0x3F800000]

theorem run_wiredPair : ∃ s, run step (ksiEngineInit 64) wiredPair = some s ∧ Consistent s.graph ∧
    s.playing ≠ -2 ∧ Ports s.graph 0 0 1 0 0 1
      (wiredNode 0x10000 0 0 [1] [[]]) (wiredNode 0x10000 1 1 [] [[unitWire]])
      { type := 0, entries := [unitWire] } := by
  obtain ⟨s, hs, h⟩ := Coherent.run wiredPair (s := ksiEngineInit 64) .empty (by decide)
  have hobs : (run step (ksiEngineInit 64) wiredPair).map (fun s => (s.playing,
      [s.graph.nodes.check 0, s.graph.nodes.check 1], [s.graph.heap 0, s.graph.heap 1])) =
      some (0, [some (some 0), some (some 1)],
        [some (wiredNode 0x10000 0 0 [1] [[]]), some (wiredNode 0x10000 1 1 [] [[unitWire]])]) := by
    decide +kernel
  rw [hs] at hobs
  simp only [Option.map_some, Option.some.injEq, Prod.mk.injEq, List.cons.injEq] at hobs
  obtain ⟨hplaying, ⟨h0, h1, -⟩, hsrc, hdes, -⟩ := hobs
  exact ⟨s, hs, h.toConsistent, by rw [hplaying]; decide, h0, h1, hsrc, hdes, by decide, rfl⟩

theorem detached_wiredPair : ∃ s s', run step (ksiEngineInit 64) wiredPair = some s ∧
    impl_ksiEngineDetachNodes 0 1 .editing s = some (.ok (), s') ∧
    Detached s.graph s'.graph 0 1 1 := by
  obtain ⟨s, hs, h, hplaying, hports⟩ := run_wiredPair
  have hdetach := detached_iff_wired h hplaying hports.srcId hports.desId
  obtain ⟨s', hs'⟩ := hdetach.1
  exact ⟨s, s', hs, hs', ((hdetach.2 _ _ _ hs').mpr ⟨_, hports.atDes, by decide⟩).2⟩

/-- Nodes without a wire between them: the count falls to -1. -/
theorem not_detached : ¬ ∀ (s : Engine) (srcId desId : Int) (src des : NodePtr),
    Consistent s.graph →
    s.playing ≠ -2 → s.graph.nodes.check srcId = some (some src) →
    s.graph.nodes.check desId = some (some des) →
    ∃ s', impl_ksiEngineDetachNodes srcId desId .editing s = some (.ok (), s') ∧
      Detached s.graph s'.graph src des desId.toNat := by
  intro hclaim
  obtain ⟨s, hs, h⟩ := Coherent.run twoNodes (s := ksiEngineInit 64) .empty (by decide)
  have hobs : (run step (ksiEngineInit 64) twoNodes).map
    (fun s => (s.playing, s.graph.nodes.check 0,
      s.graph.nodes.check 1, (impl_ksiEngineDetachNodes 0 1 .editing s).map (·.2.graph.heap 1))) =
      some (0, some (some 0), some (some 1), some (some
        (wiredNode 0x10000 1 (-1) [] [[]]))) := by
    decide +kernel
  rw [hs] at hobs
  simp only [Option.map_some, Option.some.injEq, Prod.mk.injEq] at hobs
  obtain ⟨hplaying, h0, h1, hafter⟩ := hobs
  obtain ⟨s', hs', hdetached⟩ := hclaim s 0 1 0 1 h.toConsistent (by rw [hplaying]; decide) h0 h1
  rw [hs', Option.map_some, Option.some.injEq] at hafter
  have hcounted := hdetached.counted _ hafter
  exact absurd hcounted (by decide)

/-! ### RemoveWire -/

/-- What RemoveWire is to do: one entry goes, and the two nodes are taken apart if no other
entry is left of those that `des` has from `src`. -/
structure WireRemoved (g g' : Graph) (src : NodePtr) (srcPort : Int) (des : NodePtr)
    (desPort desId : Nat) : Prop where
  kept : ∃ apart : Bool, (apart = true ↔ ∀ m, g'.heap des = some m → src ∉ m.preds) ∧
    g' = g.mapNodes fun q m => { m with
      inputs := if q = des then (m.updateEntries desPort (·.filter (! ·.isFrom src srcPort))).inputs
        else m.inputs
      successors := if q = src ∧ apart then m.successors.erase desId else m.successors
      depNum := if q = des ∧ apart then m.depNum - 1 else m.depNum }
  consistent : Consistent g'

/-- The port of the wire tells whether the two nodes have another wire: it has one itself, or
no other port has one. -/
def ToldByPort (desNode : KsiNode) (src : NodePtr) (srcPort : Int) (desPort : Nat) : Prop :=
  (∃ port, desNode.inputs[desPort]? = some port ∧
    ∃ e ∈ port.entries, e.src = some src ∧ e.srcPort ≠ srcPort) ∨
  ∀ j port, j ≠ desPort → desNode.inputs[j]? = some port → ∀ e ∈ port.entries, e.src ≠ some src

/-- Once the wire is deleted, the search stops at another one from the same source. -/
theorem unwired_rest {srcPort : Int} : ∀ (entries : List Entry) (foundEntries : Nat),
    entries.any (·.isFrom src srcPort) = false →
      (unwired src srcPort entries foundEntries true).1 = entries ∧
      ((unwired src srcPort entries foundEntries true).2.1 = 0 ↔
        foundEntries = 0 ∧ ∀ e ∈ entries, e.src ≠ some src) := by
  intro entries
  induction entries with
  | nil => exact fun _ _ => ⟨rfl, by simp [unwired]⟩
  | cons me rest ih =>
      intro foundEntries habsent
      rw [List.any_cons, Bool.or_eq_false_iff] at habsent
      obtain ⟨hme, hrest⟩ := habsent
      unfold unwired
      by_cases hsrc : me.src = some src
      · have hport : ¬ me.srcPort = srcPort := by
          intro hport
          rw [(isFrom_iff me).mpr ⟨hsrc, hport⟩] at hme
          cases hme
        rw [if_pos hsrc, if_neg hport, if_pos rfl]
        simp [hsrc]
      · rw [if_neg hsrc]
        obtain ⟨hentries, hfound⟩ := ih foundEntries hrest
        exact ⟨congrArg (me :: ·) hentries, by simpa [hsrc] using hfound⟩

/-- **What the search finds** on a port that has the wire, once. -/
theorem unwired_once {srcPort : Int} : ∀ (entries : List Entry) (foundEntries : Nat),
    (entries.map Entry.key).Nodup → entries.any (·.isFrom src srcPort) = true →
      (unwired src srcPort entries foundEntries false).1 = entries.filter (! ·.isFrom src srcPort) ∧
      ((unwired src srcPort entries foundEntries false).2.1 = 0 ↔
        foundEntries = 0 ∧ ∀ e ∈ entries, e.src = some src → e.srcPort = srcPort) := by
  intro entries
  induction entries with
  | nil => exact fun _ _ h => absurd h (by simp)
  | cons me rest ih =>
      intro foundEntries hnodup hpresent
      rw [List.map_cons, List.nodup_cons] at hnodup
      obtain ⟨hnew, hnodup⟩ := hnodup
      rw [List.any_cons, Bool.or_eq_true] at hpresent
      unfold unwired
      by_cases hfrom : me.isFrom src srcPort = true
      · obtain ⟨hsrc, hport⟩ := (isFrom_iff me).mp hfrom
        -- the rest has no such wire
        have habsent : ∀ e ∈ rest, e.isFrom src srcPort = false := by
          intro e he
          by_contra hfrom'
          obtain ⟨hsrc', hport'⟩ := (isFrom_iff e).mp (by simpa using hfrom')
          refine hnew (List.mem_map.mpr ⟨e, he, ?_⟩)
          unfold Entry.key
          rw [hsrc, hsrc', hport, hport']
        have hkeep : rest.filter (! ·.isFrom src srcPort) = rest :=
          List.filter_eq_self.mpr fun e he => by simp [habsent e he]
        rw [if_pos hsrc, if_pos hport, List.filter_cons_of_neg (by simp [hfrom]), hkeep]
        split
        · rename_i hfound
          exact ⟨rfl, iff_of_false hfound fun h => hfound h.1⟩
        · have hnone : rest.any (·.isFrom src srcPort) = false := by simpa using habsent
          obtain ⟨hentries, hfound⟩ := unwired_rest rest foundEntries hnone
          refine ⟨hentries, hfound.trans (and_congr_right fun _ => ?_)⟩
          rw [List.forall_mem_cons]
          refine ⟨fun hno => ⟨fun _ => hport, fun e he hsrc' => absurd hsrc' (hno e he)⟩,
            fun hall e he hsrc' => ?_⟩
          have := (isFrom_iff e).mpr ⟨hsrc', hall.2 e he hsrc'⟩
          rw [habsent e he] at this
          cases this
      · have hrest := hpresent.resolve_left hfrom
        rw [List.filter_cons_of_pos (by simp [hfrom])]
        by_cases hsrc : me.src = some src
        · have hport : ¬ me.srcPort = srcPort :=
            fun hport => hfrom ((isFrom_iff me).mpr ⟨hsrc, hport⟩)
          rw [if_pos hsrc, if_neg hport, if_neg Bool.false_ne_true]
          obtain ⟨hentries, hfound⟩ := ih (foundEntries + 1) hnodup hrest
          refine ⟨congrArg (me :: ·) hentries, hfound.trans (iff_of_false (fun h => by omega) ?_)⟩
          exact fun h => hport (h.2 me List.mem_cons_self hsrc)
        · rw [if_neg hsrc]
          obtain ⟨hentries, hfound⟩ := ih foundEntries hnodup hrest
          refine ⟨congrArg (me :: ·) hentries, hfound.trans (and_congr_right fun _ => ?_)⟩
          rw [List.forall_mem_cons]
          exact (and_iff_right fun h => absurd h hsrc).symm

section Unwire

variable {d : Prop} (h : Consistent s.graph) (hplaying : s.playing ≠ -2)
  (hports : Ports s.graph srcId srcPort desId desPort src des srcNode desNode input)
  (hsignal : input.type.isEvent = false) (hentry : input.entries.any (·.isFrom src srcPort) = true)
include h hplaying hports hsignal hentry

theorem impl_ksiEngineRemoveWire_wp (hflag : ¬ d → flag = .editing) :
    wp d (impl_ksiEngineRemoveWire srcId srcPort desId desPort flag) s
      (fun _ s' => s'.graph = s.graph.unwire srcPort desPort src des desNode input)
      fun _ _ => False := by
  obtain ⟨hsrcId, hdesId, hsrc, hdes, hsrcPort, hinput⟩ := hports
  have hget := (nth_some hinput).1
  rw [impl_ksiEngineRemoveWire_eq, wp_bind, wp_checkInitialized]
  refine ⟨fun _ => ?_, fun hno => hplaying hno⟩
  rw [wp_bind, wp_checkVec, hsrcId]
  refine ⟨nofun, nofun, fun src' hsrc' => ?_⟩
  obtain rfl : src = src' := by simpa using hsrc'
  rw [wp_bind, wp_checkVec, hdesId]
  refine ⟨nofun, nofun, fun des' hdes' => ?_⟩
  obtain rfl : des = des' := by simpa using hdes'
  rw [wp_bind, wp_load, hsrc]
  refine ⟨nofun, fun srcNode' hsrc' => ?_⟩
  obtain rfl : srcNode = srcNode' := by simpa using hsrc'
  rw [wp_bind, wp_require]
  refine ⟨fun _ => ?_, fun hno => hno hsrcPort⟩
  rw [wp_bind, wp_checkDesPort, hdes]
  refine ⟨nofun, fun desNode' hdes' => ?_⟩
  obtain rfl : desNode = desNode' := by simpa using hdes'
  refine ⟨fun hno => hno (nth_some hinput).2.2, fun _ => ⟨fun hnone => (by simp [hinput] at hnone),
    fun input' hinput' => ?_⟩⟩
  obtain rfl : input = input' := Option.some.inj (hinput.symm.trans hinput')
  refine unwireRest_wp hflag hsrc hdes hget (fun _ => h.liveNamed src srcNode hsrc) (fun _ _ => ?_)
    (fun hno => ?_) fun _ _ _ _ hs' => hs'
  · refine h.entriesLive.followable hdes (List.mem_of_getElem? hget) fun e he => ?_
    have honce := (unwired_once input.entries 0
      (h.ports des desNode hdes input (List.mem_of_getElem? hget)).nodup hentry).1
    unfold InputPort.unwired at he
    rw [honce] at he
    exact (List.mem_filter.mp he).1
  · rcases hno with hevent | habsent
    · rw [hsignal] at hevent
      cases hevent
    · rw [hentry] at habsent
      cases habsent

omit hplaying hsignal in
/-- The graph after RemoveWire: whether the nodes are taken apart is told by the port. -/
theorem unwire_eq :
    ∃ apart : Bool, (apart = true ↔ ∀ e ∈ input.entries, e.src = some src → e.srcPort = srcPort) ∧
    s.graph.unwire srcPort desPort src des desNode input =
      s.graph.mapNodes (KsiNode.parted src des desNode.id
        (desNode.updateEntries desPort.toNat (·.filter (! ·.isFrom src srcPort))).inputs
          apart) := by
  obtain ⟨-, -, -, hdes, -, hinput⟩ := hports
  have hget := (nth_some hinput).1
  obtain ⟨hentries, hfound⟩ := unwired_once input.entries 0
    (h.ports des desNode hdes input (List.mem_of_getElem? hget)).nodup hentry
  have hdeleted := (unwired_of_present input.entries 0 hentry).2
  have hupdate : s.graph.update des (·.updateEntries desPort.toNat
      fun _ => (unwired src srcPort input.entries 0 false).1) =
      s.graph.update des (·.updateEntries desPort.toNat (·.filter (! ·.isFrom src srcPort))) := by
    refine Graph.update_congr fun n hn => ?_
    obtain rfl : desNode = n := Option.some.inj (hdes.symm.trans hn)
    exact KsiNode.updateEntries_congr hget hentries
  refine ⟨decide ((unwired src srcPort input.entries 0 false).2.1 = 0), by simpa using hfound, ?_⟩
  unfold Graph.unwire
  dsimp only
  rw [hupdate, hdeleted]
  by_cases hzero : (unwired src srcPort input.entries 0 false).2.1 = 0
  · rw [if_pos ⟨hzero, rfl⟩]
    refine Graph.ext_heap rfl rfl rfl fun q => ?_
    unfold Graph.unlink KsiNode.parted
    rw [Graph.heap_update, Graph.heap_update, Graph.heap_update, Graph.heap_mapNodes]
    by_cases hqd : q = des
    · subst hqd
      rw [hdes]
      by_cases hqs : q = src
      · subst hqs
        simp [hzero, KsiNode.updateEntries]
      · simp [hqs, hzero, KsiNode.updateEntries]
    · by_cases hqs : q = src
      · subst hqs
        simp [hqd, hzero]
      · simp [hqd, hqs]
  · rw [if_neg fun hboth => hzero hboth.1]
    refine Graph.ext_heap rfl rfl rfl fun q => ?_
    unfold KsiNode.parted
    rw [Graph.heap_update, Graph.heap_mapNodes]
    by_cases hqd : q = des
    · subst hqd
      rw [hdes]
      simp [hzero, KsiNode.updateEntries]
    · simp [hqd, hzero]

/-- **RemoveWire does what it is to do** exactly where the port of the wire tells whether the
nodes have another one.  It returns `ksiErrorNone` in any case. -/
theorem wireRemoved_iff_told :
    (∃ s', impl_ksiEngineRemoveWire srcId srcPort desId desPort .editing s = some (.ok (), s')) ∧
    ∀ flag r s', impl_ksiEngineRemoveWire srcId srcPort desId desPort flag s = some (r, s') →
      (r = .ok () ∧ WireRemoved s.graph s'.graph src srcPort des desPort.toNat desNode.id ↔
        ToldByPort desNode src srcPort desPort.toNat) := by
  constructor
  · obtain ⟨r, s', hrun, hok, herr⟩ :=
      exists_of_wp (impl_ksiEngineRemoveWire_wp h hplaying hports hsignal hentry fun _ => rfl)
    cases r with
    | error err => exact (herr err rfl).elim
    | ok u => exact ⟨s', hrun⟩
  intro flag r s' hrun
  have hwp : wp True (impl_ksiEngineRemoveWire srcId srcPort desId desPort flag) s
      (fun _ s' => s'.graph = s.graph.unwire srcPort desPort src des desNode input)
      fun _ _ => False :=
    impl_ksiEngineRemoveWire_wp h hplaying hports hsignal hentry (absurd trivial)
  cases r with
  | error err => exact (of_wp_error hwp hrun).elim
  | ok u =>
  obtain ⟨apart, hapart, heq⟩ := unwire_eq h hports hentry
  have hs' := (of_wp_ok hwp hrun).trans heq
  have hdes := hports.atDes
  have hget := (nth_some hports.hasInput).1
  have hin := List.mem_of_getElem? hget
  obtain ⟨e₀, he₀, hfrom₀⟩ := List.any_eq_true.mp hentry
  have hmem : src ∈ desNode.preds :=
    KsiNode.mem_preds.mpr ⟨input, hin, e₀, he₀, ((isFrom_iff e₀).mp hfrom₀).1⟩
  generalize hleft : desNode.updateEntries desPort.toNat (·.filter (! ·.isFrom src srcPort)) =
    left at hs'
  have hpreds : ∀ q, q ∈ left.preds ↔
    (∃ e ∈ input.entries.filter (! ·.isFrom src srcPort), e.src = some q) ∨
      ∃ j port, j ≠ desPort.toNat ∧ desNode.inputs[j]? = some port ∧ ∃ e ∈ port.entries,
        e.src = some q :=
    fun q => by rw [← hleft]; exact KsiNode.mem_preds_update hget
  have hother : ∀ q, q ≠ src → (q ∈ left.preds ↔ q ∈ desNode.preds) := by
    intro q hq
    rw [hpreds, KsiNode.mem_preds_port hget]
    refine or_congr_left ⟨fun ⟨e, he, hsrc⟩ => ⟨e, (List.mem_filter.mp he).1, hsrc⟩,
      fun ⟨e, he, hsrc⟩ =>
      ⟨e, List.mem_filter.mpr ⟨he, ?_⟩, hsrc⟩⟩
    have hno : e.isFrom src srcPort = false := by
      by_contra hfrom
      have := ((isFrom_iff e).mp (by simpa using hfrom)).1
      exact hq (Option.some.inj (hsrc.symm.trans this))
    rw [hno]
    rfl
  -- the port tells right if the nodes come apart exactly when no wire is left
  have htold : ToldByPort desNode src srcPort desPort.toNat ↔
    (apart = true ↔ src ∉ left.preds) := by
    have hport : (∃ e ∈ input.entries.filter (! ·.isFrom src srcPort), e.src = some src) ↔
        ∃ e ∈ input.entries, e.src = some src ∧ e.srcPort ≠ srcPort := by
      constructor
      · rintro ⟨e, he, hsrc⟩
        obtain ⟨he, hno⟩ := List.mem_filter.mp he
        refine ⟨e, he, hsrc, fun hport => ?_⟩
        rw [(isFrom_iff e).mpr ⟨hsrc, hport⟩] at hno
        cases hno
      · rintro ⟨e, he, hsrc, hport⟩
        refine ⟨e, List.mem_filter.mpr ⟨he, ?_⟩, hsrc⟩
        have hno : e.isFrom src srcPort = false := by
          by_contra hfrom
          exact hport ((isFrom_iff e).mp (by simpa using hfrom)).2
        rw [hno]
        rfl
    unfold ToldByPort
    rw [hapart, hpreds, hport, hget]
    simp only [Option.some.injEq, exists_eq_left', not_or, not_exists, not_and]
    grind
  rw [htold]
  have hinputs : ({ desNode with inputs := left.inputs } : KsiNode).preds = left.preds := rfl
  have hat :
    s'.graph.heap des = some (desNode.parted src des desNode.id left.inputs apart des) := by
    rw [hs', Graph.heap_mapNodes, hdes]
    rfl
  have hatPreds : (desNode.parted src des desNode.id left.inputs apart des).preds = left.preds := by
    rw [KsiNode.parted_preds, if_pos rfl, hinputs]
  have hleftPreds : left.preds = if src ∈ left.preds then desNode.preds
    else desNode.preds.erase src := by
    ext q
    by_cases hq : q = src
    · subst hq
      by_cases hq : q ∈ left.preds <;> simp [hq, hmem]
    · rw [hother q hq]
      split <;> simp [hq]
  have hcard := Finset.card_erase_add_one hmem
  constructor
  · rintro ⟨-, -, hconsistent⟩
    -- the count tells whether the nodes have been taken apart
    have hdep := hconsistent.depNum des _ hat
    rw [hatPreds, hleftPreds] at hdep
    have hcount : (desNode.parted src des desNode.id left.inputs apart des).depNum =
        if des = des ∧ apart = true then desNode.depNum - 1 else desNode.depNum := rfl
    have hdep₀ := h.depNum des desNode hdes
    rw [hcount] at hdep
    by_cases hmem' : src ∈ left.preds
    · rw [if_pos hmem'] at hdep
      refine iff_of_false (fun hap => ?_) (not_not_intro hmem')
      rw [if_pos ⟨rfl, hap⟩] at hdep
      omega
    · rw [if_neg hmem'] at hdep
      refine iff_of_true (by_contra fun hap => ?_) hmem'
      rw [if_neg fun hboth => hap hboth.2] at hdep
      omega
  · intro hright
    refine ⟨rfl, ⟨apart, ?_, ?_⟩, ?_⟩
    · rw [hright, hat]
      simp [hatPreds]
    · rw [hs']
      refine Graph.mapNodes_congr fun q m hm => ?_
      unfold KsiNode.parted
      by_cases hqd : q = des
      · subst hqd
        obtain rfl : desNode = m := Option.some.inj (hdes.symm.trans hm)
        rw [hleft]
      · simp [hqd]
    · rw [hs']
      refine h.parted hdes hmem apart (fun port hport => ?_) ?_
      · rw [← hleft] at hport
        obtain ⟨j, port', hj, rfl⟩ := KsiNode.mem_updateEntries hport
        have hok := h.ports des desNode hdes port' (List.mem_of_getElem? hj)
        split
        · exact hok.sublist List.filter_sublist
        · exact hok
      · rw [hinputs, hleftPreds]
        by_cases hmem' : src ∈ left.preds
        · rw [if_pos hmem', if_neg fun hap => hright.mp hap hmem']
        · rw [if_neg hmem', if_pos (hright.mpr hmem')]

end Unwire

/-- A wire to each of the two ports of a Modulator. -/
def twoPorts : List Call :=
  [.addNode 0x10000, .addNode 0x60000, .makeWire 0 0 1 0 0x3F800000, .makeWire 0 0 1 1 0x3F800000]

/-- The search looks at one port: the nodes are taken apart with a wire between them. -/
theorem not_wireRemoved : ¬ ∀ (s : Engine) (srcId srcPort desId desPort : Int) (src des : NodePtr)
    (srcNode desNode : KsiNode) (input : InputPort), Consistent s.graph → s.playing ≠ -2 →
    Ports s.graph srcId srcPort desId desPort src des srcNode desNode input →
    input.type.isEvent = false → input.entries.any (·.isFrom src srcPort) = true →
    ∃ s', impl_ksiEngineRemoveWire srcId srcPort desId desPort .editing s = some (.ok (), s') ∧
      WireRemoved s.graph s'.graph src srcPort des desPort.toNat desNode.id := by
  intro hclaim
  obtain ⟨s, hs, h⟩ := Coherent.run twoPorts (s := ksiEngineInit 64) .empty (by decide)
  have hobs : (run step (ksiEngineInit 64) twoPorts).map (fun s => (s.playing,
      [s.graph.nodes.check 0, s.graph.nodes.check 1], [s.graph.heap 0, s.graph.heap 1,
        (impl_ksiEngineRemoveWire 0 0 1 0 .editing s).bind (·.2.graph.heap 1)])) =
      some (0, [some (some 0), some (some 1)], [some (wiredNode 0x10000 0 0 [1] [[]]),
        some (wiredNode 0x60000 1 1 [] [[unitWire], [unitWire]]),
        some (wiredNode 0x60000 1 0 [] [[], [unitWire]])]) := by
    decide +kernel
  rw [hs] at hobs
  simp only [Option.map_some, Option.some.injEq, Prod.mk.injEq, List.cons.injEq] at hobs
  obtain ⟨hplaying, ⟨h0, h1, -⟩, hsrc, hdes, hafter, -⟩ := hobs
  obtain ⟨s', hs', hremoved⟩ := hclaim s 0 0 1 0 0 1 _ _ _ h.toConsistent (by rw [hplaying]; decide)
    ⟨h0, h1, hsrc, hdes, by decide, rfl⟩ (by decide) (by decide)
  rw [hs', Option.bind_some] at hafter
  have hcounted := hremoved.consistent.depNum _ _ hafter
  exact absurd hcounted (by decide)

theorem wireRemoved_wiredPair : ∃ s s', run step (ksiEngineInit 64) wiredPair = some s ∧
    impl_ksiEngineRemoveWire 0 0 1 0 .editing s = some (.ok (), s') ∧
    WireRemoved s.graph s'.graph 0 0 1 0 1 := by
  obtain ⟨s, hs, h, hplaying, hports⟩ := run_wiredPair
  have hremove := wireRemoved_iff_told h hplaying hports (by decide) (by decide)
  obtain ⟨s', hs'⟩ := hremove.1
  refine ⟨s, s', hs, hs', ((hremove.2 _ _ _ hs').mpr (.inr ?_)).2⟩
  -- there is one port only
  intro j port hj hget
  obtain ⟨hlt, -⟩ := List.getElem?_eq_some_iff.mp hget
  exact absurd (Nat.lt_one_iff.mp hlt) hj

end Ksi.Dag

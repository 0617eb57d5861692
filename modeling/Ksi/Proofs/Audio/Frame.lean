/-
What a worker's step does to the ports of the other nodes.

Mixing stores the dirty bits of a node's inputs, and its function those of its outputs.
A node that shares the array finds these bits in place of its own.  So a step leaves
the other nodes alone exactly if it stores, in an array that is shared, the bits that
are already there.
-/
import Ksi.Audio.Worker
import Ksi.Proofs.Audio.Protocol
import Ksi.Dag.Commit

namespace Ksi.Audio

open Ksi.Dag Prog

variable {c : Cycle} {m m' : Memory} {n q src : NodePtr} {node qnode : KsiNode} {i j : Nat}
  {p p' : Ports} {E : Empty → Memory → Prop}

/-! ### The bits -/

/-- `t & ksiNodePortIOMask`. -/
def io (t : PortType) : PortType := t &&& ksiNodePortIOMask

@[simp] theorem io_setDirty (t : PortType) : io (ksiNodePortIOSetDirty t) = ksiNodePortIODirty := by
  revert t
  decide

@[simp] theorem io_clear (t : PortType) : io (ksiNodePortIOClear t) = 0 := by
  revert t
  decide

theorem isDirty_eq_io (t : PortType) : isDirty t = isDirty (io t) := by
  revert t
  decide

/-- The type with the bit as `d` says. -/
def withIoBit (t : PortType) (d : Bool) : PortType :=
  if d then ksiNodePortIOSetDirty t else ksiNodePortIOClear t

theorem withIoBit_eq (t : PortType) (d : Bool) :
    (t &&& ~~~ksiNodePortIOMask) ||| (if d then ksiNodePortIODirty else 0) = withIoBit t d := by
  cases d <;> simp [withIoBit, ksiNodePortIOSetDirty, ksiNodePortIOClear]

/-- The bits of `t` are those of a port whose dirtiness is `d`. -/
def HasIoBit (t : PortType) (d : Bool) : Prop := io t = if d then ksiNodePortIODirty else 0

theorem io_withIoBit (t : PortType) (d : Bool) : HasIoBit (withIoBit t d) d := by
  cases d <;> simp [HasIoBit, withIoBit]

theorem io_withIoBit_iff (t : PortType) (d : Bool) : io (withIoBit t d) = io t ↔ HasIoBit t d := by
  rw [show io (withIoBit t d) = _ from io_withIoBit t d]
  exact eq_comm

/-! ### What mixing stores -/

/-- The entry is a wire from an output port whose dirty bit is set. -/
def Cycle.FromDirty (c : Cycle) (m : Memory) (e : Entry) : Prop :=
  ∃ src node, e.src = some src ∧ c.version.graph.heap src = some node ∧
    isDirty (m.types (outputTypes src node) e.srcPort.toNat) = true

/-- Input port `i` will be dirty: with a buffer of its own any wire counts, without one the
first. -/
def Cycle.MixesDirty (c : Cycle) (m : Memory) (n : NodePtr) (node : KsiNode) (i : Nat) : Prop :=
  ∃ input, node.inputs[i]? = some input ∧ ∃ e, c.FromDirty m e ∧
    if (c.version.env n i).buffer.isSome then e ∈ input.entries else input.entries.head? = some e

theorem inputTypes_ne_outputTypes : inputTypes n node ≠ outputTypes q qnode := by
  unfold inputTypes outputTypes
  split <;> split <;> simp

theorem Cycle.FromDirty.congr {e : Entry} (h : c.FromDirty m e)
    (hsame : ∀ src node j, m'.types (outputTypes src node) j = m.types (outputTypes src node) j) :
    c.FromDirty m' e := by
  obtain ⟨src, node, hsrc, hnode, hdirty⟩ := h
  exact ⟨src, node, hsrc, hnode, by rw [hsame]; exact hdirty⟩

theorem Cycle.mixesDirty_congr
    (hsame : ∀ src node j, m'.types (outputTypes src node) j = m.types (outputTypes src node) j) :
    c.MixesDirty m' n node i ↔ c.MixesDirty m n node i := by
  unfold Cycle.MixesDirty
  refine exists_congr fun input => and_congr_right fun _ => exists_congr fun e =>
    and_congr_left' ⟨fun h => h.congr fun src node j => (hsame src node j).symm,
      fun h => h.congr hsame⟩

theorem wp_sourceType {srcPort : Int} {Q : PortType → Memory → Prop}
    (hQ : ∀ node, c.version.graph.heap src = some node →
      Q (m.types (outputTypes src node) srcPort.toNat) m) :
    wp True (c.sourceType src srcPort) m Q E := by
  unfold Cycle.sourceType
  rw [wp_read]
  refine ⟨fun _ => trivial, fun t ht => ?_⟩
  obtain ⟨node, hnode, hmap⟩ := Option.bind_eq_some_iff.mp ht
  obtain ⟨-, -, rfl⟩ := Option.map_eq_some_iff.mp hmap
  exact hQ node hnode

theorem fromDirty_iff {e : Entry} (hsrc : e.src = some src)
    (hnode : c.version.graph.heap src = some node) :
    c.FromDirty m e ↔ isDirty (m.types (outputTypes src node) e.srcPort.toNat) = true := by
  refine ⟨?_, fun h => ⟨src, node, hsrc, hnode, h⟩⟩
  rintro ⟨src', node', hsrc', hnode', hdirty⟩
  rw [hsrc] at hsrc'
  cases hsrc'
  rw [hnode] at hnode'
  cases hnode'
  exact hdirty

/-- The first pass finds out whether there is a dirty source. -/
theorem mixClean_wp {k : Sounds} {type : PortType} :
    ∀ (entries : List Entry) (last : KsiData) (dirty : Bool),
      wp True (c.mixClean k type entries last dirty) m (fun mixed m' => m' = m ∧
        (mixed.2 = true ↔ dirty = true ∨ ∃ e ∈ entries, c.FromDirty m e)) E := by
  intro entries
  induction entries with
  | nil =>
      intro last dirty
      exact ⟨rfl, by simp⟩
  | cons me rest ih =>
      intro last dirty
      unfold Cycle.mixClean
      cases hsrc : me.src with
      | none =>
          have hnot : ¬ c.FromDirty m me := by
            rintro ⟨src, node, hsome, -⟩
            rw [hsrc] at hsome
            cases hsome
          refine wp_mono (ih _ dirty) (fun mixed m' h => ⟨h.1, ?_⟩) fun _ _ hE => hE
          rw [h.2]
          simp [hnot]
      | some src =>
          simp only
          rw [wp_bind]
          refine wp_sourceType fun node hnode => ?_
          rw [wp_ite]
          refine ⟨fun hdirty => ?_, fun hclean => ?_⟩
          · refine wp_mono (ih last true) (fun mixed m' h => ⟨h.1, ?_⟩) fun _ _ hE => hE
            rw [h.2]
            simp [(fromDirty_iff hsrc hnode).mpr hdirty]
          · have hnot : ¬ c.FromDirty m me := fun h => hclean ((fromDirty_iff hsrc hnode).mp h)
            rw [wp_bind]
            unfold Cycle.sourceBuffer
            rw [wp_read]
            refine ⟨fun _ => trivial, fun buffer _ => ?_⟩
            refine wp_mono (ih _ dirty) (fun mixed m' h => ⟨h.1, ?_⟩) fun _ _ hE => hE
            rw [h.2]
            simp [hnot]

/-- The second pass only reads. -/
theorem mixDirty_wp {k : Sounds} {type : PortType} :
    ∀ (entries : List Entry) (buf : Nat → KsiData),
      wp True (c.mixDirty k type entries buf) m (fun _ m' => m' = m) E := by
  intro entries
  induction entries with
  | nil => exact fun _ => rfl
  | cons me rest ih =>
      intro buf
      unfold Cycle.mixDirty
      cases me.src with
      | none => exact ih buf
      | some src =>
          simp only
          rw [wp_bind]
          refine wp_sourceType fun node _ => ?_
          rw [wp_ite]
          refine ⟨fun _ => ?_, fun _ => ih buf⟩
          rw [wp_bind]
          unfold Cycle.sourceBuffer
          rw [wp_read]
          exact ⟨fun _ => trivial, fun _ _ => ih _⟩

/-- One type has been stored. -/
structure Stored (m m' : Memory) (ref : TypesRef) (i : Nat) (d : Prop) : Prop where
  others : ∀ ref' j, ¬ (ref' = ref ∧ j = i) → m'.types ref' j = m.types ref' j
  dirty : d → m'.types ref i = withIoBit (m.types ref i) true
  clean : ¬ d → m'.types ref i = withIoBit (m.types ref i) false

theorem wp_storeType {ref : TypesRef} {f : PortType → PortType} {Q : Unit → Memory → Prop}
    (hQ : ∀ m', (∀ ref' j, ¬ (ref' = ref ∧ j = i) → m'.types ref' j = m.types ref' j) →
      m'.types ref i = f (m.types ref i) → Q () m') :
    wp True (storeType ref i f) m Q E := by
  unfold storeType
  rw [wp_modify]
  refine hQ _ (fun ref' j hne => ?_) (by simp)
  by_cases href : ref' = ref
  · subst href
    have hj : j ≠ i := fun heq => hne ⟨rfl, heq⟩
    simp [hj]
  · simp [href]

theorem mixBuffer_wp {k : Sounds} {type : PortType} {buf : BufPtr} {entries : List Entry}
    {ref : TypesRef} : wp True (c.mixBuffer k type buf entries ref i) m
      (fun _ m' => Stored m m' ref i (∃ e ∈ entries, c.FromDirty m e)) E := by
  unfold Cycle.mixBuffer
  rw [wp_bind]
  refine wp_mono (mixClean_wp entries 0 false) ?_ fun _ _ hE => hE
  rintro mixed m₁ ⟨rfl, hdirty⟩
  rw [wp_bind]
  unfold storeSamples
  rw [wp_modify, wp_bind]
  -- what is stored in the buffer leaves the types alone
  have hstore : ∀ m₂ : Memory, m₂.types = m₁.types →
      wp True (storeType ref i fun t => (t &&& ~~~ksiNodePortIOMask) |||
        (if mixed.2 then ksiNodePortIODirty else 0)) m₂
        (fun _ m' => Stored m₁ m' ref i (∃ e ∈ entries, c.FromDirty m₁ e)) E := by
    intro m₂ hm₂
    refine wp_storeType fun m' hothers hat => ⟨fun ref' j hne => ?_, fun hd => ?_, fun hd => ?_⟩
    · rw [hothers ref' j hne, hm₂]
    · have hmixed : mixed.2 = true := hdirty.mpr (.inr hd)
      rw [hat, hm₂, withIoBit_eq, hmixed]
    · have hmixed : mixed.2 = false := by
        refine Bool.eq_false_iff.mpr fun h => hd ?_
        exact (hdirty.mp h).resolve_left Bool.false_ne_true
      rw [hat, hm₂, withIoBit_eq, hmixed]
  rw [wp_when]
  refine ⟨fun _ => ?_, fun _ => hstore _ rfl⟩
  rw [wp_bind, wp_read]
  refine ⟨fun _ => trivial, fun old _ => ?_⟩
  rw [wp_bind]
  refine wp_mono (mixDirty_wp entries _) ?_ fun _ _ hE => hE
  rintro sum m₂ rfl
  rw [wp_modify]
  exact hstore _ rfl

theorem mixDirect_wp {entries : List Entry} {ref : TypesRef} :
    wp True (c.mixDirect entries ref i) m
      (fun _ m' => Stored m m' ref i (∃ e, c.FromDirty m e ∧ entries.head? = some e)) E := by
  have hclear : (¬ ∃ e, c.FromDirty m e ∧ entries.head? = some e) →
      wp True (storeType ref i ksiNodePortIOClear) m
        (fun _ m' => Stored m m' ref i (∃ e, c.FromDirty m e ∧ entries.head? = some e)) E :=
    fun hnot => wp_storeType fun m' hothers hat => ⟨hothers, fun h => absurd h hnot, fun _ => hat⟩
  unfold Cycle.mixDirect
  cases entries with
  | nil => exact hclear (by simp)
  | cons me rest =>
      simp only
      cases hsrc : me.src with
      | none =>
          refine hclear ?_
          rintro ⟨e, ⟨src, -, hsome, -⟩, hhead⟩
          cases hhead
          rw [hsrc] at hsome
          cases hsome
      | some src =>
          simp only
          rw [wp_bind]
          refine wp_sourceType fun node hnode => ?_
          rw [wp_ite]
          refine ⟨fun hdirty => ?_, fun hclean => hclear ?_⟩
          · refine wp_storeType fun m' hothers hat => ⟨hothers, fun _ => hat, fun hnot => ?_⟩
            exact absurd ⟨me, (fromDirty_iff hsrc hnode).mpr hdirty, rfl⟩ hnot
          · rintro ⟨e, hfrom, hhead⟩
            cases hhead
            exact hclean ((fromDirty_iff hsrc hnode).mp hfrom)

/-- The types of the input ports below `k` have been stored. -/
structure Mixed (c : Cycle) (m m' : Memory) (n : NodePtr) (node : KsiNode) (k : Nat) : Prop where
  others : ∀ ref j, ¬ (ref = inputTypes n node ∧ j < k) → m'.types ref j = m.types ref j
  event : ∀ j < k, (m.types (inputTypes n node) j).isEvent = true →
    m'.types (inputTypes n node) j = m.types (inputTypes n node) j
  dirty : ∀ j < k, ¬ (m.types (inputTypes n node) j).isEvent = true → c.MixesDirty m n node j →
    m'.types (inputTypes n node) j = withIoBit (m.types (inputTypes n node) j) true
  clean : ∀ j < k, ¬ (m.types (inputTypes n node) j).isEvent = true → ¬ c.MixesDirty m n node j →
    m'.types (inputTypes n node) j = withIoBit (m.types (inputTypes n node) j) false

/-- A port mixes, or is an event port. -/
theorem mixInput_wp : wp True (c.mixInput n node i) m (fun _ m' =>
    ((m.types (inputTypes n node) i).isEvent = true → m' = m) ∧
    (¬ (m.types (inputTypes n node) i).isEvent = true →
      Stored m m' (inputTypes n node) i (c.MixesDirty m n node i))) E := by
  unfold Cycle.mixInput
  rw [wp_bind, wp_read]
  refine ⟨fun _ => trivial, fun input hinput => ?_⟩
  rw [wp_bind, wp_read]
  refine ⟨fun _ => trivial, fun type htype => ?_⟩
  obtain rfl : m.types (inputTypes n node) i = type := Option.some.inj htype
  rw [wp_ite]
  refine ⟨fun hevent => ⟨fun _ => rfl, fun hsignal => absurd hevent hsignal⟩, fun hsignal => ?_⟩
  cases hbuffer : (c.version.env n i).buffer with
  | some buf =>
      refine wp_mono (mixBuffer_wp (E := E)) (fun _ m' h => ⟨fun hevent => absurd hevent hsignal,
        fun _ => ?_⟩) fun _ _ hE => hE
      have hiff : c.MixesDirty m n node i ↔ ∃ e ∈ input.entries, c.FromDirty m e := by
        unfold Cycle.MixesDirty
        simp [hinput, hbuffer, and_comm]
      exact ⟨h.others, fun hd => h.dirty (hiff.mp hd), fun hd => h.clean fun h' => hd (hiff.mpr h')⟩
  | none =>
      refine wp_mono (mixDirect_wp (E := E)) (fun _ m' h => ⟨fun hevent => absurd hevent hsignal,
        fun _ => ?_⟩) fun _ _ hE => hE
      have hiff : c.MixesDirty m n node i ↔
          ∃ e, c.FromDirty m e ∧ input.entries.head? = some e := by
        unfold Cycle.MixesDirty
        simp [hinput, hbuffer]
      exact ⟨h.others, fun hd => h.dirty (hiff.mp hd), fun hd => h.clean fun h' => hd (hiff.mpr h')⟩

/-- **Mixing stores the bits of the node's own inputs.** -/
theorem mixInputs_wp (c : Cycle) (m : Memory) (n : NodePtr) (node : KsiNode) :
    wp True (c.mixInputs n node) m
    (fun _ m' => Mixed c m m' n node node.inputs.length) E := by
  refine wp_forRange (fun k (m' : Memory) => Mixed c m m' n node k) (fun i m₁ hi h₁ => ?_)
    ⟨fun _ _ _ => rfl, fun j hj => absurd hj (Nat.not_lt_zero j),
      fun j hj => absurd hj (Nat.not_lt_zero j), fun j hj => absurd hj (Nat.not_lt_zero j)⟩
  have hold : m₁.types (inputTypes n node) i = m.types (inputTypes n node) i :=
    h₁.others _ i fun h => Nat.lt_irrefl i h.2
  have houtputs : ∀ src node' j, m₁.types (outputTypes src node') j =
      m.types (outputTypes src node') j := fun src node' j =>
    h₁.others _ j fun h => inputTypes_ne_outputTypes h.1.symm
  refine wp_mono mixInput_wp (fun _ m₂ h₂ => ?_) fun _ _ hE => hE
  rw [hold, Cycle.mixesDirty_congr houtputs] at h₂
  obtain ⟨hevent, hsignal⟩ := h₂
  -- the ports before `i` have what they had, and `i` what has just been stored
  have hothers : ∀ ref j, ¬ (ref = inputTypes n node ∧ j = i) →
    m₂.types ref j = m₁.types ref j := by
    intro ref j hne
    by_cases he : (m.types (inputTypes n node) i).isEvent = true
    · rw [hevent he]
    · exact (hsignal he).others ref j hne
  have hbefore : ∀ j < i, m₂.types (inputTypes n node) j = m₁.types (inputTypes n node) j :=
    fun j hj => hothers _ j fun h => Nat.ne_of_lt hj h.2
  constructor
  case others =>
    intro ref j hne
    rw [hothers ref j fun h => hne ⟨h.1, h.2 ▸ Nat.lt_succ_self j⟩]
    exact h₁.others ref j fun h => hne ⟨h.1, Nat.lt_succ_of_lt h.2⟩
  case event =>
    intro j hj he
    rcases Nat.lt_succ_iff_lt_or_eq.mp hj with hlt | rfl
    · rw [hbefore j hlt]
      exact h₁.event j hlt he
    · rw [hevent he, hold]
  case dirty =>
    intro j hj he hd
    rcases Nat.lt_succ_iff_lt_or_eq.mp hj with hlt | rfl
    · rw [hbefore j hlt]
      exact h₁.dirty j hlt he hd
    · rw [(hsignal he).dirty hd, hold]
  case clean =>
    intro j hj he hd
    rcases Nat.lt_succ_iff_lt_or_eq.mp hj with hlt | rfl
    · rw [hbefore j hlt]
      exact h₁.clean j hlt he hd
    · rw [(hsignal he).clean hd, hold]

/-! ### What a node function stores -/

/-- The types of the outputs are stored where `f` says so; the inputs stay. -/
structure Flagged (p p' : Ports) (f : Nat → Option Bool) : Prop where
  inputs : p'.inputs = p.inputs
  types : ∀ j : Nat, (p'.outputs[j]?).map OutputBuffer.type = (p.outputs[j]?).map fun o =>
    match f j with
    | none => o.type
    | some d => withIoBit o.type d

theorem SameTypes.trans {p'' : Ports} (h : SameTypes p p') (h' : SameTypes p' p'') :
    SameTypes p p'' :=
  ⟨h'.inputs.trans h.inputs, fun j => (h'.types j).trans (h.types j)⟩

theorem SameTypes.flagged (h : SameTypes p p') : Flagged p p' fun _ => none :=
  ⟨h.inputs, h.types⟩

/-- To store samples only is compositional. -/
theorem sameTypes_compositional : Compositional (fun _ => True) fun {α} (x : NodeFunc α) =>
    Within SameTypes x :=
  within_compositional .refl fun _ _ _ h h' => h.trans h'

theorem store_within {port i : Nat} {x : KsiData} : Within SameTypes (store port i x) := by
  intro p
  unfold store
  rw [wp_updateOutput]
  exact ⟨fun _ => trivial, fun _ _ => (SameTypes.refl p).store x⟩

section Functions

variable {f f' : Nat → Option Bool} {port : Nat} {k : Sounds} {F : Nat} {E : Empty → Ports → Prop}

theorem Flagged.congr (h : Flagged p p' f) (heq : ∀ j, f j = f' j) : Flagged p p' f' := by
  obtain rfl : f = f' := funext heq
  exact h

/-- One more bit is stored. -/
theorem Flagged.updateOutput (h : Flagged p p' f) (d : Bool) (hf : f port = none) :
    Flagged p (p'.updateOutput port fun o => { o with type := withIoBit o.type d })
      fun j => if j = port then some d else f j := by
  refine ⟨h.inputs, fun j => ?_⟩
  rw [Ports.updateOutput_outputs]
  by_cases hj : port = j
  · subst hj
    have htype := h.types port
    rw [hf] at htype
    rw [if_pos rfl, Option.map_map, if_pos rfl]
    show (p'.outputs[port]?).map ((withIoBit · d) ∘ OutputBuffer.type) = _
    rw [← Option.map_map, htype, Option.map_map]
    rfl
  · rw [if_neg hj, if_neg (Ne.symm hj)]
    exact h.types j

theorem setDirty_flagged (h : Flagged p p' f) (hf : f port = none) :
    wp True (setDirty port) p'
      (fun _ p'' => Flagged p p'' fun j => if j = port then some true else f j) E := by
  unfold setDirty
  rw [wp_updateOutput]
  exact ⟨fun _ => trivial, fun _ _ => h.updateOutput true hf⟩

theorem clear_flagged (h : Flagged p p' f) (hf : f port = none) :
    wp True (clear port) p'
      (fun _ p'' => Flagged p p'' fun j => if j = port then some false else f j) E := by
  unfold clear
  rw [wp_updateOutput]
  exact ⟨fun _ => trivial, fun _ _ => h.updateOutput false hf⟩

/-- The dirty bit of an input, as the function finds it. -/
def Ports.inputDirty (p : Ports) (port : Nat) : Bool :=
  ((p.inputs[port]?).map fun se => isDirty se.type).getD false

/-- The bit that a plugin's function stores for output `j`, if it stores one. -/
def flags (k : Sounds) (framesPerBuffer inlineId : Nat) (p : Ports) (j : Nat) : Option Bool :=
  match inlineId, j with
  | 2, 0 => some true
  | 3, 1 => some k.playing
  | 4, 0 =>
      if p.inputDirty 1 then some true
      else if ksiNodeGetInput p framesPerBuffer 1 0 = some 0 then none
      else some false
  | 5, 0 => some k.sounding
  | 5, 1 => some k.sounding
  | 6, 0 => some (p.inputDirty 0 || p.inputDirty 1)
  | _, _ => none

theorem inputDirty_eq {se : InputBuffer} (hse : p.inputs[port]? = some se) :
    p.inputDirty port = isDirty se.type := by
  unfold Ports.inputDirty
  rw [hse]
  rfl

/-- A loop that stores samples. -/
theorem samples_flagged {l : List Nat} {x : Nat → NodeFunc Unit}
    (hx : ∀ i, Within SameTypes (x i)) :
    wp True (forEach l x) p (fun _ p' => Flagged p p' fun _ => none) E :=
  wp_mono (sameTypes_compositional.forEach hx l p) (fun _ _ h => h.flagged) fun e _ _ => e.elim

theorem ksiBuiltinNodeFuncId_flagged :
    wp True (ksiBuiltinNodeFuncId F) p (fun _ p' => Flagged p p' (flags k F 1 p)) E := by
  have hK := sameTypes_compositional
  have hcopy : Within SameTypes (ksiBuiltinNodeFuncId F) :=
    hK.bind (hK.read _) fun _ => hK.forEach (fun _ => hK.forEach (fun _ =>
      hK.bind (hK.read _) fun _ => store_within) _) _
  exact wp_mono (hcopy p) (fun _ _ h => h.flagged) fun e _ _ => e.elim

theorem ksiBuiltinNodeFuncTestOsc_flagged :
    wp True (ksiBuiltinNodeFuncTestOsc k F) p (fun _ p' => Flagged p p' (flags k F 2 p)) E := by
  have hK := sameTypes_compositional
  unfold ksiBuiltinNodeFuncTestOsc
  rw [wp_bind]
  refine wp_mono (samples_flagged fun i => hK.bind (hK.read _) fun _ => store_within)
    (fun _ p₁ h₁ => ?_) fun _ _ hE => hE
  refine wp_mono (setDirty_flagged h₁ rfl) (fun _ p₂ h₂ => h₂.congr fun j => ?_) fun _ _ hE => hE
  cases j <;> rfl

theorem kscarletMidiSeg_flagged :
    wp True (kscarletMidiSeg k F) p (fun _ p' => Flagged p p' (flags k F 3 p)) E := by
  have hflags : ∀ d j, k.playing = d → (if j = 1 then some d else none) = flags k F 3 p j := by
    intro d j hd
    match j with
    | 0 => rfl
    | 1 => rw [if_pos rfl, ← hd]; rfl
    | j + 2 => rw [if_neg (by omega)]; rfl
  unfold kscarletMidiSeg
  rw [wp_ite]
  refine ⟨fun hplaying => ?_, fun hbypass => ?_⟩
  · rw [wp_bind]
    refine wp_mono (samples_flagged fun i => store_within) (fun _ p₁ h₁ => ?_) fun _ _ hE => hE
    exact wp_mono (setDirty_flagged h₁ rfl)
      (fun _ p₂ h₂ => h₂.congr fun j => hflags true j hplaying)
      fun _ _ hE => hE
  · rw [wp_bind]
    refine wp_mono (store_within p) (fun _ p₁ h₁ => ?_) fun e _ _ => e.elim
    exact wp_mono (clear_flagged h₁.flagged rfl) (fun _ p₂ h₂ => h₂.congr fun j =>
      hflags false j (Bool.eq_false_iff.mpr hbypass)) fun _ _ hE => hE

theorem kscarletWavetable_flagged :
    wp True (kscarletWavetable k F) p (fun _ p' => Flagged p p' (flags k F 4 p)) E := by
  have hK := sameTypes_compositional
  have hflags : ∀ d j, flags k F 4 p 0 = some d →
    (if j = 0 then some d else none) = flags k F 4 p j := by
    intro d j hd
    cases j with
    | zero => rw [if_pos rfl, hd]
    | succ j => rfl
  unfold kscarletWavetable
  rw [wp_bind, wp_inputType]
  refine ⟨fun _ => trivial, fun se hse => ?_⟩
  have hgateDirty := inputDirty_eq hse
  rw [wp_ite]
  refine ⟨fun hclean => ?_, fun hdirty => ?_⟩
  · have hfalse : p.inputDirty 1 = false := by rw [hgateDirty]; exact Bool.eq_false_iff.mpr hclean
    rw [wp_bind, wp_getInput]
    refine ⟨fun _ => trivial, fun gate hgate => ?_⟩
    rw [wp_when]
    refine ⟨fun hopen => ?_, fun hshut => (SameTypes.refl p).flagged.congr fun j => ?_⟩
    · refine wp_mono (clear_flagged (SameTypes.refl p).flagged rfl)
        (fun _ p₁ h₁ => h₁.congr fun j =>
        hflags false j ?_) fun _ _ hE => hE
      unfold flags
      rw [hfalse, hgate]
      simpa using hopen
    · cases j with
      | zero =>
          unfold flags
          rw [hfalse, hgate]
          simp [not_not.mp hshut]
      | succ j => rfl
  · have htrue : p.inputDirty 1 = true := by rw [hgateDirty]; exact not_not.mp hdirty
    rw [wp_bind]
    refine wp_mono (samples_flagged fun i => hK.bind (hK.read _) fun gate =>
      hK.when (hK.bind (hK.read _) fun n => ?_)) (fun _ p₁ h₁ => ?_) fun _ _ hE => hE
    · split
      · exact hK.pure ()
      · exact store_within
    refine wp_mono (setDirty_flagged h₁ rfl) (fun _ p₂ h₂ => h₂.congr fun j => hflags true j ?_)
      fun _ _ hE => hE
    unfold flags
    rw [htrue]
    rfl

theorem kscarletADSR_flagged :
    wp True (kscarletADSR k F) p (fun _ p' => Flagged p p' (flags k F 5 p)) E := by
  have hK := sameTypes_compositional
  have hflags : ∀ d j, k.sounding = d →
      (if j = 1 then some d else if j = 0 then some d else none) = flags k F 5 p j := by
    intro d j hd
    match j with
    | 0 => rw [if_neg (by omega), if_pos rfl, ← hd]; rfl
    | 1 => rw [if_pos rfl, ← hd]; rfl
    | j + 2 => rw [if_neg (by omega), if_neg (by omega)]; rfl
  unfold kscarletADSR
  rw [wp_ite]
  refine ⟨fun hhalt => ?_, fun hsounding => ?_⟩
  · rw [wp_bind]
    refine wp_mono (clear_flagged (SameTypes.refl p).flagged rfl) (fun _ p₁ h₁ => ?_)
      fun _ _ hE => hE
    exact wp_mono (clear_flagged h₁ rfl) (fun _ p₂ h₂ => h₂.congr fun j =>
      hflags false j (Bool.eq_false_iff.mpr hhalt)) fun _ _ hE => hE
  · rw [wp_bind]
    refine wp_mono (samples_flagged fun i => hK.bind store_within fun _ => store_within)
      (fun _ p₁ h₁ => ?_) fun _ _ hE => hE
    rw [wp_bind]
    refine wp_mono (setDirty_flagged h₁ rfl) (fun _ p₂ h₂ => ?_) fun _ _ hE => hE
    exact wp_mono (setDirty_flagged h₂ rfl) (fun _ p₃ h₃ => h₃.congr fun j =>
      hflags true j (not_not.mp hsounding)) fun _ _ hE => hE

theorem ksiBuiltinNodeFuncModulator_flagged :
    wp True (ksiBuiltinNodeFuncModulator k F) p (fun _ p' => Flagged p p' (flags k F 6 p)) E := by
  have hK := sameTypes_compositional
  unfold ksiBuiltinNodeFuncModulator
  rw [wp_bind, wp_inputType]
  refine ⟨fun _ => trivial, fun se₀ hse₀ => ?_⟩
  rw [wp_bind, wp_inputType]
  refine ⟨fun _ => trivial, fun se₁ hse₁ => ?_⟩
  have hflags : ∀ d j, (isDirty se₀.type || isDirty se₁.type) = d →
      (if j = 0 then some d else none) = flags k F 6 p j := by
    intro d j hd
    cases j with
    | zero =>
        unfold flags
        rw [inputDirty_eq hse₀, inputDirty_eq hse₁, hd]
        rfl
    | succ j => rfl
  rw [wp_ite]
  refine ⟨fun hdirty => ?_, fun hclean => ?_⟩
  · rw [wp_bind]
    refine wp_mono (samples_flagged fun i =>
      hK.bind (hK.read _) fun _ => hK.bind (hK.read _) fun _ =>
      store_within) (fun _ p₁ h₁ => ?_) fun _ _ hE => hE
    refine wp_mono (setDirty_flagged h₁ rfl) (fun _ p₂ h₂ => h₂.congr fun j => hflags true j ?_)
      fun _ _ hE => hE
    simpa using hdirty
  · rw [wp_bind, wp_getInput]
    refine ⟨fun _ => trivial, fun x _ => ?_⟩
    rw [wp_bind, wp_getInput]
    refine ⟨fun _ => trivial, fun y _ => ?_⟩
    rw [wp_bind]
    refine wp_mono (store_within p) (fun _ p₁ h₁ => ?_) fun e _ _ => e.elim
    refine wp_mono (clear_flagged h₁.flagged rfl) (fun _ p₂ h₂ => h₂.congr fun j =>
      hflags false j ?_) fun _ _ hE => hE
    simpa using hclean

/-- **A node function stores the bits that `flags` says**, and no others. -/
theorem ksiNodeFuncWrapper_flagged (k : Sounds) (F inlineId : Nat) (p : Ports) :
    wp True (ksiNodeFuncWrapper k F inlineId) p
      (fun _ p' => Flagged p p' (flags k F inlineId p)) E := by
  unfold ksiNodeFuncWrapper
  split
  · exact ksiBuiltinNodeFuncId_flagged
  · exact ksiBuiltinNodeFuncTestOsc_flagged
  · exact kscarletMidiSeg_flagged
  · exact kscarletWavetable_flagged
  · exact kscarletADSR_flagged
  · exact ksiBuiltinNodeFuncModulator_flagged
  · refine (SameTypes.refl p).flagged.congr fun j => ?_
    unfold flags
    split <;> first | rfl | contradiction

end Functions

/-! ### The whole step -/

/-- The types of the outputs have been stored. -/
structure Called (c : Cycle) (m m' : Memory) (n : NodePtr) (node : KsiNode) (k : Nat)
    (f : Nat → Option Bool) : Prop where
  others : ∀ ref j, ¬ (ref = outputTypes n node ∧ j < k) → m'.types ref j = m.types ref j
  kept : ∀ j < k, f j = none → m'.types (outputTypes n node) j = m.types (outputTypes n node) j
  set : ∀ j < k, ∀ d, f j = some d →
    m'.types (outputTypes n node) j = withIoBit (m.types (outputTypes n node) j) d

theorem ports_output (hj : j < node.outputs.length) :
    ∃ o, (c.ports m n node).outputs[j]? = some o ∧ o.type = m.types (outputTypes n node) j := by
  unfold Cycle.ports
  simp [List.getElem?_mapIdx, List.getElem?_eq_getElem hj]

theorem storeOutput_wp {f : Nat → Option Bool} {m₁ : Memory} (hf : Flagged (c.ports m n node) p f)
    (hi : i < node.outputs.length) (h₁ : Called c m m₁ n node i f) :
    wp True (c.storeOutput n node p i) m₁ (fun _ m' => Called c m m' n node (i + 1) f) E := by
  obtain ⟨o, ho, htype⟩ := ports_output (c := c) (m := m) (n := n) hi
  have hp := hf.types i
  rw [ho, Option.map_some] at hp
  obtain ⟨o', ho', htype'⟩ := Option.map_eq_some_iff.mp hp
  rw [htype] at htype'
  unfold Cycle.storeOutput
  rw [ho']
  simp only
  rw [wp_bind]
  refine wp_storeType fun m₂ hothers hat => ?_
  have hcalled : Called c m m₂ n node (i + 1) f := by
    have hbefore : ∀ j < i, m₂.types (outputTypes n node) j = m₁.types (outputTypes n node) j :=
      fun j hj => hothers _ j fun h => Nat.ne_of_lt hj h.2
    constructor
    case others =>
      intro ref j hne
      rw [hothers ref j fun h => hne ⟨h.1, h.2 ▸ Nat.lt_succ_self j⟩]
      exact h₁.others ref j fun h => hne ⟨h.1, Nat.lt_succ_of_lt h.2⟩
    case kept =>
      intro j hj hnone
      rcases Nat.lt_succ_iff_lt_or_eq.mp hj with hlt | rfl
      · rw [hbefore j hlt]
        exact h₁.kept j hlt hnone
      · rw [hat, htype', hnone]
    case set =>
      intro j hj d hd
      rcases Nat.lt_succ_iff_lt_or_eq.mp hj with hlt | rfl
      · rw [hbefore j hlt]
        exact h₁.set j hlt d hd
      · rw [hat, htype', hd]
  cases c.version.outputBuffer n i with
  | none => exact hcalled
  | some b => exact ⟨hcalled.others, hcalled.kept, hcalled.set⟩

theorem callFunc_wp : wp True (c.callFunc n node) m (fun _ m' => Called c m m' n node
    node.outputs.length (flags (c.sounds n) c.framesPerBuffer (ksiNodeTypeInlineId node.type)
      (c.ports m n node))) E := by
  unfold Cycle.callFunc
  have hfunc := ksiNodeFuncWrapper_flagged (c.sounds n) c.framesPerBuffer
    (ksiNodeTypeInlineId node.type) (c.ports m n node) (E := fun _ _ => True)
  cases hrun : ksiNodeFuncWrapper (c.sounds n) c.framesPerBuffer (ksiNodeTypeInlineId node.type)
      (c.ports m n node) with
  | none =>
      unfold wp
      simp [hrun]
  | some r =>
      obtain ⟨e | ⟨⟩, p⟩ := r
      · exact e.elim
      · have hflagged := of_wp_ok hfunc hrun
        have hloop := wp_forRange (d := True) (E := E) (s := m) (f := c.storeOutput n node p)
          (fun k m' => Called c m m' n node k _) (fun i m' hi h' => storeOutput_wp hflagged hi h')
          ⟨fun _ _ _ => rfl, fun j hj => absurd hj (Nat.not_lt_zero j),
            fun j hj => absurd hj (Nat.not_lt_zero j)⟩
        unfold wp at hloop ⊢
        simp only [hrun]
        exact hloop

/-- The bits that the node `q` reads of its ports and that its consumers read of them are as
they were. -/
structure Undisturbed (m m' : Memory) (q : NodePtr) (qnode : KsiNode) : Prop where
  inputs : ∀ i < qnode.inputs.length,
    io (m'.types (inputTypes q qnode) i) = io (m.types (inputTypes q qnode) i)
  outputs : ∀ j < qnode.outputs.length,
    io (m'.types (outputTypes q qnode) j) = io (m.types (outputTypes q qnode) j)

/-- A step of `n` finds in the arrays that `q` shares with it the bits it will store: at each
signal input whether it mixes dirty, and, with the inputs mixed (`mid`), at each output what the
node function makes of it. -/
structure Harmless (c : Cycle) (m mid : Memory) (n : NodePtr) (node : KsiNode) (q : NodePtr)
    (qnode : KsiNode) : Prop where
  dirty : inputTypes q qnode = inputTypes n node → ∀ i < qnode.inputs.length,
    i < node.inputs.length → ¬ (m.types (inputTypes n node) i).isEvent = true →
      c.MixesDirty m n node i → HasIoBit (m.types (inputTypes n node) i) true
  clean : inputTypes q qnode = inputTypes n node → ∀ i < qnode.inputs.length,
    i < node.inputs.length → ¬ (m.types (inputTypes n node) i).isEvent = true →
      ¬ c.MixesDirty m n node i → HasIoBit (m.types (inputTypes n node) i) false
  outputs : outputTypes q qnode = outputTypes n node → ∀ j < qnode.outputs.length,
    j < node.outputs.length → ∀ d, flags (c.sounds n) c.framesPerBuffer
      (ksiNodeTypeInlineId node.type) (c.ports mid n node) j = some d →
        HasIoBit (m.types (outputTypes n node) j) d

theorem Mixed.inputs_iff (q : NodePtr) (qnode : KsiNode) {mid : Memory}
    (h : Mixed c m mid n node node.inputs.length) :
    (∀ i < qnode.inputs.length,
      io (mid.types (inputTypes q qnode) i) = io (m.types (inputTypes q qnode) i)) ↔
    (inputTypes q qnode = inputTypes n node → ∀ i < qnode.inputs.length, i < node.inputs.length →
      ¬ (m.types (inputTypes n node) i).isEvent = true →
        (c.MixesDirty m n node i → HasIoBit (m.types (inputTypes n node) i) true) ∧
        (¬ c.MixesDirty m n node i → HasIoBit (m.types (inputTypes n node) i) false)) := by
  constructor
  · intro hsame hshared i hi hin hsignal
    have hio := hsame i hi
    rw [hshared] at hio
    refine ⟨fun hd => ?_, fun hd => ?_⟩
    · rw [h.dirty i hin hsignal hd] at hio
      exact (io_withIoBit_iff _ _).mp hio
    · rw [h.clean i hin hsignal hd] at hio
      exact (io_withIoBit_iff _ _).mp hio
  · intro hbits i hi
    by_cases hshared : inputTypes q qnode = inputTypes n node ∧ i < node.inputs.length
    · obtain ⟨hshared, hin⟩ := hshared
      have hbits' := hbits hshared i hi hin
      rw [hshared]
      by_cases he : (m.types (inputTypes n node) i).isEvent = true
      · rw [h.event i hin he]
      · by_cases hd : c.MixesDirty m n node i
        · rw [h.dirty i hin he hd]
          exact (io_withIoBit_iff _ _).mpr ((hbits' he).1 hd)
        · rw [h.clean i hin he hd]
          exact (io_withIoBit_iff _ _).mpr ((hbits' he).2 hd)
    · rw [h.others _ i hshared]

theorem Called.outputs_iff (q : NodePtr) (qnode : KsiNode) {f : Nat → Option Bool}
    (h : Called c m m' n node node.outputs.length f) :
    (∀ j < qnode.outputs.length,
      io (m'.types (outputTypes q qnode) j) = io (m.types (outputTypes q qnode) j)) ↔
    (outputTypes q qnode = outputTypes n node → ∀ j < qnode.outputs.length,
      j < node.outputs.length → ∀ d, f j = some d →
      HasIoBit (m.types (outputTypes n node) j) d) := by
  constructor
  · intro hsame hshared j hj hin d hd
    have hio := hsame j hj
    rw [hshared, h.set j hin d hd] at hio
    exact (io_withIoBit_iff _ _).mp hio
  · intro hbits j hj
    by_cases hshared : outputTypes q qnode = outputTypes n node ∧ j < node.outputs.length
    · obtain ⟨hshared, hin⟩ := hshared
      have hbits' := hbits hshared j hj hin
      rw [hshared]
      cases hf : f j with
      | none => rw [h.kept j hin hf]
      | some d =>
          rw [h.set j hin d hf]
          exact (io_withIoBit_iff _ _).mpr (hbits' d hf)
    · rw [h.others _ j hshared]

/-- **A worker's step leaves the other nodes' ports alone** exactly if it finds in the arrays
it shares with them the bits that it stores. -/
theorem undisturbed_iff (h : c.work n m = some (.ok (), m'))
    (hn : c.version.graph.heap n = some node) :
    (∀ q qnode, q ≠ n → c.version.graph.heap q = some qnode → Undisturbed m m' q qnode) ↔
      ∃ mid, c.mixInputs n node m = some (.ok (), mid) ∧ ∀ q qnode, q ≠ n →
        c.version.graph.heap q = some qnode → Harmless c m mid n node q qnode := by
  have hwork : wp True (c.work n) m (fun _ m' => ∃ mid, c.mixInputs n node m = some (.ok (), mid) ∧
      Mixed c m mid n node node.inputs.length ∧ Called c mid m' n node node.outputs.length
        (flags (c.sounds n) c.framesPerBuffer (ksiNodeTypeInlineId node.type)
          (c.ports mid n node))) fun _ _ => True := by
    unfold Cycle.work
    rw [wp_bind, wp_read]
    refine ⟨fun _ => trivial, fun node' hn' => ?_⟩
    obtain rfl : node' = node := Option.some.inj (hn'.symm.trans hn)
    rw [wp_bind]
    have hmixed := mixInputs_wp c m n node' (E := fun _ _ => True)
    cases hrun : c.mixInputs n node' m with
    | none =>
        unfold wp
        simp [hrun]
    | some r =>
        obtain ⟨e | ⟨⟩, mid⟩ := r
        · exact e.elim
        · have hmid := of_wp_ok hmixed hrun
          unfold wp
          simp only [hrun]
          exact wp_mono (callFunc_wp (E := fun _ _ => True)) (fun _ m' h' => ⟨mid, rfl, hmid, h'⟩)
            fun e _ _ => e.elim
  obtain ⟨mid, hmid, hmixed, hcalled⟩ := of_wp_ok hwork h
  -- the function leaves the inputs as mixing has left them, and mixing the outputs as they were
  have hinputs : ∀ q qnode i, m'.types (inputTypes q qnode) i = mid.types (inputTypes q qnode) i :=
    fun q qnode i => hcalled.others _ i fun h => inputTypes_ne_outputTypes h.1
  have houtputs : ∀ q qnode j, mid.types (outputTypes q qnode) j = m.types
    (outputTypes q qnode) j :=
    fun q qnode j => hmixed.others _ j fun h => inputTypes_ne_outputTypes h.1.symm
  have hiff : ∀ q qnode, Undisturbed m m' q qnode ↔ Harmless c m mid n node q qnode := by
    intro q qnode
    have hin := hmixed.inputs_iff q qnode
    have hout := hcalled.outputs_iff q qnode
    simp only [houtputs] at hout
    constructor
    · intro hu
      have hin' := hin.mp fun i hi => by rw [← hinputs]; exact hu.inputs i hi
      exact ⟨fun hs i hi hi' he => (hin' hs i hi hi' he).1, fun hs i hi hi' he =>
        (hin' hs i hi hi' he).2, hout.mp hu.outputs⟩
    · intro hh
      refine ⟨fun i hi => ?_, hout.mpr hh.outputs⟩
      rw [hinputs]
      exact hin.mpr (fun hs i hi hi' he => ⟨hh.dirty hs i hi hi' he, hh.clean hs i hi hi' he⟩) i hi
  constructor
  · exact fun hu => ⟨mid, hmid, fun q qnode hq hqnode => (hiff q qnode).mp (hu q qnode hq hqnode)⟩
  · rintro ⟨mid', hmid', hh⟩ q qnode hq hqnode
    rw [hmid] at hmid'
    cases hmid'
    exact (hiff q qnode).mpr (hh q qnode hq hqnode)

/-! ### Two nodes of one plugin -/

/-- Workers take nodes one after the other. -/
def Cycle.works (c : Cycle) (m : Memory) : List NodePtr → Option Memory
  | [] => some m
  | n :: rest => (c.work n m).bind fun r => c.works r.2 rest

/-- The calls that the graphs in question are built with. -/
def BuildsOrResizes : Call → Prop
  | .addNode _ | .makeWire .. | .makeBias .. | .sendEditingCommand .. => True
  | _ => False

/-- A test oscillator into the first of two product nodes; the second has biases only. -/
def twoModulators : List Call :=
  [.addNode 0x20000, .addNode 0x60000, .addNode 0x60000, .makeWire 0 0 1 0 0x3F800000,
    .makeBias 2 0 0x3F000000]

/-- What is looked at: the dirty bit of the first product node's output. -/
def modulatorDirty (m : Memory) : Bool := isDirty (m.types (.outPorts 6) 0)

/-- The oscillator and the first product node run, and then the second. -/
theorem works_twoModulators :
    ∃ s m m' node, Runs.run step (ksiEngineInit 4) twoModulators = some s ∧
    Cycle.works ⟨s.toVersion, 4, fun _ => silence⟩ Memory.init [0, 1] = some m ∧
    Cycle.work ⟨s.toVersion, 4, fun _ => silence⟩ 2 m = some (.ok (), m') ∧
    s.graph.heap 1 = some node ∧ outputTypes 1 node = .outPorts 6 ∧ node.outputs.length = 1 ∧
    s.graph.heap 2 ≠ none ∧ modulatorDirty m = true ∧ modulatorDirty m' = false := by
  have hrun : ((Runs.run step (ksiEngineInit 4) twoModulators).bind fun s =>
      (Cycle.works ⟨s.toVersion, 4, fun _ => silence⟩ Memory.init [0, 1]).bind fun m =>
        (Cycle.work ⟨s.toVersion, 4, fun _ => silence⟩ 2 m).bind fun r =>
          (s.graph.heap 1).map fun node => (outputTypes 1 node, node.outputs.length,
            (s.graph.heap 2).isSome, modulatorDirty m, modulatorDirty r.2)) =
      some (.outPorts 6, 1, true, true, false) := by
    decide +kernel
  obtain ⟨s, hs, hrest⟩ := Option.bind_eq_some_iff.mp hrun
  obtain ⟨m, hm, hrest⟩ := Option.bind_eq_some_iff.mp hrest
  obtain ⟨⟨r, m'⟩, hm', hrest⟩ := Option.bind_eq_some_iff.mp hrest
  obtain ⟨node, hnode, hobs⟩ := Option.map_eq_some_iff.mp hrest
  simp only [Prod.mk.injEq] at hobs
  obtain ⟨href, hlen, hlive, hdirty, hclean⟩ := hobs
  obtain e | ⟨⟩ := r
  · exact e.elim
  · exact ⟨s, m, m', node, hs, hm, hm', hnode, href, hlen,
      Option.isSome_iff_ne_none.mp hlive, hdirty, hclean⟩

/-- The bit of the first product node is lost. -/
theorem not_undisturbed : ¬ ∀ (calls : List Call) (s : Engine) (k : NodePtr → Sounds)
    (order : List NodePtr) (m m' : Memory) (n : NodePtr), (∀ call ∈ calls, BuildsOrResizes call) →
      Runs.run step (ksiEngineInit 4) calls = some s →
      Cycle.works ⟨s.toVersion, 4, k⟩ Memory.init order = some m →
      Cycle.work ⟨s.toVersion, 4, k⟩ n m = some (.ok (), m') →
      ∀ q qnode, q ≠ n → s.graph.heap q = some qnode → Undisturbed m m' q qnode := by
  intro h
  obtain ⟨s, m, m', node, hs, hm, hm', hnode, href, hlen, -, hdirty, hclean⟩ := works_twoModulators
  have hu := h twoModulators s (fun _ => silence) [0, 1] m m' 2
    (by simp [twoModulators, BuildsOrResizes])
    hs hm hm' 1 node (by decide) hnode
  have hio := hu.outputs 0 (by omega)
  rw [href] at hio
  unfold modulatorDirty at hdirty hclean
  rw [isDirty_eq_io, hio, ← isDirty_eq_io, hdirty] at hclean
  cases hclean

/-- The second product node's step, seen by the condition. -/
theorem undisturbed_twoModulators : ∃ s m m' node,
    Runs.run step (ksiEngineInit 4) twoModulators = some s ∧
    Cycle.works ⟨s.toVersion, 4, fun _ => silence⟩ Memory.init [0, 1] = some m ∧
    ((∀ q qnode, q ≠ 2 → s.graph.heap q = some qnode → Undisturbed m m' q qnode) ↔
      ∃ mid, Cycle.mixInputs ⟨s.toVersion, 4, fun _ => silence⟩ 2 node m = some (.ok (), mid) ∧
        ∀ q qnode, q ≠ 2 → s.graph.heap q = some qnode →
          Harmless ⟨s.toVersion, 4, fun _ => silence⟩ m mid 2 node q qnode) := by
  obtain ⟨s, m, m', -, hs, hm, hm', -, -, -, hlive, -⟩ := works_twoModulators
  obtain ⟨node, hnode⟩ := Option.ne_none_iff_exists'.mp hlive
  exact ⟨s, m, m', node, hs, hm, undisturbed_iff hm' hnode⟩

end Ksi.Audio

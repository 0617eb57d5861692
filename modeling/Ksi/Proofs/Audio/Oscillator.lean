/-
The oscillator and its gate.

A clean gate has one value, and the oscillator has a path of its own for it.  That path
stores no sample, whether the gate is open or closed, and does not move the position; so
what a consumer sees after it is what an earlier call has left.
-/
import Ksi.Audio.Scarlet
import Ksi.Proofs.Audio.Protocol

namespace Ksi.Audio.Scarlet

open Ksi.Dag

/-! ### What is asked of the two paths -/

/-- The gate input has the value `g` at every frame, and the dirty bit `dirty`. -/
structure Gate (bufsize : Nat) (n : Ports) (dirty : Bool) (g : KsiData) : Prop where
  type : ∃ se, n.inputs[1]? = some se ∧ isDirty se.type = dirty
  value : ∀ i, i < bufsize → ksiNodeGetInput n bufsize 1 i = some g

/-- The same oscillator, but for its gate input. -/
structure SameButGate (s s' : Wavetable) : Prop where
  position : s'.currentPos = s.currentPos
  inputs : ∀ port : Nat, port ≠ 1 → s'.ports.inputs[port]? = s.ports.inputs[port]?
  outputs : s'.ports.outputs = s.ports.outputs

/-- The oscillator, with other samples left in its output by earlier calls. -/
def Wavetable.after (s : Wavetable) (old : Nat → KsiData) : Wavetable :=
  { s with ports := s.ports.updateOutput 0 fun o => { o with buffer := old } }

/-- No sample that a consumer sees has been left over: none depends on what earlier calls
have left. -/
def NothingLeftOver (f : Floats) (bufsize : Nat) (s : Wavetable) : Prop :=
  ∀ old old' i, i < bufsize →
    (kscarletWavetable f bufsize (s.after old)).ports.visible bufsize 0 i =
      (kscarletWavetable f bufsize (s.after old')).ports.visible bufsize 0 i

/-- With a clean gate the oscillator does what it does with a dirty one of the same value. -/
structure Agree (f : Floats) (bufsize : Nat) (clean dirty : Wavetable) : Prop where
  position : (kscarletWavetable f bufsize clean).currentPos =
    (kscarletWavetable f bufsize dirty).currentPos
  visible : ∀ i, i < bufsize → (kscarletWavetable f bufsize clean).ports.visible bufsize 0 i =
    (kscarletWavetable f bufsize dirty).ports.visible bufsize 0 i
  clean : NothingLeftOver f bufsize clean
  dirty : NothingLeftOver f bufsize dirty

variable {f : Floats} {bufsize : Nat} {s s' : Wavetable} {g : KsiData}

/-! ### The path for a clean gate -/

theorem after_gate (old : Nat → KsiData) (h : Gate bufsize s.ports false g) :
    Gate bufsize (s.after old).ports false g :=
  ⟨h.type, h.value⟩

/-- A clean gate: the position stays, and so do the samples. -/
theorem kscarletWavetable_clean (h : Gate bufsize s.ports false g) :
    (kscarletWavetable f bufsize s).currentPos = s.currentPos ∧
      ((kscarletWavetable f bufsize s).ports.outputs[0]?).map (·.buffer) =
        (s.ports.outputs[0]?).map (·.buffer) := by
  obtain ⟨se, hse, htype⟩ := h.type
  have hgate : ((s.ports.inputs[1]?).any fun se => isDirty se.type) = false := by
    rw [hse]
    exact htype
  unfold kscarletWavetable
  rw [hgate]
  simp only [Bool.false_eq_true, if_false]
  split
  · refine ⟨rfl, ?_⟩
    unfold clearAt
    rw [Ports.updateOutput_outputs, if_pos rfl, Option.map_map]
    rfl
  · exact ⟨rfl, rfl⟩

/-- What is seen after a clean gate is one of the samples there were. -/
theorem visible_clean (h : Gate bufsize s.ports false g) (hout : s.ports.outputs ≠ [])
    (x : KsiData) (i : Nat) :
    (kscarletWavetable f bufsize (s.after fun _ => x)).ports.visible bufsize 0 i = some x := by
  obtain ⟨o, rest, houtputs⟩ := List.exists_cons_of_ne_nil hout
  have hold : ((s.after fun _ => x).ports.outputs[0]?).map (·.buffer) = some fun _ => x := by
    unfold Wavetable.after
    rw [Ports.updateOutput_outputs, if_pos rfl, houtputs]
    rfl
  have hbuffer := (kscarletWavetable_clean (f := f) (after_gate (fun _ => x) h)).2
  rw [hold] at hbuffer
  obtain ⟨o', ho', hbuf⟩ := Option.map_eq_some_iff.mp hbuffer
  unfold Ports.visible OutputBuffer.visible
  rw [ho', Option.map_some, hbuf]
  split
  · rfl
  · rfl

/-! ### The path for a dirty gate that is closed -/

/-- A closed gate: no frame moves the position or stores a sample. -/
theorem frames_closed (h : Gate bufsize s.ports true g) (hg : g ≠ 0) :
    ∀ k ≤ bufsize, (List.range k).foldl (Wavetable.frame f bufsize) s = s := by
  intro k
  induction k with
  | zero =>
      intro _
      rfl
  | succ k ih =>
      intro hk
      rw [List.range_succ, List.foldl_append, ih (by omega)]
      have hgate : input s.ports bufsize 1 k = g := by
        unfold input
        rw [h.value k hk]
        rfl
      show Wavetable.frame f bufsize s k = s
      unfold Wavetable.frame
      rw [hgate, if_pos hg]

/-- The full path announces the samples of an earlier call as its own. -/
theorem visible_closed (h : Gate bufsize s.ports true g) (hg : g ≠ 0)
    {o : OutputBuffer} (ho : s.ports.outputs[0]? = some o) (i : Nat) :
    (kscarletWavetable f bufsize s).ports.visible bufsize 0 i = some (o.buffer i) := by
  obtain ⟨se, hse, htype⟩ := h.type
  have hgate : ((s.ports.inputs[1]?).any fun se => isDirty se.type) = true := by
    rw [hse]
    exact htype
  unfold kscarletWavetable
  rw [hgate, if_pos rfl]
  simp only [frames_closed (f := f) h hg bufsize (Nat.le_refl _)]
  unfold Ports.visible OutputBuffer.visible setDirtyAt
  rw [Ports.updateOutput_outputs, if_pos rfl, ho]
  simp

/-! ### The result -/

/-- **The two paths never agree as they should.**  For every position, gate value and
inputs, the path for a clean gate shows the consumer a sample that an earlier call has
left; and where the gate is closed, so does the full path. -/
theorem not_agree (hpos : 1 ≤ bufsize) (hout : s.ports.outputs ≠ [])
    (hsame : SameButGate s s') (hclean : Gate bufsize s.ports false g)
    (hdirty : Gate bufsize s'.ports true g) :
    ¬ Agree f bufsize s s' ∧ (g ≠ 0 → ¬ NothingLeftOver f bufsize s') := by
  constructor
  · intro h
    have hleft := h.clean (fun _ => 0) (fun _ => 1) 0 hpos
    rw [visible_clean hclean hout, visible_clean hclean hout] at hleft
    exact absurd (Option.some.inj hleft) (by decide)
  · intro hg h
    have hout' : s'.ports.outputs ≠ [] := by
      rw [hsame.outputs]
      exact hout
    obtain ⟨o, rest, houtputs⟩ := List.exists_cons_of_ne_nil hout'
    have hold : ∀ x : KsiData, (kscarletWavetable f bufsize (s'.after fun _ => x)).ports.visible
        bufsize 0 0 = some x := by
      intro x
      have hgate : Gate bufsize (s'.after fun _ => x).ports true g := ⟨hdirty.type, hdirty.value⟩
      have ho : (s'.after fun _ => x).ports.outputs[0]? = some { o with buffer := fun _ => x } := by
        unfold Wavetable.after
        rw [Ports.updateOutput_outputs, if_pos rfl, houtputs]
        rfl
      rw [visible_closed hgate hg ho]
    have hleft := h (fun _ => 0) (fun _ => 1) 0 hpos
    rw [hold, hold] at hleft
    exact absurd (Option.some.inj hleft) (by decide)

/-- Arithmetic in which the position counts the frames. -/
def counting : Floats where
  frames := fun _ => 0
  attackBias := fun _ => 0
  releaseBias := fun _ => 0
  decayBias := fun _ => 0
  attackMod := fun _ _ _ _ => 0
  decayMod := fun _ _ _ => 0
  releaseMod := fun _ _ _ _ => 0
  advance := fun pos _ => pos + 1
  sine := fun pos => pos
  sawtooth := fun pos => pos
  triangle := fun pos => pos
  square := fun _ pos => pos

/-- A sawtooth whose gate has the type `type` and the value `g`. -/
def sawtoothNode (type : PortType) (g : KsiData) : Wavetable where
  currentPos := 0
  ports :=
    { inputs :=
        [{ type := ksiNodePortTypeFloat, internalBufferPtr := none, mixer := [] },
          { type := type, internalBufferPtr := some fun _ => g, mixer := [] },
          { type := ksiNodePortTypeInt32, internalBufferPtr := some fun _ => 2, mixer := [] },
          { type := ksiNodePortTypeFloat, internalBufferPtr := none, mixer := [] }]
      outputs := [{ type := ksiNodePortTypeFloat, buffer := fun _ => 7 },
        { type := ksiNodePortTypeGate, buffer := fun _ => 0 }] }

theorem not_agree_closed :
    ¬ Agree counting 4 (sawtoothNode ksiNodePortTypeGate 1)
      (sawtoothNode (ksiNodePortIOSetDirty ksiNodePortTypeGate) 1) ∧
    (1 ≠ (0 : KsiData) → ¬ NothingLeftOver counting 4
      (sawtoothNode (ksiNodePortIOSetDirty ksiNodePortTypeGate) 1)) :=
  not_agree (by decide) (by simp [sawtoothNode])
    ⟨rfl, fun port hport => by
      unfold sawtoothNode
      match port with
      | 0 => rfl
      | 1 => exact absurd rfl hport
      | port + 2 => rfl, rfl⟩
    ⟨⟨_, rfl, by decide⟩, fun i hi => rfl⟩ ⟨⟨_, rfl, by decide⟩, fun i hi => rfl⟩

/-- An open gate: with the full path the sawtooth goes on for four frames, with the
shortcut it stands still. -/
theorem not_agree_open :
    ¬ Agree counting 4 (sawtoothNode ksiNodePortTypeGate 0)
      (sawtoothNode (ksiNodePortIOSetDirty ksiNodePortTypeGate) 0) := by
  intro h
  have hposition := h.position
  revert hposition
  decide

end Ksi.Audio.Scarlet

/-
What a consumer reads of an output port.

A consumer takes the whole buffer of a port whose dirty bit is set, and the last sample
otherwise.  The product node fills what it announces, on both of its paths.  The
pass-through node fills the whole buffer and leaves the bit as it finds it, so a port
whose bit is clear comes out as its last sample; that is right exactly when the input
has one value throughout.
-/
import Ksi.Audio.Plugins

namespace Ksi.Audio

open Ksi.Dag Prog

variable {n n' : Ports} {F port i j : Nat} {d : Prop} {E : Empty → Ports → Prop}

/-! ### The bits -/

@[simp] theorem isDirty_setDirty (t : PortType) : isDirty (ksiNodePortIOSetDirty t) = true := by
  revert t
  decide

@[simp] theorem isDirty_clear (t : PortType) : isDirty (ksiNodePortIOClear t) = false := by
  revert t
  decide

/-! ### Reading and storing -/

/-- What `ksiNodeGetInput` would read is there. -/
def Ports.Readable (n : Ports) : Prop :=
  ∀ se ∈ n.inputs, isDirty se.type = true → se.internalBufferPtr.isSome = true

theorem ksiNodeGetInput_congr (h : n'.inputs = n.inputs) :
    ksiNodeGetInput n' F port i = ksiNodeGetInput n F port i := by
  unfold ksiNodeGetInput
  rw [h]

theorem Ports.Readable.getInput (h : n.Readable) (F i : Nat) (hport : port < n.inputs.length) :
    ∃ x, ksiNodeGetInput n F port i = some x := by
  have hse : n.inputs[port]? = some n.inputs[port] := List.getElem?_eq_getElem hport
  unfold ksiNodeGetInput
  rw [hse]
  simp only [Option.bind_eq_bind, Option.bind_some]
  split
  · rename_i hdirty
    obtain ⟨buffer, hbuffer⟩ := Option.isSome_iff_exists.mp (h _ (List.getElem_mem hport) hdirty)
    exact ⟨buffer i, by rw [hbuffer]; rfl⟩
  · split <;> exact ⟨_, rfl⟩

/-- A clean input has one value. -/
theorem ksiNodeGetInput_clean {se : InputBuffer} (hse : n.inputs[port]? = some se)
    (hclean : isDirty se.type = false) (i i' : Nat) :
    ksiNodeGetInput n F port i = ksiNodeGetInput n F port i' := by
  unfold ksiNodeGetInput
  rw [hse]
  simp [hclean]

theorem wp_updateOutput {f : OutputBuffer → OutputBuffer} {Q : Unit → Ports → Prop} :
    wp d (updateOutput port f) n Q E ↔
      (n.outputs[port]? = none → d) ∧ ∀ o, n.outputs[port]? = some o →
      Q () (n.updateOutput port f) := by
  unfold updateOutput
  rw [wp_bind, wp_read]
  rfl

theorem wp_getInput {Q : KsiData → Ports → Prop} :
    wp d (getInput F port i) n Q E ↔ (ksiNodeGetInput n F port i = none → d) ∧
      ∀ x, ksiNodeGetInput n F port i = some x → Q x n := by
  unfold getInput
  exact wp_read _

theorem wp_inputType {Q : PortType → Ports → Prop} :
    wp d (inputType port) n Q E ↔ (n.inputs[port]? = none → d) ∧
      ∀ se, n.inputs[port]? = some se → Q se.type n := by
  unfold inputType
  rw [wp_read]
  cases n.inputs[port]? <;> simp

theorem Ports.updateOutput_outputs (f : OutputBuffer → OutputBuffer) (j : Nat) :
    (n.updateOutput port f).outputs[j]? =
      if port = j then (n.outputs[j]?).map f else n.outputs[j]? := by
  unfold Ports.updateOutput
  rw [List.getElem?_modify]
  split <;> simp

/-- The types of the outputs have stayed, and all of the inputs. -/
structure SameTypes (n n' : Ports) : Prop where
  inputs : n'.inputs = n.inputs
  types : ∀ j : Nat, (n'.outputs[j]?).map OutputBuffer.type = (n.outputs[j]?).map OutputBuffer.type

theorem SameTypes.refl (n : Ports) : SameTypes n n := ⟨rfl, fun _ => rfl⟩

theorem SameTypes.store (h : SameTypes n n') (x : KsiData) : SameTypes n (n'.updateOutput port
    fun o => { o with buffer := Function.update o.buffer i x }) := by
  refine ⟨h.inputs, fun j => ?_⟩
  rw [Ports.updateOutput_outputs, ← h.types j]
  split
  · rw [Option.map_map]
    rfl
  · rfl

theorem SameTypes.output (h : SameTypes n n') (hj : j < n.outputs.length) :
    ∃ o, n'.outputs[j]? = some o := by
  have hmap := h.types j
  rw [List.getElem?_eq_getElem hj, Option.map_some] at hmap
  obtain ⟨o, ho, -⟩ := Option.map_eq_some_iff.mp hmap
  exact ⟨o, ho⟩

/-- The samples of output `j` at the frames of which `done` holds are those of `value`. -/
def Filled (n : Ports) (j : Nat) (done : Nat → Prop) (value : Nat → Option KsiData) : Prop :=
  ∀ i, done i → (n.outputs[j]?).map (fun o => o.buffer i) = value i

/-- One more sample. -/
theorem Filled.store {done : Nat → Prop} {value : Nat → Option KsiData} {x : KsiData}
    (h : Filled n j done value) {o : OutputBuffer} (ho : n.outputs[j]? = some o)
    (hx : value i = some x) : Filled (n.updateOutput j
      fun o => { o with buffer := Function.update o.buffer i x }) j
        (fun i' => i' = i ∨ done i') value := by
  intro i' hdone
  rw [Ports.updateOutput_outputs, if_pos rfl, ho]
  by_cases hi : i' = i
  · subst hi
    simp [hx]
  · have hold := h i' (hdone.resolve_left hi)
    rw [ho] at hold
    simpa [hi] using hold

theorem Filled.other {done : Nat → Prop} {value : Nat → Option KsiData}
    {f : OutputBuffer → OutputBuffer} (h : Filled n j done value) (hne : port ≠ j) :
    Filled (n.updateOutput port f) j done value := by
  intro i' hdone
  rw [Ports.updateOutput_outputs, if_neg hne]
  exact h i' hdone

/-! ### What a consumer sees -/

/-- A consumer's value of an output port at a frame. -/
def OutputBuffer.visible (o : OutputBuffer) (framesPerBuffer i : Nat) : KsiData :=
  if isDirty o.type then o.buffer i else o.buffer (framesPerBuffer - 1)

def Ports.visible (n : Ports) (framesPerBuffer port i : Nat) : Option KsiData :=
  (n.outputs[port]?).map fun o => o.visible framesPerBuffer i

/-- A filled port with the dirty bit set. -/
theorem Filled.visible_dirty {value : Nat → Option KsiData} (h : Filled n j (· < F) value)
    {o : OutputBuffer} (ho : n.outputs[j]? = some o) (hdirty : isDirty o.type = true) (hi : i < F) :
    n.visible F j i = value i := by
  unfold Ports.visible
  rw [← h i hi, ho]
  simp [OutputBuffer.visible, hdirty]

/-- A filled port without it comes out as its last sample. -/
theorem Filled.visible_clean {value : Nat → Option KsiData} (h : Filled n j (· < F) value)
    {o : OutputBuffer} (ho : n.outputs[j]? = some o) (hclean : isDirty o.type = false)
    (hF : 0 < F) : n.visible F j i = value (F - 1) := by
  unfold Ports.visible
  rw [← h (F - 1) (Nat.sub_lt hF Nat.zero_lt_one), ho]
  simp [OutputBuffer.visible, hclean]

/-! ### The pass-through node -/

/-- **Id copies every input to its output**, and leaves the types alone. -/
theorem ksiBuiltinNodeFuncId_wp (hread : n.Readable) (hlen : n.inputs.length ≤ n.outputs.length) :
    wp False (ksiBuiltinNodeFuncId F) n (fun _ n' => SameTypes n n' ∧
      ∀ j < n.inputs.length, Filled n' j (· < F) (ksiNodeGetInput n F j)) E := by
  unfold ksiBuiltinNodeFuncId
  rw [wp_bind, wp_read]
  refine ⟨fun h => (by cases h), fun m hm => ?_⟩
  obtain rfl : n = m := Option.some.inj hm
  refine wp_forRange (fun i (n' : Ports) => SameTypes n n' ∧
    ∀ j < n.inputs.length, Filled n' j (· < i) (ksiNodeGetInput n F j)) (fun i n₁ hi h₁ => ?_)
    ⟨.refl n, fun j _ i hi => absurd hi (Nat.not_lt_zero i)⟩
  -- the ports that the inner loop still has to do have the frames before `i` only
  have hinner := wp_forEach (d := False) (E := E) (s := n₁)
    (f := fun j => getInput F j i >>= fun x => store j i x)
    (fun rest (n' : Ports) => SameTypes n n' ∧ (∀ j ∈ rest, j < n.inputs.length) ∧
      ∀ j < n.inputs.length, Filled n' j (fun i' => i' < i ∨ (i' = i ∧ j ∉ rest))
        (ksiNodeGetInput n F j)) ?_ (List.range n.inputs.length).reverse ?_
  · refine wp_mono hinner (fun _ n₂ h₂ => ⟨h₂.1, fun j hj i' hi' => ?_⟩) fun _ _ hE => hE
    refine h₂.2.2 j hj i' ?_
    rcases Nat.lt_succ_iff_lt_or_eq.mp hi' with hlt | heq
    · exact .inl hlt
    · exact .inr ⟨heq, List.not_mem_nil⟩
  · rintro j rest n₂ ⟨hsame, hrest, hfilled⟩
    have hj := hrest j List.mem_cons_self
    obtain ⟨x, hx⟩ := hread.getInput F i hj
    obtain ⟨o, ho⟩ := hsame.output (Nat.lt_of_lt_of_le hj hlen)
    rw [wp_bind, wp_getInput, ksiNodeGetInput_congr hsame.inputs, hx]
    refine ⟨fun h => (by cases h), fun x' hx' => ?_⟩
    obtain rfl : x = x' := Option.some.inj hx'
    unfold store
    rw [wp_updateOutput, ho]
    refine ⟨fun h => (by cases h), fun _ _ => ⟨hsame.store x, fun j' hj' =>
      hrest j' (List.mem_cons_of_mem _ hj'), fun j' hj' => ?_⟩⟩
    by_cases heq : j' = j
    · subst heq
      intro i' hdone
      refine (hfilled j' hj').store ho hx i' ?_
      rcases hdone with hlt | ⟨hi', -⟩
      · exact .inr (.inl hlt)
      · exact .inl hi'
    · intro i' hdone
      refine (hfilled j' hj').other (Ne.symm heq) i' ?_
      rcases hdone with hlt | ⟨hi', hnot⟩
      · exact .inl hlt
      · exact .inr ⟨hi', fun hmem => (List.mem_cons.mp hmem).elim heq hnot⟩
  · refine ⟨h₁.1, fun j hj => ?_, fun j hj i' hdone => ?_⟩
    · rwa [List.mem_reverse, List.mem_range] at hj
    · refine h₁.2 j hj i' (hdone.resolve_right fun h => h.2 ?_)
      rwa [List.mem_reverse, List.mem_range]

/-- The bit of output `j` is set. -/
def Ports.OutputDirty (n : Ports) (j : Nat) : Prop :=
  ∃ o, n.outputs[j]? = some o ∧ isDirty o.type = true

/-- **What is visible of Id** is its input, exactly where the bit was set or the input has
one value. -/
theorem ksiBuiltinNodeFuncId_visible (hF : 0 < F) (hsame : SameTypes n n')
    (hlen : n.inputs.length ≤ n.outputs.length)
    (hfilled : ∀ j < n.inputs.length, Filled n' j (· < F) (ksiNodeGetInput n F j)) :
    (∀ j < n.inputs.length, ∀ i < F, n'.visible F j i = ksiNodeGetInput n F j i) ↔
      ∀ j < n.inputs.length, n.OutputDirty j ∨
        ∀ i < F, ksiNodeGetInput n F j i = ksiNodeGetInput n F j (F - 1) := by
  refine forall_congr' fun j => forall_congr' fun hj => ?_
  obtain ⟨o', ho'⟩ := hsame.output (Nat.lt_of_lt_of_le hj hlen)
  have htype := hsame.types j
  rw [ho', Option.map_some] at htype
  obtain ⟨o, ho, heq⟩ := Option.map_eq_some_iff.mp htype.symm
  by_cases hdirty : isDirty o.type = true
  · refine iff_of_true (fun i hi => ?_) (.inl ⟨o, ho, hdirty⟩)
    exact (hfilled j hj).visible_dirty ho' (by rw [← heq]; exact hdirty) hi
  · have hclean : isDirty o'.type = false := by
      rw [← heq]
      exact Bool.eq_false_iff.mpr hdirty
    have hnot : ¬ n.OutputDirty j := by
      rintro ⟨o₁, ho₁, hdirty₁⟩
      rw [ho] at ho₁
      cases ho₁
      exact hdirty hdirty₁
    rw [or_iff_right hnot]
    refine forall_congr' fun i => forall_congr' fun hi => ?_
    rw [(hfilled j hj).visible_clean ho' hclean hF]
    exact eq_comm

/-! ### The product node -/

/-- The product of the two inputs. -/
def Ports.product (k : Sounds) (n : Ports) (framesPerBuffer i : Nat) : Option KsiData := do
  let x ← ksiNodeGetInput n framesPerBuffer 0 i
  let y ← ksiNodeGetInput n framesPerBuffer 1 i
  some (k.mulFloat x y)

theorem Ports.product_eq {k : Sounds} {x y : KsiData} (hx : ksiNodeGetInput n F 0 i = some x)
    (hy : ksiNodeGetInput n F 1 i = some y) : n.product k F i = some (k.mulFloat x y) := by
  unfold Ports.product
  rw [hx, hy]
  rfl

theorem Ports.output_type {f : PortType → PortType} {o : OutputBuffer}
    (ho : n.outputs[j]? = some o) :
    (n.updateOutput j fun o => { o with type := f o.type }).outputs[j]? =
      some { o with type := f o.type } := by
  rw [Ports.updateOutput_outputs, if_pos rfl, ho]
  rfl

theorem Filled.type {done : Nat → Prop} {value : Nat → Option KsiData} {f : PortType → PortType}
    (h : Filled n j done value) :
    Filled (n.updateOutput j fun o => { o with type := f o.type }) j done value := by
  intro i hdone
  rw [Ports.updateOutput_outputs, if_pos rfl, Option.map_map]
  exact h i hdone

/-- **The product node shows the product**, whichever path it takes and whatever its bit
was. -/
theorem ksiBuiltinNodeFuncModulator_wp (k : Sounds) (hread : n.Readable)
    (hin : 2 ≤ n.inputs.length) (hout : 1 ≤ n.outputs.length) :
    wp False (ksiBuiltinNodeFuncModulator k F) n
      (fun _ n' => ∀ i < F, n'.visible F 0 i = n.product k F i) E := by
  obtain ⟨se₀, hse₀⟩ : ∃ se, n.inputs[0]? = some se := ⟨_, List.getElem?_eq_getElem (by omega)⟩
  obtain ⟨se₁, hse₁⟩ : ∃ se, n.inputs[1]? = some se := ⟨_, List.getElem?_eq_getElem (by omega)⟩
  unfold ksiBuiltinNodeFuncModulator
  rw [wp_bind, wp_inputType, hse₀]
  refine ⟨fun h => (by cases h), fun _ h => ?_⟩
  cases h
  rw [wp_bind, wp_inputType, hse₁]
  refine ⟨fun h => (by cases h), fun _ h => ?_⟩
  cases h
  rw [wp_ite]
  refine ⟨fun _ => ?_, fun hclean => ?_⟩
  · rw [wp_bind]
    -- every frame gets its product, and then the bit is set
    have hloop := wp_forRange (d := False) (E := E) (s := n) (n := F)
      (f := fun i => getInput F 0 i >>= fun x => getInput F 1 i >>= fun y =>
        store 0 i (k.mulFloat x y))
      (fun i (n' : Ports) => SameTypes n n' ∧ Filled n' 0 (· < i) (n.product k F)) ?_
      ⟨.refl n, fun i hi => absurd hi (Nat.not_lt_zero i)⟩
    · refine wp_mono hloop (fun _ n₁ h₁ => ?_) fun _ _ hE => hE
      obtain ⟨o, ho⟩ := h₁.1.output hout
      unfold setDirty
      rw [wp_updateOutput, ho]
      refine ⟨fun h => (by cases h), fun _ _ i hi => ?_⟩
      exact (h₁.2.type (f := ksiNodePortIOSetDirty)).visible_dirty (Ports.output_type ho)
        (isDirty_setDirty _) hi
    · rintro i n₁ hi ⟨hsame, hfilled⟩
      obtain ⟨x, hx⟩ := hread.getInput F i (show 0 < n.inputs.length by omega)
      obtain ⟨y, hy⟩ := hread.getInput F i (show 1 < n.inputs.length by omega)
      obtain ⟨o, ho⟩ := hsame.output hout
      rw [wp_bind, wp_getInput, ksiNodeGetInput_congr hsame.inputs, hx]
      refine ⟨fun h => (by cases h), fun _ h => ?_⟩
      cases h
      rw [wp_bind, wp_getInput, ksiNodeGetInput_congr hsame.inputs, hy]
      refine ⟨fun h => (by cases h), fun _ h => ?_⟩
      cases h
      unfold store
      rw [wp_updateOutput, ho]
      refine ⟨fun h => (by cases h), fun _ _ => ⟨hsame.store _, fun i' hi' => ?_⟩⟩
      exact hfilled.store ho (Ports.product_eq hx hy) i' (by omega)
  · -- both inputs are clean, so one product stands for all frames
    obtain ⟨hclean₀, hclean₁⟩ := not_or.mp hclean
    obtain ⟨x, hx⟩ := hread.getInput F 0 (show 0 < n.inputs.length by omega)
    obtain ⟨y, hy⟩ := hread.getInput F 0 (show 1 < n.inputs.length by omega)
    have hproduct : ∀ i, n.product k F i = some (k.mulFloat x y) := fun i =>
      Ports.product_eq
        ((ksiNodeGetInput_clean hse₀ (Bool.eq_false_iff.mpr hclean₀) i 0).trans hx)
        ((ksiNodeGetInput_clean hse₁ (Bool.eq_false_iff.mpr hclean₁) i 0).trans hy)
    obtain ⟨o, ho⟩ := (SameTypes.refl n).output hout
    rw [wp_bind, wp_getInput, hx]
    refine ⟨fun h => (by cases h), fun _ h => ?_⟩
    cases h
    rw [wp_bind, wp_getInput, hy]
    refine ⟨fun h => (by cases h), fun _ h => ?_⟩
    cases h
    unfold store clear
    rw [wp_bind, wp_updateOutput, ho]
    refine ⟨fun h => (by cases h), fun _ _ => ?_⟩
    have hstored : SameTypes n (n.updateOutput 0 fun o => { o with
        buffer := Function.update o.buffer (F - 1) (k.mulFloat x y) }) := (SameTypes.refl n).store _
    obtain ⟨o', ho'⟩ := hstored.output hout
    rw [wp_updateOutput, ho']
    refine ⟨fun h => (by cases h), fun _ _ i hi => ?_⟩
    have hlast : Filled (n.updateOutput 0 fun o => { o with
        buffer := Function.update o.buffer (F - 1) (k.mulFloat x y) }) 0 (· = F - 1)
        (n.product k F) := by
      intro i' hi'
      subst hi'
      have hnone : Filled n 0 (fun _ => False) (n.product k F) := fun _ h => h.elim
      exact hnone.store ho (hproduct (F - 1)) (F - 1) (.inl rfl)
    unfold Ports.visible
    have hvalue := hlast.type (f := ksiNodePortIOClear) (F - 1) rfl
    rw [Ports.output_type ho'] at hvalue ⊢
    rw [hproduct i, ← hproduct (F - 1), ← hvalue]
    simp [OutputBuffer.visible]

/-! ### Both nodes -/

/-- Every output of Id is seen to be its input. -/
def IdHonours (framesPerBuffer : Nat) (n n' : Ports) : Prop :=
  ∀ j < n.inputs.length, ∀ i < framesPerBuffer,
    n'.visible framesPerBuffer j i = ksiNodeGetInput n framesPerBuffer j i

/-- **The dirty/clean protocol.**  The pass-through node keeps to it exactly if each of its
outputs has its dirty bit set beforehand, or the input has one value at all frames; the
product node always keeps to it. -/
theorem honours_iff {framesPerBuffer : Nat} (hF : 0 < framesPerBuffer) (k : Sounds) :
    (∀ n : Ports, n.Readable → n.inputs.length ≤ n.outputs.length →
      ∃ n', ksiBuiltinNodeFuncId framesPerBuffer n = some (.ok (), n') ∧
        (IdHonours framesPerBuffer n n' ↔ ∀ j < n.inputs.length, n.OutputDirty j ∨
          ∀ i < framesPerBuffer, ksiNodeGetInput n framesPerBuffer j i =
            ksiNodeGetInput n framesPerBuffer j (framesPerBuffer - 1))) ∧
    (∀ n : Ports, n.Readable → 2 ≤ n.inputs.length → 1 ≤ n.outputs.length →
      ∃ n', ksiBuiltinNodeFuncModulator k framesPerBuffer n = some (.ok (), n') ∧
        ∀ i < framesPerBuffer, n'.visible framesPerBuffer 0 i = n.product k framesPerBuffer i) := by
  refine ⟨fun n hread hlen => ?_, fun n hread hin hout => ?_⟩
  · obtain ⟨r, n', hr, hok, -⟩ := exists_of_wp (ksiBuiltinNodeFuncId_wp (F := framesPerBuffer)
      (E := fun _ _ => True) hread hlen)
    obtain e | ⟨⟩ := r
    · exact e.elim
    · obtain ⟨hsame, hfilled⟩ := hok () rfl
      exact ⟨n', hr, ksiBuiltinNodeFuncId_visible hF hsame hlen hfilled⟩
  · obtain ⟨r, n', hr, hok, -⟩ := exists_of_wp (ksiBuiltinNodeFuncModulator_wp
      (E := fun _ _ => True) k hread hin hout)
    obtain e | ⟨⟩ := r
    · exact e.elim
    · exact ⟨n', hr, hok () rfl⟩

/-- One input with the samples 1 and 2 in a dirty buffer, or two of them. -/
def stairPorts (inputs outputs : Nat) : Ports where
  inputs := List.replicate inputs
    { type := ksiNodePortTypeFloat ||| ksiNodePortIODirty
      internalBufferPtr := some fun i => if i = 0 then 1 else 2
      mixer := [] }
  outputs := List.replicate outputs { type := ksiNodePortTypeFloat, buffer := fun _ => 0 }

theorem stairPorts_readable (inputs outputs : Nat) : (stairPorts inputs outputs).Readable := by
  intro se hse _
  obtain rfl := (List.mem_replicate.mp hse).2
  rfl

/-- Arithmetic on the bits, and silence. -/
def silence : Sounds where
  addFloat := (· + ·)
  mulFloat := (· * ·)
  sine := fun _ _ => 0
  playing := false
  freq := fun _ => 0
  wave := fun _ _ => none
  sounding := false
  envelope := fun _ => (0, 0)

theorem honours_stairPorts :
    (∃ n', ksiBuiltinNodeFuncId 1 (stairPorts 1 1) = some (.ok (), n') ∧
      (IdHonours 1 (stairPorts 1 1) n' ↔ ∀ j < (stairPorts 1 1).inputs.length,
        (stairPorts 1 1).OutputDirty j ∨ ∀ i < 1, ksiNodeGetInput (stairPorts 1 1) 1 j i =
          ksiNodeGetInput (stairPorts 1 1) 1 j (1 - 1))) ∧
    ∃ n', ksiBuiltinNodeFuncModulator silence 2 (stairPorts 2 1) = some (.ok (), n') ∧
      ∀ i < 2, n'.visible 2 0 i = (stairPorts 2 1).product silence 2 i :=
  ⟨(honours_iff (by decide) silence).1 _ (stairPorts_readable 1 1) (by decide),
    (honours_iff (by decide) silence).2 _ (stairPorts_readable 2 1) (by decide) (by decide)⟩

/-- The stair comes out flat. -/
theorem not_honours : ¬ ∀ (framesPerBuffer : Nat) (n n' : Ports), 0 < framesPerBuffer → n.Readable →
    n.inputs.length ≤ n.outputs.length → ksiBuiltinNodeFuncId framesPerBuffer n =
    some (.ok (), n') →
    IdHonours framesPerBuffer n n' := by
  intro h
  have hrun : (ksiBuiltinNodeFuncId 2 (stairPorts 1 1)).map (fun r => r.2.visible 2 0 0) =
      some (some 2) := by decide
  obtain ⟨⟨r, n'⟩, hr, hvisible⟩ := Option.map_eq_some_iff.mp hrun
  obtain e | ⟨⟩ := r
  · exact e.elim
  · have heq := h 2 (stairPorts 1 1) n' (by decide) (stairPorts_readable 1 1) (by decide) hr 0
      (by decide) 0 (by decide)
    have hin : ksiNodeGetInput (stairPorts 1 1) 2 0 0 = some 1 := by decide
    rw [hvisible, hin] at heq
    cases heq

end Ksi.Audio

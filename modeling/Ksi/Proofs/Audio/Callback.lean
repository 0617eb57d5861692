/-
What the callback leaves in the driver's channels.

A channel that nothing has been stored to is played as it was.  The loop that clears the
channels beyond the final node's ports starts one too late, so a final node with one port
leaves the second channel; and a node function on its clean path stores at most the last
sample.  What is left are two nodes that fill both channels: the pass-through node with two
ports, and the envelope while it sounds.
-/
import Ksi.Audio.Callback
import Ksi.Proofs.Audio.Protocol

namespace Ksi.Audio

open Ksi.Dag Ksi.Pool Playing Prog

/-! ### What is asked of the callback -/

/-- The callback returns, and each sample of both channels has been stored: it does not
depend on what the channels held, and it is 0 or what a consumer sees of the final node's
port. -/
structure Fills (k : Sounds) (frameCount : Nat) (e : AudioEngine) : Prop where
  returns : ∀ output, (ksiEngineAudioCallback k frameCount e output).isSome = true
  stored : ∀ output output' e₁ e₂ out out',
    ksiEngineAudioCallback k frameCount e output = some (e₁, out) →
    ksiEngineAudioCallback k frameCount e output' = some (e₂, out') →
    ∀ c < audioChans, ∀ i < frameCount, out c i = out' c i
  value : ∀ output e' out, ksiEngineAudioCallback k frameCount e output = some (e', out) →
    ∀ c < audioChans, ∀ i < frameCount, out c i = 0 ∨
      ∃ node, e'.finalNode e.epoch = some node ∧ node.ports.visible frameCount c i = some (out c i)

/-- A node of a plugin that is compiled in, with its ports; the pass-through node may have
any number of them, as many outputs as inputs. -/
structure BuiltIn (node : FinalNode) : Prop where
  id : 1 ≤ node.inlineId ∧ node.inlineId ≤ 6
  readable : node.ports.Readable
  ports : if node.inlineId = 1 then node.ports.inputs.length = node.ports.outputs.length
    else (inlinePorts node.inlineId).map (fun p => (p.1.length, p.2.length)) =
      some (node.ports.inputs.length, node.ports.outputs.length)

/-- The final nodes that fill both channels: the pass-through node with two ports, where
each port is dirty or passes on, at every frame, 0 or the value of the last frame; and the
envelope, if it sounds. -/
def Covers (k : Sounds) (frameCount : Nat) (node : FinalNode) : Prop :=
  (node.inlineId = 1 ∧ node.ports.outputs.length = 2 ∧
    ∀ c o, node.ports.outputs[c]? = some o → isDirty o.type = true ∨
      ∀ i < frameCount, ksiNodeGetInput node.ports frameCount c i = some 0 ∨
        ksiNodeGetInput node.ports frameCount c i =
          ksiNodeGetInput node.ports frameCount c (frameCount - 1)) ∨
  (node.inlineId = 5 ∧ k.sounding = true)

variable {k : Sounds} {F : Nat} {e : AudioEngine} {node : FinalNode} {output : Channels}
  {n n' : Ports} {E : Empty → Ports → Prop} {port i : Nat}

/-! ### The second channel -/

/-- The samples of output 1 have stayed. -/
def SecondKept (n n' : Ports) : Prop :=
  (n'.outputs[1]?).map OutputBuffer.buffer = (n.outputs[1]?).map OutputBuffer.buffer

theorem secondKept_compositional : Compositional (fun _ : Empty => True)
    fun {α} (x : NodeFunc α) => Within SecondKept x :=
  within_compositional (fun _ => rfl) fun _ _ _ h h' => h'.trans h

theorem updateOutput_secondKept {f : OutputBuffer → OutputBuffer}
    (h : port ≠ 1 ∨ ∀ o, (f o).buffer = o.buffer) : Within SecondKept (updateOutput port f) := by
  intro n
  rw [wp_updateOutput]
  refine ⟨fun _ => trivial, fun o _ => ?_⟩
  unfold SecondKept
  rw [Ports.updateOutput_outputs]
  split
  · rename_i heq
    rw [Option.map_map]
    exact congrArg (fun g => Option.map g _) (funext fun o => (h.resolve_left fun hne => hne heq) o)
  · rfl

theorem store_secondKept (x : KsiData) : Within SecondKept (store 0 i x) :=
  updateOutput_secondKept (.inl Nat.zero_ne_one)

theorem setDirty_secondKept : Within SecondKept (setDirty port) :=
  updateOutput_secondKept (.inr fun _ => rfl)

theorem clear_secondKept : Within SecondKept (clear port) :=
  updateOutput_secondKept (.inr fun _ => rfl)

/-- Four of the plugins store no sample to output 1. -/
theorem ksiNodeFuncWrapper_secondKept {id : Nat} (hid : id = 2 ∨ id = 3 ∨ id = 4 ∨ id = 6) :
    Within SecondKept (ksiNodeFuncWrapper k F id) := by
  have hK := secondKept_compositional
  rcases hid with rfl | rfl | rfl | rfl
  · show Within SecondKept (ksiBuiltinNodeFuncTestOsc k F)
    unfold ksiBuiltinNodeFuncTestOsc
    exact hK.bind (hK.forEach (fun i => hK.bind (hK.read _) fun x => store_secondKept _) _)
      fun _ => setDirty_secondKept
  · show Within SecondKept (kscarletMidiSeg k F)
    unfold kscarletMidiSeg
    exact hK.ite (hK.bind (hK.forEach (fun i => store_secondKept _) _) fun _ => setDirty_secondKept)
      (hK.bind (store_secondKept _) fun _ => clear_secondKept)
  · show Within SecondKept (kscarletWavetable k F)
    unfold kscarletWavetable
    refine hK.bind (hK.read _) fun _ => hK.ite (hK.bind (hK.read _) fun _ =>
      hK.when clear_secondKept) (hK.bind (hK.forEach (fun i => ?_) _) fun _ => setDirty_secondKept)
    refine hK.bind (hK.read _) fun _ => hK.when (hK.bind (hK.read _) fun n => ?_)
    cases k.wave (fun port => (ksiNodeGetInput n F port i).getD 0) i with
    | none => exact hK.pure ()
    | some x => exact store_secondKept _
  · show Within SecondKept (ksiBuiltinNodeFuncModulator k F)
    unfold ksiBuiltinNodeFuncModulator
    refine hK.bind (hK.read _) fun _ => hK.bind (hK.read _) fun _ => hK.ite
      (hK.bind (hK.forEach (fun i => hK.bind (hK.read _) fun _ => hK.bind (hK.read _) fun _ =>
        store_secondKept _) _) fun _ => setDirty_secondKept)
      (hK.bind (hK.read _) fun _ => hK.bind (hK.read _) fun _ => hK.bind (store_secondKept _)
        fun _ => clear_secondKept)

/-- A silent envelope stores no sample at all. -/
theorem kscarletADSR_secondKept (h : k.sounding = false) :
    Within SecondKept (kscarletADSR k F) := by
  unfold kscarletADSR
  rw [h, if_pos (by simp)]
  exact secondKept_compositional.bind clear_secondKept fun _ => clear_secondKept

/-! ### What the callback does with the node function -/

/-- The ports of the final node as its function finds them. -/
theorem toDriver_outputs (node : FinalNode) (fillChans c : Nat) :
    (node.toDriver fillChans output).outputs[c]? =
      if c < fillChans then (node.ports.outputs[c]?).map fun o => { o with buffer := output c }
      else none := by
  unfold FinalNode.toDriver
  rw [List.getElem?_mapIdx, List.getElem?_take]
  split
  · rfl
  · rfl

/-- The channels after the node function has left `n`. -/
def played (F : Nat) (node : FinalNode) (n : Ports) (output : Channels) : Channels :=
  clearChannels F (List.range' (min node.ports.outputs.length audioChans + 1)
      (audioChans - (min node.ports.outputs.length audioChans + 1)))
    fun c => ((n.outputs[c]?).map OutputBuffer.buffer).getD (output c)

/-- The final node after its function has left `n`. -/
def FinalNode.left (node : FinalNode) (n : Ports) : FinalNode where
  inlineId := node.inlineId
  ports :=
    { inputs := n.inputs
      outputs := n.outputs ++ node.ports.outputs.drop (min node.ports.outputs.length audioChans) }

section Final

variable (hplaying : e.playing = ksiEnginePlaying) (hnode : e.finalNode e.epoch = some node)
include hplaying hnode

theorem callback_ok (hrun : ksiNodeFuncWrapper k F node.inlineId
      (node.toDriver (min node.ports.outputs.length audioChans) output) = some (.ok (), n)) :
    ∃ e', ksiEngineAudioCallback k F e output = some (e', played F node n output) ∧
      e'.finalNode e.epoch = some (node.left n) := by
  unfold ksiEngineAudioCallback
  rw [hplaying]
  by_cases hepoch : e.epoch = e.audioEpoch
  · rw [hepoch] at hnode
    simp [hnode, hepoch, hrun, Playing.toInt, played, FinalNode.left]
  · simp [hnode, hepoch, hrun, Playing.toInt, played, FinalNode.left]

theorem callback_fault (hrun : ksiNodeFuncWrapper k F node.inlineId
      (node.toDriver (min node.ports.outputs.length audioChans) output) = none) :
    ksiEngineAudioCallback k F e output = none := by
  unfold ksiEngineAudioCallback
  rw [hplaying]
  by_cases hepoch : e.epoch = e.audioEpoch
  · rw [hepoch] at hnode
    simp [hnode, hepoch, hrun, Playing.toInt]
  · simp [hnode, hepoch, hrun, Playing.toInt]

/-- If the callback fills the channels, the node function has returned. -/
theorem Fills.run (h : Fills k F e) (output : Channels) :
    ∃ n, ksiNodeFuncWrapper k F node.inlineId
      (node.toDriver (min node.ports.outputs.length audioChans) output) = some (.ok (), n) := by
  cases hrun : ksiNodeFuncWrapper k F node.inlineId
    (node.toDriver (min node.ports.outputs.length audioChans) output) with
  | none =>
      have hsome := h.returns output
      rw [callback_fault hplaying hnode hrun] at hsome
      cases hsome
  | some r =>
      obtain ⟨r, n⟩ := r
      obtain e | ⟨⟩ := r
      · exact e.elim
      · exact ⟨n, rfl⟩

/-- A channel that comes out as it went in has not been filled. -/
theorem not_fills_of_kept (hF : 0 < F) {c : Nat} (hc : c < audioChans)
    (hkept : ∀ output n, ksiNodeFuncWrapper k F node.inlineId
      (node.toDriver (min node.ports.outputs.length audioChans) output) = some (.ok (), n) →
      played F node n output c 0 = output c 0) : ¬ Fills k F e := by
  intro h
  obtain ⟨n₀, hrun₀⟩ := h.run hplaying hnode fun _ _ => 0
  obtain ⟨n₁, hrun₁⟩ := h.run hplaying hnode fun _ _ => 1
  obtain ⟨e₀, hcall₀, -⟩ := callback_ok hplaying hnode hrun₀
  obtain ⟨e₁, hcall₁, -⟩ := callback_ok hplaying hnode hrun₁
  have hsame := h.stored _ _ _ _ _ _ hcall₀ hcall₁ c hc 0 hF
  rw [hkept _ _ hrun₀, hkept _ _ hrun₁] at hsame
  exact absurd hsame (by decide)

/-- The node functions that keep the second channel as it was. -/
theorem not_fills_of_secondKept (hF : 0 < F) (hout : 1 ≤ node.ports.outputs.length)
    (hkept : Within SecondKept (ksiNodeFuncWrapper k F node.inlineId)) : ¬ Fills k F e := by
  refine not_fills_of_kept hplaying hnode hF (c := 1) (by decide) fun output n hrun => ?_
  have hsecond := of_wp_ok (hkept _) hrun
  unfold SecondKept at hsecond
  unfold played clearChannels
  rw [if_neg]
  · simp only [hsecond, toDriver_outputs]
    split
    · cases node.ports.outputs[1]? with
      | none => rfl
      | some o => rfl
    · rfl
  · rw [List.mem_range'_1]
    unfold audioChans
    omega

end Final

/-! ### The pass-through node -/

/-- With more inputs than buffers for the outputs, the first store goes astray. -/
theorem ksiBuiltinNodeFuncId_fault (hF : 0 < F) (h : n.outputs.length < n.inputs.length) :
    ksiBuiltinNodeFuncId F n = none := by
  have hwp : wp True (ksiBuiltinNodeFuncId F) n (fun _ _ => False) fun _ _ => True := by
    unfold ksiBuiltinNodeFuncId
    rw [wp_bind, wp_read]
    refine ⟨fun _ => trivial, fun m hm => ?_⟩
    obtain rfl : n = m := Option.some.inj hm
    obtain ⟨F', hF'⟩ : ∃ F', F = F' + 1 := ⟨F - 1, by omega⟩
    obtain ⟨L, hL⟩ : ∃ L, n.inputs.length = L + 1 := ⟨n.inputs.length - 1, by omega⟩
    rw [hL, hF', List.range_succ_eq_map, List.range_succ, List.reverse_append]
    show wp True ((_ >>= _) : NodeFunc Unit) n _ _
    rw [wp_bind]
    show wp True ((_ >>= _) : NodeFunc Unit) n _ _
    rw [wp_bind, wp_bind, wp_getInput]
    refine ⟨fun _ => trivial, fun x _ => ?_⟩
    unfold store
    rw [wp_updateOutput]
    refine ⟨fun _ => trivial, fun o ho => ?_⟩
    have := (List.getElem?_eq_some_iff.mp ho).1
    omega
  cases hrun : ksiBuiltinNodeFuncId F n with
  | none => rfl
  | some r =>
      obtain ⟨r, n'⟩ := r
      obtain e | ⟨⟩ := r
      · exact e.elim
      · exact (of_wp_ok hwp hrun).elim

theorem id_run (hid : node.inlineId = 1) (hnode : BuiltIn node) (output : Channels)
    (hlen : node.ports.outputs.length ≤ 2) :
    ∃ n, ksiNodeFuncWrapper k F node.inlineId
        (node.toDriver (min node.ports.outputs.length audioChans) output) = some (.ok (), n) ∧
      SameTypes (node.toDriver (min node.ports.outputs.length audioChans) output) n ∧
      ∀ c < node.ports.outputs.length, ∀ i < F,
        (n.outputs[c]?).map (fun o => o.buffer i) = ksiNodeGetInput node.ports F c i := by
  have hports := hnode.ports
  rw [if_pos hid] at hports
  obtain ⟨r, n, hr, hok, -⟩ := exists_of_wp (ksiBuiltinNodeFuncId_wp (F := F)
    (n := node.toDriver (min node.ports.outputs.length audioChans) output)
    (E := fun _ _ => True) hnode.readable (by
      unfold FinalNode.toDriver audioChans
      simp
      omega))
  obtain e | ⟨⟩ := r
  · exact e.elim
  · obtain ⟨hsame, hfilled⟩ := hok () rfl
    refine ⟨n, by rw [hid]; exact hr, hsame, fun c hc i hi => ?_⟩
    rw [hfilled c (by show c < node.ports.inputs.length; omega) i hi]
    exact ksiNodeGetInput_congr rfl

/-- **The pass-through node** fills the channels if it has two ports that pass on what a
consumer sees. -/
theorem fills_id_iff (hF : 0 < F) (hplaying : e.playing = ksiEnginePlaying)
    (hnode : e.finalNode e.epoch = some node) (hbuilt : BuiltIn node) (hid : node.inlineId = 1) :
    Fills k F e ↔ node.ports.outputs.length = 2 ∧
      ∀ c o, node.ports.outputs[c]? = some o → isDirty o.type = true ∨
        ∀ i < F, ksiNodeGetInput node.ports F c i = some 0 ∨
          ksiNodeGetInput node.ports F c i = ksiNodeGetInput node.ports F c (F - 1) := by
  have hports := hbuilt.ports
  rw [if_pos hid] at hports
  rcases Nat.lt_trichotomy node.ports.outputs.length 2 with hlt | heq | hgt
  · -- the channel after the last port is neither a port's nor cleared
    constructor
    · intro h
      refine absurd h (not_fills_of_kept hplaying hnode hF (c := node.ports.outputs.length) hlt
        fun output n hrun => ?_)
      obtain ⟨n', hrun', hsame, -⟩ := id_run (k := k) (F := F) hid hbuilt output (by omega)
      rw [hrun'] at hrun
      obtain rfl : n' = n := by
        cases hrun
        rfl
      have hnone : n'.outputs[node.ports.outputs.length]? = none := by
        have htype := hsame.types node.ports.outputs.length
        rw [toDriver_outputs, if_neg (by omega)] at htype
        exact Option.map_eq_none_iff.mp htype
      unfold played clearChannels
      rw [if_neg]
      · simp only [hnone]
        rfl
      · rw [List.mem_range'_1]
        unfold audioChans
        omega
    · intro h
      omega
  · have hmin : min node.ports.outputs.length audioChans = 2 := by
      rw [heq]
      rfl
    -- what the call leaves
    have hcall : ∀ output, ∃ n e', ksiEngineAudioCallback k F e output =
          some (e', played F node n output) ∧ e'.finalNode e.epoch = some (node.left n) ∧
        (∀ c < 2, ∀ i < F, some (played F node n output c i) =
          ksiNodeGetInput node.ports F c i) ∧
        ∀ c < 2, ∀ o, node.ports.outputs[c]? = some o → ∀ i < F,
          (node.left n).ports.visible F c i = if isDirty o.type
            then ksiNodeGetInput node.ports F c i else ksiNodeGetInput node.ports F c (F - 1) := by
      intro output
      obtain ⟨n, hrun, hsame, hfilled⟩ := id_run (k := k) (F := F) hid hbuilt output (by omega)
      obtain ⟨e', hcall, hleft⟩ := callback_ok hplaying hnode hrun
      have hout : ∀ c < 2, ∀ o, node.ports.outputs[c]? = some o →
          ∃ o', n.outputs[c]? = some o' ∧ o'.type = o.type := by
        intro c hc o ho
        have htype := hsame.types c
        rw [toDriver_outputs, if_pos (by omega), ho] at htype
        obtain ⟨o', ho', htype⟩ := Option.map_eq_some_iff.mp htype
        exact ⟨o', ho', htype⟩
      refine ⟨n, e', hcall, hleft, fun c hc i hi => ?_, fun c hc o ho i hi => ?_⟩
      · have hlt : c < node.ports.outputs.length := by omega
        obtain ⟨o', ho', -⟩ := hout c hc _ (List.getElem?_eq_getElem hlt)
        have hfill := hfilled c hlt i hi
        rw [ho'] at hfill
        unfold played clearChannels
        rw [if_neg]
        · simp only [ho']
          exact hfill
        · rw [hmin]
          simp [audioChans]
      · obtain ⟨o', ho', htype⟩ := hout c hc o ho
        have hget : (node.left n).ports.outputs[c]? = some o' := by
          show (n.outputs ++ _)[c]? = some o'
          rw [List.getElem?_append_left (List.getElem?_eq_some_iff.mp ho').1, ho']
        have hvalue : ∀ j < F, some (o'.buffer j) = ksiNodeGetInput node.ports F c j := by
          intro j hj
          rw [← hfilled c (by omega) j hj, ho']
          rfl
        unfold Ports.visible OutputBuffer.visible
        rw [hget, Option.map_some, htype]
        split
        · exact hvalue i hi
        · exact hvalue (F - 1) (by omega)
    constructor
    · intro h
      refine ⟨heq, fun c o ho => ?_⟩
      have hc : c < 2 := heq ▸ (List.getElem?_eq_some_iff.mp ho).1
      by_cases hdirty : isDirty o.type = true
      · exact .inl hdirty
      · refine .inr fun i hi => ?_
        obtain ⟨n, e', hret, hleft, hplayed, hvisible⟩ := hcall fun _ _ => 0
        rcases h.value _ _ _ hret c hc i hi with hzero | ⟨node', hnode', hsee⟩
        · exact .inl (by rw [← hplayed c hc i hi, hzero])
        · rw [hleft] at hnode'
          obtain rfl := Option.some.inj hnode'
          rw [hvisible c hc o ho i hi, if_neg hdirty, hplayed c hc i hi] at hsee
          exact .inr hsee.symm
    · intro h
      obtain ⟨-, h⟩ := h
      refine ⟨fun output => ?_, fun output output' e₁ e₂ out out' h₁ h₂ c hc i hi => ?_,
        fun output e₁ out h₁ c hc i hi => ?_⟩
      · obtain ⟨n, e', hret, -⟩ := hcall output
        rw [hret]
        rfl
      · obtain ⟨n, e', hret, -, hplayed, -⟩ := hcall output
        obtain ⟨n', e'', hret', -, hplayed', -⟩ := hcall output'
        rw [hret] at h₁
        rw [hret'] at h₂
        cases h₁
        cases h₂
        exact Option.some.inj ((hplayed c hc i hi).trans (hplayed' c hc i hi).symm)
      · obtain ⟨n, e', hret, hleft, hplayed, hvisible⟩ := hcall output
        rw [hret] at h₁
        cases h₁
        have hlt : c < node.ports.outputs.length := by
          rw [heq]
          exact hc
        have ho := List.getElem?_eq_getElem hlt
        have hsee := hvisible c hc _ ho i hi
        rcases h c _ ho with hdirty | hsteady
        · rw [if_pos hdirty, ← hplayed c hc i hi] at hsee
          exact .inr ⟨_, hleft, hsee⟩
        · rcases hsteady i hi with hzero | hlast
          · rw [← hplayed c hc i hi] at hzero
            exact .inl (Option.some.inj hzero)
          · refine .inr ⟨_, hleft, ?_⟩
            rw [hsee, ← hlast, ite_self, hplayed c hc i hi]
  · constructor
    · intro h
      obtain ⟨n, hrun⟩ := h.run hplaying hnode fun _ _ => 0
      have hfault : ksiBuiltinNodeFuncId F
          (node.toDriver (min node.ports.outputs.length audioChans) fun _ _ => 0) = none := by
        refine ksiBuiltinNodeFuncId_fault hF ?_
        unfold FinalNode.toDriver audioChans
        simp
        omega
      rw [hid] at hrun
      exact absurd (hfault.symm.trans hrun) (by simp)
    · intro h
      omega

/-! ### The envelope -/

/-- A sounding envelope stores every frame of both outputs, and announces them. -/
theorem kscarletADSR_wp (hsounding : k.sounding = true) (hout : 2 ≤ n.outputs.length) :
    wp False (kscarletADSR k F) n (fun _ n' => n'.OutputDirty 0 ∧ n'.OutputDirty 1 ∧
      Filled n' 0 (· < F) (fun i => some (k.envelope i).1) ∧
      Filled n' 1 (· < F) fun i => some (k.envelope i).2) E := by
  unfold kscarletADSR
  rw [hsounding, if_neg (by simp), wp_bind]
  have hloop := wp_forRange (d := False) (E := E) (s := n) (n := F)
    (f := fun i => store 0 i (k.envelope i).1 >>= fun _ => store 1 i (k.envelope i).2)
    (fun i (n' : Ports) => SameTypes n n' ∧ Filled n' 0 (· < i) (fun i => some (k.envelope i).1) ∧
      Filled n' 1 (· < i) fun i => some (k.envelope i).2) ?_
    ⟨.refl n, fun i hi => absurd hi (Nat.not_lt_zero i), fun i hi => absurd hi (Nat.not_lt_zero i)⟩
  · refine wp_mono hloop (fun _ n₁ h₁ => ?_) fun _ _ hE => hE
    obtain ⟨hsame, hfilled₀, hfilled₁⟩ := h₁
    obtain ⟨o₀, ho₀⟩ := hsame.output (show 0 < n.outputs.length by omega)
    obtain ⟨o₁, ho₁⟩ := hsame.output (show 1 < n.outputs.length by omega)
    unfold setDirty
    rw [wp_bind, wp_updateOutput, ho₀]
    refine ⟨fun h => (by cases h), fun _ _ => ?_⟩
    have hother :
      (n₁.updateOutput 0 fun o => { o with type := ksiNodePortIOSetDirty o.type }).outputs[1]? =
        some o₁ := by
      rw [Ports.updateOutput_outputs, if_neg Nat.zero_ne_one, ho₁]
    rw [wp_updateOutput, hother]
    refine ⟨fun h => (by cases h), fun _ _ =>
      ⟨⟨{ o₀ with type := ksiNodePortIOSetDirty o₀.type }, ?_, isDirty_setDirty _⟩,
      ⟨_, Ports.output_type (f := ksiNodePortIOSetDirty) hother, isDirty_setDirty _⟩,
      hfilled₀.type.other Nat.one_ne_zero, (hfilled₁.other Nat.zero_ne_one).type⟩⟩
    rw [Ports.updateOutput_outputs, if_neg Nat.one_ne_zero,
      Ports.output_type (f := ksiNodePortIOSetDirty) ho₀]
  · rintro i n₁ hi ⟨hsame, hfilled₀, hfilled₁⟩
    obtain ⟨o₀, ho₀⟩ := hsame.output (show 0 < n.outputs.length by omega)
    unfold store
    rw [wp_bind, wp_updateOutput, ho₀]
    refine ⟨fun h => (by cases h), fun _ _ => ?_⟩
    have hsame' : SameTypes n (n₁.updateOutput 0 fun o =>
        { o with buffer := Function.update o.buffer i (k.envelope i).1 }) := hsame.store _
    obtain ⟨o₁, ho₁⟩ := hsame'.output (show 1 < n.outputs.length by omega)
    rw [wp_updateOutput, ho₁]
    refine ⟨fun h => (by cases h), fun _ _ => ⟨hsame'.store _, fun i' hi' => ?_, fun i' hi' => ?_⟩⟩
    · exact (hfilled₀.store ho₀ rfl).other Nat.one_ne_zero i' (by omega)
    · exact (hfilled₁.other Nat.zero_ne_one).store ho₁ rfl i' (by omega)

/-- Two ports that are stored throughout and announced fill the channels. -/
theorem fills_of_dirty (hplaying : e.playing = ksiEnginePlaying)
    (hnode : e.finalNode e.epoch = some node) (hout : 2 ≤ node.ports.outputs.length)
    (value : Nat → Nat → KsiData)
    (hrun : ∀ output, ∃ n, ksiNodeFuncWrapper k F node.inlineId
        (node.toDriver (min node.ports.outputs.length audioChans) output) = some (.ok (), n) ∧
      ∀ c < audioChans, n.OutputDirty c ∧ Filled n c (· < F) fun i => some (value c i)) :
    Fills k F e := by
  have hcall : ∀ output, ∃ n e', ksiEngineAudioCallback k F e output =
        some (e', played F node n output) ∧ e'.finalNode e.epoch = some (node.left n) ∧
      ∀ c < audioChans, ∀ i < F, played F node n output c i = value c i ∧
        (node.left n).ports.visible F c i = some (value c i) := by
    intro output
    obtain ⟨n, hr, hports⟩ := hrun output
    obtain ⟨e', hret, hleft⟩ := callback_ok hplaying hnode hr
    refine ⟨n, e', hret, hleft, fun c hc i hi => ?_⟩
    obtain ⟨⟨o, ho, hdirty⟩, hfilled⟩ := hports c hc
    have hvalue := hfilled i hi
    rw [ho, Option.map_some] at hvalue
    have hget : (node.left n).ports.outputs[c]? = some o := by
      show (n.outputs ++ _)[c]? = some o
      rw [List.getElem?_append_left (List.getElem?_eq_some_iff.mp ho).1, ho]
    refine ⟨?_, ?_⟩
    · have hmin : min node.ports.outputs.length audioChans = 2 := Nat.min_eq_right hout
      unfold played clearChannels
      rw [hmin, if_neg (by simp [audioChans])]
      simp only [ho]
      exact Option.some.inj hvalue
    · unfold Ports.visible OutputBuffer.visible
      rw [hget, Option.map_some, if_pos hdirty, hvalue]
  refine ⟨fun output => ?_, fun output output' e₁ e₂ out out' h₁ h₂ c hc i hi => ?_,
    fun output e₁ out h₁ c hc i hi => ?_⟩
  · obtain ⟨n, e', hret, -⟩ := hcall output
    rw [hret]
    rfl
  · obtain ⟨n, e', hret, -, hvalue⟩ := hcall output
    obtain ⟨n', e'', hret', -, hvalue'⟩ := hcall output'
    rw [hret] at h₁
    rw [hret'] at h₂
    cases h₁
    cases h₂
    exact (hvalue c hc i hi).1.trans (hvalue' c hc i hi).1.symm
  · obtain ⟨n, e', hret, hleft, hvalue⟩ := hcall output
    rw [hret] at h₁
    cases h₁
    exact .inr ⟨_, hleft, by rw [(hvalue c hc i hi).1, (hvalue c hc i hi).2]⟩

/-- **The envelope** fills the channels exactly while it sounds. -/
theorem fills_adsr_iff (hF : 0 < F) (hplaying : e.playing = ksiEnginePlaying)
    (hnode : e.finalNode e.epoch = some node) (hbuilt : BuiltIn node) (hid : node.inlineId = 5) :
    Fills k F e ↔ k.sounding = true := by
  have hout : node.ports.outputs.length = 2 := by
    have hports := hbuilt.ports
    rw [hid, if_neg (by decide)] at hports
    have hlen := congrArg (Option.map Prod.snd) hports
    exact (Option.some.inj hlen).symm
  constructor
  · intro h
    by_contra hsilent
    refine not_fills_of_secondKept hplaying hnode hF (by omega) ?_ h
    rw [hid]
    exact kscarletADSR_secondKept (Bool.eq_false_iff.mpr hsilent)
  · intro hsounding
    refine fills_of_dirty hplaying hnode (by omega)
      (fun c i => if c = 0 then (k.envelope i).1 else (k.envelope i).2) fun output => ?_
    obtain ⟨r, n, hr, hok, -⟩ := exists_of_wp (kscarletADSR_wp (F := F) (E := fun _ _ => True)
      (n := node.toDriver (min node.ports.outputs.length audioChans) output) hsounding (by
        unfold FinalNode.toDriver audioChans
        simp
        omega))
    obtain e | ⟨⟩ := r
    · exact e.elim
    · obtain ⟨hdirty₀, hdirty₁, hfilled₀, hfilled₁⟩ := hok () rfl
      refine ⟨n, by rw [hid]; exact hr, fun c hc => ?_⟩
      obtain rfl | rfl : c = 0 ∨ c = 1 := by
        unfold audioChans at hc
        omega
      · exact ⟨hdirty₀, hfilled₀⟩
      · exact ⟨hdirty₁, hfilled₁⟩

/-! ### Every engine -/

/-- A paused engine, and one without a final node, clears both channels. -/
theorem fills_of_cleared (hplaying : 0 < e.playing.toInt)
    (h : e.playing = ksiEnginePaused ∨ e.finalNode e.epoch = none) : Fills k F e := by
  have hcall : ∀ output, ∃ e', ksiEngineAudioCallback k F e output =
      some (e', clearChannels F (List.range audioChans) output) := by
    intro output
    unfold ksiEngineAudioCallback
    simp only [not_not.mpr hplaying, if_false]
    by_cases hpaused : e.playing = ksiEnginePaused
    · by_cases hepoch : e.epoch = e.audioEpoch
      · simp [hpaused, hepoch]
      · simp [hpaused, hepoch]
    · have hnone := h.resolve_left hpaused
      by_cases hepoch : e.epoch = e.audioEpoch
      · rw [hepoch] at hnone
        simp [hpaused, hepoch, hnone]
      · simp [hpaused, hepoch, hnone]
  have hzero : ∀ output, ∀ c < audioChans, ∀ i < F,
      clearChannels F (List.range audioChans) output c i = 0 := by
    intro output c hc i hi
    unfold clearChannels
    rw [if_pos ⟨List.mem_range.mpr hc, hi⟩]
  refine ⟨fun output => ?_, fun output output' e₁ e₂ out out' h₁ h₂ c hc i hi => ?_,
    fun output e₁ out h₁ c hc i hi => ?_⟩
  · obtain ⟨e', hret⟩ := hcall output
    rw [hret]
    rfl
  · obtain ⟨e', hret⟩ := hcall output
    obtain ⟨e'', hret'⟩ := hcall output'
    rw [hret] at h₁
    rw [hret'] at h₂
    cases h₁
    cases h₂
    rw [hzero output c hc i hi, hzero output' c hc i hi]
  · obtain ⟨e', hret⟩ := hcall output
    rw [hret] at h₁
    cases h₁
    exact .inl (hzero output c hc i hi)

/-- A plugin has an output. -/
theorem inlinePorts_outputs {id : Nat} {p : List PortType × List PortType}
    (h : inlinePorts id = some p) : 1 ≤ p.2.length := by
  unfold inlinePorts at h
  split at h <;> cases h <;> decide

theorem playing_cases (hplaying : 0 < e.playing.toInt) :
    e.playing = ksiEnginePaused ∨ e.playing = ksiEnginePlaying := by
  cases hp : e.playing <;> simp_all [Playing.toInt]

/-- **The callback fills the channels** exactly if the engine is paused, has no final node,
or has one that covers both. -/
theorem fills_iff (k : Sounds) (frameCount : Nat) (hF : 0 < frameCount) (e : AudioEngine)
    (hplaying : 0 < e.playing.toInt)
    (hbuilt : ∀ node, e.finalNode e.epoch = some node → BuiltIn node) :
    Fills k frameCount e ↔ e.playing = ksiEnginePaused ∨ e.finalNode e.epoch = none ∨
      ∃ node, e.finalNode e.epoch = some node ∧ Covers k frameCount node := by
  rcases playing_cases hplaying with hpaused | hplays
  · exact iff_of_true (fills_of_cleared hplaying (.inl hpaused)) (.inl hpaused)
  cases hnode : e.finalNode e.epoch with
  | none => exact iff_of_true (fills_of_cleared hplaying (.inr hnode)) (.inr (.inl rfl))
  | some node =>
      have hb := hbuilt node hnode
      have hright : (e.playing = ksiEnginePaused ∨ some node = none ∨
          ∃ node', some node = some node' ∧ Covers k frameCount node') ↔
            Covers k frameCount node := by
        simp [hplays]
      rw [hright]
      by_cases hid₁ : node.inlineId = 1
      · rw [fills_id_iff hF hplays hnode hb hid₁]
        simp [Covers, hid₁]
      by_cases hid₅ : node.inlineId = 5
      · rw [fills_adsr_iff hF hplays hnode hb hid₅]
        simp [Covers, hid₅]
      have hid := hb.id
      have hcases : node.inlineId = 2 ∨ node.inlineId = 3 ∨ node.inlineId = 4 ∨
        node.inlineId = 6 := by
        omega
      have hout : 1 ≤ node.ports.outputs.length := by
        have hports := hb.ports
        rw [if_neg hid₁] at hports
        obtain ⟨p, hp, hlen⟩ := Option.map_eq_some_iff.mp hports
        have hsnd : p.2.length = node.ports.outputs.length := congrArg Prod.snd hlen
        rw [← hsnd]
        exact inlinePorts_outputs hp
      refine iff_of_false (not_fills_of_secondKept hplays hnode hF hout
        (ksiNodeFuncWrapper_secondKept hcases)) ?_
      simp [Covers, hid₁, hid₅]

/-- An engine that plays `node`. -/
def playingEngine (node : FinalNode) : AudioEngine where
  framesPerBuffer := 0
  playing := ksiEnginePlaying
  epoch := 0
  audioEpoch := 0
  migrated := 0
  finalNode := fun i => if i = 0 then some node else none
  timeStamp := 0

/-- A pass-through node with as many inputs as outputs. -/
def idNode (ports : Nat) : FinalNode where
  inlineId := 1
  ports := stairPorts ports ports

theorem idNode_builtIn (ports : Nat) : BuiltIn (idNode ports) := by
  refine ⟨⟨le_rfl, Nat.le_of_ble_eq_true rfl⟩, stairPorts_readable ports ports, ?_⟩
  rw [if_pos (show (idNode ports).inlineId = 1 from rfl)]
  simp [idNode, stairPorts]

theorem fills_iff_idNode :
    Fills silence 2 (playingEngine (idNode 1)) ↔
      (playingEngine (idNode 1)).playing = ksiEnginePaused ∨
      (playingEngine (idNode 1)).finalNode (playingEngine (idNode 1)).epoch = none ∨
      ∃ node, (playingEngine (idNode 1)).finalNode (playingEngine (idNode 1)).epoch = some node ∧
        Covers silence 2 node :=
  fills_iff silence 2 (by decide) (playingEngine (idNode 1)) (by decide) fun node hnode => by
    obtain rfl : idNode 1 = node := Option.some.inj hnode
    exact idNode_builtIn 1

/-- With one port, the second channel is played as it was. -/
theorem not_fills : ¬ ∀ (k : Sounds) (frameCount : Nat) (e : AudioEngine), 0 < frameCount →
    0 < e.playing.toInt → (∀ node, e.finalNode e.epoch = some node → BuiltIn node) →
    Fills k frameCount e := by
  intro h
  have hfills := h silence 2 (playingEngine (idNode 1)) (by decide) (by decide) fun node hnode => by
    obtain rfl : idNode 1 = node := Option.some.inj hnode
    exact idNode_builtIn 1
  have hsecond : ∀ x : KsiData, ((ksiEngineAudioCallback silence 2 (playingEngine (idNode 1))
      fun _ _ => x).map fun r => r.2 1 0) = some x := fun x => rfl
  obtain ⟨⟨e₀, out₀⟩, hcall₀, hout₀⟩ := Option.map_eq_some_iff.mp (hsecond 0)
  obtain ⟨⟨e₁, out₁⟩, hcall₁, hout₁⟩ := Option.map_eq_some_iff.mp (hsecond 1)
  have hsame := hfills.stored _ _ _ _ _ _ hcall₀ hcall₁ 1 (by decide) 0 (by decide)
  have hval₀ : out₀ 1 0 = 0 := hout₀
  have hval₁ : out₁ 1 0 = 1 := hout₁
  rw [hval₀, hval₁] at hsame
  exact absurd hsame (by decide)

end Ksi.Audio

/-
The plugins of kscarlet are one set of functions.

`Ksi.Audio` has the samples and the bits that they store, and takes what they compute as a
parameter, `Sounds`.  `Scarlet` has what they compute, and `Players` what the note player
points to.  Here each is shown to be the part of one function: whatever a plugin computes in
a call, there are `Sounds` with which the function of `Ksi.Audio` leaves the same ports; and
a player that `Players` sees through a call has the same cursor in `Scarlet`, over the notes
of its tree.  So what holds of a cycle for any `Sounds` holds of the plugins.
-/
import Ksi.Dag.Kernels
import Ksi.Proofs.Audio.Envelope
import Ksi.Proofs.Audio.NotePlayer
import Ksi.Proofs.Audio.Oscillator
import Ksi.Proofs.Audio.Players
import Mathlib.Data.List.Nodup

namespace Ksi.Audio.Scarlet

open Ksi.Dag Stage Prog

variable {f : Floats} {k : Sounds} {bufsize timeStamp : Nat} {n : NodePtr} {p : Ports} {port : Nat}

/-! ### Stores -/

/-- The output `port` is there. -/
def HasOutput (port : Nat) (p : Ports) : Prop := port < p.outputs.length

theorem HasOutput.updateOutput {port' : Nat} (h : HasOutput port p)
    (g : OutputBuffer → OutputBuffer) : HasOutput port (p.updateOutput port' g) := by
  unfold HasOutput Ports.updateOutput
  rw [List.length_modify]
  exact h

theorem updateOutput_run (h : HasOutput port p) (g : OutputBuffer → OutputBuffer) :
    updateOutput port g p = some (.ok (), p.updateOutput port g) := by
  obtain ⟨o, ho⟩ : ∃ o, p.outputs[port]? = some o := ⟨_, List.getElem?_eq_getElem h⟩
  have hread : (Prog.read fun n => n.outputs[port]? : NodeFunc OutputBuffer) p = some (.ok o, p) :=
    read_of_some ho
  exact bind_of_ok hread _

theorem store_run (h : HasOutput port p) (i : Nat) (x : KsiData) :
    store port i x p = some (.ok (), storeAt p port i x) := updateOutput_run h _

theorem setDirty_run (h : HasOutput port p) : setDirty port p = some (.ok (), setDirtyAt p port) :=
  updateOutput_run h _

theorem clear_run (h : HasOutput port p) : clear port p = some (.ok (), clearAt p port) :=
  updateOutput_run h _

/-! ### The envelope -/

/-- The samples that are stored at the end of a frame. -/
def AdsrEnv.samples (env : AdsrEnv) : KsiData × KsiData :=
  if env.currentStage ≠ stageHalt then (env.currentMod, 0) else (0, 1)

/-- A frame stores the samples of the state it leaves. -/
theorem Adsr.frame_ports (s : Adsr) (i : Nat) :
    (s.frame f bufsize timeStamp n i).ports =
      storeAt (storeAt s.ports 0 i (s.frame f bufsize timeStamp n i).env.samples.1) 1 i
        (s.frame f bufsize timeStamp n i).env.samples.2 := by
  have hports : (s.examine f (fun port => input s.ports bufsize port i) timeStamp n i).ports =
      s.ports := by
    unfold Adsr.examine
    split
    · rfl
    · split <;> rfl
  unfold Adsr.frame AdsrEnv.samples
  dsimp only
  rw [hports]
  split
  · rfl
  · rfl

/-- What ADSR plays in a call. -/
def adsrSounds (k : Sounds) (f : Floats) (bufsize timeStamp : Nat) (n : NodePtr) (s : Adsr) :
    Sounds :=
  { k with
    sounding := ¬ ((s.env.currentStage = stageHalt ∨ s.env.currentStage = stageSustain) ∧
      s.nextEvent = none)
    envelope := fun i => (s.run f bufsize timeStamp n (i + 1)).env.samples }

/-- Both outputs are there. -/
def HasOutputs (p : Ports) : Prop := HasOutput 0 p ∧ HasOutput 1 p

theorem HasOutputs.updateOutput (h : HasOutputs p) (g : OutputBuffer → OutputBuffer) :
    HasOutputs (p.updateOutput port g) := ⟨h.1.updateOutput g, h.2.updateOutput g⟩

/-- After `m` frames the samples of the states so far have been stored. -/
theorem Adsr.run_ports (s : Adsr) (m : Nat) :
    (s.run f bufsize timeStamp n m).ports = (List.range m).foldl (fun p i =>
      storeAt (storeAt p 0 i (s.run f bufsize timeStamp n (i + 1)).env.samples.1) 1 i
        (s.run f bufsize timeStamp n (i + 1)).env.samples.2) s.ports := by
  induction m with
  | zero => rfl
  | succ m ih =>
      rw [List.range_succ, List.foldl_append, ← ih, Adsr.run_succ, Adsr.frame_ports]
      rw [List.foldl_cons, List.foldl_nil, Adsr.run_succ]

/-- **The envelope** leaves in the ports what `Ksi.Audio.kscarletADSR` does with what it
plays. -/
theorem kscarletADSR_sounds (env : AdsrEnv) (memory : EventMemory) (hp : HasOutputs p) :
    Audio.kscarletADSR (adsrSounds k f bufsize timeStamp n (Adsr.begin env memory n p)) bufsize p =
      some (.ok (), (kscarletADSR f bufsize timeStamp n env memory p).ports) := by
  by_cases hidle : (env.currentStage = stageHalt ∨ env.currentStage = stageSustain) ∧
      ((memory.ksiNodeBeginIterateEvent n 0).ksiNodeGetNextEvent n 0).1 = none
  · have hsounding : (adsrSounds k f bufsize timeStamp n (Adsr.begin env memory n p)).sounding =
        false := decide_eq_false (not_not_intro hidle)
    have hports : (kscarletADSR f bufsize timeStamp n env memory p).ports =
        clearAt (clearAt p 0) 1 := congrArg Adsr.ports (if_pos hidle)
    unfold Audio.kscarletADSR
    rw [hsounding, if_pos Bool.false_ne_true, bind_of_ok (clear_run hp.1), hports]
    exact clear_run (hp.updateOutput _).2
  · have hsounding : (adsrSounds k f bufsize timeStamp n (Adsr.begin env memory n p)).sounding =
        true := decide_eq_true hidle
    have hports : (kscarletADSR f bufsize timeStamp n env memory p).ports =
        setDirtyAt (setDirtyAt
          ((Adsr.begin env memory n p).run f bufsize timeStamp n bufsize).ports 0) 1 :=
      congrArg Adsr.ports (if_neg hidle)
    unfold Audio.kscarletADSR
    rw [hsounding, if_neg (not_not.mpr rfl), hports, Adsr.run_ports]
    obtain ⟨hloop, hlast⟩ := forEach_eq_foldl (I := HasOutputs)
      (f := fun i => do
        store 0 i
          ((adsrSounds k f bufsize timeStamp n (Adsr.begin env memory n p)).envelope i).1
        store 1 i
          ((adsrSounds k f bufsize timeStamp n (Adsr.begin env memory n p)).envelope i).2)
      (fun i p hp => ⟨(bind_of_ok (store_run hp.1 _ _) _).trans
        (store_run (hp.updateOutput _).2 _ _), (hp.updateOutput _).updateOutput _⟩)
      (List.range bufsize) p hp
    rw [bind_of_ok hloop, bind_of_ok (setDirty_run hlast.1)]
    exact setDirty_run (hlast.updateOutput _).2

/-! ### The note player -/

theorem play_ports {tree : Notes} {i : Nat} : ∀ (fuel : Nat) {s s' : MidiSeg} {next next' : Int},
    MidiSeg.play tree timeStamp n i fuel s next = some (s', next') → s'.ports = s.ports := by
  intro fuel
  induction fuel with
  | zero =>
      intro s s' next next' h
      unfold MidiSeg.play at h
      split at h
      · cases h
        rfl
      · cases h
  | succ fuel ih =>
      intro s s' next next' h
      unfold MidiSeg.play at h
      split at h
      · cases h
        rfl
      · split at h
        · rename_i heq _
          obtain rfl := Nat.succ.inj heq
          have hports := ih h
          exact hports
        · cases h

/-- The loop over the frames stores one sample at each. -/
theorem frames_ports {tree : Notes} {fuel : Nat} : ∀ {l : List Nat} {s s' : MidiSeg} {next : Int},
    l.Nodup → MidiSeg.frames tree timeStamp n fuel l s next = some s' →
    ∃ freq : Nat → KsiData, s'.ports = l.foldl (fun p i => storeAt p 0 i (freq i)) s.ports := by
  intro l
  induction l with
  | nil =>
      intro s s' next _ h
      cases h
      exact ⟨fun _ => 0, rfl⟩
  | cons i rest ih =>
      intro s s' next hnodup h
      obtain ⟨hnot, hrest⟩ := List.nodup_cons.mp hnodup
      obtain ⟨⟨s₁, next₁⟩, hplay, h⟩ := Option.bind_eq_some_iff.mp h
      obtain ⟨freq, hfreq⟩ := ih hrest h
      refine ⟨Function.update freq i s₁.freq, ?_⟩
      rw [hfreq, List.foldl_cons, Function.update_self, play_ports fuel hplay]
      refine List.foldl_ext _ _ _ fun p j hj => ?_
      rw [Function.update_of_ne fun heq : j = i => hnot (heq ▸ hj)]

/-- **The note player** leaves in the ports what `Ksi.Audio.kscarletMidiSeg` does with the
frequencies that it plays. -/
theorem kscarletMidiSeg_sounds {tree : Option Notes} {fuel : Nat} {s s' : MidiSeg}
    (h : kscarletMidiSeg tree fuel bufsize timeStamp n s = some s') (hp : HasOutputs s.ports) :
    ∃ playing freq, Audio.kscarletMidiSeg { k with playing := playing, freq := freq } bufsize
      s.ports = some (.ok (), s'.ports) := by
  have hbypass : ∀ s₁ : MidiSeg, s₁.ports = s.ports →
      Audio.kscarletMidiSeg { k with playing := false, freq := fun _ => s₁.freq } bufsize s.ports =
        some (.ok (), (s₁.bypass bufsize).ports) := by
    intro s₁ hports
    have hstored := store_run hp.1 (bufsize - 1) s₁.freq
    refine (bind_of_ok hstored _).trans ((clear_run (hp.updateOutput _).2).trans ?_)
    rw [← hports]
    rfl
  cases tree with
  | none =>
      cases h
      exact ⟨false, _, hbypass s rfl⟩
  | some tree =>
      rw [kscarletMidiSeg_eq] at h
      have hlookup : (s.lookup tree timeStamp).ports = s.ports := by
        unfold MidiSeg.lookup
        split <;> rfl
      split at h
      · cases h
        exact ⟨false, _, hbypass _ hlookup⟩
      · split at h
        · cases h
          exact ⟨false, _, hbypass _ hlookup⟩
        · obtain ⟨s₁, hframes, rfl⟩ := Option.map_eq_some_iff.mp h
          obtain ⟨freq, hfreq⟩ := frames_ports List.nodup_range hframes
          refine ⟨true, freq, ?_⟩
          obtain ⟨hloop, hlast⟩ := forEach_eq_foldl (I := HasOutputs)
            (f := fun i => store 0 i (freq i))
            (fun i p hp => ⟨store_run hp.1 i (freq i), hp.updateOutput _⟩)
            (List.range bufsize) s.ports hp
          refine (bind_of_ok hloop _).trans ?_
          refine (setDirty_run hlast.2).trans ?_
          show _ = some (Except.ok (), setDirtyAt s₁.ports 1)
          rw [hfreq]
          dsimp only
          rw [hlookup]

/-! ### The oscillator -/

/-- The oscillator after `m` frames. -/
def Wavetable.run (f : Floats) (bufsize : Nat) (s : Wavetable) (m : Nat) : Wavetable :=
  (List.range m).foldl (Wavetable.frame f bufsize) s

theorem Wavetable.run_succ (s : Wavetable) (m : Nat) :
    s.run f bufsize (m + 1) = (s.run f bufsize m).frame f bufsize m := by
  unfold Wavetable.run
  rw [List.range_succ, List.foldl_append]
  rfl

/-- The sample of a frame, if the gate is open and the waveform has one. -/
def Wavetable.sample (f : Floats) (bufsize : Nat) (p : Ports) (i : Nat) (pos : KsiData) :
    Option KsiData :=
  if input p bufsize 1 i ≠ 0 then none
  else f.wave (input p bufsize 2 i) (input p bufsize 3 i) pos

/-- The sample is stored, if there is one. -/
def storeSome (p : Ports) (port i : Nat) : Option KsiData → Ports
  | none => p
  | some x => storeAt p port i x

/-- A frame stores the sample at the position it leaves. -/
theorem Wavetable.frame_ports (s : Wavetable) (i : Nat) :
    (s.frame f bufsize i).ports = storeSome s.ports 0 i
      (Wavetable.sample f bufsize s.ports i (s.frame f bufsize i).currentPos) := by
  unfold Wavetable.frame Wavetable.sample
  by_cases hgate : input s.ports bufsize 1 i ≠ 0
  · rw [if_pos hgate, if_pos hgate]
    rfl
  · rw [if_neg hgate, if_neg hgate]
    dsimp only
    split
    · rename_i hwave
      rw [hwave]
      rfl
    · rename_i x hwave
      rw [hwave]
      rfl

theorem Wavetable.run_inputs (s : Wavetable) (m : Nat) :
    (s.run f bufsize m).ports.inputs = s.ports.inputs := by
  induction m with
  | zero => rfl
  | succ m ih =>
      rw [Wavetable.run_succ, Wavetable.frame_ports, ← ih]
      cases Wavetable.sample f bufsize _ m _ with
      | none => rfl
      | some x => rfl

theorem input_congr {p' : Ports} (h : p'.inputs = p.inputs) (port i : Nat) :
    input p' bufsize port i = input p bufsize port i := by
  unfold input
  rw [ksiNodeGetInput_congr h]

/-- After `m` frames the samples so far have been stored. -/
theorem Wavetable.run_ports (s : Wavetable) (m : Nat) :
    (s.run f bufsize m).ports = (List.range m).foldl (fun p i => storeSome p 0 i
      (Wavetable.sample f bufsize s.ports i (s.run f bufsize (i + 1)).currentPos)) s.ports := by
  induction m with
  | zero => rfl
  | succ m ih =>
      have hsample : ∀ pos, Wavetable.sample f bufsize (s.run f bufsize m).ports m pos =
          Wavetable.sample f bufsize s.ports m pos := by
        intro pos
        unfold Wavetable.sample
        rw [input_congr (s.run_inputs m) 1, input_congr (s.run_inputs m) 2,
          input_congr (s.run_inputs m) 3]
      rw [List.range_succ, List.foldl_append, ← ih, Wavetable.run_succ, Wavetable.frame_ports,
        hsample, List.foldl_cons, List.foldl_nil, Wavetable.run_succ]

/-- What Wavetable plays in a call. -/
def wavetableSounds (k : Sounds) (f : Floats) (bufsize : Nat) (s : Wavetable) : Sounds :=
  { k with wave := fun inp i => f.wave (inp 2) (inp 3) (s.run f bufsize (i + 1)).currentPos }

/-- **The oscillator** leaves in the ports what `Ksi.Audio.kscarletWavetable` does with the
samples that it plays. -/
theorem kscarletWavetable_sounds {s : Wavetable} (hp : HasOutput 0 s.ports)
    (hread : s.ports.Readable) (hgate : 1 < s.ports.inputs.length) :
    Audio.kscarletWavetable (wavetableSounds k f bufsize s) bufsize s.ports =
      some (.ok (), (kscarletWavetable f bufsize s).ports) := by
  obtain ⟨se, hse⟩ : ∃ se, s.ports.inputs[1]? = some se := ⟨_, List.getElem?_eq_getElem hgate⟩
  have hvalue : ∀ i, ksiNodeGetInput s.ports bufsize 1 i = some (input s.ports bufsize 1 i) := by
    intro i
    obtain ⟨x, hx⟩ := hread.getInput bufsize i hgate
    unfold input
    rw [hx]
    rfl
  have htype : inputType 1 s.ports = some (.ok se.type, s.ports) :=
    read_of_some (by rw [hse]; rfl)
  unfold Audio.kscarletWavetable kscarletWavetable
  rw [bind_of_ok htype, hse, Option.any_some]
  by_cases hdirty : isDirty se.type = true
  · -- one frame of the loop
    have hframe : ∀ i p, HasOutput 0 p ∧ p.inputs = s.ports.inputs →
        (do
          let gate ← getInput bufsize 1 i
          Prog.when (gate = 0) do
            let n ← Prog.read fun n => some n
            match (wavetableSounds k f bufsize s).wave
                (fun port => (ksiNodeGetInput n bufsize port i).getD 0) i with
            | none => pure ()
            | some x => store 0 i x : NodeFunc Unit) p =
          some (.ok (), storeSome p 0 i
            (Wavetable.sample f bufsize s.ports i (s.run f bufsize (i + 1)).currentPos)) := by
      intro i p ⟨hp, hinputs⟩
      have hget : getInput bufsize 1 i p = some (.ok (input s.ports bufsize 1 i), p) :=
        read_of_some ((ksiNodeGetInput_congr hinputs).trans (hvalue i))
      rw [bind_of_ok hget]
      unfold Prog.when Wavetable.sample
      by_cases hopen : input s.ports bufsize 1 i = 0
      · rw [if_pos hopen, if_neg (not_not_intro hopen)]
        have hself : (Prog.read fun n => some n : NodeFunc Ports) p = some (.ok p, p) := rfl
        rw [bind_of_ok hself, ← input_congr hinputs 2, ← input_congr hinputs 3]
        show (match f.wave (input p bufsize 2 i) (input p bufsize 3 i)
            (s.run f bufsize (i + 1)).currentPos with
          | none => pure ()
          | some x => store 0 i x : NodeFunc Unit) p = _
        cases f.wave (input p bufsize 2 i) (input p bufsize 3 i)
            (s.run f bufsize (i + 1)).currentPos with
        | none => rfl
        | some x => exact store_run hp i x
      · rw [if_neg hopen, if_pos hopen]
        rfl
    obtain ⟨hloop, hlast⟩ := forEach_eq_foldl
      (I := fun p => HasOutput 0 p ∧ p.inputs = s.ports.inputs)
      (fun i p hp => ⟨hframe i p hp, by
        cases Wavetable.sample f bufsize s.ports i _ with
        | none => exact hp
        | some x => exact ⟨hp.1.updateOutput _, hp.2⟩⟩)
      (List.range bufsize) s.ports ⟨hp, rfl⟩
    rw [if_neg (not_not_intro hdirty)]
    refine (bind_of_ok hloop _).trans ((setDirty_run hlast.1).trans ?_)
    rw [← Wavetable.run_ports]
    rw [if_pos hdirty]
    rfl
  · have hget : getInput bufsize 1 0 s.ports = some (.ok (input s.ports bufsize 1 0), s.ports) :=
      read_of_some (hvalue 0)
    rw [if_pos hdirty, bind_of_ok hget]
    rw [if_neg hdirty]
    unfold Prog.when
    by_cases hclosed : input s.ports bufsize 1 0 ≠ 0
    · rw [if_pos hclosed, if_pos hclosed]
      exact clear_run hp
    · rw [if_neg hclosed, if_neg hclosed]
      rfl

end Ksi.Audio.Scarlet

namespace Ksi.Audio.Players

open Dag (KsiError NodePtr)
open Dag.KsiError Ksi.RBTree Resource Scarlet Runs

variable {h : Heap} {a : Option TreePtr} {timeStamp bufsize fuel : Nat} {n : NodePtr}
  {env env' : PluginEnv} {d : PlayerEngine}

/-! ### The cursor -/

/-- The tree `a` as the note player reads it; `tune` is the frequency of a tone. -/
def Heap.notes (h : Heap) (tune : Int → Dag.KsiData) (fuel : Nat) (a : Option TreePtr) : Notes where
  key := fun p => (h.key p).getD 0
  freq := fun p => tune (((h.node p).map fun node => node.data.tone).getD 0)
  velocity := fun p => ((h.node p).map fun node => node.data.velocity).getD 0
  ksiRBTreeNextForKey := fun key => (h.call a (ksiRBTreeNextForKey fuel key)).join
  ksiRBTreeNext := fun p => (h.call a (ksiRBTreeNext fuel (some p))).join

/-- The loop at a frame moves the cursor as `MidiSeg.play` does. -/
theorem play_cursor (tune : Int → Dag.KsiData) {i : Nat} : ∀ {rounds : Nat} {s : MidiSeg}
    {next next' : Int} {current : Option Ptr},
    play h a timeStamp fuel i rounds s.current next = some (current, next') →
    ∃ s', MidiSeg.play (h.notes tune fuel a) timeStamp n i rounds s next = some (s', next') ∧
      s'.current = current := by
  intro rounds
  induction rounds with
  | zero =>
      intro s next next' current hplay
      unfold play at hplay
      unfold MidiSeg.play
      split at hplay
      · rename_i hne
        cases hplay
        exact ⟨s, if_pos hne, rfl⟩
      · cases hplay
  | succ rounds ih =>
      intro s next next' current hplay
      unfold play at hplay
      unfold MidiSeg.play
      split at hplay
      · rename_i hne
        cases hplay
        exact ⟨s, if_pos hne, rfl⟩
      · rename_i heq
        rw [if_neg heq]
        obtain ⟨p, hp, hplay⟩ := Option.bind_eq_some_iff.mp hplay
        obtain ⟨-, -, hplay⟩ := Option.bind_eq_some_iff.mp hplay
        obtain ⟨q, hq, hplay⟩ := Option.bind_eq_some_iff.mp hplay
        have hnext : (h.notes tune fuel a).ksiRBTreeNext p = q := by
          show (h.call a (ksiRBTreeNext fuel (some p))).join = q
          rw [hq]
          rfl
        rw [hp]
        dsimp only
        rw [hnext]
        cases q with
        | none => exact ih hplay
        | some q =>
            obtain ⟨key, hkey, hplay⟩ := Option.bind_eq_some_iff.mp hplay
            have hdt : (h.notes tune fuel a).localNextEvent timeStamp (some q) =
                currentDt key timeStamp := by
              show currentDt ((h.key q).getD 0) timeStamp = _
              rw [hkey]
              rfl
            rw [hdt]
            exact ih hplay

/-- So does the loop over the frames. -/
theorem frames_cursor (tune : Int → Dag.KsiData) : ∀ {l : List Nat} {s : MidiSeg} {next : Int}
    {current : Option Ptr},
    frames h a timeStamp fuel l s.current next = some current →
    ∃ s', MidiSeg.frames (h.notes tune fuel a) timeStamp n fuel l s next = some s' ∧
      s'.current = current := by
  intro l
  induction l with
  | nil =>
      intro s next current hframes
      exact ⟨s, rfl, Option.some.inj hframes⟩
  | cons i rest ih =>
      intro s next current hframes
      obtain ⟨⟨current₁, next₁⟩, hplay, hframes⟩ := Option.bind_eq_some_iff.mp hframes
      obtain ⟨s₁, hplay', rfl⟩ := play_cursor tune (n := n) hplay
      obtain ⟨s', hframes', hcurrent⟩ :=
        ih (s := { s₁ with ports := storeAt s₁.ports 0 i s₁.freq }) hframes
      refine ⟨s', ?_, hcurrent⟩
      unfold MidiSeg.frames
      rw [hplay']
      exact hframes'

/-- **The cursor** of a player that faults nowhere is the one of `Scarlet.kscarletMidiSeg`,
over the notes of its tree. -/
theorem kscarletMidiSeg_cursor (tune : Int → Dag.KsiData) (href : RefersTo d env)
    (hcall : kscarletMidiSeg d.heap timeStamp bufsize fuel env = some env') {s : MidiSeg}
    (hcurrent : s.current = env.current) :
    ∃ s', Scarlet.kscarletMidiSeg (env.tree.map fun a => d.heap.notes tune fuel (some a)) fuel
        bufsize timeStamp n s = some s' ∧ s'.current = env'.current := by
  obtain ⟨current, hlook, hcall⟩ := Option.bind_eq_some_iff.mp hcall
  cases htree : env.tree with
  | none =>
      have hnone : env.current = none := by
        rw [Option.eq_none_iff_forall_not_mem]
        intro p hp
        obtain ⟨a, _, htree', -⟩ := href.current p hp
        cases htree.symm.trans htree'
      unfold lookUp at hlook
      rw [hnone, htree] at hlook
      cases hlook
      cases hcall
      exact ⟨_, rfl, hcurrent.trans hnone⟩
  | some a =>
      have hlookup : (s.lookup (d.heap.notes tune fuel (some a)) timeStamp).current = current := by
        unfold MidiSeg.lookup
        unfold lookUp at hlook
        rw [htree] at hlook
        cases hcur : env.current with
        | some p =>
            rw [hcur] at hlook
            rw [hcurrent, hcur]
            cases hlook
            exact hcurrent.trans hcur
        | none =>
            rw [hcur] at hlook
            rw [hcurrent, hcur]
            replace hlook : d.heap.call (some a) (ksiRBTreeNextForKey fuel (startKey timeStamp)) =
              some current := hlook
            show (d.heap.call (some a) (ksiRBTreeNextForKey fuel (startKey timeStamp))).join =
              current
            rw [hlook]
            rfl
      rw [htree] at hcall
      rw [Option.map_some, kscarletMidiSeg_eq, hlookup]
      cases current with
      | none =>
          cases hcall
          exact ⟨_, rfl, hlookup⟩
      | some p =>
          obtain ⟨key, hkey, hcall⟩ := Option.bind_eq_some_iff.mp hcall
          have hnotes : (d.heap.notes tune fuel (some a)).key p = key := by
            show (d.heap.key p).getD 0 = key
            rw [hkey]
            rfl
          dsimp only
          rw [hnotes]
          split at hcall
          · rename_i hlate
            cases hcall
            exact ⟨_, if_pos hlate, hlookup⟩
          · rename_i hlate
            obtain ⟨current, hframes, rfl⟩ := Option.map_eq_some_iff.mp hcall
            rw [if_neg hlate]
            obtain ⟨s', hframes', hcurrent'⟩ := frames_cursor tune (n := n)
              (s := { s.lookup (d.heap.notes tune fuel (some a)) timeStamp with
                memory := (s.lookup (d.heap.notes tune fuel (some a))
                  timeStamp).memory.ksiEventClearQueue n 1 })
              (hlookup ▸ hframes)
            rw [hframes']
            exact ⟨_, rfl, hcurrent'⟩

/-- The editing command says the same of its arguments in the graph as in the players. -/
theorem kscarletMidiSegEditCmd_eq (args : String) (e : Dag.Engine) (env : PluginEnv) :
    Dag.kscarletMidiSegEditCmd args e =
      (kscarletMidiSegEditCmd e.timeseqResources args.toList env).map fun r =>
        (if r.1 = ksiErrorNone then .ok () else .error r.1, e) := by
  unfold Dag.kscarletMidiSegEditCmd Dag.scanInt
  generalize args.toList = l
  split
  · rename_i rest
    rw [String.toList_ofList]
    cases hscan : scanD rest with
    | none =>
        have hedit : kscarletMidiSegEditCmd e.timeseqResources ('m' :: rest) env =
            some (ksiErrorSyntax, env) := by
          simp only [kscarletMidiSegEditCmd, hscan]
        rw [hedit]
        rfl
    | some mid =>
        have hedit : kscarletMidiSegEditCmd e.timeseqResources ('m' :: rest) env =
            (e.timeseqResources.check mid.1).bind fun slot =>
              some (slot.elim (ksiErrorTimeSeqIdNotFound, env) fun a =>
                (ksiErrorNone, { env with tree := some a })) := by
          simp only [kscarletMidiSegEditCmd, hscan]
          rcases e.timeseqResources.check mid.1 with _ | _ | a
          · rfl
          · rfl
          · rfl
        rw [hedit]
        show (Prog.read (fun e : Dag.Engine => e.timeseqResources.check mid.1) >>= _) e = _
        cases hslot : e.timeseqResources.check mid.1 with
        | none => exact Prog.bind_of_none (Prog.read_of_none
            (f := fun e : Dag.Engine => e.timeseqResources.check mid.1) hslot) _
        | some slot =>
            rw [Prog.bind_of_ok (Prog.read_of_some
              (f := fun e : Dag.Engine => e.timeseqResources.check mid.1) hslot)]
            cases slot with
            | none => rfl
            | some a => rfl
  · rfl
  · rfl
  · rename_i hm hp hP
    have hedit : kscarletMidiSegEditCmd e.timeseqResources l env = some (ksiErrorSyntax, env) := by
      unfold kscarletMidiSegEditCmd
      split
      · exact absurd rfl (hm _)
      · exact absurd rfl (hp _)
      · exact absurd rfl (hP _)
      · rfl
    rw [hedit]
    rfl

end Ksi.Audio.Players

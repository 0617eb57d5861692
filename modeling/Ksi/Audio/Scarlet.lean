/-
The plugins of kscarlet, with what they keep from one buffer to the next.

Here are the envelope with its stages and the events it reads, the note player with its
cursor and the events it queues, and the oscillator with its position.  A node function
stores to the buffers of `Ports` and sets the dirty bits there.  Float arithmetic is a
parameter, `Floats`, of which nothing is known.

Time stamps are of 64 bits, and wrap.  An input that the function would fault on reads as
zero.
-/
import Ksi.Audio.Events
import Ksi.Audio.Plugins
import Mathlib.Algebra.Group.Int.Defs
import Mathlib.Algebra.Group.Nat.Defs

namespace Ksi.Audio.Scarlet

open Ksi.Dag

/-- Float arithmetic; the engine's `framesPerSecond` is in it. -/
structure Floats where
  /-- `round(x * framesPerSecond)` -/
  frames : KsiData → Int
  /-- `(M_E - start) / (M_E - 1)` -/
  attackBias : KsiData → KsiData
  /-- `start / (M_E * M_E * M_E - 1)` -/
  releaseBias : KsiData → KsiData
  /-- `(M_E * M_E * M_E * start - 1) / (M_E * M_E * M_E - 1)` -/
  decayBias : KsiData → KsiData
  /-- the level in the attack, of `currentBias`, `currentStageStartMod`, time and duration -/
  attackMod : KsiData → KsiData → Int → Int → KsiData
  /-- the level in the decay, of `currentStageStartMod`, time and duration -/
  decayMod : KsiData → Int → Int → KsiData
  /-- the level in the release, of `currentStageStartMod`, `currentBias`, time and duration -/
  releaseMod : KsiData → KsiData → Int → Int → KsiData
  /-- the position a frame later, of the position and the frequency -/
  advance : KsiData → KsiData → KsiData
  sine : KsiData → KsiData
  sawtooth : KsiData → KsiData
  triangle : KsiData → KsiData
  /-- of the modulation and the position -/
  square : KsiData → KsiData → KsiData

/-- `n->e->timeStamp + i`. -/
def stampAt (timeStamp i : Nat) : Nat := (timeStamp + i) % 2 ^ 64

/-- `ksiNodeGetInput(n, bufsize, port, i)`. -/
def input (n : Ports) (bufsize port i : Nat) : KsiData := (ksiNodeGetInput n bufsize port i).getD 0

/-- `n->outputBuffer[port].d[i] = x`. -/
def storeAt (n : Ports) (port i : Nat) (x : KsiData) : Ports :=
  n.updateOutput port fun o => { o with buffer := Function.update o.buffer i x }

def setDirtyAt (n : Ports) (port : Nat) : Ports :=
  n.updateOutput port fun o => { o with type := ksiNodePortIOSetDirty o.type }

def clearAt (n : Ports) (port : Nat) : Ports :=
  n.updateOutput port fun o => { o with type := ksiNodePortIOClear o.type }

/-! ### The envelope -/

/-- `currentStage`. -/
inductive Stage
  | stageHalt
  | stageAttack
  | stageDecay
  | stageSustain
  | stageRelease
  deriving DecidableEq, Repr

open Stage

/-- `plugin_env` of adsr.c. -/
structure AdsrEnv where
  currentTime : Int
  currentStage : Stage
  currentStageStartMod : KsiData
  currentMod : KsiData
  currentBias : KsiData
  stageDuration : Int

/-- An event that has been examined: the frame, and the stage before and after it. -/
structure Examined where
  event : KsiEvent
  frame : Nat
  before : Stage
  after : Stage
  deriving DecidableEq, Repr

structure Adsr where
  env : AdsrEnv
  memory : EventMemory
  nextEvent : Option KsiEvent
  ports : Ports
  /-- history: the events examined in this call -/
  examined : List Examined

/-- What an event with gate value `data` does; `inp` are the inputs at this frame. -/
def AdsrEnv.onEvent (f : Floats) (inp : Nat → KsiData) (env : AdsrEnv) (data : KsiData) : AdsrEnv :=
  if (env.currentStage = stageHalt ∨ env.currentStage = stageRelease) ∧ data = 0 then
    { env with
      currentTime := 1
      currentStage := stageAttack
      stageDuration := f.frames (inp 1)
      currentStageStartMod := env.currentMod
      currentBias := f.attackBias env.currentMod }
  else if (env.currentStage ≠ stageHalt ∧ env.currentStage ≠ stageRelease) ∧ data = 1 then
    { env with
      currentTime := 1
      currentStage := stageRelease
      stageDuration := f.frames (inp 4)
      currentStageStartMod := env.currentMod
      currentBias := f.releaseBias env.currentMod }
  else env

/-- The `switch` over the stages. -/
def AdsrEnv.level (f : Floats) (inp : Nat → KsiData) (env : AdsrEnv) : AdsrEnv :=
  match env.currentStage with
  | stageAttack =>
      let mod := f.attackMod env.currentBias env.currentStageStartMod env.currentTime
        env.stageDuration
      if ¬ env.currentTime < env.stageDuration then
        { currentTime := 0
          currentStage := stageDecay
          currentStageStartMod := inp 3
          currentMod := mod
          currentBias := f.decayBias (inp 3)
          stageDuration := f.frames (inp 2) }
      else { env with currentMod := mod }
  | stageDecay =>
      let mod := f.decayMod env.currentStageStartMod env.currentTime env.stageDuration
      if ¬ env.currentTime < env.stageDuration then
        { env with currentMod := mod, currentStage := stageSustain }
      else { env with currentMod := mod }
  | stageRelease =>
      let mod := f.releaseMod env.currentStageStartMod env.currentBias env.currentTime
        env.stageDuration
      if ¬ env.currentTime < env.stageDuration then
        { env with currentMod := 0, currentStage := stageHalt }
      else { env with currentMod := mod }
  | stageSustain => env
  | stageHalt => env

/-- The test for an event at frame `i`. -/
def Adsr.examine (f : Floats) (inp : Nat → KsiData) (timeStamp : Nat) (n : NodePtr) (s : Adsr)
    (i : Nat) : Adsr :=
  match s.nextEvent with
  | none => s
  | some e =>
      if e.timeStamp = stampAt timeStamp i then
        let env := s.env.onEvent f inp e.data
        let next := s.memory.ksiNodeGetNextEvent n 0
        { s with
          env := env
          memory := next.2
          nextEvent := next.1
          examined := s.examined ++ [{
            event := e
            frame := i
            before := s.env.currentStage
            after := env.currentStage }] }
      else s

/-- Frame `i` of the loop. -/
def Adsr.frame (f : Floats) (bufsize timeStamp : Nat) (n : NodePtr) (s : Adsr) (i : Nat) : Adsr :=
  let inp := fun port => input s.ports bufsize port i
  let s := s.examine f inp timeStamp n i
  let env := s.env.level f inp
  let env := { env with currentTime := env.currentTime + 1 }
  let ports :=
    if env.currentStage ≠ stageHalt then storeAt (storeAt s.ports 0 i env.currentMod) 1 i 0
    else storeAt (storeAt s.ports 0 i 0) 1 i 1
  { s with env := env, ports := ports }

def kscarletADSR (f : Floats) (bufsize timeStamp : Nat) (n : NodePtr) (env : AdsrEnv)
    (memory : EventMemory) (ports : Ports) : Adsr :=
  let next := (memory.ksiNodeBeginIterateEvent n 0).ksiNodeGetNextEvent n 0
  let s : Adsr :=
    { env := env, memory := next.2, nextEvent := next.1, ports := ports, examined := [] }
  if (env.currentStage = stageHalt ∨ env.currentStage = stageSustain) ∧ next.1 = none then
    { s with ports := clearAt (clearAt ports 0) 1 }
  else
    let s := (List.range bufsize).foldl (Adsr.frame f bufsize timeStamp n) s
    { s with ports := setDirtyAt (setDirtyAt s.ports 0) 1 }

/-! ### The note player -/

/-- The address of a `KsiRBNode`. -/
abbrev NotePtr := Nat

/-- A tree of notes, with what the player uses of it. -/
structure Notes where
  key : NotePtr → Int
  /-- `440.0f * powf(2, ((float)tone - 69) / 12)` -/
  freq : NotePtr → KsiData
  velocity : NotePtr → Int
  ksiRBTreeNextForKey : Int → Option NotePtr
  ksiRBTreeNext : NotePtr → Option NotePtr

/-- The player of `plugin_env` of midiseg.c, with the memory and the ports it works on. -/
structure MidiSeg where
  current : Option NotePtr
  freq : KsiData
  memory : EventMemory
  ports : Ports

/-- `current_dt`, as the `int32_t` that it is stored to. -/
def currentDt (key : Int) (timeStamp : Nat) : Int := (key - timeStamp).bmod (2 ^ 32)

/-- The gate that is queued for a note. -/
def Notes.gate (tree : Notes) (p : NotePtr) : KsiData := if tree.velocity p = 0 then 1 else 0

/-- `localNextEvent`, after the cursor has moved on. -/
def Notes.localNextEvent (tree : Notes) (timeStamp : Nat) : Option NotePtr → Int
  | some p => currentDt (tree.key p) timeStamp
  | none => -1

/-- The `while` loop at frame `i`, with the value it leaves in `localNextEvent`; `none` if
it makes more than `fuel` rounds. -/
def MidiSeg.play (tree : Notes) (timeStamp : Nat) (n : NodePtr) (i : Nat) :
    Nat → MidiSeg → Int → Option (MidiSeg × Int)
  | fuel, s, localNextEvent =>
      if localNextEvent ≠ i then some (s, localNextEvent)
      else match fuel, s.current with
        | fuel + 1, some p =>
            MidiSeg.play tree timeStamp n i fuel
              { s with
                freq := tree.freq p
                memory := s.memory.ksiEventEnqueue n 1 (tree.gate p) (stampAt timeStamp i)
                current := tree.ksiRBTreeNext p }
              (tree.localNextEvent timeStamp (tree.ksiRBTreeNext p))
        | _, _ => none

/-- The loop over the frames. -/
def MidiSeg.frames (tree : Notes) (timeStamp : Nat) (n : NodePtr) (fuel : Nat) :
    List Nat → MidiSeg → Int → Option MidiSeg
  | [], s, _ => some s
  | i :: rest, s, localNextEvent =>
      (MidiSeg.play tree timeStamp n i fuel s localNextEvent).bind fun (s, localNextEvent) =>
        MidiSeg.frames tree timeStamp n fuel rest { s with ports := storeAt s.ports 0 i s.freq }
          localNextEvent

/-- The label `bypass`. -/
def MidiSeg.bypass (bufsize : Nat) (s : MidiSeg) : MidiSeg :=
  { s with ports := clearAt (storeAt s.ports 0 (bufsize - 1) s.freq) 1 }

/-- `kscarletMidiSegReset`. -/
def kscarletMidiSegReset (s : MidiSeg) : MidiSeg := { s with current := none }

def kscarletMidiSeg (tree : Option Notes) (fuel bufsize timeStamp : Nat) (n : NodePtr)
    (s : MidiSeg) : Option MidiSeg :=
  match tree with
  | none => some (s.bypass bufsize)
  | some tree =>
      let s := match s.current with
        | some _ => s
        | none => { s with current := tree.ksiRBTreeNextForKey ((timeStamp : Int).bmod (2 ^ 32)) }
      match s.current with
      | none => some (s.bypass bufsize)
      | some p =>
          let localNextEvent := currentDt (tree.key p) timeStamp
          if localNextEvent > bufsize then some (s.bypass bufsize)
          else
            (MidiSeg.frames tree timeStamp n fuel (List.range bufsize)
              { s with memory := s.memory.ksiEventClearQueue n 1 } localNextEvent).map fun s =>
                { s with ports := setDirtyAt s.ports 1 }

/-! ### The oscillator -/

/-- `plugin_env` of wavetable.c, and the ports it works on. -/
structure Wavetable where
  currentPos : KsiData
  ports : Ports

/-- The `switch` over the waveforms. -/
def Floats.wave (f : Floats) (wf mod pos : KsiData) : Option KsiData :=
  match wf.toNat with
  | 1 => some (f.sine pos)
  | 2 => some (f.sawtooth pos)
  | 3 => some (f.triangle pos)
  | 4 => some (f.square mod pos)
  | _ => none

/-- Frame `i` of the loop. -/
def Wavetable.frame (f : Floats) (bufsize : Nat) (s : Wavetable) (i : Nat) : Wavetable :=
  if input s.ports bufsize 1 i ≠ 0 then s
  else
    let pos := f.advance s.currentPos (input s.ports bufsize 0 i)
    let mod := input s.ports bufsize 3 i
    match f.wave (input s.ports bufsize 2 i) mod pos with
    | none => { s with currentPos := pos }
    | some x => { currentPos := pos, ports := storeAt s.ports 0 i x }

def kscarletWavetable (f : Floats) (bufsize : Nat) (s : Wavetable) : Wavetable :=
  if (s.ports.inputs[1]?).any fun se => isDirty se.type then
    let s := (List.range bufsize).foldl (Wavetable.frame f bufsize) s
    { s with ports := setDirtyAt s.ports 0 }
  else if input s.ports bufsize 1 0 ≠ 0 then { s with ports := clearAt s.ports 0 }
  else s

end Ksi.Audio.Scarlet

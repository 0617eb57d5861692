/-
The node functions of the plugins.

A port hands over either a whole buffer or only its last sample; the dirty bit in the
port's type says which.  A node function sees the types and the buffers of its own
ports, `Ports`, and leaves samples and dirty bits in its outputs.

What the plugins of kscarlet and the test oscillator compute is a parameter, `Sounds`;
which samples and bits they store, and in which order, is as the functions have it.  So
is floating point arithmetic.
-/
import Ksi.Dag.Data

namespace Ksi.Audio

open Ksi.Dag

def ksiNodePortIOMask : PortType := 0xF0
def ksiNodePortIODirty : PortType := 0x10

/-- `ksiNodePortIOClear`. -/
def ksiNodePortIOClear (t : PortType) : PortType := t &&& ~~~ksiNodePortIOMask

/-- `ksiNodePortIOSetDirty`. -/
def ksiNodePortIOSetDirty (t : PortType) : PortType :=
  (t &&& ~~~ksiNodePortIOMask) ||| ksiNodePortIODirty

/-- `t & ksiNodePortIODirty`. -/
def isDirty (t : PortType) : Bool := t &&& ksiNodePortIODirty != 0

/-- An input port as a node function reads it: `inputTypes[i]`, what `internalBufferPtr`
points to, and the mixer. -/
structure InputBuffer where
  type : PortType
  internalBufferPtr : Option (Nat → KsiData)
  mixer : List Entry

/-- An output port: `outputTypes[i]`, and what `outputBuffer[i].d` points to. -/
structure OutputBuffer where
  type : PortType
  buffer : Nat → KsiData

/-- The ports of a node. -/
structure Ports where
  inputs : List InputBuffer
  outputs : List OutputBuffer

/-- What a node function does to the ports; it faults where the C function follows NULL
or leaves an array. -/
abbrev NodeFunc := Prog Ports Empty

/-- `ksiNodeGetInput`. -/
def ksiNodeGetInput (n : Ports) (framesPerBuffer port i : Nat) : Option KsiData := do
  let se ← n.inputs[port]?
  if isDirty se.type then se.internalBufferPtr.map fun buffer => buffer i
  else match se.internalBufferPtr, se.mixer with
    | some buffer, _ => some (buffer (framesPerBuffer - 1))
    | none, me :: _ => some me.gain
    | none, [] => some 0

/-- The ports with `f` done to output `port`. -/
def Ports.updateOutput (n : Ports) (port : Nat) (f : OutputBuffer → OutputBuffer) : Ports :=
  { n with outputs := n.outputs.modify port f }

/-- A change of an output port there is. -/
def updateOutput (port : Nat) (f : OutputBuffer → OutputBuffer) : NodeFunc Unit := do
  let _ ← Prog.read fun n => n.outputs[port]?
  Prog.modify fun n => n.updateOutput port f

/-- `n->outputBuffer[port].d[i] = x`. -/
def store (port i : Nat) (x : KsiData) : NodeFunc Unit :=
  updateOutput port fun o => { o with buffer := Function.update o.buffer i x }

/-- `ksiNodePortIOSetDirty(n->outputTypes[port])`. -/
def setDirty (port : Nat) : NodeFunc Unit :=
  updateOutput port fun o => { o with type := ksiNodePortIOSetDirty o.type }

/-- `ksiNodePortIOClear(n->outputTypes[port])`. -/
def clear (port : Nat) : NodeFunc Unit :=
  updateOutput port fun o => { o with type := ksiNodePortIOClear o.type }

/-- `n->inputTypes[port]`. -/
def inputType (port : Nat) : NodeFunc PortType := Prog.read fun n => (n.inputs[port]?).map (·.type)

/-- `ksiNodeGetInput(n, bufsize, port, i)`. -/
def getInput (bufsize port i : Nat) : NodeFunc KsiData :=
  Prog.read fun n => ksiNodeGetInput n bufsize port i

/-- Arithmetic of floats, and what the plugins play. -/
structure Sounds where
  addFloat : KsiData → KsiData → KsiData
  mulFloat : KsiData → KsiData → KsiData
  /-- the sample of the test oscillator at a frame, of its frequency -/
  sine : KsiData → Nat → KsiData
  /-- MidiSeg has an event before the end of the buffer -/
  playing : Bool
  /-- the frequency that MidiSeg plays at a frame -/
  freq : Nat → KsiData
  /-- the sample of Wavetable at a frame, of its four inputs, if its waveform has one -/
  wave : (Nat → KsiData) → Nat → Option KsiData
  /-- ADSR is in a stage with an end, or has an event -/
  sounding : Bool
  /-- the samples of ADSR at a frame -/
  envelope : Nat → KsiData × KsiData

/-! ### The plugins -/

def ksiBuiltinNodeFuncId (framesPerBuffer : Nat) : NodeFunc Unit := do
  let n ← Prog.read fun n => some n
  Prog.forEach (List.range framesPerBuffer) fun i =>
    Prog.forEach (List.range n.inputs.length).reverse fun j => do
      let x ← getInput framesPerBuffer j i
      store j i x

def ksiBuiltinNodeFuncTestOsc (k : Sounds) (bufsize : Nat) : NodeFunc Unit := do
  Prog.forEach (List.range bufsize) fun i => do
    let freq ← getInput bufsize 0 i
    store 0 i (k.sine freq i)
  setDirty 0

/-- `kscarletMidiSeg`, less the events it queues. -/
def kscarletMidiSeg (k : Sounds) (bufsize : Nat) : NodeFunc Unit :=
  if k.playing then do
    Prog.forEach (List.range bufsize) fun i => store 0 i (k.freq i)
    setDirty 1
  else do
    store 0 (bufsize - 1) (k.freq (bufsize - 1))
    clear 1

def kscarletWavetable (k : Sounds) (bufsize : Nat) : NodeFunc Unit := do
  let gateType ← inputType 1
  if ¬ isDirty gateType then do
    let gate ← getInput bufsize 1 0
    Prog.when (gate ≠ 0) (clear 0)
  else do
    Prog.forEach (List.range bufsize) fun i => do
      let gate ← getInput bufsize 1 i
      Prog.when (gate = 0) do
        let n ← Prog.read fun n => some n
        match k.wave (fun port => (ksiNodeGetInput n bufsize port i).getD 0) i with
        | none => pure ()
        | some x => store 0 i x
    setDirty 0

/-- `kscarletADSR`, less the events it reads. -/
def kscarletADSR (k : Sounds) (bufsize : Nat) : NodeFunc Unit :=
  if ¬ k.sounding then do
    clear 0
    clear 1
  else do
    Prog.forEach (List.range bufsize) fun i => do
      store 0 i (k.envelope i).1
      store 1 i (k.envelope i).2
    setDirty 0
    setDirty 1

def ksiBuiltinNodeFuncModulator (k : Sounds) (bufsize : Nat) : NodeFunc Unit := do
  let type₀ ← inputType 0
  let type₁ ← inputType 1
  if isDirty type₀ ∨ isDirty type₁ then do
    Prog.forEach (List.range bufsize) fun i => do
      let x ← getInput bufsize 0 i
      let y ← getInput bufsize 1 i
      store 0 i (k.mulFloat x y)
    setDirty 0
  else do
    let x ← getInput bufsize 0 0
    let y ← getInput bufsize 1 0
    store 0 (bufsize - 1) (k.mulFloat x y)
    clear 0

/-- `ksiNodeFuncWrapper`, for the plugins that are compiled in. -/
def ksiNodeFuncWrapper (k : Sounds) (bufsize inlineId : Nat) : NodeFunc Unit :=
  match inlineId with
  | 1 => ksiBuiltinNodeFuncId bufsize
  | 2 => ksiBuiltinNodeFuncTestOsc k bufsize
  | 3 => kscarletMidiSeg k bufsize
  | 4 => kscarletWavetable k bufsize
  | 5 => kscarletADSR k bufsize
  | 6 => ksiBuiltinNodeFuncModulator k bufsize
  | _ => pure ()

end Ksi.Audio

/-
The callback that the audio driver calls for each buffer.

The first two output ports of the final node are made to point to the driver's channels,
the workers run the graph, and the callback waits for the final node; the run of the graph
up to it is taken as done here, so that the inputs of the final node are what its function
finds.  What the driver's channels held before the call is an argument, because it is
played where nothing has been stored.

A final node has no buffers but the driver's: the function faults when it stores to a port
beyond them.  The reset of the plugins is left out; it is part of what they play.
-/
import Ksi.Audio.Plugins
import Ksi.Pool.Lifecycle

namespace Ksi.Audio

open Ksi.Dag Ksi.Pool Playing

/-- The node in `e->finalNode[i]`. -/
structure FinalNode where
  inlineId : Nat
  ports : Ports

/-- What the callback uses of `KsiEngine`. -/
structure AudioEngine where
  framesPerBuffer : Nat
  playing : Playing
  epoch : Nat
  audioEpoch : Nat
  /-- how often `migratedSem` has been posted -/
  migrated : Nat
  finalNode : Nat → Option FinalNode
  timeStamp : Nat

/-- The samples of the driver's channels. -/
abbrev Channels := Nat → Nat → KsiData

/-- `memset(output[c], 0, sizeof(KsiData)*frameCount)` for the channels `cs`. -/
def clearChannels (frameCount : Nat) (cs : List Nat) (output : Channels) : Channels :=
  fun c i => if c ∈ cs ∧ i < frameCount then 0 else output c i

def audioChans : Nat := 2

/-- `finalNode->outputBuffer[i].d = output[i]` for the ports below `fillChans`; a store to a
port after them has nowhere to go. -/
def FinalNode.toDriver (node : FinalNode) (fillChans : Nat) (output : Channels) : Ports :=
  { node.ports with
    outputs := (node.ports.outputs.take fillChans).mapIdx fun c o => { o with buffer := output c } }

/-- `ksiEngineAudioCallback`: the engine and the channels afterwards. -/
def ksiEngineAudioCallback (k : Sounds) (frameCount : Nat) (e : AudioEngine) (output : Channels) :
    Option (AudioEngine × Channels) :=
  let e := { e with framesPerBuffer := frameCount }
  if ¬ 0 < e.playing.toInt then some (e, output)
  else
    let e := if e.epoch ≠ e.audioEpoch then
      { e with audioEpoch := e.epoch, migrated := e.migrated + 1 } else e
    if e.playing = ksiEnginePaused then
      some (e, clearChannels frameCount (List.range audioChans) output)
    else match e.finalNode e.epoch with
      | none => some (e, clearChannels frameCount (List.range audioChans) output)
      | some node =>
          let fillChans := min node.ports.outputs.length audioChans
          match ksiNodeFuncWrapper k frameCount node.inlineId (node.toDriver fillChans output) with
          | some (.ok (), n) =>
              let ports : Ports :=
                { n with outputs := n.outputs ++ node.ports.outputs.drop fillChans }
              let played : Channels := fun c =>
                ((n.outputs[c]?).map OutputBuffer.buffer).getD (output c)
              some (
                { e with
                  finalNode := Function.update e.finalNode e.epoch
                    (some { node with ports := ports })
                  timeStamp := e.timeStamp + frameCount },
                clearChannels frameCount
                  (List.range' (fillChans + 1) (audioChans - (fillChans + 1))) played)
          | _ => none

end Ksi.Audio

/-
What a client can have the engine do, and the engine with its two versions.

A command that names ids and ports works on the version that `hotList` selects; a commit
makes the queued edits to the other one, which is selected from then on.  The functions of
engine.c matter here only for the value that they store in `playing`, and the loading of
a time sequence for the id that it gets.
-/
import Ksi.Dag.Commit

namespace Ksi.Dag

/-- A function of the engine that takes ids and ports as a client gives them, or adds a
node. -/
inductive Command
  | call (c : Call)
  | getInputType (id port : Int)
  | unloadTimeSeq (id : Int)
  deriving DecidableEq, Repr

def Command.kernel : Command → Edit Unit
  | .call c => do
      let _ ← c.kernel .editing
  | .getInputType id port => do
      let _ ← ksiEngineGetInputType id port
  | .unloadTimeSeq id => ksiTimeSeqUnloadFromEngine id

/-- The part of `ksiTimeSeqLoadToEngineFromTextFilePath` after the file has been read. -/
def loadTimeSeq (n : Nat) : Edit Unit := do
  checkInitialized
  Prog.modify fun e => { e with timeseqResources := (ksiVecInsert e.timeseqResources n).2 }

/-- The engine, what has not been committed, and the version that `hotList` does not
select. -/
structure Versions where
  session : Session
  other : Version

/-- `nodes[i]`, with the final node and the buffers of that version. -/
def Versions.nodes (v : Versions) (epoch i : Nat) : Version :=
  if i = epoch then v.session.engine.toVersion else v.other

def Versions.init (framesPerBuffer : Nat) : Versions where
  session := { engine := ksiEngineInit framesPerBuffer, syncCmds := [] }
  other := Version.empty

inductive Action
  | command (c : Command)
  | loadTimeSeq (n : Nat)
  | setPlaying (playing : Int)
  | commit
  deriving DecidableEq, Repr

/-- A step that changes the engine and queues nothing. -/
def Versions.onEngine (v : Versions) (x : Edit Unit) : Option Versions :=
  (x v.session.engine).map fun r => { v with session := { v.session with engine := r.2 } }

def Versions.step (v : Versions) : Action → Option Versions
  | .command (.call c) => (v.session.call c).map fun r => { v with session := r.2 }
  | .command c => v.onEngine c.kernel
  | .loadTimeSeq n => v.onEngine (Dag.loadTimeSeq n)
  | .setPlaying playing => v.onEngine (Prog.modify fun e => { e with playing := playing })
  | .commit => (ksiEngineCommit v.session v.other).map fun r => { session := r.1, other := r.2 }

end Ksi.Dag

/-
The edits as a client makes them, and their replay.

The functions of dagedit.c run a kernel with flag 0 and queue the edit in `syncCmds` if
it succeeded.  `ksiMVCCCommitter` takes the queued edits in their order and runs the
kernels on the other version, with flag 1.  It does not look at what they return.
-/
import Ksi.Dag.Kernels
import Ksi.Lib.Runs

namespace Ksi.Dag

/-- A call of one of the functions of dagedit.c; as `KsiDagEditCmd` what is queued. -/
inductive Call
  | addNode (typeFlags : BitVec 32)
  | makeWire (srcId srcPort desId desPort : Int) (gain : KsiData)
  | makeBias (desId desPort : Int) (bias : KsiData)
  | detachNodes (srcId desId : Int)
  | removeNode (id : Int)
  | removeWire (srcId srcPort desId desPort : Int)
  | sendEditingCommand (id : Int) (args : String)
  deriving DecidableEq, Repr

/-- What both the client's function and the committer do for a call; a new node's id is
returned. -/
def Call.kernel (flag : Flag) : Call → Edit (Option Nat)
  | .addNode typeFlags => do
      let id ← impl_ksiEngineAddNode typeFlags flag
      pure (some id)
  | .makeWire srcId srcPort desId desPort gain => do
      impl_ksiEngineMakeWire srcId srcPort desId desPort gain flag
      pure none
  | .makeBias desId desPort bias => do
      impl_ksiEngineMakeBias desId desPort bias flag
      pure none
  | .detachNodes srcId desId => do
      impl_ksiEngineDetachNodes srcId desId flag
      pure none
  | .removeNode id => do
      let n ← impl_ksiEngineRemoveNode id flag
      ksiEngineDestroyNode n flag
      pure none
  | .removeWire srcId srcPort desId desPort => do
      impl_ksiEngineRemoveWire srcId srcPort desId desPort flag
      pure none
  | .sendEditingCommand id args => do
      impl_ksiEngineSendEditingCommand id args flag
      pure none

/-- An edit by a client, whatever it returns; no step where the kernel faults. -/
def step (e : Engine) (c : Call) : Option Engine := (c.kernel .editing e).map (·.2)

/-- The engine and the queue of the edits that have not been committed. -/
structure Session where
  engine : Engine
  syncCmds : List Call

/-- A function of dagedit.c up to its return: the error code of the kernel, and a new node's
id. -/
def Session.call (s : Session) (c : Call) : Option ((KsiError × Option Nat) × Session) :=
  match c.kernel .editing s.engine with
  | none => none
  | some (.error err, engine) => some ((err, none), { s with engine := engine })
  | some (.ok id, engine) =>
      some ((.ksiErrorNone, id), { engine := engine, syncCmds := s.syncCmds ++ [c] })

/-- What a function of dagedit.c returns; `ksiEngineSendEditingCommand` returns
`ksiErrorNone`, whatever `err` is. -/
def Session.request (s : Session) (c : Call) : Option ((KsiError × Option Nat) × Session) :=
  match c with
  | .sendEditingCommand _ _ => (s.call c).map fun r => ((.ksiErrorNone, none), r.2)
  | _ => s.call c

/-- `ksiEngineGetInputType`; it has no CHECK_INITIALIED. -/
def ksiEngineGetInputType (id port : Int) : Edit PortType := do
  let n ← checkVec id .ksiErrorIdNotFound
  checkDesPort n port .ksiErrorPortNotFound

/-- `ksiTimeSeqUnloadFromEngine`, less the memory of the sequence. -/
def ksiTimeSeqUnloadFromEngine (id : Int) : Edit Unit := do
  checkInitialized
  let slot ← Prog.read fun e => e.timeseqResources.check id
  let _ ← Prog.orError slot .ksiErrorResIdNotFound
  Prog.modify fun e => { e with timeseqResources := ksiVecDelete e.timeseqResources id.toNat }

/-- The loop of `ksiMVCCCommitter` over the queued edits, with what each returns. -/
def commitLoop : List Call → Engine → Option (List (KsiError × Option Nat) × Engine)
  | [], e => some ([], e)
  | c :: rest, e =>
      match c.kernel .committing e with
      | none => none
      | some (.error err, e') =>
          (commitLoop rest e').map fun r => ((err, none) :: r.1, r.2)
      | some (.ok id, e') =>
          (commitLoop rest e').map fun r => ((.ksiErrorNone, id) :: r.1, r.2)

/-- `ksiMVCCCommitter`, between `ksiSemWait` and the next: the queued edits are made to
the version `other`, which `hotList` selects by now. -/
def ksiMVCCCommitter (s : Session) (other : Version) :
    Option (List (KsiError × Option Nat) × Session) :=
  (commitLoop s.syncCmds { s.engine with toVersion := other }).map fun r =>
    (r.1, { engine := r.2, syncCmds := [] })

/-- `ksiEngineCommit`, and the work of the committer that it wakes: the session and the
version that `hotList` does not select. -/
def ksiEngineCommit (s : Session) (other : Version) : Option (Session × Version) :=
  if s.engine.playing = -2 ∨ s.syncCmds = [] then some (s, other)
  else (ksiMVCCCommitter s other).map fun r => (r.2, s.engine.toVersion)

end Ksi.Dag

/-
The command lines of a client, and the replies to them.

`consume_line` reads one line, calls the engine and returns an error code through
`ptrerr`; `fifo_handler` writes a reply for every line and commits the edits, unless the
client has opened a batch with a brace.  A line works on the state that `fifo_handler`
keeps, and an error of the program is what is stored in `*ptrerr` when it is not
`ksiErrorNone`.

What the C library and PortAudio answer is given for each line: which numbers a text
means, what is in a file, whether the audio device can be opened.  A commit and the work of
the committer that it wakes are one step.  Left out are the texts that go with an error
code, the time stamp and the resets, and what is printed on the daemon's own terminal.

`epochs`, `queued` and `commits` are history variables.
-/
import Ksi.Cmd.Scan
import Ksi.Dag.Commit
import Ksi.Pool.Lifecycle

namespace Ksi.Cmd

open Dag Pool KsiError Playing

/-- What is outside of the program, while one line is handled. -/
structure World where
  /-- `%f` and `%lf` -/
  scanFloat : List Char → Option KsiData
  /-- the lines of a file, if it can be opened -/
  file : List Char → Option (List (List Char))
  /-- `ksiTimeSeqLoadFromTextFile`: an error, or the sequence -/
  timeSeq : List Char → Except KsiError Nat
  /-- `paIOInit` -/
  paIOInit : KsiError

/-- The variables of `fifo_handler`, and the engine. -/
structure Handler where
  session : Session
  /-- the version that `hotList` does not select -/
  other : Version
  /-- `e->playing`, as engine.h names its values -/
  playing : Playing
  wp : WorkerPool
  idRet : Int
  err : KsiError
  current_in_scope : Bool
  /-- `e->epoch` -/
  epoch : Nat
  /-- history: the values that have been stored in `e->epoch` -/
  epochs : List Nat
  /-- history: the edits that have been queued -/
  queued : List Call
  /-- history: what has been committed to the engine, commit by commit -/
  commits : List (List Call)

/-- What handles a line. -/
abbrev Line := Prog Handler KsiError

/-! ### Calls of the engine -/

/-- A function that reads or changes the engine's own state. -/
def onEngine {α : Type} (x : Edit α) : Line α := fun h =>
  (x h.session.engine).map fun r =>
    (r.1, { h with session := { h.session with engine := r.2 } })

/-- A call of a function of dagedit.c. -/
def request (c : Call) : Line (Option Nat) := fun h =>
  (h.session.request c).map fun r =>
    (if r.1.1 = ksiErrorNone then .ok r.1.2 else .error r.1.1,
      { h with session := r.2
               queued := h.queued ++ r.2.syncCmds.drop h.session.syncCmds.length })

/-- A store to `e->epoch`. -/
def Handler.store (h : Handler) (epoch : Nat) : Handler :=
  { h with epoch := epoch, epochs := h.epochs ++ [epoch] }

/-- The store in `ksiEngineCommit`, which is made if there is something to commit. -/
def Handler.turn (h : Handler) : Handler :=
  if h.session.engine.playing = -2 ∨ h.session.syncCmds = [] then h
  else { h.store ((h.epoch + 1) % 2) with commits := h.commits ++ [h.session.syncCmds] }

@[simp] theorem Handler.turn_playing (h : Handler) : h.turn.playing = h.playing := by
  unfold turn; split <;> rfl

@[simp] theorem Handler.turn_err (h : Handler) : h.turn.err = h.err := by
  unfold turn; split <;> rfl

@[simp] theorem Handler.turn_current_in_scope (h : Handler) :
    h.turn.current_in_scope = h.current_in_scope := by
  unfold turn; split <;> rfl

@[simp] theorem Handler.turn_queued (h : Handler) : h.turn.queued = h.queued := by
  unfold turn; split <;> rfl

def commit : Line Unit := fun h =>
  (ksiEngineCommit h.session h.other).map fun r =>
    (.ok (), { h.turn with session := r.1, other := r.2 })

/-- What a function of engine.c leaves of `playing` and of the pool. -/
def Handler.put (h : Handler) (r : Playing × WorkerPool) : Handler := { h with
  playing := r.1
  wp := r.2
  session := { h.session with engine := { h.session.engine with playing := r.1.toInt } } }

/-- A call of a function of engine.c. -/
def onPool (f : Playing → WorkerPool → KsiError × Playing × WorkerPool) : Line Unit := fun h =>
  let r := f h.playing h.wp
  some (if r.1 = ksiErrorNone then .ok () else .error r.1, h.put r.2)

/-- `ksiEngineStop` on an engine that is not stopped. -/
def stop : Line Unit := do
  let playing ← Prog.read fun h => some h.playing
  Prog.when (playing ≠ ksiEngineStopped) (onPool fun _ => ksiEngineStop)

/-- The state of a session whose engine has just been initialised. -/
def Handler.init (wp : WorkerPool) (framesPerBuffer : Nat) : Handler where
  session := { engine := ksiEngineInit framesPerBuffer, syncCmds := [] }
  other := Version.empty
  playing := ksiEngineStopped
  wp := wp
  idRet := 0
  err := ksiErrorNone
  current_in_scope := false
  epoch := 0
  epochs := []
  queued := []
  commits := []

/-- `ksiEngineInit`. -/
def Handler.fresh (h : Handler) (fb : Int) : Handler := { h.store 0 with
  session := (Handler.init h.wp fb.toNat).session
  other := Version.empty
  playing := ksiEngineStopped
  commits := [] }

/-- The end of the old engine, and a new one. -/
def restart (fb : Int) : Line Unit := do
  stop
  Prog.modify fun h => h.put (ksiEngineDestroy h.playing h.wp)
  Prog.modify fun h => h.fresh fb

/-! ### consume_line

Each case of the switch is a function of what follows the first character. -/

/-- INPUT_G: the gain, or the bias, that the line gives a port of type `t`.  Without the
`x` before it there is nowhere to read. -/
def inputG (w : World) (t : PortType) (rest : Option (List Char)) : Line KsiData := do
  let lptr ← Prog.read fun _ => rest
  if t &&& 0x7 = ksiNodePortTypeFloat then Prog.orError (w.scanFloat lptr) ksiErrorSyntax
  else do
    let gain ← Prog.orError (scanD lptr) ksiErrorSyntax
    pure (BitVec.ofInt 32 gain.1)

/-- A store to `*idRet`, if there is one. -/
def setIdRet (toRet : Bool) (id : Int) : Line Unit :=
  Prog.when (toRet = true) (Prog.modify fun h => { h with idRet := id })

def newNode (toRet : Bool) (lptr : List Char) : Line Unit := do
  let type ← Prog.orError (scanType lptr) ksiErrorSyntax
  let id ← request (.addNode type)
  setIdRet toRet (id.getD 0)

def makeWire (w : World) (lptr : List Char) : Line Unit := do
  let wire ← Prog.orError (scanWire lptr) ksiErrorSyntax
  let ((srcId, srcPort), desId, desPort) := wire.1
  let t ← onEngine (ksiEngineGetInputType desId desPort)
  let g ← inputG w t (scanChar 'x' wire.2)
  let _ ← request (.makeWire srcId srcPort desId desPort g)

def makeBias (w : World) (lptr : List Char) : Line Unit := do
  let des ← Prog.orError (scanPort lptr) ksiErrorSyntax
  let (id, port) := des.1
  let t ← onEngine (ksiEngineGetInputType id port)
  let g ← inputG w t (scanChar 'x' des.2)
  let _ ← request (.makeBias id port g)

def detachNodes (lptr : List Char) : Line Unit := do
  let (srcId, desId) ← Prog.orError (scanNodes lptr) ksiErrorSyntax
  let _ ← request (.detachNodes srcId desId)

def removeNode (lptr : List Char) : Line Unit := do
  let id ← Prog.orError (scanD lptr) ksiErrorSyntax
  let _ ← request (.removeNode id.1)

def removeWire (lptr : List Char) : Line Unit := do
  let wire ← Prog.orError (scanWire lptr) ksiErrorSyntax
  let ((srcId, srcPort), desId, desPort) := wire.1
  let _ ← request (.removeWire srcId srcPort desId desPort)

def editNode (toRet : Bool) (lptr : List Char) : Line Unit := do
  let (id, args) ← Prog.orError (scanArgs lptr) ksiErrorSyntax
  setIdRet toRet id
  let _ ← request (.sendEditingCommand id (String.ofList args))

def initializeEngine (lptr : List Char) : Line Unit := do
  let (fb, _) ← Prog.orError (scanSizes lptr) ksiErrorSyntax
  restart fb

def initializeAudio (w : World) (lptr : List Char) : Line Unit := do
  Prog.require (lptr = [] ∨ lptr.head? = some '\n') ksiErrorSyntax
  stop
  Prog.require (w.paIOInit = ksiErrorNone) w.paIOInit
  commit
  onPool ksiEngineLaunch

/-- A path, without the newline. -/
def path (l : List Char) : List Char := if l.getLast? = some '\n' then l.dropLast else l

def loadTimeSeq (w : World) (toRet : Bool) (lptr : List Char) : Line Unit := do
  onEngine checkInitialized
  match w.timeSeq (path lptr) with
  | .error err => Prog.error err
  | .ok n => do
      let inserted ← Prog.read fun h => some (ksiVecInsert h.session.engine.timeseqResources n)
      onEngine (Prog.modify fun e => { e with timeseqResources := inserted.2 })
      setIdRet toRet inserted.1

def unloadTimeSeq (lptr : List Char) : Line Unit := do
  let id ← Prog.orError (scanD lptr) ksiErrorSyntax
  onEngine (ksiTimeSeqUnloadFromEngine id.1)

/-- The lines of a file, up to one that quits. -/
def consume_file (line : List Char → Line Bool) : List (List Char) → Line Unit
  | [] => pure ()
  | l :: rest => do
      let quit ← line l
      if quit then pure () else consume_file line rest

/-- The switch, but for the lines that load a file; whether the line quits. -/
def consumeVerb (w : World) (toRet : Bool) (cmd : Char) (lptr : List Char) : Line Bool :=
  let goOn (x : Line Unit) : Line Bool := x >>= fun _ => pure false
  match cmd with
  | 'n' => goOn (newNode toRet lptr)
  | 'w' => goOn (makeWire w lptr)
  | 'd' => goOn (detachNodes lptr)
  | 'r' => goOn (removeNode lptr)
  | 'u' => goOn (removeWire lptr)
  | '.' => goOn (Prog.require (scanD lptr).isSome ksiErrorSyntax)
  | '-' => goOn (Prog.require (w.scanFloat lptr).isSome ksiErrorSyntax)
  | 'b' => goOn (makeBias w lptr)
  | 'q' => pure true
  | 'e' => goOn (editNode toRet lptr)
  | 'P' => goOn (onPool ksiEnginePause)
  | 'R' => goOn (onPool ksiEngineResume)
  | 'i' => goOn (initializeEngine lptr)
  | 'a' => goOn (initializeAudio w lptr)
  | 'o' => goOn (loadTimeSeq w toRet lptr)
  | 't' => goOn (unloadTimeSeq lptr)
  | '>' | 'h' | '\n' => pure false
  | _ => Prog.error ksiErrorSyntax

/-- `consume_line`.  With `toRet` false it is called with `idRet` NULL.  `fuel` bounds how
deep command files may load each other. -/
def consume_line (w : World) : Nat → Bool → List Char → Line Bool
  | _, _, [] => pure false
  | fuel, _, 'l' :: lptr => do
      let lines ← Prog.orError (w.file (path lptr)) ksiErrorFileSystem
      match fuel with
      | 0 => Prog.fault
      | fuel + 1 => do
          consume_file (consume_line w fuel false) lines
          pure false
  | _, toRet, cmd :: lptr => consumeVerb w toRet cmd lptr

/-! ### fifo_handler -/

/-- What is written to the client. -/
structure Reply where
  err : KsiError
  /-- the id in the reply to `n` -/
  id : Option Int
  /-- the id that `report_type` is called with -/
  typeOf : Option Int
  deriving DecidableEq, Repr

/-- From `next` to the commit. -/
def Handler.reply (h : Handler) (cmd : Option Char) : Reply :=
  match cmd with
  | some 'n' =>
      { err := h.err
        id := some (if h.err = ksiErrorNone then h.idRet else 0)
        typeOf := if h.err = ksiErrorNone then some h.idRet else none }
  | some 'e' =>
      { err := h.err
        id := none
        typeOf := if h.err = ksiErrorNone then some h.idRet else none }
  | _ => { err := h.err, id := none, typeOf := none }

/-- A line of `fifo_handler` up to the reply; no reply to a line that quits. -/
def handle (w : World) (fuel : Nat) (line : List Char) (h : Handler) :
    Option (Option Reply × Handler) :=
  let next (h : Handler) := (some (h.reply line.head?), h)
  match line with
  | '\x7b' :: _ =>
      some (next (if h.current_in_scope then { h with err := ksiErrorIdempotent }
        else { h with current_in_scope := true }))
  | '\x7d' :: _ =>
      some (next (if h.current_in_scope then { h with current_in_scope := false }
        else { h with err := ksiErrorNotInBatch }))
  | _ =>
      match consume_line w fuel true line h with
      | none => none
      | some (.ok true, h) => some (none, h)
      | some (.ok false, h) => some (next h)
      | some (.error err, h) => some (next { h with err := err })

/-- After the reply: the commit of what is not in a batch. -/
def finish : Line Unit := do
  let scope ← Prog.read fun h => some h.current_in_scope
  Prog.when (scope = false) commit
  Prog.modify fun h => { h with err := ksiErrorNone }

/-- A line, handled to the end.  The session is over after one that quits. -/
def step (h : Handler) (a : World × Nat × List Char) : Option Handler :=
  match handle a.1 a.2.1 a.2.2 h with
  | some (some _, h) => (finish h).map (·.2)
  | _ => none

end Ksi.Cmd

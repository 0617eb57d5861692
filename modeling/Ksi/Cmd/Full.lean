/-
The command lines on an engine in any state.

`Handler` is about an engine that an `i` has initialised.  Here is the switch of
`consume_line` with all that a line uses of an engine: its time stamp, the flag that says
whether a reset is asked for, its lock and its condition variable.  Nothing sets up the last
two before the first `i`; `lockable` says whether a thread gets through them, and there is
no result where it does not.

A variable that sscanf has not assigned holds any value.  The read position that it moves may
lie anywhere, and `strayed` is a history variable that says that it has been moved so.
-/
import Ksi.Cmd.Handler

namespace Ksi.Cmd.Full

open Dag Pool KsiError Playing

/-- What is outside of the program, while one line is handled. -/
structure Platform extends World where
  /-- `round(t/e->framesPerSecond)`, for the `t` that `%lf` reads -/
  roundTime : List Char → Nat
  /-- the value of `consumed` before it is assigned -/
  unassigned : Int
  /-- the text at a distance from the line, if it can be read -/
  outside : Int → Option (List Char)

/-- The variables of the caller, and the engine. -/
structure State where
  handler : Handler
  timeStamp : Nat
  notRequireReset : Bool
  /-- `committedCond` and `playingMutex` let a thread pass -/
  lockable : Bool
  /-- history: the read position has been moved by an unassigned variable -/
  strayed : Bool

/-- What handles a line. -/
abbrev Line := Prog State KsiError

/-- A part that uses no lock. -/
def onHandler {α : Type} (x : Cmd.Line α) : Line α := fun d =>
  (x d.handler).map fun r => (r.1, { d with handler := r.2 })

/-- A part that gets through the lock first. -/
def locked {α : Type} (x : Cmd.Line α) : Line α := fun d =>
  if d.lockable then onHandler x d else none

/-! ### The read position -/

/-- The text at a distance from the start of `lptr`. -/
def textAt (p : Platform) (lptr : List Char) (distance : Int) : Option (List Char) :=
  if 0 ≤ distance ∧ distance ≤ lptr.length then some (lptr.drop distance.toNat)
  else p.outside distance

/-- `lptr+=consumed`, where `rest` is what follows if `consumed` has been assigned. -/
def advance (p : Platform) (lptr : List Char) (rest : Option (List Char)) :
    Line (Option (List Char)) :=
  match rest with
  | some text => pure (some text)
  | none => do
      Prog.modify fun d => { d with strayed := true }
      pure (textAt p lptr p.unassigned)

/-! ### consume_line -/

def newNode (toRet : Bool) (lptr : List Char) : Line Unit := do
  let type ← Prog.orError (scanType lptr) ksiErrorSyntax
  let id ← locked (request (.addNode type))
  onHandler (setIdRet toRet (id.getD 0))

def makeWire (p : Platform) (lptr : List Char) : Line Unit := do
  let read := scanWire lptr
  let lptr ← advance p lptr (read.bind fun wire => scanChar 'x' wire.2)
  let wire ← Prog.orError read ksiErrorSyntax
  let ((srcId, srcPort), desId, desPort) := wire.1
  let t ← locked (onEngine (ksiEngineGetInputType desId desPort))
  let g ← onHandler (inputG p.toWorld t lptr)
  let _ ← locked (request (.makeWire srcId srcPort desId desPort g))

def makeBias (p : Platform) (lptr : List Char) : Line Unit := do
  let des ← Prog.orError (scanPort lptr) ksiErrorSyntax
  let lptr ← advance p lptr (scanChar 'x' des.2)
  let (id, port) := des.1
  let t ← locked (onEngine (ksiEngineGetInputType id port))
  let g ← onHandler (inputG p.toWorld t lptr)
  let _ ← locked (request (.makeBias id port g))

def detachNodes (lptr : List Char) : Line Unit := do
  let (srcId, desId) ← Prog.orError (scanNodes lptr) ksiErrorSyntax
  let _ ← locked (request (.detachNodes srcId desId))

def removeNode (lptr : List Char) : Line Unit := do
  let id ← Prog.orError (scanD lptr) ksiErrorSyntax
  let _ ← locked (request (.removeNode id.1))

def removeWire (lptr : List Char) : Line Unit := do
  let wire ← Prog.orError (scanWire lptr) ksiErrorSyntax
  let ((srcId, srcPort), desId, desPort) := wire.1
  let _ ← locked (request (.removeWire srcId srcPort desId desPort))

def editNode (toRet : Bool) (lptr : List Char) : Line Unit := do
  let (id, args) ← Prog.orError (scanArgs lptr) ksiErrorSyntax
  onHandler (setIdRet toRet id)
  let _ ← locked (request (.sendEditingCommand id (String.ofList args)))

/-- The store to `e->timeStamp`, and `ksiEngineReset`. -/
def setTime (timeStamp : Nat) : Line Unit :=
  Prog.modify fun d => { d with timeStamp := timeStamp, notRequireReset := false }

/-- Set time in frames: `%zu`. -/
def setFrames (lptr : List Char) : Line Unit := do
  let newt ← Prog.orError (scanD lptr) ksiErrorSyntax
  setTime (BitVec.ofInt 64 newt.1).toNat

/-- Set time in seconds. -/
def setSeconds (p : Platform) (lptr : List Char) : Line Unit := do
  let _ ← Prog.orError (p.scanFloat lptr) ksiErrorSyntax
  setTime (p.roundTime lptr)

/-- `ksiEngineStop` on an engine that is not stopped. -/
def stop : Line Unit := do
  let playing ← onHandler (Prog.read fun h => some h.playing)
  Prog.when (playing ≠ ksiEngineStopped) (locked (onPool fun _ => ksiEngineStop))

/-- `ksiEngineInit`. -/
def init (fb : Int) : Line Unit := Prog.modify fun d => { d with
  handler := d.handler.fresh fb
  timeStamp := 0
  notRequireReset := true
  lockable := true }

def initializeEngine (lptr : List Char) : Line Unit := do
  let (fb, _) ← Prog.orError (scanSizes lptr) ksiErrorSyntax
  let playing ← onHandler (Prog.read fun h => some h.playing)
  Prog.when (playing ≠ ksiEngineUninitialized) do
    stop
    locked (Prog.modify fun h => h.put (ksiEngineDestroy h.playing h.wp))
  init fb

/-- `ksiEngineCommit`; it returns at once on an engine with nothing to commit. -/
def commit : Line Unit := fun d =>
  if d.handler.session.engine.playing = -2 ∨ d.handler.session.syncCmds = [] then
    onHandler Cmd.commit d
  else locked Cmd.commit d

def initializeAudio (p : Platform) (lptr : List Char) : Line Unit := do
  Prog.require (lptr = [] ∨ lptr.head? = some '\n') ksiErrorSyntax
  stop
  onHandler (onEngine checkInitialized)
  locked (Prog.require (p.paIOInit = ksiErrorNone) p.paIOInit)
  commit
  locked (onPool ksiEngineLaunch)

/-- The lines of a file, up to one that quits. -/
def consume_file (line : List Char → Line Bool) : List (List Char) → Line Unit
  | [] => pure ()
  | l :: rest => do
      let quit ← line l
      if quit then pure () else consume_file line rest

/-- The switch, but for the lines that load a file; whether the line quits. -/
def consumeVerb (p : Platform) (toRet : Bool) (cmd : Char) (lptr : List Char) : Line Bool :=
  let goOn (x : Line Unit) : Line Bool := x >>= fun _ => pure false
  match cmd with
  | 'n' => goOn (newNode toRet lptr)
  | 'w' => goOn (makeWire p lptr)
  | 'd' => goOn (detachNodes lptr)
  | 'r' => goOn (removeNode lptr)
  | 'u' => goOn (removeWire lptr)
  | '.' => goOn (setFrames lptr)
  | '-' => goOn (setSeconds p lptr)
  | 'b' => goOn (makeBias p lptr)
  | 'q' => pure true
  | 'e' => goOn (editNode toRet lptr)
  | 'P' => goOn (locked (onPool ksiEnginePause))
  | 'R' => goOn (locked (onPool ksiEngineResume))
  | 'i' => goOn (initializeEngine lptr)
  | 'a' => goOn (initializeAudio p lptr)
  | 'o' => goOn (onHandler (loadTimeSeq p.toWorld toRet lptr))
  | 't' => goOn (onHandler (unloadTimeSeq lptr))
  | '>' | 'h' | '\n' => pure false
  | _ => Prog.error ksiErrorSyntax

/-- `consume_line`.  With `toRet` false it is called with `idRet` NULL.  `fuel` bounds how
deep command files may load each other. -/
def consume_line (p : Platform) : Nat → Bool → List Char → Line Bool
  | _, _, [] => pure false
  | fuel, _, 'l' :: lptr => do
      let lines ← Prog.orError (p.file (path lptr)) ksiErrorFileSystem
      match fuel with
      | 0 => Prog.fault
      | fuel + 1 => do
          consume_file (consume_line p fuel false) lines
          pure false
  | _, toRet, cmd :: lptr => consumeVerb p toRet cmd lptr

end Ksi.Cmd.Full

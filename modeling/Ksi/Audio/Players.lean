/-
The resources, and the players that use them.

A player is a MidiSeg node.  It points to the tree of one of the resources and to a node of
that tree, its cursor; nothing but the editing command that sets the first checks that the
resource is there.  Both versions of the graph share what `n->args` points to, so a player
is named by that address here, and the committer that repeats an edit edits the same player
again.

The trees and their nodes are in one memory.  Which players the callback resets and runs is in
the labels, and so is what `malloc` returns: memory that is not in use, but may have been.
The samples and the events are in `Ksi.Audio.Scarlet`.
-/
import Ksi.Resource
import Ksi.Audio.Scarlet

namespace Ksi.Audio.Players

open Dag (KsiError)
open Dag.KsiError Ksi.RBTree Resource Cmd Scarlet

/-! ### The memory of the trees -/

/-- The address of a `KsiRBTree`. -/
abbrev TreePtr := Nat

/-- What is at such an address. -/
structure Tree where
  root : Option Ptr
  sentinel : Option Ptr

/-- The trees and the nodes that are allocated. -/
structure Heap where
  tree : TreePtr → Option Tree
  node : Ptr → Option KsiRBNode

namespace Heap

/-- What a function of rbtree.c finds with the tree `a`. -/
def view (h : Heap) (a : TreePtr) : Option KsiRBTree :=
  (h.tree a).map fun n => { root := n.root, sentinel := n.sentinel, node := h.node }

/-- `malloc` may return `a` for a tree, and `m` for as many notes. -/
def Unused (h : Heap) (a : TreePtr) (m : Mallocs) (notes : Nat) : Prop :=
  h.tree a = none ∧ h.node m.sentinel = none ∧ ∀ i < notes, h.node (m.note i) = none

/-- A tree `n` that has been built in such memory. -/
def add (h : Heap) (a : TreePtr) (n : KsiRBTree) : Heap where
  tree := Function.update h.tree a (some { root := n.root, sentinel := n.sentinel })
  node := fun p => (h.node p).or (n.node p)

/-- `free(a)`, after the nodes of the tree have been freed in `n`. -/
def remove (h : Heap) (a : TreePtr) (n : KsiRBTree) : Heap where
  tree := Function.update h.tree a none
  node := n.node

/-- What a function of rbtree.c returns for the tree `a`. -/
def call {α : Type} (h : Heap) (a : Option TreePtr) (x : Prog KsiRBTree Empty α) : Option α :=
  (a.bind h.view).bind fun n =>
    match x n with
    | some (.ok r, _) => some r
    | _ => none

/-- `p->key`. -/
def key (h : Heap) (p : Ptr) : Option Int := (h.node p).map KsiRBNode.key

end Heap

instance (h : Heap) (a : TreePtr) (m : Mallocs) (notes : Nat) : Decidable (h.Unused a m notes) :=
  decidable_of_iff ((h.tree a).isNone = true ∧ (h.node m.sentinel).isNone = true ∧
    ∀ i < notes, (h.node (m.note i)).isNone = true) (by
      unfold Heap.Unused
      simp only [Option.isNone_iff_eq_none])

/-! ### The state -/

/-- `plugin_env` of midiseg.c, less the frequency. -/
structure PluginEnv where
  tree : Option TreePtr
  current : Option Ptr
  deriving DecidableEq, Repr

/-- The address of a `plugin_env`. -/
abbrev ArgsPtr := Nat

/-- What the players use of an engine, which has been initialised. -/
structure PlayerEngine where
  framesPerSecond : Int
  timeStamp : Nat
  timeseqResources : KsiVec TreePtr
  heap : Heap
  /-- the players there are -/
  args : ArgsPtr → Option PluginEnv

/-- After `ksiEngineInit`. -/
def init (framesPerSecond : Int) (capacity : Nat) : PlayerEngine where
  framesPerSecond := framesPerSecond
  timeStamp := 0
  timeseqResources := ksiVecInit TreePtr capacity
  heap := { tree := fun _ => none, node := fun _ => none }
  args := fun _ => none

/-! ### resource.c -/

/-- `ksiTimeSeqLoadToEngineFromTextFilePath`: the error, and `*id` if it has been set.  A tree
that is lost on an error is not kept. -/
def ksiTimeSeqLoadToEngineFromTextFilePath (m : Mallocs) (a : TreePtr)
    (file : Option (List (List Char))) (d : PlayerEngine) :
      Option (KsiError × Option Nat × PlayerEngine) :=
  match file with
  | none => some (ksiErrorFileSystem, none, d)
  | some lines => do
      let (err, n) ← ksiTimeSeqLoadFromTextFile lines.length m lines d.framesPerSecond
      if err = ksiErrorNone then
        let (id, v) := ksiVecInsert d.timeseqResources a
        some (err, some id, { d with timeseqResources := v, heap := d.heap.add a n })
      else some (err, none, d)

/-- `ksiTimeSeqUnloadFromEngine`. -/
def ksiTimeSeqUnloadFromEngine (fuel : Nat) (id : Int) (d : PlayerEngine) :
    Option (KsiError × PlayerEngine) := do
  match ← d.timeseqResources.check id with
  | none => some (ksiErrorResIdNotFound, d)
  | some a =>
      let n ← d.heap.view a
      let (_, n) ← (ksiRBTreeDestroy fuel : Prog KsiRBTree Empty Unit) n
      some (ksiErrorNone, { d with
        timeseqResources := ksiVecDelete d.timeseqResources id.toNat
        heap := d.heap.remove a n })

/-! ### midiseg.c -/

def kscarletMidiSegEditCmd (timeseqResources : KsiVec TreePtr) (args : List Char)
    (env : PluginEnv) : Option (KsiError × PluginEnv) :=
  match args with
  | 'm' :: args =>
      match scanD args with
      | none => some (ksiErrorSyntax, env)
      | some mid => do
          match ← timeseqResources.check mid.1 with
          | none => some (ksiErrorTimeSeqIdNotFound, env)
          | some a => some (ksiErrorNone, { env with tree := some a })
  | 'p' :: _ | 'P' :: _ => some (ksiErrorNone, env)
  | _ => some (ksiErrorSyntax, env)

def kscarletMidiSegInit : PluginEnv := { tree := none, current := none }

def kscarletMidiSegReset (env : PluginEnv) : PluginEnv := { env with current := none }

/-- The `while` loop at frame `i`: the cursor, and `localNextEvent`. -/
def play (h : Heap) (tree : Option TreePtr) (timeStamp fuel i : Nat) :
    Nat → Option Ptr → Int → Option (Option Ptr × Int)
  | rounds, current, localNextEvent =>
      if localNextEvent ≠ i then some (current, localNextEvent)
      else match rounds with
        | 0 => none
        | rounds + 1 => do
            let p ← current
            let _ ← h.node p
            match ← h.call tree (ksiRBTreeNext fuel (some p)) with
            | none => play h tree timeStamp fuel i rounds none (-1)
            | some q => do
                let key ← h.key q
                play h tree timeStamp fuel i rounds (some q) (currentDt key timeStamp)

/-- The loop over the frames: the cursor. -/
def frames (h : Heap) (tree : Option TreePtr) (timeStamp fuel : Nat) :
    List Nat → Option Ptr → Int → Option (Option Ptr)
  | [], current, _ => some current
  | i :: rest, current, localNextEvent => do
      let (current, localNextEvent) ← play h tree timeStamp fuel i fuel current localNextEvent
      frames h tree timeStamp fuel rest current localNextEvent

/-- The key that is looked up, as the `int32_t` that it is passed as. -/
def startKey (timeStamp : Nat) : Int := (timeStamp : Int).bmod (2 ^ 32)

/-- The cursor that a player starts from. -/
def lookUp (h : Heap) (timeStamp fuel : Nat) (env : PluginEnv) : Option (Option Ptr) :=
  match env.current, env.tree with
  | some p, _ => some (some p)
  | none, none => some none
  | none, some a => h.call (some a) (ksiRBTreeNextForKey fuel (startKey timeStamp))

def kscarletMidiSeg (h : Heap) (timeStamp bufsize fuel : Nat) (env : PluginEnv) :
    Option PluginEnv :=
  (lookUp h timeStamp fuel env).bind fun current =>
    match current with
    | none => some { env with current := none }
    | some p => (h.key p).bind fun key =>
        if currentDt key timeStamp > bufsize then some { env with current := some p }
        else (frames h env.tree timeStamp fuel (List.range bufsize) (some p)
          (currentDt key timeStamp)).map fun current => { env with current := current }

/-! ### Steps -/

inductive Label
  /-- a load, with what `malloc` returns and the file that is found -/
  | load (m : Mallocs) (a : TreePtr) (file : Option (List (List Char)))
  | unload (id : Int) (fuel : Nat)
  /-- a new player -/
  | create (n : ArgsPtr)
  /-- the player is freed -/
  | destroy (n : ArgsPtr)
  /-- an editing command, or the committer that repeats it -/
  | edit (n : ArgsPtr) (args : List Char)
  /-- a store to `e->timeStamp`, by a line or by the callback -/
  | time (timeStamp : Nat)
  | reset (n : ArgsPtr)
  /-- the player's part of a callback -/
  | run (n : ArgsPtr) (bufsize fuel : Nat)

def PlayerEngine.setArgs (d : PlayerEngine) (n : ArgsPtr) (env : Option PluginEnv) : PlayerEngine :=
  { d with args := Function.update d.args n env }

def step (d : PlayerEngine) : Label → Option PlayerEngine
  | .load m a file =>
      if d.heap.Unused a m (file.getD []).length then
        (ksiTimeSeqLoadToEngineFromTextFilePath m a file d).map (·.2.2)
      else none
  | .unload id fuel => (ksiTimeSeqUnloadFromEngine fuel id d).map (·.2)
  | .create n => if d.args n = none then some (d.setArgs n kscarletMidiSegInit) else none
  | .destroy n => (d.args n).map fun _ => d.setArgs n none
  | .edit n args => do
      let env ← d.args n
      let r ← kscarletMidiSegEditCmd d.timeseqResources args env
      some (d.setArgs n r.2)
  | .time timeStamp => some { d with timeStamp := timeStamp }
  | .reset n => (d.args n).map fun env => d.setArgs n (kscarletMidiSegReset env)
  | .run n bufsize fuel => do
      let env ← d.args n
      let env ← kscarletMidiSeg d.heap d.timeStamp bufsize fuel env
      some (d.setArgs n env)

end Ksi.Audio.Players

/-
Loading a sequence of notes from a text file.

The first line of the file holds the bars of a minute, and each further line one note.  The
arithmetic is that of 32-bit integers, where C leaves the result of an overflow and of a
division by zero undefined; such a load has no result here.

What the file system and `malloc` return are arguments.  The other resources and fields of
the engine are left out.  On an error the tree is lost.
-/
import Ksi.RBTree
import Ksi.Cmd.Scan
import Ksi.Vec
import Ksi.Pool.Lifecycle
import Mathlib.Algebra.Group.Int.Defs
import Mathlib.Algebra.Group.Nat.Defs

namespace Ksi.Resource

open Dag (KsiError)
open Dag.KsiError Ksi.RBTree Cmd

/-! ### Arithmetic of `int32_t` -/

/-- The value is one of an `int32_t`. -/
def InInt32 (x : Int) : Prop := -2 ^ 31 ≤ x ∧ x < 2 ^ 31

instance (x : Int) : Decidable (InInt32 x) := by
  unfold InInt32
  infer_instance

/-- A result, if it does not overflow. -/
def int32 (x : Int) : Option Int := if InInt32 x then some x else none

/-- `x * y`. -/
def mul32 (x y : Int) : Option Int := int32 (x * y)

/-- `x + y`. -/
def add32 (x y : Int) : Option Int := int32 (x + y)

/-- `x / y`, which cuts off towards zero. -/
def div32 (x y : Int) : Option Int := if y = 0 then none else int32 (x.tdiv y)

/-- `x % y`, defined where `x / y` is. -/
def mod32 (x y : Int) : Option Int := (div32 x y).map fun _ => x.tmod y

/-! ### Lines -/

/-- What a line of a note stores. -/
structure Fields where
  bar : Int16
  div : Int16
  num : Int16
  note : Int8
  vel : Int8
  deriving DecidableEq, Repr

/-- `sscanf(line, "%hd\n", ..)`, where all is read. -/
def scanBarpm (line : List Char) : Option Int16 := do
  let (barpm, _) ← scanD line
  some (Int16.ofInt barpm)

/-- `sscanf(line, "%hd %hd %hd %hhd %hhd\n", ..)`, where all is read. -/
def scanFields (line : List Char) : Option Fields := do
  let (bar, line) ← scanD line
  let (div, line) ← scanD line
  let (num, line) ← scanD line
  let (note, line) ← scanD line
  let (vel, _) ← scanD line
  some { bar := Int16.ofInt bar, div := Int16.ofInt div, num := Int16.ofInt num
         note := Int8.ofInt note, vel := Int8.ofInt vel }

/-- The time of a note. -/
def timeOf (framesPerSecond : Int) (barpm : Int16) (f : Fields) : Option Int := do
  let fpb ← div32 (← mul32 framesPerSecond 60) barpm.toInt
  let bars ← mul32 (← mul32 (← div32 f.bar.toInt barpm.toInt) framesPerSecond) 60
  let beats ← mul32 (← mod32 f.bar.toInt barpm.toInt) fpb
  let part ← div32 (← mul32 fpb f.num.toInt) f.div.toInt
  add32 (← add32 bars beats) part

/-! ### Files -/

/-- What `malloc` returns for the nodes of a tree, and what it leaves in them. -/
structure Mallocs where
  sentinel : Ptr
  note : Nat → Ptr
  garbage : Ptr → KsiRBNode
  injective : Function.Injective note
  apart : ∀ i, note i ≠ sentinel

/-- The node of a line. -/
def Mallocs.node (m : Mallocs) (i : Nat) (time : Int) (f : Fields) : Ptr × KsiRBNode :=
  (m.note i, { m.garbage (m.note i) with
    key := time
    data := { tone := f.note.toInt, velocity := f.vel.toInt } })

/-- The loop over the lines of the notes, from the `i`-th on. -/
def loadNotes (fuel : Nat) (m : Mallocs) (framesPerSecond : Int) (barpm : Int16) :
    Nat → List (List Char) → Prog KsiRBTree KsiError Unit
  | _, [] => pure ()
  | i, line :: rest => do
      let f ← Prog.orError (scanFields line) ksiErrorSyntax
      let time ← Prog.read fun _ => timeOf framesPerSecond barpm f
      let n := m.node i time f
      malloc n.1 n.2
      ksiRBTreeAttach fuel (some n.1)
      loadNotes fuel m framesPerSecond barpm (i + 1) rest

/-- `ksiTimeSeqLoadFromTextFile`: the error and the tree. -/
def ksiTimeSeqLoadFromTextFile (fuel : Nat) (m : Mallocs) (lines : List (List Char))
    (framesPerSecond : Int) : Option (KsiError × KsiRBTree) :=
  let load : Prog KsiRBTree KsiError Unit :=
    match lines with
    | [] => pure ()
    | line :: rest => do
        let barpm ← Prog.orError (scanBarpm line) ksiErrorSyntax
        loadNotes fuel m framesPerSecond barpm 0 rest
  match load (ksiRBTreeInit m.sentinel (m.garbage m.sentinel)) with
  | none => none
  | some (.error err, tree) => some (err, tree)
  | some (.ok (), tree) => some (ksiErrorNone, tree)

/-- What loading uses of `KsiEngine`. -/
structure ResourceEngine where
  playing : Pool.Playing
  framesPerSecond : Int
  timeseqResources : KsiVec KsiRBTree

/-- `ksiTimeSeqLoadToEngineFromTextFilePath`, for what `fopen` gives: the error, `*id` if it
has been set, and the engine. -/
def ksiTimeSeqLoadToEngineFromTextFilePath (fuel : Nat) (m : Mallocs)
    (file : Option (List (List Char))) (e : ResourceEngine) :
    Option (KsiError × Option Nat × ResourceEngine) :=
  if e.playing = .ksiEngineUninitialized then some (ksiErrorUninitialized, none, e)
  else match file with
    | none => some (ksiErrorFileSystem, none, e)
    | some lines => do
        let (err, n) ← ksiTimeSeqLoadFromTextFile fuel m lines e.framesPerSecond
        if err = ksiErrorNone then
          let (id, v) := ksiVecInsert e.timeseqResources n
          some (err, some id, { e with timeseqResources := v })
        else some (err, none, e)

end Ksi.Resource

/-
The growable vector of the client.

Vectors are lists, sizes and indices natural numbers.  What `make-vector` leaves in a vector
of a given size is an argument.  A procedure that raises an exception has changed what it
had stored before.
-/
import Mathlib.Tactic.Common

namespace Ksi.Ctl

/-- The record `dynamic-vector`. -/
structure DynamicVector (α : Type) where
  length : Nat
  contentVector : List α

/-- The exceptions. -/
inductive Violation (α : Type)
  /-- by `vector-ref` and `vector-set!` -/
  | invalidIndex (index : Nat)
  | assertionViolation (who message : String) (vec : DynamicVector α) (index : Nat) (val : α)

variable {α : Type}

/-! ### Vectors -/

def makeVector (unspecified : Nat → Nat → α) (k : Nat) : List α :=
  (List.range k).map (unspecified k)

def vectorRef (vector : List α) (k : Nat) : Except (Violation α) α :=
  match vector[k]? with
  | some obj => .ok obj
  | none => .error (.invalidIndex k)

def vectorSet (vector : List α) (k : Nat) (obj : α) : Except (Violation α) (List α) :=
  if k < vector.length then .ok (vector.set k obj) else .error (.invalidIndex k)

/-! ### The procedures -/

variable (unspecified : Nat → Nat → α)

/-- `make-dynamic-vector`. -/
def makeDynamicVector : DynamicVector α where
  length := 0
  contentVector := makeVector unspecified 4

/-- `dynamic-vector-ref`. -/
def dynamicVectorRef (vec : DynamicVector α) (index : Nat) (default : α) :
    Except (Violation α) α :=
  if index < vec.length then vectorRef vec.contentVector index else .ok default

/-- `dynamic-vector-set!`. -/
def dynamicVectorSet (vec : DynamicVector α) (index : Nat) (val : α) :
    Except (Violation α) Unit × DynamicVector α :=
  if index < vec.length then
    match vectorSet vec.contentVector index val with
    | .ok content => (.ok (), { vec with contentVector := content })
    | .error violation => (.error violation, vec)
  else
    (.error (.assertionViolation "dynamic-vector-set!" "index out of range" vec index val), vec)

/-- The loop `h` of `dynamic-vector-resize`. -/
def copyFrom (oldCap : Nat) (srcVec desVec : List α) (idx : Nat) :
    Except (Violation α) (List α) :=
  if idx < oldCap then do
    let obj ← vectorRef srcVec idx
    let desVec ← vectorSet desVec idx obj
    copyFrom oldCap srcVec desVec (idx + 1)
  else .ok desVec
termination_by oldCap - idx

/-- `dynamic-vector-resize`. -/
def dynamicVectorResize (vec : DynamicVector α) (newSize : Nat) :
    Except (Violation α) Unit × DynamicVector α :=
  let content := vec.contentVector
  let oldCap := content.length
  let vec := { vec with length := newSize }
  if newSize > oldCap then
    match copyFrom oldCap content (makeVector unspecified (2 * oldCap)) 0 with
    | .ok newContent => (.ok (), { vec with contentVector := newContent })
    | .error violation => (.error violation, vec)
  else (.ok (), vec)

end Ksi.Ctl

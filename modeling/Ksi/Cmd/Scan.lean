/-
What sscanf reads of a command line.

A line is the list of its characters up to the NUL, with the newline that ends it.  Each
format that cmd.c uses is one function here; `none` says that fewer items have been read
than CHECK_READ asks for.

A format that ends in `x%n` stores how much has been read only if the `x` is there.  The
rest of the line is `none` otherwise: the pointer to it is not defined.
-/
import Ksi.Scan
import Ksi.Dag.Data

namespace Ksi.Cmd

open Dag

/-- A character of the format that stands for itself. -/
def scanChar (c : Char) : List Char → Option (List Char)
  | [] => none
  | c' :: rest => if c' = c then some rest else none

/-- `%d:%d`. -/
def scanPort (l : List Char) : Option ((Int × Int) × List Char) := do
  let (id, l) ← scanD l
  let l ← scanChar ':' l
  let (port, l) ← scanD l
  some ((id, port), l)

/-- `%d:%d>%d:%d`. -/
def scanWire (l : List Char) : Option (((Int × Int) × Int × Int) × List Char) := do
  let (src, l) ← scanPort l
  let l ← scanChar '>' l
  let (des, l) ← scanPort l
  some ((src, des), l)

/-- `%d>%d`. -/
def scanNodes (l : List Char) : Option (Int × Int) := do
  let (srcId, l) ← scanD l
  let l ← scanChar '>' l
  let (desId, _) ← scanD l
  some (srcId, desId)

/-- `%d,%d`. -/
def scanSizes (l : List Char) : Option (Int × Int) := do
  let (fb, l) ← scanD l
  let l ← scanChar ',' l
  let (fs, _) ← scanD l
  some (fb, fs)

/-- `%d %n`: the number, and what follows the blanks. -/
def scanArgs (l : List Char) : Option (Int × List Char) := do
  let (id, l) ← scanD l
  some (id, l.dropWhile isspace)

/-- `%c%hd`, and the switch on the character: the type flags of a new node. -/
def scanType (l : List Char) : Option (BitVec 32) :=
  match l with
  | [] => none
  | o :: l => do
      let (funcId, _) ← scanD l
      let type := BitVec.ofInt 32 funcId <<< 16
      match o with
      | 'n' => some (type ||| ksiNodeTypeOutputNormal)
      | 'f' => some (type ||| ksiNodeTypeOutputFinal)
      | _ => none

end Ksi.Cmd

/-
The text of a reply, and how a client takes it apart.

`fifo_handler` prints the error code, the error text and, for an `n`, the id, with a ';'
after each; `report_type` prints the types of the node's inputs and outputs.  The client of
graph-instance.ss reads a reply with `get-string`, which takes the characters up to a ';',
and with `get-line`.  Both wait as long as what ends the field has not come.

`errtxt` belongs to `fifo_handler`, and `consume_line` stores to it: a text for a line that
it cannot read, NULL for a line that has done its work.  For an edit that the engine
refuses it stores nothing, so that the text of an earlier line is printed again.

Scheme leaves open in which order the arguments of `list` are evaluated.  They are read
here as they stand, from left to right.
-/
import Ksi.Lib.Fields
import Ksi.Cmd.Handler

namespace Ksi.Cmd

open Dag KsiError Fields

/-! ### What is printed -/

/-- The value of an enumerator; err.h numbers them in their order. -/
def code (err : KsiError) : Nat := err.ctorIdx

/-- `%d` of a number. -/
def printD (n : Int) : List Char := (if n < 0 then ['-'] else []) ++ Nat.toDigits 10 n.natAbs

def ksiNodePortTypeEventFloat : PortType := 0x0 ||| 0x8
def ksiNodePortTypeEventInt32 : PortType := 0x2 ||| 0x8
def ksiNodePortTypeEventString : PortType := 0x3 ||| 0x8
def ksiNodePortTypeEventList : PortType := 0x4 ||| 0x8

/-- `ksiDataTypeToCharacter`; the assertion fails for any other type. -/
def ksiDataTypeToCharacter (typeFlag : PortType) : Option Char :=
  let t := typeFlag &&& ksiNodePortTypeMask
  if t = ksiNodePortTypeEventFloat then some 'F'
  else if t = ksiNodePortTypeEventGate then some 'G'
  else if t = ksiNodePortTypeEventInt32 then some 'I'
  else if t = ksiNodePortTypeEventString then some 'S'
  else if t = ksiNodePortTypeEventList then some 'L'
  else if t = ksiNodePortTypeFloat then some 'f'
  else if t = ksiNodePortTypeGate then some 'g'
  else if t = ksiNodePortTypeInt32 then some 'i'
  else none

/-- The characters for the input and the output types of the node with this id.  The id is
not checked. -/
def portTypes (e : Engine) (id : Int) : Option (List Char × List Char) := do
  let n ← (if id < 0 then none else e.graph.nodes.data id.toNat)
  let node ← e.graph.heap n
  let itypes ← node.inputs.mapM fun port => ksiDataTypeToCharacter port.type
  let otypes ← node.outputs.mapM ksiDataTypeToCharacter
  some (itypes, otypes)

def report_type (e : Engine) (id : Int) : Option (List Char) :=
  (portTypes e id).map fun types => types.1 ++ ';' :: types.2 ++ ['\n']

/-- What is printed after the last ';' of a reply that has types. -/
def Reply.printTypes (r : Reply) (e : Engine) : Option (List Char) :=
  match r.typeOf with
  | some id => report_type e id
  | none => some [';', '\n']

/-- From `next` up to the commit: what is printed for a reply. -/
def Reply.print (r : Reply) (cmd : Option Char) (errtxt : List Char) (e : Engine) :
    Option (List Char) :=
  let head := printD (code r.err) ++ ';' :: errtxt
  match cmd, r.id with
  | some 'n', some idRet =>
      (r.printTypes e).map fun types => head ++ ';' :: printD idRet ++ ';' :: types
  | some 'e', _ => (r.printTypes e).map fun types => head ++ ';' :: types
  | _, _ => some (head ++ ['\n'])

/-- What `errtxt` points to after an `n`, if `err` is what came of it. -/
def errtxtNew (lptr : List Char) (err : KsiError) (errtxt : List Char) : List Char :=
  match lptr with
  | [] => "Invalid argument format.".toList
  | o :: l =>
      if (scanD l).isNone then "Invalid argument format.".toList
      else if o ≠ 'n' ∧ o ≠ 'f' then "Invalid output type.".toList
      else if err = ksiErrorNone then []
      else errtxt

/-! ### The two ends of the channel -/

/-- What the reply to an `n` is about. -/
structure NewNode where
  err : KsiError
  emsg : List Char
  nid : Int
  itypes : List Char
  otypes : List Char
  deriving DecidableEq, Repr

/-- The command's code and id, and the types of its node; none for a command that failed. -/
def Reply.newNode (r : Reply) (errtxt : List Char) (e : Engine) : Option NewNode :=
  match r.typeOf with
  | some id => (portTypes e id).map fun types =>
      { err := r.err, emsg := errtxt, nid := id, itypes := types.1, otypes := types.2 }
  | none => some { err := r.err, emsg := errtxt, nid := 0, itypes := [], otypes := [] }

/-- `fifo_handler`, with the text that `errtxt` points to; no text for NULL. -/
structure Daemon where
  handler : Handler
  errtxt : List Char

/-- The line that `graph-instance-add-node` writes. -/
def addNodeLine (componentId : List Char) : List Char := 'n' :: 'n' :: componentId ++ ['\n']

/-- The daemon handles this line: what the reply is about, what is printed, and the daemon
before the next line. -/
def Daemon.newNode (w : World) (fuel : Nat) (d : Daemon) (componentId : List Char) :
    Option ((NewNode × List Char) × Daemon) :=
  let line := addNodeLine componentId
  match handle w fuel line d.handler with
  | some (some r, h) => do
      let errtxt := errtxtNew line.tail r.err d.errtxt
      let text ← r.print line.head? errtxt h.session.engine
      let reply ← r.newNode errtxt h.session.engine
      let after ← finish h
      some ((reply, text), { handler := after.2, errtxt := errtxt })
  | _ => none

/-- One line after another. -/
def Daemon.newNodes (w : World) (fuel : Nat) (d : Daemon) :
    List (List Char) → Option (List (NewNode × List Char) × Daemon)
  | [] => some ([], d)
  | componentId :: rest => do
      let (reply, d) ← d.newNode w fuel componentId
      let (replies, d) ← d.newNodes w fuel rest
      some (reply :: replies, d)

/-- What `graph-instance-add-node` makes of a reply: the id that it stores with the two
texts that it returns, or what it returns with `failed`. -/
inductive Added
  | success (nid itypes otypes : List Char)
  | failed (code line : List Char)
  deriving DecidableEq, Repr

def getString : List Char → Option (List Char × List Char) := readTo ';'

def getLine : List Char → Option (List Char × List Char) := readTo '\n'

/-- `graph-instance-add-node` from `(get-string in-port)` on; `in-port` without what it has
read. -/
def graphInstanceAddNode (inPort : List Char) : Option (Added × List Char) := do
  let (code, inPort) ← getString inPort
  if code = ['0'] then
    let (_, inPort) ← getString inPort
    let (nid, inPort) ← getString inPort
    let (itypes, inPort) ← getString inPort
    let (otypes, inPort) ← getString inPort
    some (.success nid itypes otypes, inPort)
  else
    let (line, inPort) ← getLine inPort
    some (.failed code line, inPort)

end Ksi.Cmd

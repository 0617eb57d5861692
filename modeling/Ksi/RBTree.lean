/-
The red-black tree that a sequence of notes is kept in.

The nodes are those of the memory; a leaf is the sentinel, a node of its own that the
tree allocates.  The functions read and write the memory as the C functions do, and fault
where these follow NULL or a pointer to no node; a loop faults when it runs out of `fuel`.

The two halves of the insertion, and the two rotations, are mirror images, so each is
written once, for a side.  Of the data of a node, the note is kept; the other members of
the union are not used.  Deletion, and what only it uses, is left out, since nothing calls it.
-/
import Ksi.Lib.Prog
import Ksi.Lib.Tree
import Mathlib.Logic.Function.Basic

namespace Ksi.RBTree

abbrev Ptr := Nat

/-- The member `note` of the data of a node. -/
structure Note where
  tone : Int
  velocity : Int
  deriving DecidableEq, Repr

structure KsiRBNode where
  parent : Option Ptr
  right : Option Ptr
  left : Option Ptr
  key : Int
  type : BitVec 32
  data : Note

/-- `KsiRBTree`, and the nodes that are allocated. -/
structure KsiRBTree where
  root : Option Ptr
  sentinel : Option Ptr
  node : Ptr → Option KsiRBNode

namespace KsiRBNode

def child (d : Side) (n : KsiRBNode) : Option Ptr :=
  match d with
  | .left => n.left
  | .right => n.right

def setChild (d : Side) (p : Option Ptr) (n : KsiRBNode) : KsiRBNode :=
  match d with
  | .left => { n with left := p }
  | .right => { n with right := p }

def setParent (p : Option Ptr) (n : KsiRBNode) : KsiRBNode := { n with parent := p }

/-- `rbtree_is_black`. -/
def isBlack (n : KsiRBNode) : Bool := n.type &&& 1 != 0

/-- `rbtree_black`. -/
def black (n : KsiRBNode) : KsiRBNode := { n with type := n.type ||| 1 }

/-- `rbtree_red`. -/
def red (n : KsiRBNode) : KsiRBNode := { n with type := n.type &&& ~~~1 }

end KsiRBNode

/-- The tree with `f` done to the node `p`. -/
def KsiRBTree.update (s : KsiRBTree) (p : Ptr) (f : KsiRBNode → KsiRBNode) : KsiRBTree :=
  { s with node := fun q => if q = p then (s.node q).map f else s.node q }

def KsiRBTree.withRoot (s : KsiRBTree) (p : Option Ptr) : KsiRBTree := { s with root := p }

/-- The tree with the node `n` in the memory at `p`. -/
def KsiRBTree.withNode (s : KsiRBTree) (p : Ptr) (n : KsiRBNode) : KsiRBTree :=
  { s with node := Function.update s.node p (some n) }

/-! ### The memory -/

section

variable {ε : Type}

/-- `*p`. -/
def deref (p : Option Ptr) : Prog KsiRBTree ε KsiRBNode := Prog.read fun s => p.bind s.node

/-- `f` done to `*p`. -/
def assign (p : Option Ptr) (f : KsiRBNode → KsiRBNode) : Prog KsiRBTree ε Unit := do
  let p ← Prog.read fun s => p.filter fun q => (s.node q).isSome
  Prog.modify fun s => s.update p f

/-- `tree->root`. -/
def root : Prog KsiRBTree ε (Option Ptr) := Prog.read fun s => some s.root

/-- `tree->root = p`. -/
def setRoot (p : Option Ptr) : Prog KsiRBTree ε Unit := Prog.modify (·.withRoot p)

/-- `tree->sentinel`. -/
def sentinel : Prog KsiRBTree ε (Option Ptr) := Prog.read fun s => some s.sentinel

/-- `p->left` or `p->right`. -/
def child (d : Side) (p : Option Ptr) : Prog KsiRBTree ε (Option Ptr) := do
  let n ← deref p
  pure (n.child d)

/-- `p->parent`. -/
def parent (p : Option Ptr) : Prog KsiRBTree ε (Option Ptr) := do
  let n ← deref p
  pure n.parent

/-- `p->key`. -/
def key (p : Option Ptr) : Prog KsiRBTree ε Int := do
  let n ← deref p
  pure n.key

/-- `rbtree_is_black(p)`. -/
def isBlack (p : Option Ptr) : Prog KsiRBTree ε Bool := do
  let n ← deref p
  pure n.isBlack

def setChild (d : Side) (p q : Option Ptr) : Prog KsiRBTree ε Unit := assign p (·.setChild d q)

def setParent (p q : Option Ptr) : Prog KsiRBTree ε Unit := assign p (·.setParent q)

/-! ### Insertion -/

/-- In a rotation, what points to `node` is made to point to `p`. -/
def replaceChild (d : Side) (node p : Option Ptr) : Prog KsiRBTree ε Unit := do
  if node = (← root) then setRoot p
  else if node = (← child d (← parent node)) then setChild d (← parent node) p
  else setChild d.other (← parent node) p

/-- `rbtree_left_rotate`, for the side `left`, and its mirror image. -/
def rotate (d : Side) (node : Option Ptr) : Prog KsiRBTree ε Unit := do
  let right ← child d.other node
  setChild d.other node (← child d right)
  Prog.when ((← child d right) ≠ (← sentinel)) do
    setParent (← child d right) node
  setParent right (← parent node)
  replaceChild d node right
  setChild d right node
  setParent node right

def rbtreeLeftRotate (node : Option Ptr) : Prog KsiRBTree ε Unit := rotate .left node

def rbtreeRightRotate (node : Option Ptr) : Prog KsiRBTree ε Unit := rotate .right node

/-- The binary tree insert: which child of which node is to be `node`. -/
def descend (node : Option Ptr) : Nat → Option Ptr → Prog KsiRBTree ε (Option Ptr × Side)
  | 0, _ => Prog.fault
  | fuel + 1, parent => do
      let d := if (← key node) < (← key parent) then Side.left else Side.right
      let p ← child d parent
      if p = (← sentinel) then pure (parent, d) else descend node fuel p

/-- The inside insert rotation, if `node` is on the other side of its parent. -/
def insideInsert (d : Side) (node : Option Ptr) : Prog KsiRBTree ε (Option Ptr) := do
  if node = (← child d.other (← parent node)) then do
    let node ← parent node
    rotate d node
    pure node
  else pure node

/-- One round of the loop that re-balances the tree, for a parent that hangs on side `d`;
the node that the next round is about. -/
def rebalanceSide (d : Side) (node : Option Ptr) : Prog KsiRBTree ε (Option Ptr) := do
  let uncle ← child d.other (← parent (← parent node))
  if ¬ (← isBlack uncle) then do
    assign (← parent node) KsiRBNode.black
    assign uncle KsiRBNode.black
    assign (← parent (← parent node)) KsiRBNode.red
    parent (← parent node)
  else do
    let node ← insideInsert d node
    assign (← parent node) KsiRBNode.black
    assign (← parent (← parent node)) KsiRBNode.red
    rotate d.other (← parent (← parent node))
    pure node

/-- The loop that re-balances the tree. -/
def rebalance : Nat → Option Ptr → Prog KsiRBTree ε Unit
  | 0, _ => Prog.fault
  | fuel + 1, node => do
      if node = (← root) then pure ()
      else if ← isBlack (← parent node) then pure ()
      else do
        let d := if (← parent node) = (← child .left (← parent (← parent node))) then Side.left
          else Side.right
        let node ← rebalanceSide d node
        rebalance fuel node

/-- `rbtree_insert`. -/
def rbtreeInsert (fuel : Nat) (node : Option Ptr) : Prog KsiRBTree ε Unit := do
  if (← root) = (← sentinel) then do
    setParent node none
    setChild .left node (← sentinel)
    setChild .right node (← sentinel)
    assign node KsiRBNode.black
    setRoot node
  else do
    let (parent, d) ← descend node fuel (← root)
    setChild d parent node
    setParent node parent
    setChild .left node (← sentinel)
    setChild .right node (← sentinel)
    assign node KsiRBNode.red
    rebalance fuel node
    assign (← root) KsiRBNode.black

/-! ### The operations -/

/-- `ksiRBTreeAttach`. -/
def ksiRBTreeAttach (fuel : Nat) (node : Option Ptr) : Prog KsiRBTree ε Unit :=
  rbtreeInsert fuel node

/-- `!c || n->key < c->key`. -/
def isBetter (n c : Option Ptr) : Prog KsiRBTree ε Bool := do
  if c = none then pure true
  else do
    let k ← key n
    let k' ← key c
    pure (decide (k < k'))

/-- The loop of `ksiRBTreeNextForKey`, for a node `n` and the best node `c` so far. -/
def nextForKey (k : Int) : Nat → Option Ptr → Option Ptr → Prog KsiRBTree ε (Option Ptr)
  | 0, _, _ => Prog.fault
  | _ + 1, none, c => pure c
  | fuel + 1, some n, c => do
      if k < (← key (some n)) then do
        let better ← isBetter (some n) c
        nextForKey k fuel (← child .left (some n)) (if better then some n else c)
      else if k > (← key (some n)) then do
        nextForKey k fuel (← child .right (some n)) c
      else pure (some n)

/-- `ksiRBTreeNextForKey`. -/
def ksiRBTreeNextForKey (fuel : Nat) (k : Int) : Prog KsiRBTree ε (Option Ptr) := do
  nextForKey k fuel (← root) none

/-- `rbtree_node_min`. -/
def rbtreeNodeMin : Nat → Option Ptr → Prog KsiRBTree ε (Option Ptr)
  | 0, _ => Prog.fault
  | fuel + 1, node => do
      if (← child .left node) ≠ (← sentinel) then do
        rbtreeNodeMin fuel (← child .left node)
      else pure node

/-- The loop of `rbtree_next` that climbs. -/
def climb : Nat → Option Ptr → Option Ptr → Prog KsiRBTree ε (Option Ptr)
  | 0, _, _ => Prog.fault
  | fuel + 1, node, p => do
      if p ≠ (← root) then do
        if node = (← child .right p) then do climb fuel p (← parent p)
        else pure p
      else pure p

/-- `ksiRBTreeNext`. -/
def ksiRBTreeNext (fuel : Nat) (node : Option Ptr) : Prog KsiRBTree ε (Option Ptr) := do
  if node = (← sentinel) then pure none
  else if (← child .right node) ≠ (← sentinel) then do
    rbtreeNodeMin fuel (← child .right node)
  else do
    climb fuel node (← parent node)

/-- `free(p)`. -/
def free (p : Option Ptr) : Prog KsiRBTree ε Unit := do
  let p ← Prog.read fun s => p.filter fun q => (s.node q).isSome
  Prog.modify fun s => { s with node := Function.update s.node p none }

/-- `ksiRBNodeDestroy`. -/
def ksiRBNodeDestroy : Nat → Option Ptr → Prog KsiRBTree ε Unit
  | 0, _ => Prog.fault
  | fuel + 1, root => do
      if root = (← sentinel) then pure ()
      else do
        Prog.when ((← child .left root) ≠ none) do ksiRBNodeDestroy fuel (← child .left root)
        Prog.when ((← child .right root) ≠ none) do ksiRBNodeDestroy fuel (← child .right root)
        free root

/-- `ksiRBTreeDestroy`. -/
def ksiRBTreeDestroy (fuel : Nat) : Prog KsiRBTree ε Unit := do
  ksiRBNodeDestroy fuel (← root)
  free (← sentinel)

end

/-! ### Building a tree -/

/-- `rbtree_node_init`, and `rbtree_black`, of a node whose colour and data are left as
they are. -/
def rbtreeNodeInit (garbage : KsiRBNode) : KsiRBNode :=
  { garbage with left := none, right := none, parent := none, key := -1 }

/-- `ksiRBTreeInit`: `sentinel` is what `malloc` returns. -/
def ksiRBTreeInit (sentinel : Ptr) (garbage : KsiRBNode) : KsiRBTree where
  root := some sentinel
  sentinel := some sentinel
  node := Function.update (fun _ => none) sentinel (some (rbtreeNodeInit garbage).black)

/-- A node of the client: `malloc`, with the key and the data stored, and the rest as it
is. -/
def malloc {ε : Type} (p : Ptr) (n : KsiRBNode) : Prog KsiRBTree ε Unit :=
  Prog.modify fun s => s.withNode p n

/-- The tree after `ksiRBTreeInit`, and `ksiRBTreeAttach` for each node in turn. -/
def build (fuel : Nat) (sentinel : Ptr) (garbage : KsiRBNode) (nodes : List (Ptr × KsiRBNode)) :
    Option KsiRBTree :=
  ((Prog.forEach nodes fun (p, n) => do
    malloc p n
    ksiRBTreeAttach fuel (some p)) (ksiRBTreeInit sentinel garbage) :
    Option (Except Empty Unit × KsiRBTree)).map Prod.snd

end Ksi.RBTree

/-
The node code of `libxorp/trie.hh` and `libxorp/ref_trie.hh`, pointer by pointer.

`TrieNode` and `RefTrieNode` are hand-maintained copies of one class.  Where the two
bodies agree there is one definition here, over a node with an extra field `x` and a
`NodeClass` that says what the class does with it; where they differ (`findBounds`,
`findSubtree`, `erase`) each has its own.  Pointers are addresses in a heap, so
`_up`, `_left` and `_right` are read and written one at a time as the source does,
and a loop whose length the source leaves to the shape of the tree runs on fuel:
`bound` is always enough for a heap that holds a tree.
-/
import Xorp.Net.IPNet
import Xorp.Lib.Heap

namespace Xorp

open Linked

/-- A node's key, its payload and the class's extra word. -/
structure Node (w : Nat) (P X : Type) where
  k : IPNet w
  p : Option P
  x : X
deriving DecidableEq

/-- What a node class does with the extra word. -/
structure NodeClass (X : Type) where
  /-- in a new node -/
  init : X
  /-- by `set_payload` -/
  revive : X → X
  /-- `deleted()` -/
  deleted : X → Bool
  /-- on a useless internal node, before `delete` -/
  retire : X → X
  /-- the destructor's assertion -/
  destructible : X → Bool

variable {w : Nat} {P X : Type}

namespace Node

variable (C : NodeClass X)

def glue (k : IPNet w) : Node w P X := ⟨k, none, C.init⟩

def new (k : IPNet w) (p : P) : Node w P X := ⟨k, some p, C.init⟩

def hasPayload (n : Node w P X) : Bool := n.p.isSome

/-- `has_active_payload`; `TrieNode` never deletes, so there it is `has_payload`. -/
def active (n : Node w P X) : Bool := n.p.isSome && !C.deleted n.x

def setPayload (p : P) (n : Node w P X) : Node w P X :=
  { n with p := some p, x := C.revive n.x }

def clear (n : Node w P X) : Node w P X := { n with p := none }

end Node

abbrev Mem (w : Nat) (P X : Type) := Heap (Node w P X)

namespace Mem

variable (C : NodeClass X) (h : Mem w P X) (key : IPNet w)

/-! ### `insert` -/

/-- The `for (;;)` of `insert`, at a place in the tree with the last `parent` seen.
Returns the node that holds the key and whether an entry was overwritten. -/
def insertLoop (C : NodeClass X) (x : IPNet w) (p : P) :
    Nat → Mem w P X → Slot → Option Nat → Except Fault (Mem w P X × Nat × Bool)
  | 0, _, _, _ => .error .outOfFuel
  | fuel + 1, h, place, parent => do
      match ← h.load place with
      | none =>
          let me := h.next
          let h := h.alloc (Node.new C x p) parent
          let h ← h.store place (some me)
          pure (h, me, false)
      | some i =>
          let newroot ← h.read i
          let parent := newroot.up
          let y := newroot.data.k
          if x = y then                                               -- case 0
            let replaced := newroot.data.active C
            let h ← h.setData i (newroot.data.setPayload C p)
            let h ← h.store place (some i)
            pure (h, i, replaced)
          else if x.topAddr < y.maskedAddr then                       -- case A
            let g := h.next
            let h := h.alloc (Node.glue C (x.commonSubnet y)) parent
            let h ← h.setRight g (some i)
            let h ← h.setUp i (some g)
            let me := h.next
            let h := h.alloc (Node.new C x p) (some g)
            let h ← h.setLeft g (some me)
            let h ← h.store place (some g)
            pure (h, me, false)
          else if y.topAddr < x.maskedAddr then                       -- case B
            let g := h.next
            let h := h.alloc (Node.glue C (x.commonSubnet y)) parent
            let h ← h.setLeft g (some i)
            let h ← h.setUp i (some g)
            let me := h.next
            let h := h.alloc (Node.new C x p) (some g)
            let h ← h.setRight g (some me)
            let h ← h.store place (some g)
            pure (h, me, false)
          else if y.maskedAddr ≤ x.maskedAddr ∧ x.topAddr ≤ y.midAddr then    -- case C
            insertLoop C x p fuel h (.left i) (some i)
          else if y.midAddr < x.maskedAddr ∧ x.topAddr ≤ y.topAddr then       -- case D
            insertLoop C x p fuel h (.right i) (some i)
          else if x.midAddr < y.maskedAddr ∧ y.topAddr ≤ x.topAddr then       -- case E
            let me := h.next
            let h := h.alloc (Node.new C x p) parent
            let h ← h.setRight me (some i)
            let h ← h.setUp i (some me)
            let h ← h.store place (some me)
            pure (h, me, false)
          else if x.maskedAddr ≤ y.maskedAddr ∧ y.topAddr ≤ x.midAddr then    -- case F
            let me := h.next
            let h := h.alloc (Node.new C x p) parent
            let h ← h.setLeft me (some i)
            let h ← h.setUp i (some me)
            let h ← h.store place (some me)
            pure (h, me, false)
          else .error .abort

/-- `insert`, called with `&_root`. -/
def insert (x : IPNet w) (p : P) :
    Except Fault (Mem w P X × Nat × Bool) :=
  insertLoop C x p h.bound h .root none

/-! ### `erase` -/

/-- `delete me`, with the mark a payload-free node gets first. -/
def delete (i : Nat) : Except Fault (Mem w P X) := do
  let me ← h.read i
  let x := if me.data.hasPayload then me.data.x else C.retire me.data.x
  if C.destructible x then h.free i else .error .assertion

/-- Where `parent` points to `me`, left or right, make it point to `child`. -/
def relink (parent me : Nat) (child : Option Nat) : Except Fault (Mem w P X) := do
  let up ← h.read parent
  if up.left = some me then h.setLeft parent child else h.setRight parent child

/-- The first loop of `erase`: unlink useless nodes, from `me` upwards. -/
def unlinkLoop (C : NodeClass X) :
    Nat → Mem w P X → Option Nat → Except Fault (Mem w P X × Option Nat)
  | 0, _, _ => .error .outOfFuel
  | _ + 1, h, none => .ok (h, none)
  | fuel + 1, h, some i => do
      let me ← h.read i
      if me.data.hasPayload = false ∧ (me.left = none ∨ me.right = none) then
        let parent := me.up
        let child := me.left.or me.right
        let h ← h.setUpPtr child parent
        match parent with
        | none =>
            let h ← delete C h i
            unlinkLoop C fuel h child
        | some q =>
            let h ← relink h q i child
            let h ← delete C h i
            unlinkLoop C fuel h (some q)
      else pure (h, some i)

/-- The second loop of `erase`: walk up to the root. -/
def climbLoop : Nat → Mem w P X → Option Nat → Except Fault (Option Nat)
  | 0, _, _ => .error .outOfFuel
  | _ + 1, _, none => .ok none
  | fuel + 1, h, some i => do
      match (← h.read i).up with
      | none => pure (some i)
      | some q => climbLoop fuel h (some q)

/-- `erase` of a node nothing refers to; returns the new root. -/
def eraseNode (i : Nat) :
    Except Fault (Mem w P X × Option Nat) := do
  let h ← h.modify i fun c => { c with data := c.data.clear }
  let (h, me) ← unlinkLoop C h.bound h (some i)
  let root ← climbLoop h.bound h me
  pure (h, root)

/-! ### Searches -/

/-- Does the node `r` points to contain the key?  No, if there is none. -/
def ptrContains : Option Nat → Except Fault Bool
  | none => .ok false
  | some i => do pure ((← h.read i).data.k.contains key)

/-- Is the node `r` points to inside the key? -/
def ptrInside : Option Nat → Except Fault Bool
  | none => .ok false
  | some i => do pure (key.contains (← h.read i).data.k)

/-- The walk down of `find`, `lower_bound` and `RefTrieNode::find_subtree`, with the
candidate so far: the last node on the way that contains the key and is of the kind
that is asked for. -/
def descendLoop (take : Node w P X → Bool) (key : IPNet w) :
    Nat → Mem w P X → Option Nat → Option Nat → Except Fault (Option Nat)
  | 0, _, _, _ => .error .outOfFuel
  | _ + 1, _, cand, none => .ok cand
  | fuel + 1, h, cand, some i => do
      let r ← h.read i
      if r.data.k.contains key then
        let cand := if take r.data then some i else cand
        if ← h.ptrContains key r.left then descendLoop take key fuel h cand r.left
        else descendLoop take key fuel h cand r.right
      else pure cand

/-- `_root->`, where nothing has looked whether there is a root. -/
def deref : Except Fault Unit :=
  if h.root = none then .error .badPointer else .ok ()

theorem deref_eq {h : Mem w P X} (hroot : h.root ≠ none) : h.deref = .ok () := if_neg hroot

/-- `find`, called on `_root`. -/
def find : Except Fault (Option Nat) :=
  descendLoop (Node.active C) key h.bound h none h.root

/-- The loop of `lower_bound` and of `RefTrieNode::find_subtree`: any node is good. -/
def deepest (cand : Option Nat) (key : IPNet w) : Except Fault (Option Nat) :=
  descendLoop (fun _ => true) key h.bound h cand h.root

/-- `leftmost`. -/
def leftmostLoop : Nat → Mem w P X → Nat → Except Fault Nat
  | 0, _, _ => .error .outOfFuel
  | fuel + 1, h, n => do
      let c ← h.read n
      match c.left.or c.right with
      | none => pure n
      | some j => leftmostLoop fuel h j

def leftmost (n : Nat) : Except Fault Nat := leftmostLoop h.bound h n

/-! ### Post-order iteration -/

/-- The first loop of `begin()`: the highest ancestor inside the search key. -/
def beginLoop (root : IPNet w) : Nat → Mem w P X → Nat → Except Fault Nat
  | 0, _, _ => .error .outOfFuel
  | fuel + 1, h, n => do
      match (← h.read n).up with
      | none => pure n
      | some q =>
          if root.contains (← h.read q).data.k then beginLoop root fuel h q else pure n

/-- `begin()`: where the iteration of `root` starts from `cur`. -/
def iterBegin (root : IPNet w) (cur : Nat) : Except Fault Nat := do
  h.leftmost (← beginLoop root h.bound h cur)

/-- One turn of the `do` loop of `next()`: backtrack one level, then down the left of
the right branch if that is still to do. -/
def iterStep (n : Nat) : Except Fault (Option Nat) := do
  match (← h.read n).up with
  | none => pure none
  | some q =>
      let c ← h.read q
      if c.left = some n then
        match c.right with
        | some r => do pure (some (← h.leftmost r))
        | none => pure (some q)
      else pure (some q)

/-- `next()`. -/
def nextLoop (root : IPNet w) : Nat → Mem w P X → Nat → Except Fault (Option Nat)
  | 0, _, _ => .error .outOfFuel
  | fuel + 1, h, n => do
      match ← h.iterStep n with
      | none => pure none
      | some m =>
          let c ← h.read m
          if root.contains c.data.k then
            if c.data.hasPayload then pure (some m) else nextLoop root fuel h m
          else pure none

def iterNext (root : IPNet w) (n : Nat) : Except Fault (Option Nat) :=
  nextLoop root h.bound h n

/-! ### `lower_bound` and `find_subtree` -/

/-- Does the pointer lead to a node whose key comes after `key`? -/
def ptrAfter : Option Nat → Except Fault Bool
  | none => .ok false
  | some i => do pure (key.lt (← h.read i).data.k)

/-- `p->leftmost()`. -/
def ptrLeftmost : Option Nat → Except Fault (Option Nat)
  | none => .error .badPointer
  | some i => do pure (some (← h.leftmost i))

/-- The second loop of `lower_bound`: up from what would be the parent of the key, to the
first subtree that comes after it. -/
def lowerBoundLoop (key : IPNet w) : Nat → Mem w P X → Option Nat → Except Fault (Option Nat)
  | 0, _, _ => .error .outOfFuel
  | _ + 1, _, none => .ok none
  | fuel + 1, h, some i => do
      let cand ← h.read i
      if ← h.ptrAfter key cand.left then h.ptrLeftmost cand.left
      else if ← h.ptrAfter key cand.right then h.ptrLeftmost cand.right
      else lowerBoundLoop key fuel h cand.up

/-- The loop of `TrieNode::find_subtree`. -/
def findSubtreeLoop (key : IPNet w) :
    Nat → Mem w P X → Option Nat → Option Nat → Except Fault (Option Nat)
  | 0, _, _, _ => .error .outOfFuel
  | _ + 1, _, cand, none => .ok cand
  | fuel + 1, h, cand, some i => do
      let r ← h.read i
      if r.data.k.contains key then
        if key.contains r.data.k then pure (some i)
        else if ← h.ptrContains key r.left then findSubtreeLoop key fuel h cand r.left
        else if ← h.ptrContains key r.right then findSubtreeLoop key fuel h cand r.right
        else if ← h.ptrInside key r.left then pure r.left
        else if ← h.ptrInside key r.right then pure r.right
        else pure cand
      else pure cand

/-- The root, if it is inside the key: where both searches for a subtree begin. -/
def rootInside : Except Fault (Option Nat) := do
  if ← h.ptrInside key h.root then pure h.root else pure none

/-- `TrieNode::find_subtree`, called on `_root`. -/
def findSubtree : Except Fault (Option Nat) := do
  findSubtreeLoop key h.bound h (← h.rootInside key) h.root

/-- `RefTrieNode::find_subtree`: it goes to the deepest node that contains the key. -/
def findSubtreeDeepest : Except Fault (Option Nat) := do
  h.deepest (← h.rootInside key) key

/-! ### `find_bounds` -/

/-- `low()`: the lowest address in a subtree which has a route. -/
def lowLoop (C : NodeClass X) : Nat → Mem w P X → Nat → Except Fault (BitVec w)
  | 0, _, _ => .error .outOfFuel
  | fuel + 1, h, i => do
      let n ← h.read i
      if n.data.active C then pure n.data.k.maskedAddr
      else
        match n.left.or n.right with
        | none => pure n.data.k.maskedAddr
        | some j => lowLoop C fuel h j

/-- `high()`: the highest address in a subtree which has a route. -/
def highLoop (C : NodeClass X) : Nat → Mem w P X → Nat → Except Fault (BitVec w)
  | 0, _, _ => .error .outOfFuel
  | fuel + 1, h, i => do
      let n ← h.read i
      if n.data.active C then pure n.data.k.topAddr
      else
        match n.right.or n.left with
        | none => pure n.data.k.topAddr
        | some j => highLoop C fuel h j

def low (i : Nat) : Except Fault (BitVec w) :=
  lowLoop C h.bound h i

def high (i : Nat) : Except Fault (BitVec w) :=
  highLoop C h.bound h i

/-- Where an address lies to the children of a node, by the cases of the comment above
`find_bounds`: `x` is the left or only child and `y` the right one. -/
inductive Position where
  | leaf
  | case1 (x : Nat)
  | case2 (x : Nat)
  | case3' (x : Nat)
  | case3 (x y : Nat)
  | case4 (x y : Nat)
  | case5 (y : Nat)

/-- The tests of `find_bounds`, in its order. -/
def position (a : BitVec w) (n : Cell (Node w P X)) : Except Fault Position := do
  match n.left.or n.right with
  | none => pure .leaf
  | some x =>
      let kx := (← h.read x).data.k
      if a < kx.maskedAddr then pure (.case1 x)
      else if a ≤ kx.topAddr then pure (.case2 x)
      else
        match n.left, n.right with
        | some _, some y => do
            let ky := (← h.read y).data.k
            if a < ky.maskedAddr then pure (.case3 x y)
            else if a ≤ ky.topAddr then pure (.case4 x y)
            else pure (.case5 y)
        | _, _ => pure (.case3' x)

/-- The loop of `find_bounds`, at the node `n`.  The two classes do not do the same with
the lower bound before they turn to the right child: `turn` is given the left child. -/
def boundsLoop (C : NodeClass X) (turn : Mem w P X → Nat → BitVec w → Except Fault (BitVec w))
    (a : BitVec w) :
    Nat → Mem w P X → Cell (Node w P X) → BitVec w → BitVec w → Except Fault (BitVec w × BitVec w)
  | 0, _, _, _, _ => .error .outOfFuel
  | fuel + 1, h, n, lo, hi => do
      match ← h.position a n with
      | .leaf => pure (lo, hi)
      | .case1 x => do pure (lo, (← h.low C x) - 1)
      | .case2 x => do boundsLoop C turn a fuel h (← h.read x) lo hi
      | .case3' x => do pure ((← h.high C x) + 1, hi)
      | .case3 x y => do pure ((← h.high C x) + 1, (← h.low C y) - 1)
      | .case4 x y => do boundsLoop C turn a fuel h (← h.read y) (← turn h x lo) hi
      | .case5 y => do pure ((← h.high C y) + 1, hi)

/-- Before a right turn `TrieNode` sets the lower bound to the end of the left child. -/
def raiseLow (C : NodeClass X) (a : BitVec w) (h : Mem w P X) (x : Nat) (lo : BitVec w) :
    Except Fault (BitVec w) := do
  if (← h.read x).data.k.topAddr < a then pure ((← h.high C x) + 1) else pure lo

/-- `RefTrieNode` does nothing. -/
def keepLow (_ : Mem w P X) (_ : Nat) (lo : BitVec w) : Except Fault (BitVec w) := .ok lo

/-- Where `find_bounds` starts: at the longest match, or at a fake default entry above the
root. -/
def boundsStart (a : BitVec w) :
    Except Fault (Cell (Node w P X)) := do
  match ← h.find C (IPNet.host a) with
  | some n => h.read n
  | none => pure ⟨none, h.root, none, Node.glue C (IPNet.any w)⟩

/-- `find_bounds`, called on `_root`. -/
def findBounds (C : NodeClass X) (turn : Mem w P X → Nat → BitVec w → Except Fault (BitVec w))
    (h : Mem w P X) (a : BitVec w) : Except Fault (BitVec w × BitVec w) := do
  let n ← h.boundsStart C a
  boundsLoop C turn a h.bound h n n.data.k.maskedAddr n.data.k.topAddr

end Mem

end Xorp

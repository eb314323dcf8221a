/-
`RefTrie` of `libxorp/ref_trie.hh`: a trie whose iterators survive updates.

Every node counts the iterators that stand on it, in the low bits of a word whose
next bit says that the node has been deleted.  Deleting a node that is being stood on
only sets the bit; the iterator that leaves it last takes it out.  An iterator is a
node and a search key, and every function here that makes, moves or drops one goes
through `acquire` and `release`.
-/
import Xorp.Trie.Trie

namespace Xorp

open Linked

variable {w : Nat} {P : Type}

/-! ### The word `_references` -/

def nodeDeleted : BitVec 32 := 0x8000

def nodeRefsMask : BitVec 32 := 0x7fff

def references (x : BitVec 32) : BitVec 32 := x &&& nodeRefsMask

def deleted (x : BitVec 32) : Bool := x &&& nodeDeleted != 0

def refTrieNode : NodeClass (BitVec 32) where
  init := 0
  revive := fun x => x ^^^ (x &&& nodeDeleted)
  deleted := deleted
  retire := fun x => x ||| nodeDeleted
  destructible := fun x => x &&& (nodeDeleted ||| nodeRefsMask) == nodeDeleted

abbrev RefMem (w : Nat) (P : Type) := Mem w P (BitVec 32)

namespace RefMem

def setWord (h : RefMem w P) (n : Nat) (x : BitVec 32) : Except Fault (RefMem w P) :=
  h.modify n fun c => { c with data := { c.data with x := x } }

/-- `incr_refcount()`; the assertion guards against overflow. -/
def incrRefcount (h : RefMem w P) (n : Nat) : Except Fault (RefMem w P) := do
  let x := (← h.read n).data.x
  if references x = nodeRefsMask then .error .saturated else setWord h n (x + 1)

def decrRefcount (h : RefMem w P) (n : Nat) : Except Fault (RefMem w P) := do
  let x := (← h.read n).data.x
  if references x = 0 then .error .assertion else setWord h n (x - 1)

/-- `RefTrieNode::erase`: a node that is referenced is only marked. -/
def erase (h : RefMem w P) (n : Nat) : Except Fault (RefMem w P × Option Nat) := do
  let x := (← h.read n).data.x
  let h ← setWord h n (x ||| nodeDeleted)
  if references x ≠ 0 then
    let root ← Mem.climbLoop h.bound h (some n)
    pure (h, root)
  else Mem.eraseNode refTrieNode h n

end RefMem

structure RefTrie (w : Nat) (P : Type) where
  heap : RefMem w P
  payloadCount : Nat

namespace RefTrie

def empty : RefTrie w P := ⟨Heap.empty, 0⟩

variable (T : RefTrie w P) (k : IPNet w)

def setRoot (out : RefMem w P × Option Nat) : RefTrie w P :=
  { T with heap := { out.1 with root := out.2 } }

/-- An iterator comes to stand on a node. -/
def acquire : Option Nat → Except Fault (RefTrie w P)
  | none => .ok T
  | some n => do pure { T with heap := ← RefMem.incrRefcount T.heap n }

/-- An iterator leaves a node.  The last to leave a deleted node takes it out. -/
def release : Option Nat → Except Fault (RefTrie w P)
  | none => .ok T
  | some n => do
      let h ← RefMem.decrRefcount T.heap n
      let x := (← h.read n).data.x
      if deleted x = true ∧ references x = 0 then
        pure ({ T with heap := h }.setRoot (← RefMem.erase h n))
      else pure { T with heap := h }

/-! ### Iterators -/

/-- The constructor for exact searches. -/
def iterator (n : Option Nat) : Except Fault (RefTrie w P × Iterator w) := do
  let it ← T.heap.iterator n
  pure (← T.acquire n, it)

/-- The constructor for a subtree scan of the key `k`. -/
def subtreeIterator (n : Option Nat) (k : IPNet w) :
    Except Fault (RefTrie w P × Iterator w) := do
  match n with
  | none => pure (T, ⟨none, k⟩)
  | some n =>
      let cur ← T.heap.iterBegin k n
      pure (← T.acquire (some cur), ⟨some cur, k⟩)

/-- `operator=`: the new node is acquired before the old one is released. -/
def assign (it x : Iterator w) : Except Fault (RefTrie w P × Iterator w) := do
  let T ← T.acquire x.cur
  pure (← T.release it.cur, x)

def next (it : Iterator w) : Except Fault (RefTrie w P × Iterator w) := do
  match it.cur with
  | none => .error .badPointer
  | some n =>
      let cur ← T.heap.iterNext it.root n
      let T ← T.acquire cur
      pure (← T.release (some n), { it with cur := cur })

def curDeleted (it : Iterator w) : Except Fault Bool :=
  match it.cur with
  | none => .ok false
  | some n => do pure (deleted (← T.heap.read n).data.x)

/-- `force_valid()`: move on from deleted nodes. -/
def forceValid : Nat → RefTrie w P → Iterator w → Except Fault (RefTrie w P × Iterator w)
  | 0, _, _ => .error .outOfFuel
  | fuel + 1, T, it => do
      if ← T.curDeleted it then
        let (T, it) ← T.next it
        forceValid fuel T it
      else pure (T, it)

/-! ### The class -/

def insert (net : IPNet w) (p : P) : Except Fault (RefTrie w P × Iterator w) := do
  let (heap, out, replaced) ← T.heap.insert refTrieNode net p
  let count := if replaced then T.payloadCount else T.payloadCount + 1
  iterator ⟨heap, count⟩ (some out)

/-- `erase(iterator)`. -/
def eraseAt (i : Iterator w) : Except Fault (RefTrie w P) := do
  match T.heap.root, i.cur with
  | some _, some n =>
      if (← T.heap.read n).data.active refTrieNode then
        pure ({ T with payloadCount := T.payloadCount - 1 }.setRoot (← RefMem.erase T.heap n))
      else pure T
  | _, _ => pure T

/-- Unlike `Trie`, the class calls its searches without a look whether there is a root. -/
def find : Except Fault (RefTrie w P × Iterator w) := do
  T.heap.deref
  T.iterator (← T.heap.find refTrieNode k)

/-- `erase(key)`: the iterator `find` returns lives until the node has been erased. -/
def erase : Except Fault (RefTrie w P) := do
  let (T, it) ← T.find k
  let T ← T.eraseAt it
  T.release it.cur

def begin : Except Fault (RefTrie w P × Iterator w) :=
  T.subtreeIterator T.heap.root (IPNet.any w)

def lookupNode : Except Fault (RefTrie w P × Iterator w) := do
  T.heap.deref
  match ← T.heap.find refTrieNode k with
  | some n => if (← T.heap.read n).data.k = k then T.iterator (some n) else T.iterator none
  | none => T.iterator none

def findLessSpecific : Except Fault (RefTrie w P × Iterator w) := do
  if k.prefixLen = 0 then T.iterator none
  else T.find (parentKey k)

def searchSubtree : Except Fault (RefTrie w P × Iterator w) := do
  T.heap.deref
  T.subtreeIterator (← T.heap.findSubtreeDeepest k) k

/-- What a local iterator does when it leaves a node.  It was made with a null `_trie`, so
it cannot take a node out. -/
def releaseLocal : Option Nat → Except Fault (RefTrie w P)
  | none => .ok T
  | some n => do
      let h ← RefMem.decrRefcount T.heap n
      let x := (← h.read n).data.x
      if deleted x = true ∧ references x = 0 then .error .badPointer
      else pure { T with heap := h }

/-- The node after `cand` in the entire tree, by way of a local iterator. -/
def skipEmpty (cand : Nat) : Except Fault (RefTrie w P × Option Nat) := do
  let n ← T.heap.iterBegin (IPNet.any w) cand
  let T ← T.acquire (some n)
  let cur ← T.heap.iterNext (IPNet.any w) n
  let T ← T.acquire cur
  let T ← T.releaseLocal (some n)
  let T ← T.releaseLocal cur
  pure (T, cur)

/-- `RefTrieNode::lower_bound`, called on `_root`. -/
def lowerBoundNode : Except Fault (RefTrie w P × Option Nat) := do
  let cand ← T.heap.deepest none k
  match cand.or T.heap.root with
  | none => .error .badPointer
  | some n =>
      let c ← T.heap.read n
      if c.data.k = k then
        if c.data.hasPayload then pure (T, some n) else T.skipEmpty n
      else pure (T, ← Mem.lowerBoundLoop k T.heap.bound T.heap (some n))

def lowerBound : Except Fault (RefTrie w P × Iterator w) := do
  let (T, n) ← T.lowerBoundNode k
  T.iterator n

end RefTrie

end Xorp

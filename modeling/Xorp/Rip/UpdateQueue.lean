/-
The update queue.

`UpdateQueue` keeps the updates in blocks and for every reader the block and the index where it
stands.  A block is opened when the last one is full, and also when a reader has read all of the last
one, so that the block it leaves can be freed.  Blocks are freed from the front, up to the first that
has a reader in it; the readers of a block are counted.

A block is known by a number that is never used again, so that a reader whose block has been freed is
a bad pointer.
-/
import Xorp.Lib.Outcome

namespace Xorp.Rip

open Linked

structure UpdateBlock (U : Type) where
  id : Nat
  updates : List U
  refs : Nat

variable {U : Type}

namespace UpdateBlock

def maxUpdates : Nat := 100

def full (b : UpdateBlock U) : Bool := b.updates.length = maxUpdates

def count (b : UpdateBlock U) : Nat := b.updates.length

/-- `add_update`.  A full block is left as it is. -/
def addUpdate (b : UpdateBlock U) (u : U) : UpdateBlock U :=
  if b.full then b else { b with updates := b.updates ++ [u] }

/-- What `read` gets at an index of the block. -/
def get (b : UpdateBlock U) (pos : Nat) : Except Fault (Option U) :=
  if pos < b.count then
    if pos < maxUpdates then .ok b.updates[pos]? else .error .assertion
  else .ok none

end UpdateBlock

structure ReaderPos where
  block : Nat
  pos : Nat

/-- `UpdateQueueImpl`. -/
structure UpdateQueue (U : Type) where
  blocks : List (UpdateBlock U)
  readers : List (Option ReaderPos)
  numReaders : Nat
  /-- The number of the next block. -/
  fresh : Nat

namespace UpdateQueue

def create : UpdateQueue U := ⟨[⟨0, [], 0⟩], [], 0, 1⟩

variable (Q : UpdateQueue U) (i : Nat)

/-- `_update_blocks.push_back(UpdateBlock<A>())`. -/
def openBlock : UpdateQueue U :=
  { Q with blocks := Q.blocks ++ [⟨Q.fresh, [], 0⟩], fresh := Q.fresh + 1 }

/-- The block that an iterator points to. -/
def block (k : Nat) : Except Fault (UpdateBlock U) :=
  match Q.blocks.find? (·.id = k) with
  | some b => .ok b
  | none => .error .badPointer

/-- `--_update_blocks.end()`. -/
def last : Except Fault (UpdateBlock U) :=
  match Q.blocks.getLast? with
  | some b => .ok b
  | none => .error .badPointer

/-- The block after a block. -/
def after (k : Nat) : List (UpdateBlock U) → Option Nat
  | b :: c :: l => if b.id = k then some c.id else after k (c :: l)
  | _ => none

def modify (k : Nat) (f : UpdateBlock U → UpdateBlock U) : UpdateQueue U :=
  { Q with blocks := Q.blocks.map fun b => if b.id = k then f b else b }

def ref (k : Nat) : Except Fault (UpdateQueue U) := do
  let _ ← Q.block k
  .ok (Q.modify k fun b => { b with refs := b.refs + 1 })

def unref (k : Nat) : Except Fault (UpdateQueue U) := do
  let b ← Q.block k
  if b.refs = 0 then .error .assertion
  else .ok (Q.modify k fun b => { b with refs := b.refs - 1 })

/-- `_readers[id]`, which must be there. -/
def reader : Except Fault ReaderPos :=
  match Q.readers[i]? with
  | some (some r) => .ok r
  | _ => .error .assertion

def setReader (r : Option ReaderPos) : UpdateQueue U :=
  { Q with readers := Q.readers.set i r }

def moveTo (i k pos : Nat) : Except Fault (UpdateQueue U) := do
  let r ← Q.reader i
  let Q ← Q.unref r.block
  let Q ← Q.ref k
  .ok (Q.setReader i (some ⟨k, pos⟩))

def advanceBlock : Except Fault (UpdateQueue U) := do
  let r ← Q.reader i
  match after r.block Q.blocks with
  | some k => Q.moveTo i k 0
  | none => .error .badPointer

def collect : List (UpdateBlock U) → List (UpdateBlock U)
  | b :: c :: l => if b.refs = 0 then collect (c :: l) else b :: c :: l
  | l => l

def garbageCollect : UpdateQueue U := { Q with blocks := collect Q.blocks }

/-- The first free place for a reader. -/
def place (r : ReaderPos) : List (Option ReaderPos) → List (Option ReaderPos) × Nat
  | [] => ([some r], 0)
  | none :: l => (some r :: l, 0)
  | some r' :: l => (some r' :: (place r l).1, (place r l).2 + 1)

def addReader : Except Fault (UpdateQueue U × Nat) := do
  let lb ← Q.last
  let Q ← Q.ref lb.id
  let placed := place ⟨lb.id, lb.count⟩ Q.readers
  .ok ({ Q with readers := placed.1, numReaders := Q.numReaders + 1 }, placed.2)

/-- The end of `remove_reader`. -/
def leaveNothing : Except Fault (UpdateQueue U) := do
  let lb ← Q.last
  .ok (bif Q.numReaders = 0 && lb.count ≠ 0 then Q.openBlock else Q)

def removeReader : Except Fault (UpdateQueue U) :=
  match Q.readers[i]? with
  | some (some r) => do
      let Q ← Q.unref r.block
      let Q ← leaveNothing { Q.setReader i none with numReaders := Q.numReaders - 1 }
      .ok Q.garbageCollect
  | _ => .ok Q

/-- What `advance_reader` does at the end of a block. -/
def leaveBlock : Except Fault (UpdateQueue U) := do
  let r ← Q.reader i
  let lb ← Q.last
  let Q ← advanceBlock (bif r.block = lb.id then Q.openBlock else Q) i
  .ok Q.garbageCollect

/-- `advance_reader`, with `advance_position` in it. -/
def advanceReader : Except Fault (UpdateQueue U) := do
  let r ← Q.reader i
  let b ← Q.block r.block
  let pos := if r.pos < b.count then r.pos + 1 else r.pos
  let Q := Q.setReader i (some ⟨r.block, pos⟩)
  bif pos = b.count && b.count ≠ 0 then Q.leaveBlock i else .ok Q

def ffwdReader : Except Fault (UpdateQueue U) := do
  let lb ← Q.last
  let Q ← Q.moveTo i lb.id lb.count
  let Q ← Q.advanceReader i
  .ok Q.garbageCollect

/-- One turn of the loop of `flush`. -/
def flushReader : Except Fault (UpdateQueue U) :=
  match Q.readers[i]? with
  | some (some _) => Q.ffwdReader i
  | _ => .ok Q

def flush : Except Fault (UpdateQueue U) :=
  (List.range Q.readers.length).foldlM flushReader Q.openBlock

def read : Except Fault (UpdateQueue U × Option U) := do
  let r ← Q.reader i
  let b ← Q.block r.block
  let Q ← bif r.pos = b.count then Q.advanceReader i else .ok Q
  let r ← Q.reader i
  let b ← Q.block r.block
  let u ← b.get r.pos
  .ok (Q, u)

def next : Except Fault (UpdateQueue U × Option U) := do
  let Q ← Q.advanceReader i
  Q.read i

def pushBack (u : U) : Except Fault (UpdateQueue U) :=
  if Q.numReaders = 0 then .ok Q
  else do
    let lb ← Q.last
    let Q := bif lb.full then Q.openBlock else Q
    let lb ← Q.last
    .ok (Q.modify lb.id (·.addUpdate u))

end UpdateQueue

end Xorp.Rip

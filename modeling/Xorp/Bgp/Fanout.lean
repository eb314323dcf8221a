/-
The fanout queue.

`FanoutTable` passes every change on to all peers but the one it came from.  The changes wait in
one list that all next tables share: each table has an iterator into it, or nothing to read, and
asks for its messages one at a time.  A replacement takes two entries.  The head of the list is
freed when no iterator is left on it.

A next table can be replaced by another one, which is how a dump is put before a peer and taken
out again.  The new table starts with nothing to read.  If the old one had not read everything,
what was left is lost, and the entries its iterator was on may never be freed.
-/
import Xorp.Bgp.RibOut

namespace Xorp.Bgp

open Linked List Nat

variable {τ π ρ α : Type}

/-- `InternalMessage`, as the fanout table gets it. -/
structure FanoutMsg (π ρ α : Type) where
  route : ρ
  attributes : AttrRef α
  originPeer : π
  genid : BitVec 32
  push : Bool

/-- What a next table is given: a message with a copy of the attributes. -/
structure Delivery (π ρ α : Type) where
  route : ρ
  attributes : α
  originPeer : π
  genid : BitVec 32
  push : Bool

def FanoutMsg.delivery (m : FanoutMsg π ρ α) : Delivery π ρ α :=
  ⟨m.route, m.attributes.list, m.originPeer, m.genid, m.push⟩

inductive NextCall (π ρ α : Type) where
  | addRoute (d : Delivery π ρ α)
  | deleteRoute (d : Delivery π ρ α)
  | replaceRoute (old new : Delivery π ρ α)
  | push

/-- `RouteQueueEntry`.  A push has no message. -/
structure FanoutEntry (π ρ α : Type) where
  op : RouteQueueOp
  msg : Option (FanoutMsg π ρ α)

def FanoutEntry.originPeer (e : FanoutEntry π ρ α) : Option π := e.msg.map FanoutMsg.originPeer

/-- `PeerTableInfo`.  An iterator is a position in the list of all entries there ever were. -/
structure PeerTableInfo (π : Type) where
  peerHandler : π
  genid : BitVec 32
  isReady : Bool
  hasQueuedData : Bool
  posn : Nat
  waitingForGet : Bool
  wakeupSent : Nat

namespace PeerTableInfo

def new (peerHandler : π) (genid : BitVec 32) (now : Nat) : PeerTableInfo π :=
  ⟨peerHandler, genid, true, false, 0, false, now⟩

def receivedGet (i : PeerTableInfo π) : PeerTableInfo π := { i with waitingForGet := false }

def peerReset (i : PeerTableInfo π) : PeerTableInfo π := { i with waitingForGet := false }

/-- A table that was woken 20 minutes ago and has not asked for data is given up. -/
def sendWakeup (now : Nat) (i : PeerTableInfo π) : Except Fault (PeerTableInfo π) :=
  if i.waitingForGet then
    if 1200 < now - i.wakeupSent then .error .abort else .ok i
  else .ok { i with wakeupSent := now, waitingForGet := true }

end PeerTableInfo

structure FanoutTable (τ π ρ α : Type) where
  /-- the next tables, in their order -/
  order : List τ
  info : τ → PeerTableInfo π
  /-- the position of the head -/
  base : Nat
  outputQueue : List (FanoutEntry π ρ α)
  /-- the attribute lists that are locked -/
  locked : List Nat
  /-- everything that was passed to a next table -/
  calls : List (τ × NextCall π ρ α)

namespace FanoutTable

def empty (info : τ → PeerTableInfo π) : FanoutTable τ π ρ α := ⟨[], info, 0, [], [], []⟩

section
variable [DecidableEq τ] [DecidableEq π] (S : FanoutTable τ π ρ α)

/-- `_output_queue.end()`. -/
def queueEnd : Nat := S.base + S.outputQueue.length

def deref (p : Nat) : Except Fault (FanoutEntry π ρ α) :=
  if p < S.base then .error .badPointer
  else
    match S.outputQueue[p - S.base]? with
    | some e => .ok e
    | none => .error .badPointer

def setInfo (t : τ) (i : PeerTableInfo π) : FanoutTable τ π ρ α :=
  { S with info := Function.update S.info t i }

def call (t : τ) (c : NextCall π ρ α) : FanoutTable τ π ρ α :=
  { S with calls := S.calls ++ [(t, c)] }

/-! ### Queueing -/

/-- The tables of all peers but one. -/
def queuedPeers (originPeer : π) : List τ :=
  S.order.filter fun t => (S.info t).peerHandler ≠ originPeer

/-- Tables with nothing to read are set to the last entry. -/
def setQueuePositions (ts : List τ) : FanoutTable τ π ρ α :=
  { S with
    info := fun t =>
      if t ∈ ts ∧ (S.info t).hasQueuedData = false then
        { S.info t with posn := S.queueEnd - 1, hasQueuedData := true }
      else S.info t }

def pushBack (e : FanoutEntry π ρ α) : FanoutTable τ π ρ α :=
  { S with outputQueue := S.outputQueue ++ [e] }

def addToQueue (op : RouteQueueOp) (m : FanoutMsg π ρ α) (ts : List τ) :
    Except Fault (FanoutTable τ π ρ α) := do
  let locked ← lock m.attributes S.locked
  pure (({ S with locked }.pushBack ⟨op, some m⟩).setQueuePositions ts)

/-- The positions are set before the second entry is there.  The old message is not a push. -/
def addReplaceToQueue (old new : FanoutMsg π ρ α) (ts : List τ) :
    Except Fault (FanoutTable τ π ρ α) := do
  let locked ← lock old.attributes S.locked
  let S := ({ S with locked }.pushBack ⟨.replaceOld, some { old with push := false }⟩
    ).setQueuePositions ts
  let locked ← lock new.attributes S.locked
  pure ({ S with locked }.pushBack ⟨.replaceNew, some new⟩)

def addPushToQueue (ts : List τ) : FanoutTable τ π ρ α :=
  (S.pushBack ⟨.push, none⟩).setQueuePositions ts

/-- The tables are woken.  They ask for their messages on their own. -/
def wakeupDownstream (now : Nat) : List τ → FanoutTable τ π ρ α → Except Fault (FanoutTable τ π ρ α)
  | [], S => .ok S
  | t :: ts, S =>
      if (S.info t).isReady then do
        let i ← (S.info t).sendWakeup now
        wakeupDownstream now ts (S.setInfo t i)
      else wakeupDownstream now ts S

def addRoute (now : Nat) (m : FanoutMsg π ρ α) : Except Fault (FanoutTable τ π ρ α) :=
  if m.attributes.ref ∈ S.locked then .error .assertion
  else
    let ts := S.queuedPeers m.originPeer
    if ts = [] then pure S
    else do
      let S ← S.addToQueue .add m ts
      wakeupDownstream now ts S

def deleteRoute (now : Nat) (m : FanoutMsg π ρ α) : Except Fault (FanoutTable τ π ρ α) :=
  if m.attributes.ref ∈ S.locked then .error .assertion
  else
    let ts := S.queuedPeers m.originPeer
    if ts = [] then pure S
    else do
      let S ← S.addToQueue .delete m ts
      wakeupDownstream now ts S

def replaceRoute (now : Nat) (old new : FanoutMsg π ρ α) : Except Fault (FanoutTable τ π ρ α) :=
  if old.originPeer ≠ new.originPeer then .error .assertion
  else
    let ts := S.queuedPeers old.originPeer
    if ts = [] then pure S
    else do
      let S ← S.addReplaceToQueue old new ts
      wakeupDownstream now ts S

def push (now : Nat) : Except Fault (FanoutTable τ π ρ α) :=
  if S.order = [] then pure S else wakeupDownstream now S.order (S.addPushToQueue S.order)

/-! ### Reading -/

/-- What came from the peer itself is skipped.  `fuel` counts the entries. -/
def skipOwn (peer : π) : Nat → Nat → Except Fault Nat
  | 0, _ => .error .outOfFuel
  | fuel + 1, p =>
      if p = S.queueEnd then .ok p
      else do
        let e ← S.deref p
        if e.originPeer = some peer then
          let p := if e.op = .replaceOld then p + 1 else p
          if p = S.queueEnd then .error .abort else skipOwn peer fuel (p + 1)
        else pure p

/-- Somebody still refers to the head of the queue. -/
def headHeld : Bool :=
  S.order.any fun t => (S.info t).hasQueuedData && (S.info t).posn == S.base

/-- The first entry is freed, and a push has nothing to unlock. -/
def popFront : Except Fault (FanoutTable τ π ρ α) :=
  match S.outputQueue with
  | [] => .error .badPointer
  | e :: q =>
      match e.op, e.msg with
      | .push, _ => pure { S with outputQueue := q, base := S.base + 1 }
      | _, none => .error .badPointer
      | _, some m => do
          let locked ← unlock m.attributes S.locked
          pure { S with outputQueue := q, base := S.base + 1, locked }

/-- The head is freed as long as nobody refers to it. -/
def discard : Nat → FanoutTable τ π ρ α → Except Fault (FanoutTable τ π ρ α)
  | 0, _ => .error .outOfFuel
  | fuel + 1, S =>
      if S.headHeld then .ok S
      else
        match S.outputQueue with
        | [] => .error .badPointer
        | e :: _ => do
            let S ← S.popFront
            let S ←
              if e.op = .replaceOld then
                match S.outputQueue with
                | [] => .error .badPointer
                | f :: _ => if f.op = .replaceNew then S.popFront else .error .assertion
              else pure S
            if S.outputQueue = [] then pure S else discard fuel S

/-- The message at the iterator goes to the table.  The answer is the last entry of it. -/
def deliver (t : τ) (p : Nat) : Except Fault (FanoutTable τ π ρ α × Nat) := do
  let e ← S.deref p
  match e.op, e.msg with
  | .add, some m => pure (S.call t (.addRoute m.delivery), p)
  | .delete, some m => pure (S.call t (.deleteRoute m.delivery), p)
  | .replaceOld, some old =>
      if p + 1 = S.queueEnd then .error .assertion
      else
        let f ← S.deref (p + 1)
        match f.msg with
        | some new => pure (S.call t (.replaceRoute old.delivery new.delivery), p + 1)
        | none => .error .badPointer
  | .push, _ => pure (S.call t .push, p)
  | .replaceNew, _ => .error .abort
  | _, none => .error .badPointer

/-- The iterator is set, or there is nothing more to read; then the head is freed if this table
was on it. -/
def moveOn (t : τ) (atHead : Bool) (p : Nat) : Except Fault (FanoutTable τ π ρ α) :=
  let i := S.info t
  let S := S.setInfo t
    (if p = S.queueEnd then { i with hasQueuedData := false } else { i with posn := p })
  if atHead then discard (S.outputQueue.length + 1) S else pure S

def getNextMessage (t : τ) : Except Fault (FanoutTable τ π ρ α) :=
  if t ∉ S.order then .error .assertion
  else
    let i := (S.info t).receivedGet
    if i.hasQueuedData = false then pure (S.setInfo t { i with isReady := true })
    else do
      let S := S.setInfo t i
      let (S, last) ← S.deliver t i.posn
      let p ← S.skipOwn i.peerHandler (S.outputQueue.length + 1) (last + 1)
      S.moveOn t (i.posn = S.base) p

/-! ### The next tables -/

/-- The loop of `skip_entire_queue` over what came from the peer itself, which looks for the
second entry of a replacement from behind. -/
def skipNotFor (peer : π) : Nat → Nat → Except Fault Nat
  | 0, _ => .error .outOfFuel
  | fuel + 1, p =>
      if p = S.queueEnd then .ok p
      else do
        let e ← S.deref p
        if e.originPeer = some peer then
          if p + 1 = S.queueEnd then pure (p + 1)
          else
            let f ← S.deref (p + 1)
            skipNotFor peer fuel (if f.op = .replaceNew then p + 2 else p + 1)
        else pure p

/-- The last entry of the message at `p`, which is not passed on. -/
def passOver (p : Nat) : Except Fault Nat := do
  let e ← S.deref p
  match e.op with
  | .add | .delete | .push => pure p
  | .replaceOld => pure (p + 1)
  | .replaceNew => .error .abort

def skipLoop (t : τ) : Nat → FanoutTable τ π ρ α → Except Fault (FanoutTable τ π ρ α)
  | 0, _ => .error .outOfFuel
  | fuel + 1, S =>
      let i := S.info t
      if i.hasQueuedData = false then .ok S
      else do
        let last ← S.passOver i.posn
        let p ← S.skipNotFor i.peerHandler (S.outputQueue.length + 1) (last + 1)
        let S ← S.moveOn t (i.posn = S.base) p
        skipLoop t fuel S

def skipEntireQueue (t : τ) : Except Fault (FanoutTable τ π ρ α) :=
  if t ∉ S.order then .error .assertion
  else
    let S := S.setInfo t (S.info t).peerReset
    skipLoop t (S.outputQueue.length + 1) S

/-- `NextTableMap::insert`. -/
def insertTable (now : Nat) (t : τ) (peer : π) (genid : BitVec 32) : FanoutTable τ π ρ α :=
  { S with order := S.order ++ [t], info := Function.update S.info t (.new peer genid now) }

def addNextTable (now : Nat) (t : τ) (peer : π) (genid : BitVec 32) : FanoutTable τ π ρ α :=
  if t ∈ S.order then S else S.insertTable now t peer genid

def removeNextTable (t : τ) : Except Fault (FanoutTable τ π ρ α) :=
  if t ∉ S.order then .error .abort
  else do
    let S ← S.skipEntireQueue t
    pure { S with order := S.order.erase t }

/-- The peer stays, and the rest starts anew. -/
def replaceNextTable (now : Nat) (old new : τ) : Except Fault (FanoutTable τ π ρ α) :=
  if old ∉ S.order then .error .abort
  else
    let i := S.info old
    pure ({ S with order := S.order.erase old }.insertTable now new i.peerHandler i.genid)

end

/-! ### Runs -/

inductive Op (τ π ρ α : Type) where
  | addRoute (now : Nat) (m : FanoutMsg π ρ α)
  | deleteRoute (now : Nat) (m : FanoutMsg π ρ α)
  | replaceRoute (now : Nat) (old new : FanoutMsg π ρ α)
  | push (now : Nat)
  | getNextMessage (t : τ)
  | addNextTable (now : Nat) (t : τ) (peer : π) (genid : BitVec 32)
  | removeNextTable (t : τ)
  | replaceNextTable (now : Nat) (old new : τ)

variable [DecidableEq τ] [DecidableEq π]

def step (S : FanoutTable τ π ρ α) : Op τ π ρ α → Except Fault (FanoutTable τ π ρ α)
  | .addRoute now m => S.addRoute now m
  | .deleteRoute now m => S.deleteRoute now m
  | .replaceRoute now old new => S.replaceRoute now old new
  | .push now => S.push now
  | .getNextMessage t => S.getNextMessage t
  | .addNextTable now t peer genid => .ok (S.addNextTable now t peer genid)
  | .removeNextTable t => S.removeNextTable t
  | .replaceNextTable now old new => S.replaceNextTable now old new

end FanoutTable

/-! ### The queue as a list of operations -/

/-- What stands in the queue as one entry, or as two. -/
inductive QueueItem (π ρ α : Type) where
  | add (m : FanoutMsg π ρ α)
  | delete (m : FanoutMsg π ρ α)
  | replace (old new : FanoutMsg π ρ α) (same : new.originPeer = old.originPeer)
  | push

namespace QueueItem

def entries : QueueItem π ρ α → List (FanoutEntry π ρ α)
  | .add m => [⟨.add, some m⟩]
  | .delete m => [⟨.delete, some m⟩]
  | .replace old new _ => [⟨.replaceOld, some { old with push := false }⟩, ⟨.replaceNew, some new⟩]
  | .push => [⟨.push, none⟩]

def originPeer : QueueItem π ρ α → Option π
  | .add m | .delete m => some m.originPeer
  | .replace old _ _ => some old.originPeer
  | .push => none

def call : QueueItem π ρ α → NextCall π ρ α
  | .add m => .addRoute m.delivery
  | .delete m => .deleteRoute m.delivery
  | .replace old new _ => .replaceRoute { old with push := false }.delivery new.delivery
  | .push => .push

/-- The attribute lists that are locked for it. -/
def refs : QueueItem π ρ α → List Nat
  | .add m | .delete m => [m.attributes.ref]
  | .replace old new _ => [old.attributes.ref, new.attributes.ref]
  | .push => []

/-- The entries of a list of operations. -/
def flat (items : List (QueueItem π ρ α)) : List (FanoutEntry π ρ α) := items.flatMap entries

variable {items pre post : List (QueueItem π ρ α)} {a : QueueItem π ρ α}

@[simp] theorem flat_nil : flat ([] : List (QueueItem π ρ α)) = [] := rfl

@[simp] theorem flat_cons : flat (a :: items) = a.entries ++ flat items := rfl

@[simp] theorem flat_append : flat (pre ++ post) = flat pre ++ flat post := flatMap_append

/-- An operation is one entry, or a replacement in two. -/
inductive Shape (a : QueueItem π ρ α) : Prop
  | one (e : FanoutEntry π ρ α) (hentries : a.entries = [e]) (hop : e.op ≠ .replaceOld)
      (hop' : e.op ≠ .replaceNew) (horigin : e.originPeer = a.originPeer)
  | two (e f : FanoutEntry π ρ α) (hentries : a.entries = [e, f]) (hop : e.op = .replaceOld)
      (hop' : f.op = .replaceNew) (horigin : e.originPeer = a.originPeer)
      (horigin' : f.originPeer = a.originPeer)

section
variable (a : QueueItem π ρ α)

theorem shape : a.Shape := by
  cases a with
  | add m => exact .one _ rfl (by simp) (by simp) rfl
  | delete m => exact .one _ rfl (by simp) (by simp) rfl
  | replace old new same => exact .two _ _ rfl rfl rfl rfl (congrArg some same)
  | push => exact .one _ rfl (by simp) (by simp) rfl

theorem entries_cons : ∃ e q, a.entries = e :: q ∧ e.originPeer = a.originPeer := by
  rcases a.shape with ⟨e, he, -, -, horigin⟩ | ⟨e, f, he, -, -, horigin, -⟩
  · exact ⟨e, [], he, horigin⟩
  · exact ⟨e, [f], he, horigin⟩

theorem length_entries_pos : 0 < a.entries.length := by
  cases a with
  | add m => exact one_pos
  | delete m => exact one_pos
  | replace old new same => exact two_pos
  | push => exact one_pos

end

theorem flat_eq_nil : flat items = [] ↔ items = [] := by
  cases items with
  | nil => simp
  | cons a items =>
    have hne : a.entries ≠ [] := ne_nil_of_length_pos a.length_entries_pos
    simp [hne]

theorem length_le_flat (items : List (QueueItem π ρ α)) : items.length ≤ (flat items).length := by
  induction items with
  | nil => exact le_refl _
  | cons a items ih =>
    have hpos := a.length_entries_pos
    rw [flat_cons, length_append, length_cons]
    omega

end QueueItem

namespace FanoutTable

open QueueItem

/-- The operations of a queue, with the peer each of them came from. -/
def decode : List (FanoutEntry π ρ α) → List (Option π × NextCall π ρ α)
  | [] => []
  | ⟨.add, some m⟩ :: q => (some m.originPeer, .addRoute m.delivery) :: decode q
  | ⟨.delete, some m⟩ :: q => (some m.originPeer, .deleteRoute m.delivery) :: decode q
  | ⟨.replaceOld, some old⟩ :: ⟨.replaceNew, some new⟩ :: q =>
      (some old.originPeer, .replaceRoute old.delivery new.delivery) :: decode q
  | ⟨.push, _⟩ :: q => (none, .push) :: decode q
  | _ :: q => decode q

theorem decode_flat (items : List (QueueItem π ρ α)) :
    decode (flat items) = items.map fun a => (a.originPeer, a.call) := by
  induction items with
  | nil => rfl
  | cons a items ih =>
    cases a with
    | add m => rw [flat_cons, map_cons, ← ih]; rfl
    | delete m => rw [flat_cons, map_cons, ← ih]; rfl
    | replace old new same => rw [flat_cons, map_cons, ← ih]; rfl
    | push => rw [flat_cons, map_cons, ← ih]; rfl

section
variable [DecidableEq π]

/-- What was passed to a table. -/
def received [DecidableEq τ] (S : FanoutTable τ π ρ α) (t : τ) : List (NextCall π ρ α) :=
  S.calls.filterMap fun c => if c.1 = t then some c.2 else none

/-- What a table has yet to receive. -/
def pending (S : FanoutTable τ π ρ α) (t : τ) : List (NextCall π ρ α) :=
  if (S.info t).hasQueuedData then
    ((decode (S.outputQueue.drop ((S.info t).posn - S.base))).filter
      fun c => c.1 ≠ some (S.info t).peerHandler).map Prod.snd
  else []

/-- The iterator of a table is at `post`, and what comes first there is for it. -/
inductive Reads (base : Nat) (items : List (QueueItem π ρ α)) (i : PeerTableInfo π) :
    List (QueueItem π ρ α) → Prop
  | nothing (h : i.hasQueuedData = false) : Reads base items i []
  | here (pre : List (QueueItem π ρ α)) (a : QueueItem π ρ α) (post : List (QueueItem π ρ α))
      (h : i.hasQueuedData = true) (hitems : items = pre ++ a :: post)
      (hposn : i.posn = base + (flat pre).length) (ha : a.originPeer ≠ some i.peerHandler) :
      Reads base items i (a :: post)

/-- The calls that are in it for a peer. -/
def callsFor (peer : π) (items : List (QueueItem π ρ α)) : List (NextCall π ρ α) :=
  (items.filter fun a => a.originPeer ≠ some peer).map QueueItem.call

variable {S : FanoutTable τ π ρ α} {items pre post : List (QueueItem π ρ α)} {t : τ}
  {a : QueueItem π ρ α} {peer : π}

theorem pending_eq (hq : S.outputQueue = flat items) (h : Reads S.base items (S.info t) post) :
    S.pending t = callsFor (S.info t).peerHandler post := by
  cases h with
  | nothing h =>
    rw [pending, h]
    rfl
  | here pre a post h hitems hposn ha =>
    have hdrop : S.outputQueue.drop ((S.info t).posn - S.base) = flat (a :: post) := by
      rw [hq, hitems, hposn, Nat.add_sub_cancel_left, flat_append, drop_left]
    rw [pending, if_pos h, hdrop, decode_flat, filter_map, map_map]
    rfl

/-! ### One step along the queue -/

section
omit [DecidableEq π]
variable {p : Nat} {e f : FanoutEntry π ρ α} {q : List (FanoutEntry π ρ α)}

theorem deref_eq (hq : S.outputQueue = flat pre ++ e :: q) (hp : p = S.base + (flat pre).length) :
    S.deref p = .ok e := by
  have hlt : ¬ p < S.base := by omega
  have hsub : p - S.base = (flat pre).length := by omega
  rw [deref, if_neg hlt, hsub, hq, List.getElem?_append_right (Nat.le_refl _), Nat.sub_self]
  rfl

/-- The second entry of a replacement. -/
theorem deref_succ (hq : S.outputQueue = flat pre ++ e :: f :: q)
    (hp : p = S.base + (flat pre).length) : S.deref (p + 1) = .ok f := by
  have hlt : ¬ p + 1 < S.base := by omega
  have hsub : p + 1 - S.base = (flat pre).length + 1 := by omega
  have hone : (flat pre).length + 1 - (flat pre).length = 1 := by omega
  rw [deref, if_neg hlt, hsub, hq, List.getElem?_append_right (by omega), hone]
  rfl

/-- The position is not the end if an entry is there. -/
theorem ne_queueEnd (hq : S.outputQueue = flat pre ++ q)
    (hlt : p < S.base + (flat pre).length + q.length) : p ≠ S.queueEnd := by
  rw [queueEnd, hq, length_append]
  omega

theorem ne_end (hq : S.outputQueue = flat pre ++ e :: q) :
    S.base + (flat pre).length ≠ S.queueEnd := ne_queueEnd hq (by simp)

theorem eq_queueEnd (hq : S.outputQueue = flat pre) : S.base + (flat pre).length = S.queueEnd := by
  rw [queueEnd, hq]

end

/-- What a peer skips. -/
def ownItems (peer : π) (items : List (QueueItem π ρ α)) : List (QueueItem π ρ α) :=
  items.takeWhile fun a => a.originPeer = some peer

/-- What is behind them. -/
def pastOwn (peer : π) (items : List (QueueItem π ρ α)) : List (QueueItem π ρ α) :=
  items.dropWhile fun a => a.originPeer = some peer

theorem ownItems_append_pastOwn : ownItems peer post ++ pastOwn peer post = post :=
  takeWhile_append_dropWhile

/-- A loop over the queue that goes on behind an item of the peer and stops at any other. -/
structure Skips (S : FanoutTable τ π ρ α) (peer : π) (skip : Nat → Nat → Except Fault Nat) :
    Prop where
  atEnd : ∀ fuel, skip (fuel + 1) S.queueEnd = .ok S.queueEnd
  own : ∀ {fuel pre a post}, S.outputQueue = flat (pre ++ a :: post) →
    a.originPeer = some peer → 0 < fuel →
    skip (fuel + 1) (S.base + (flat pre).length) = skip fuel (S.base + (flat (pre ++ [a])).length)
  other : ∀ {fuel pre a post}, S.outputQueue = flat (pre ++ a :: post) →
    a.originPeer ≠ some peer →
    skip (fuel + 1) (S.base + (flat pre).length) = .ok (S.base + (flat pre).length)

theorem Skips.eq {skip : Nat → Nat → Except Fault Nat} (h : Skips S peer skip) (fuel : Nat)
    (hq : S.outputQueue = flat (pre ++ post)) (hfuel : post.length < fuel) :
    skip fuel (S.base + (flat pre).length) =
      .ok (S.base + (flat (pre ++ ownItems peer post)).length) := by
  obtain ⟨fuel, rfl⟩ := exists_fuel hfuel
  induction post generalizing pre fuel with
  | nil =>
    rw [append_nil] at hq
    rw [eq_queueEnd hq, h.atEnd, ownItems, takeWhile_nil, append_nil, eq_queueEnd hq]
  | cons a post ih =>
    by_cases hown : a.originPeer = some peer
    · rw [length_cons] at hfuel
      obtain ⟨fuel, rfl⟩ := exists_fuel (lt_of_succ_lt_succ hfuel)
      have hq' : S.outputQueue = flat (pre ++ [a] ++ post) := by
        rw [hq, append_assoc, singleton_append]
      rw [h.own hq hown (by omega), ih hq' fuel (by omega), append_assoc, singleton_append]
      simp [ownItems, hown]
    · rw [h.other hq hown]
      simp [ownItems, hown]

theorem skips_skipOwn (peer : π) : Skips S peer (S.skipOwn peer) where
  atEnd fuel := by rw [skipOwn, if_pos rfl]
  own {fuel pre a post} hq hown _ := by
    rw [flat_append, flat_cons] at hq
    rw [flat_append, length_append, flat_cons, flat_nil, append_nil]
    rcases a.shape with ⟨e, he, hop, -, horigin⟩ | ⟨e, f, he, hop, -, horigin, -⟩
    · rw [he] at hq ⊢
      have hend := ne_end hq
      rw [skipOwn, if_neg hend, deref_eq hq rfl, ok_bind, if_pos (horigin.trans hown)]
      simp only [if_neg hop, if_neg hend]
      rfl
    · rw [he] at hq ⊢
      have hend := ne_end hq
      have hend' : S.base + (flat pre).length + 1 ≠ S.queueEnd := ne_queueEnd hq (by simp)
      rw [skipOwn, if_neg hend, deref_eq hq rfl, ok_bind, if_pos (horigin.trans hown)]
      simp only [if_pos hop, if_neg hend']
      rfl
  other {fuel pre a post} hq hown := by
    obtain ⟨e, q, he, horigin⟩ := a.entries_cons
    rw [flat_append, flat_cons, he] at hq
    have hend := ne_end hq
    rw [skipOwn, if_neg hend, deref_eq hq rfl, ok_bind, if_neg (horigin ▸ hown)]
    rfl

/-- The entry after the first of a replacement is its second, and after another one there is a
first one. -/
theorem skips_skipNotFor (peer : π) : Skips S peer (S.skipNotFor peer) where
  atEnd fuel := by rw [skipNotFor, if_pos rfl]
  own {fuel pre a post} hq hown hfuel := by
    rw [flat_append, flat_cons] at hq
    rw [flat_append, length_append, flat_cons, flat_nil, append_nil]
    rcases a.shape with ⟨e, he, hop, -, horigin⟩ | ⟨e, f, he, hop, hop', horigin, -⟩
    · rw [he] at hq ⊢
      have hend := ne_end hq
      rw [skipNotFor, if_neg hend, deref_eq hq rfl, ok_bind, if_pos (horigin.trans hown)]
      cases post with
      | nil =>
        have hlast : S.base + (flat pre).length + 1 = S.queueEnd := by
          rw [queueEnd, hq]
          simp
          omega
        obtain ⟨fuel, rfl⟩ := exists_fuel hfuel
        rw [if_pos hlast]
        show _ = S.skipNotFor peer (fuel + 1) (S.base + (flat pre).length + 1)
        rw [hlast, skipNotFor, if_pos rfl]
        rfl
      | cons b post =>
        obtain ⟨f, q, hf, -⟩ := b.entries_cons
        have hfirst : f.op ≠ .replaceNew := by
          rcases b.shape with ⟨f', hf', -, hop', -⟩ | ⟨f', g, hf', hop', -, -, -⟩
          · rw [(List.cons.inj (hf.symm.trans hf')).1]
            exact hop'
          · rw [(List.cons.inj (hf.symm.trans hf')).1, hop']
            exact RouteQueueOp.noConfusion
        have hq' : S.outputQueue = flat pre ++ e :: f :: (q ++ flat post) := by
          rw [hq, flat_cons, hf]
          rfl
        have hend' : S.base + (flat pre).length + 1 ≠ S.queueEnd := ne_queueEnd hq' (by simp)
        rw [if_neg hend', deref_succ hq' rfl, ok_bind, if_neg hfirst]
        rfl
    · rw [he] at hq ⊢
      have hend := ne_end hq
      have hend' : S.base + (flat pre).length + 1 ≠ S.queueEnd := ne_queueEnd hq (by simp)
      rw [skipNotFor, if_neg hend, deref_eq hq rfl, ok_bind, if_pos (horigin.trans hown),
        if_neg hend', deref_succ hq rfl, ok_bind, if_pos hop']
      rfl
  other {fuel pre a post} hq hown := by
    obtain ⟨e, q, he, horigin⟩ := a.entries_cons
    rw [flat_append, flat_cons, he] at hq
    have hend := ne_end hq
    rw [skipNotFor, if_neg hend, deref_eq hq rfl, ok_bind, if_neg (horigin ▸ hown)]
    rfl

section
omit [DecidableEq π]

theorem passOver_eq (hq : S.outputQueue = flat (pre ++ a :: post)) :
    ∃ last, S.passOver (S.base + (flat pre).length) = .ok last ∧
      last + 1 = S.base + (flat (pre ++ [a])).length := by
  rw [flat_append, flat_cons] at hq
  rw [flat_append, flat_cons, flat_nil, append_nil, length_append]
  cases a with
  | add m | delete m | replace old new same | push =>
    exact ⟨_, by rw [passOver, deref_eq hq rfl, ok_bind]; rfl, rfl⟩

/-- **The message at the iterator** is the operation there. -/
theorem deliver_eq (hq : S.outputQueue = flat (pre ++ a :: post)) :
    ∃ last, S.deliver t (S.base + (flat pre).length) = .ok (S.call t a.call, last) ∧
      last + 1 = S.base + (flat (pre ++ [a])).length := by
  rw [flat_append, flat_cons] at hq
  rw [flat_append, flat_cons, flat_nil, append_nil, length_append]
  cases a with
  | add m | delete m => exact ⟨_, by rw [deliver, deref_eq hq rfl, ok_bind]; rfl, rfl⟩
  | replace old new same =>
    have hend : S.base + (flat pre).length + 1 ≠ S.queueEnd := ne_queueEnd hq (by simp [entries])
    refine ⟨_, ?_, rfl⟩
    rw [deliver, deref_eq hq rfl, ok_bind]
    show (if _ then _ else _) = _
    rw [if_neg hend, deref_succ hq rfl, ok_bind]
    rfl
  | push => exact ⟨_, by rw [deliver, deref_eq hq rfl, ok_bind]; rfl, rfl⟩

/-! ### Freeing the head -/

theorem headHeld_iff : S.headHeld = true ↔
    ∃ t ∈ S.order, (S.info t).hasQueuedData = true ∧ (S.info t).posn = S.base := by
  simp [headHeld]

/-- What the queue holds, and where the tables read. -/
structure Queued (S : FanoutTable τ π ρ α) (items : List (QueueItem π ρ α)) : Prop where
  queue : S.outputQueue = flat items
  reads : ∀ t ∈ S.order, ∃ post, Reads S.base items (S.info t) post
  /-- the attribute lists of the queue are locked -/
  locked : S.locked.Perm (items.flatMap refs)
  nodup : S.locked.Nodup

theorem unlock_eq {x : AttrRef α} {locked refs : List Nat} (h : locked.Perm (x.ref :: refs)) :
    unlock x locked = .ok (locked.erase x.ref) ∧ (locked.erase x.ref).Perm refs := by
  have hmem : x.ref ∈ locked := h.mem_iff.mpr mem_cons_self
  refine ⟨if_pos hmem, ?_⟩
  have herase := h.erase x.ref
  rwa [erase_cons_head] at herase

/-- The state with the first entries gone. -/
def freed (S : FanoutTable τ π ρ α) (k : Nat) (rest : List (QueueItem π ρ α)) (locked : List Nat) :
    FanoutTable τ π ρ α :=
  { S with base := S.base + k, outputQueue := flat rest, locked }

/-- An entry that is not a push is unlocked. -/
theorem popFront_eq {op : RouteQueueOp} {m : FanoutMsg π ρ α} {q : List (FanoutEntry π ρ α)}
    {refs : List Nat} (hq : S.outputQueue = ⟨op, some m⟩ :: q) (hop : op ≠ .push)
    (hlocked : S.locked.Perm (m.attributes.ref :: refs)) :
    S.popFront = .ok
      { S with outputQueue := q, base := S.base + 1, locked := S.locked.erase m.attributes.ref } := by
  have hunlock := (unlock_eq hlocked).1
  rw [popFront, hq]
  cases op with
  | push => contradiction
  | add | delete | replaceOld | replaceNew =>
    show (do let locked ← unlock m.attributes S.locked; _) = _
    rw [hunlock, ok_bind]
    rfl

theorem discard_step (fuel : Nat) (hq : S.outputQueue = flat (a :: items))
    (hlocked : S.locked.Perm ((a :: items).flatMap refs)) (hnodup : S.locked.Nodup)
    (hheld : S.headHeld = false) :
    ∃ locked, discard (fuel + 1) S =
        (if flat items = [] then pure (S.freed a.entries.length items locked)
        else discard fuel (S.freed a.entries.length items locked)) ∧
      locked.Perm (items.flatMap refs) ∧ locked.Nodup := by
  have hno : ¬ S.headHeld = true := by simp [hheld]
  cases a with
  | add m | delete m =>
    refine ⟨S.locked.erase m.attributes.ref, ?_, (unlock_eq hlocked).2, hnodup.erase _⟩
    rw [discard, if_neg hno, hq]
    show (do let S ← S.popFront; _) = _
    rw [popFront_eq hq (by simp) hlocked, ok_bind]
    rfl
  | push =>
    refine ⟨S.locked, ?_, hlocked, hnodup⟩
    have hpop : S.popFront = .ok (S.freed 1 items S.locked) := by
      rw [popFront, hq]
      rfl
    rw [discard, if_neg hno, hq]
    show (do let S ← S.popFront; _) = _
    rw [hpop, ok_bind]
    rfl
  | replace old new same =>
    have hsecond := (unlock_eq (x := old.attributes) hlocked).2
    refine ⟨(S.locked.erase old.attributes.ref).erase new.attributes.ref, ?_,
      (unlock_eq hsecond).2, (hnodup.erase _).erase _⟩
    rw [discard, if_neg hno, hq]
    show (do let S ← S.popFront; _) = _
    rw [popFront_eq hq (by simp) hlocked, ok_bind]
    show (do let S ← FanoutTable.popFront _; _) = _
    rw [popFront_eq rfl (by simp) hsecond, ok_bind]
    rfl

/-- A table that does not read the first operation reads the same when it is gone. -/
theorem Reads.tail {base : Nat} {i : PeerTableInfo π} (h : Reads base (a :: items) i post)
    (hne : i.hasQueuedData = true → i.posn ≠ base) :
    Reads (base + a.entries.length) items i post := by
  cases h with
  | nothing h => exact .nothing h
  | here pre b post h hitems hposn hb =>
    cases pre with
    | nil => exact absurd hposn (hne h)
    | cons c pre =>
      obtain ⟨rfl, rfl⟩ := List.cons.inj hitems
      refine .here pre b post h rfl ?_ hb
      rw [hposn, flat_cons, length_append]
      omega

/-- **The head is freed until a table reads it**, or the queue is empty. -/
theorem discard_eq (fuel : Nat) (h : Queued S items) (hfuel : items.length < fuel)
    (hne : items ≠ []) :
    ∃ gone rest locked, items = gone ++ rest ∧
      discard fuel S = .ok (S.freed (flat gone).length rest locked) ∧
      Queued (S.freed (flat gone).length rest locked) rest ∧
      (rest = [] ∨ (S.freed (flat gone).length rest locked).headHeld = true) ∧
      ∀ t ∈ S.order, ∀ post, Reads S.base items (S.info t) post →
        Reads (S.base + (flat gone).length) rest (S.info t) post := by
  induction fuel generalizing S items with
  | zero => omega
  | succ fuel ih =>
    cases hheld : S.headHeld with
    | true =>
      have hsame : S.freed (flat ([] : List (QueueItem π ρ α))).length items S.locked = S := by
        rw [freed, ← h.queue]
        rfl
      refine ⟨[], items, S.locked, rfl, ?_, ?_, ?_, fun _ _ _ hr => hr⟩
      · rw [hsame, discard, if_pos hheld]
      · rw [hsame]
        exact h
      · exact Or.inr hheld
    | false =>
      obtain ⟨a, items, rfl⟩ := exists_cons_of_ne_nil hne
      obtain ⟨locked, hstep, hperm, hnodup⟩ := discard_step fuel h.queue h.locked h.nodup hheld
      have hpast : ∀ t ∈ S.order, (S.info t).hasQueuedData = true → (S.info t).posn ≠ S.base := by
        intro t ht hq hp
        have hyes : S.headHeld = true := headHeld_iff.mpr ⟨t, ht, hq, hp⟩
        rw [hheld] at hyes
        cases hyes
      have hreads : ∀ t ∈ S.order, ∀ post, Reads S.base (a :: items) (S.info t) post →
          Reads (S.base + a.entries.length) items (S.info t) post :=
        fun t ht post hr => hr.tail (hpast t ht)
      have hnext : Queued (S.freed a.entries.length items locked) items := by
        refine ⟨rfl, ?_, hperm, hnodup⟩
        intro t ht
        obtain ⟨post, hr⟩ := h.reads t ht
        exact ⟨post, hreads t ht post hr⟩
      have hone : flat [a] = a.entries := by rw [flat_cons, flat_nil, append_nil]
      by_cases hempty : items = []
      · refine ⟨[a], items, locked, rfl, ?_, ?_, Or.inl hempty, ?_⟩
        · rw [hstep, if_pos (flat_eq_nil.mpr hempty), hone]
          rfl
        · rw [hone]
          exact hnext
        · rw [hone]
          exact hreads
      · rw [length_cons] at hfuel
        obtain ⟨gone, rest, locked', hsplit, hrun, hqueued, hhead, hkeep⟩ :=
          ih hnext (by omega) hempty
        have hsum : S.base + a.entries.length + (flat gone).length =
            S.base + (flat (a :: gone)).length := by
          rw [flat_cons, length_append]
          omega
        have hsame : (S.freed a.entries.length items locked).freed (flat gone).length rest
            locked' = S.freed (flat (a :: gone)).length rest locked' := by
          unfold freed
          rw [hsum]
        rw [hsame] at hrun hqueued hhead
        refine ⟨a :: gone, rest, locked', by rw [hsplit, cons_append], ?_, hqueued, hhead, ?_⟩
        · rw [hstep, if_neg (fun hf => hempty (flat_eq_nil.mp hf))]
          exact hrun
        · intro t ht post hr
          rw [← hsum]
          exact hkeep t ht post (hreads t ht post hr)

end

end

end FanoutTable

end Xorp.Bgp

/-
The reference counts of RIP's routes.

An entry is destroyed when nothing refers to it any more.  The code knows this from a count of 16 bits
in the entry: every `RouteEntryRef`, in the table and in the update queue, counts one up when
it is made and one down when it goes, and the one that comes to zero destroys the entry.  `Counted` is
the table with these counts.  `update_route` makes a reference for the table when the table has no
entry for the net, and one for the queue when it returns true; each time there is one more for as long
as the call of `insert` or `push_back` takes.
-/
import Xorp.Rip.RouteDB

namespace Xorp.Rip

open Linked

/-- `RouteDB`, with `_ref_cnt` of every entry. -/
structure Counted (w : Nat) (ω π : Type) where
  db : RouteDB w ω π
  refCnt : Nat → BitVec 16

namespace Counted

variable {w : Nat} {ω π : Type} [DecidableEq ω]

def create (expirySecs deletionSecs : ω → Nat) : Counted w ω π :=
  ⟨RouteDB.empty expirySecs deletionSecs, fun _ => 0⟩

variable (S : Counted w ω π)

def ref (k : Nat) : Counted w ω π :=
  { S with refCnt := Function.update S.refCnt k (S.refCnt k + 1) }

/-- An entry leaves the store of its origin. -/
def leaveStore (db : RouteDB w ω π) (r : RouteEntry w ω π) : Except Fault (RouteDB w ω π) :=
  match r.origin with
  | none => .ok db
  | some o => db.dissociate o r.net

/-- `~RouteEntry`. -/
def destroy (k : Nat) (r : RouteEntry w ω π) : Except Fault (Counted w ω π) := do
  let db ← leaveStore S.db r
  .ok { S with db := { db with heap := Function.update db.heap k none } }

/-- `RouteEntryRef::release`. -/
def release (k : Nat) : Except Fault (Counted w ω π) :=
  match S.db.heap k with
  | none => .error .badPointer
  | some r =>
      let cnt := S.refCnt k - 1
      let S := { S with refCnt := Function.update S.refCnt k cnt }
      if cnt = 0 then S.destroy k r else .ok S

/-- The reference of the table, and the one of the pair that is inserted.  The entry is used
afterwards. -/
def countInsert (k : Nat) : Except Fault (Counted w ω π) := do
  let S ← ((S.ref k).ref k).release k
  if (S.db.heap k).isSome then .ok S else .error .badPointer

/-- The reference of the queue, if it has readers, and the one that `push_back` is called with. -/
def countPush (k : Nat) : Except Fault (Counted w ω π) :=
  if S.db.readers = 0 then (S.ref k).release k else ((S.ref k).ref k).release k

def updateRoute [DecidableEq π] (C : Config w ω π) (S : Counted w ω π) (c : Call w ω π) :
    Except Fault (Counted w ω π × Bool) := do
  let (db, updated) ← S.db.updateRoute C c
  match db.routes c.net with
  | none => .error .badPointer
  | some k =>
      let S' ← bif (S.db.routes c.net).isNone then countInsert ⟨db, S.refCnt⟩ k
        else .ok ⟨db, S.refCnt⟩
      let S' ← bif updated then S'.countPush k else .ok S'
      .ok (S', updated)

/-- `_routes.erase(i)`. -/
def erase (net : IPNet w) (k : Nat) : Except Fault (Counted w ω π) :=
  release { S with db := { S.db with routes := Function.update S.db.routes net none } } k

def deleteRoute [DecidableEq π] (C : Config w ω π) (S : Counted w ω π) (net : IPNet w) :
    Except Fault (Counted w ω π) :=
  match S.db.routes net with
  | none => .ok S
  | some k => do
      let S ← S.erase net k
      match S.db.ribRoutes net, S.db.ribOrigin with
      | some r, some o =>
          let (S, _) ← S.updateRoute C (r.call r.cost o)
          .ok S
      | _, _ => .ok S

/-- The timer of an entry is no more scheduled. -/
def disarm (k : Nat) (r : RouteEntry w ω π) (t : Timer) : Counted w ω π :=
  { S with db := S.db.setEntry k { r with timer := some { t with scheduled := false } } }

/-- A timer runs: it is no more scheduled, and calls what it is for. -/
def fireTimer [DecidableEq π] (C : Config w ω π) (S : Counted w ω π) (k : Nat) :
    Except Fault (Counted w ω π) :=
  match S.db.heap k with
  | none => .error .badPointer
  | some r =>
      match r.timer, r.origin with
      | some t, some o =>
          match t.action with
          | .deleteRoute => (S.disarm k r t).deleteRoute C r.net
          | .expireRoute => do
              let (S, _) ← (S.disarm k r t).updateRoute C (r.call ripInfinity o)
              .ok S
      | _, _ => .error .badPointer

/-- The queue gives up the first references that it holds. -/
def giveUp (S : Counted w ω π) : Nat → Except Fault (Counted w ω π)
  | 0 => .ok S
  | n + 1 =>
      match S.db.held with
      | [] => .ok S
      | k :: held => do
          let S ← release { S with db := { S.db with held } } k
          S.giveUp n

inductive Op (w : Nat) (ω π : Type) where
  | updateRoute (c : Call w ω π)
  | fireTimer (k : Nat)
  /-- time goes on -/
  | wait (d : Nat)
  /-- `set_expiry_secs` and `set_deletion_secs` -/
  | setTimers (expirySecs deletionSecs : ω → Nat)
  | addReader
  | removeReader
  /-- the readers have gone on, and the blocks before them are collected -/
  | collect (n : Nat)
  | addRibRoute (c : Call w ω π)
  | deleteRibRoute (net : IPNet w)
  | flushRoutes

def step [DecidableEq π] (C : Config w ω π) (S : Counted w ω π) :
    Op w ω π → Except Fault (Counted w ω π)
  | .updateRoute c => do
      let (S, _) ← S.updateRoute C c
      .ok S
  | .fireTimer k => S.fireTimer C k
  | .wait d => .ok { S with db := { S.db with now := S.db.now + d } }
  | .setTimers expirySecs deletionSecs =>
      .ok { S with db := { S.db with expirySecs, deletionSecs } }
  | .addReader => .ok { S with db := { S.db with readers := S.db.readers + 1 } }
  | .removeReader =>
      if S.db.readers ≤ 1 then
        giveUp { S with db := { S.db with readers := 0 } } S.db.held.length
      else .ok { S with db := { S.db with readers := S.db.readers - 1 } }
  | .collect n => S.giveUp n
  | .addRibRoute c =>
      .ok { S with db := { S.db with
        ribOrigin := some c.origin
        ribRoutes := Function.update S.db.ribRoutes c.net (some (.ofCall c c.cost none)) } }
  | .deleteRibRoute net =>
      .ok { S with db := { S.db with ribRoutes := Function.update S.db.ribRoutes net none } }
  | .flushRoutes =>
      -- The queue is emptied and then the table: no entry is left.
      .ok ⟨{ S.db with held := [], heap := fun _ => none, routes := fun _ => none,
                       store := fun _ _ => none }, fun _ => 0⟩

/-- Timers run when they are scheduled and due, and the tags of calls are 16 bits wide. -/
def Legal : Op w ω π → Prop
  | .updateRoute c => c.tag ≤ 0xffff
  | .fireTimer k => ∃ r t, S.db.heap k = some r ∧ r.timer = some t ∧ t.scheduled = true ∧
      t.due ≤ S.db.now
  | _ => True

end Counted

end Xorp.Rip

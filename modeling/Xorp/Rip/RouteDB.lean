/-
The route table of RIP.

An entry of the table belongs to the origin it was learned from, and each origin has a store of its
entries by net.  Entries are shared: the table refers to them, and so does the update queue until
its readers have gone on.  An entry that is deleted from the table while the queue holds it stays in
the store of its origin, with the infinite cost it was deleted with; the next update from that
origin finds it there.
-/
import Xorp.Net.IPNet
import Xorp.Lib.Heap

namespace Xorp.Rip

open Linked

variable {w : Nat} {ω π : Type}

def ripInfinity : Nat := 16

/-- Time is counted in microseconds. -/
def microseconds (secs : Nat) : Nat := secs * 1000000

/-! ### Entries -/

/-- What a timer of an entry calls. -/
inductive TimerAction where
  | expireRoute
  | deleteRoute
deriving DecidableEq

/-- `XorpTimer` of an entry, with the time at which it runs out.  It is kept when it has run. -/
structure Timer where
  due : Nat
  action : TimerAction
  scheduled : Bool

structure RouteEntry (w : Nat) (ω π : Type) where
  net : IPNet w
  nexthop : BitVec w
  ifname : String
  vifname : String
  cost : Nat
  origin : Option ω
  tag : Nat
  policytags : π
  filtered : Bool
  timer : Option Timer

inductive FilterKind where
  | importFilter
  | exportSourcematch
  | exportFilter

/-- What is not RIP's own: the policy filters, which may change a route, and
`is_linklocal_unicast() || is_zero()`. -/
structure Config (w : Nat) (ω π : Type) where
  runFilter : FilterKind → RouteEntry w ω π → RouteEntry w ω π × Bool
  linkLocalOrZero : BitVec w → Bool

/-- The arguments of `update_route`. -/
structure Call (w : Nat) (ω π : Type) where
  net : IPNet w
  nexthop : BitVec w
  ifname : String
  vifname : String
  cost : Nat
  tag : Nat
  origin : ω
  policytags : π
  isPolicyPush : Bool

namespace RouteEntry

/-- The constructor; cost and tag are 16 bits wide. -/
def ofCall (c : Call w ω π) (cost : Nat) (origin : Option ω) : RouteEntry w ω π where
  net := c.net
  nexthop := c.nexthop
  ifname := c.ifname
  vifname := c.vifname
  cost := cost % 2 ^ 16
  origin := origin
  tag := c.tag % 2 ^ 16
  policytags := c.policytags
  filtered := false
  timer := none

/-- `set_nexthop`: the names go with a nexthop that is global. -/
def setNexthop (C : Config w ω π) (r : RouteEntry w ω π) (nexthop : BitVec w) :
    RouteEntry w ω π × Bool :=
  if nexthop ≠ r.nexthop then
    if C.linkLocalOrZero nexthop then ({ r with nexthop := nexthop }, true)
    else ({ r with nexthop := nexthop, ifname := "", vifname := "" }, true)
  else (r, false)

variable (r : RouteEntry w ω π)

def setIfname (ifname : String) : RouteEntry w ω π × Bool :=
  if ifname ≠ r.ifname then ({ r with ifname := ifname }, true) else (r, false)

def setVifname (vifname : String) : RouteEntry w ω π × Bool :=
  if vifname ≠ r.vifname then ({ r with vifname := vifname }, true) else (r, false)

def setTag (tag : Nat) : RouteEntry w ω π × Bool :=
  if tag ≠ r.tag then ({ r with tag := tag }, true) else (r, false)

def setCost (cost : Nat) : RouteEntry w ω π × Bool :=
  if cost ≠ r.cost then ({ r with cost := cost }, true) else (r, false)

def setPolicytags [DecidableEq π] (r : RouteEntry w ω π) (policytags : π) :
    RouteEntry w ω π × Bool :=
  if policytags ≠ r.policytags then ({ r with policytags := policytags }, true) else (r, false)

/-- The six setters that `update_route` calls in a row, with the flag it collects. -/
def take [DecidableEq π] (C : Config w ω π) (r n : RouteEntry w ω π) : RouteEntry w ω π × Bool :=
  let (r, nexthop) := r.setNexthop C n.nexthop
  let (r, ifname) := r.setIfname n.ifname
  let (r, vifname) := r.setVifname n.vifname
  let (r, tag) := r.setTag n.tag
  let (r, cost) := r.setCost n.cost
  let (r, policytags) := r.setPolicytags n.policytags
  (r, nexthop || ifname || vifname || tag || cost || policytags)

/-- The entry as arguments of `update_route`, with this cost and this origin. -/
def call (cost : Nat) (o : ω) : Call w ω π where
  net := r.net
  nexthop := r.nexthop
  ifname := r.ifname
  vifname := r.vifname
  cost := cost
  tag := r.tag
  origin := o
  policytags := r.policytags
  isPolicyPush := false

/-- `timer().scheduled()`. -/
def scheduled : Bool := r.timer.any Timer.scheduled

end RouteEntry

/-- `do_filtering`.  The caller's cost becomes that of the route. -/
def doFiltering (C : Config w ω π) (r : RouteEntry w ω π) : RouteEntry w ω π × Bool :=
  let step (kind : FilterKind) (x : RouteEntry w ω π × Bool) : RouteEntry w ω π × Bool :=
    if x.2 then C.runFilter kind x.1 else x
  let (r, accepted) :=
    step .exportFilter (step .exportSourcematch (C.runFilter .importFilter r))
  if r.cost > ripInfinity then ({ r with cost := ripInfinity }, false) else (r, accepted)

/-! ### The database -/

/-- `RouteDB`, with the stores of the origins and the entries by address.  Of the update queue
there are the entries its blocks hold and all that were ever pushed. -/
structure RouteDB (w : Nat) (ω π : Type) where
  heap : Nat → Option (RouteEntry w ω π)
  next : Nat
  routes : IPNet w → Option Nat
  store : ω → IPNet w → Option Nat
  ribRoutes : IPNet w → Option (RouteEntry w ω π)
  ribOrigin : Option ω
  held : List Nat
  readers : Nat
  pushed : List Nat
  now : Nat
  expirySecs : ω → Nat
  deletionSecs : ω → Nat

namespace RouteDB

variable [DecidableEq ω]

def empty (expirySecs deletionSecs : ω → Nat) : RouteDB w ω π where
  heap _ := none
  next := 0
  routes _ := none
  store _ _ := none
  ribRoutes _ := none
  ribOrigin := none
  held := []
  readers := 0
  pushed := []
  now := 0
  expirySecs := expirySecs
  deletionSecs := deletionSecs

variable (S : RouteDB w ω π)

/-- The entry of the table for a net. -/
def entry (net : IPNet w) : Option (RouteEntry w ω π) :=
  (S.routes net).bind S.heap

def setEntry (ref : Nat) (r : RouteEntry w ω π) : RouteDB w ω π :=
  { S with heap := Function.update S.heap ref (some r) }

def setExpiryTimer (r : RouteEntry w ω π) : RouteEntry w ω π :=
  let secs := r.origin.elim 0 S.expirySecs
  { r with
    timer := if secs ≠ 0 then some ⟨S.now + microseconds secs, .expireRoute, true⟩ else none }

def setDeletionTimer (r : RouteEntry w ω π) : RouteEntry w ω π :=
  let secs := r.origin.elim 0 S.deletionSecs
  { r with timer := some ⟨S.now + microseconds secs, .deleteRoute, true⟩ }

/-- `_uq->push_back`.  Without a reader the queue does not keep the entry. -/
def pushBack (ref : Nat) : RouteDB w ω π :=
  { S with
    pushed := S.pushed ++ [ref]
    held := if S.readers = 0 then S.held else S.held ++ [ref] }

/-- `RouteEntryOrigin::associate`. -/
def associate (o : ω) (net : IPNet w) (ref : Nat) :
    Except Fault (RouteDB w ω π) :=
  if (S.store o net).isSome then .error .abort
  else .ok { S with
    store := Function.update S.store o (Function.update (S.store o) net (some ref)) }

/-- `RouteEntryOrigin::dissociate`. -/
def dissociate (o : ω) (net : IPNet w) : Except Fault (RouteDB w ω π) :=
  if (S.store o net).isNone then .error .abort
  else .ok { S with
    store := Function.update S.store o (Function.update (S.store o) net none) }

/-- `set_origin` of an entry that has an origin. -/
def setOrigin (ref : Nat) (r : RouteEntry w ω π) (o : ω) :
    Except Fault (RouteDB w ω π) := do
  let S ← match r.origin with
    | none => .ok S
    | some o' => S.dissociate o' r.net
  S.associate o r.net ref

/-- The new cost of the entry of the same origin sets its timer. -/
def retime (isPolicyPush : Bool) (origCost cost : Nat) (updated : Bool)
    (r : RouteEntry w ω π) : RouteEntry w ω π :=
  if cost = ripInfinity then
    if origCost = ripInfinity ∧ r.scheduled then r else S.setDeletionTimer r
  else if isPolicyPush ∧ ¬ updated then r
  else S.setExpiryTimer r

/-! ### Updates -/

/-- `update_route` where the entry is of the same origin. -/
def updateSame [DecidableEq π] (C : Config w ω π) (S : RouteDB w ω π) (ref : Nat)
    (r n : RouteEntry w ω π) (isPolicyPush accepted updated : Bool) : RouteDB w ω π × Bool :=
  let (r', changed) := r.take C n
  let updated := updated || changed
  let r' := S.retime isPolicyPush r.cost n.cost updated r'
  let wasFiltered := r'.filtered
  let r' := { r' with filtered := !accepted }
  if accepted then
    let updated := updated || wasFiltered
    let S := S.setEntry ref r'
    if updated then (S.pushBack ref, true) else (S, false)
  else if wasFiltered then (S.setEntry ref r', false)
  else if n.cost ≠ ripInfinity then
    let r' := S.setDeletionTimer { r' with cost := ripInfinity }
    ((S.setEntry ref r').pushBack ref, true)
  else
    let S := S.setEntry ref r'
    if updated then (S.pushBack ref, true) else (S, false)

/-- The entry has less than half of its time left. -/
def showsTimeout (r : RouteEntry w ω π) : Bool :=
  let expiry := microseconds (r.origin.elim 0 S.expirySecs)
  if expiry = 0 then false
  else
    match r.timer with
    | none => false
    | some t => (if t.due ≤ S.now then 0 else t.due - S.now) < expiry / 2

/-- RIP's decision: should a route of another origin with this cost replace the entry? -/
def shouldReplace (r : RouteEntry w ω π) (cost : Nat) : Bool :=
  if r.cost > cost then true
  else if r.cost < cost then false
  else if cost = ripInfinity then false
  else S.showsTimeout r

/-- `update_route` where the entry is of another origin. -/
def updateOther [DecidableEq π] (C : Config w ω π) (S : RouteDB w ω π) (ref : Nat)
    (r n : RouteEntry w ω π) (o : ω) (accepted updated : Bool) :
    Except Fault (RouteDB w ω π × Bool) :=
  if ¬ accepted then .ok (S, false)
  else if S.shouldReplace r n.cost then do
    let r' := (r.take C n).1
    let S ← S.setOrigin ref r' o
    let r' := S.setExpiryTimer { r' with origin := some o }
    .ok ((S.setEntry ref r').pushBack ref, true)
  else if updated then .ok (S.pushBack ref, true)
  else .ok (S, false)

/-- `update_route` from where the entry is known; the cost may be another than that of the call. -/
def applyUpdate [DecidableEq π] (C : Config w ω π) (S : RouteDB w ω π) (ref : Nat)
    (c : Call w ω π) (cost : Nat) (updated : Bool) : Except Fault (RouteDB w ω π × Bool) :=
  match S.heap ref with
  | none => .error .badPointer
  | some r =>
      let (n, accepted) := doFiltering C { RouteEntry.ofCall c cost none with net := r.net }
      if r.origin = some c.origin then
        .ok (updateSame C S ref r n c.isPolicyPush accepted updated)
      else updateOther C S ref r n c.origin accepted updated

/-- `update_route` where neither the table nor the origin has an entry. -/
def createRoute (C : Config w ω π) (S : RouteDB w ω π) (c : Call w ω π) :
    Except Fault (RouteDB w ω π × Bool) := do
  let ref := S.next
  let S ← S.associate c.origin c.net ref
  let r := S.setExpiryTimer (RouteEntry.ofCall c c.cost (some c.origin))
  let (r, accepted) := doFiltering C r
  let S := { S with
    heap := Function.update S.heap ref (some { r with filtered := !accepted })
    next := ref + 1
    routes := Function.update S.routes c.net (some ref) }
  if ¬ accepted ∨ r.cost = ripInfinity then .ok (S, false) else .ok (S.pushBack ref, true)

/-- `update_route` where the table has no entry and the origin has one. -/
def resurrect [DecidableEq π] (C : Config w ω π) (S : RouteDB w ω π) (ref : Nat)
    (c : Call w ω π) : Except Fault (RouteDB w ω π × Bool) :=
  match S.heap ref with
  | none => .error .badPointer
  | some r =>
      let (r, accepted) := doFiltering C r
      let S := { S with
        heap := Function.update S.heap ref (some { r with filtered := !accepted })
        routes := Function.update S.routes c.net (some ref) }
      -- The cost is the one of the entry now.
      if r.cost = ripInfinity then .ok (S, false) else S.applyUpdate C ref c r.cost accepted

def updateRoute [DecidableEq π] (C : Config w ω π) (S : RouteDB w ω π) (c : Call w ω π) :
    Except Fault (RouteDB w ω π × Bool) :=
  if c.tag > 0xffff then .error .abort
  else
    match S.routes c.net with
    | some ref => S.applyUpdate C ref c c.cost false
    | none =>
        match S.store c.origin c.net with
        | none => S.createRoute C c
        | some ref => S.resurrect C ref c

end RouteDB

end Xorp.Rip

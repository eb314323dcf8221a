/-
The routing table of OSPF, and what it sends to the RIB.

Every area recomputes its routes in a transaction: its old entries are dropped from a copy of the
table, its new ones are added, and at the end the copy is compared with the table before it.  Of an
entry the comparison looks at the nexthop and the cost only.  Whether a route is in the RIB depends
on more than that, and is remembered in a flag of the entry, which passes from the winner before to
the winner after when the comparison finds them equal.
-/
import Xorp.Ospf.Flooding
import Xorp.Net.IPNet
import Xorp.Lib.Outcome
import Xorp.Lib.OrderedSet

namespace Xorp.Ospf

open Linked List

inductive VertexType
  | router | network
deriving DecidableEq

/-- `RouteEntry::PathType`, in the order of preference. -/
inductive PathType
  | intraArea | interArea | type1 | type2
deriving DecidableEq

/-- The number of a path type. -/
def PathType.toNat : PathType → Nat
  | .intraArea => 1
  | .interArea => 2
  | .type1 => 3
  | .type2 => 4

abbrev AreaId := Nat

/-- `RouteEntry`: the fields that the routing table reads. -/
structure RouteEntry (w : Nat) where
  destinationType : VertexType
  discard : Bool
  direct : Bool
  area : AreaId
  pathType : PathType
  cost : Nat
  nexthop : BitVec w
  filtered : Bool
deriving DecidableEq

/-- `reset_winner`: does `comp` take the place of the winner so far? -/
def RouteEntry.beats {w : Nat} (comp winner : RouteEntry w) : Bool :=
  if comp.pathType.toNat < winner.pathType.toNat then true
  else if comp.pathType = winner.pathType then
    if comp.cost < winner.cost then true
    else if comp.cost = winner.cost then winner.area < comp.area
    else false
  else false

/-- `InternalRouteEntry`: the routes to a network by area.  In the table there is always one. -/
structure InternalRouteEntry (w : Nat) where
  entries : List (AreaId × RouteEntry w)
  nonempty : entries ≠ []

variable {w : Nat}

namespace InternalRouteEntry

/-- The winner of `reset_winner`, in the order of the areas. -/
def winnerOf (e : AreaId × RouteEntry w) (es : List (AreaId × RouteEntry w)) :
    AreaId × RouteEntry w :=
  es.foldl (fun winner comp => if comp.2.beats winner.2 then comp else winner) e

variable (ire : InternalRouteEntry w)

/-- `_winner`, with the area it is kept under. -/
def winner : AreaId × RouteEntry w :=
  winnerOf (ire.entries.head ire.nonempty) ire.entries.tail

def getEntry : RouteEntry w := ire.winner.2

/-- `set_filtered` on the entry of an area. -/
def mark (area : AreaId) (filtered : Bool) (e : AreaId × RouteEntry w) : AreaId × RouteEntry w :=
  if e.1 = area then (e.1, { e.2 with filtered := filtered }) else e

/-- `set_filtered` on the winner. -/
def setFiltered (filtered : Bool) : InternalRouteEntry w where
  entries := ire.entries.map (mark ire.winner.1 filtered)
  nonempty h := ire.nonempty (List.map_eq_nil_iff.mp h)

def hasArea (area : AreaId) : Bool :=
  ire.entries.any fun e => e.1 = area

/-- `delete_entry`.  Nothing may be left. -/
def deleteEntry (area : AreaId) : Option (InternalRouteEntry w) :=
  let rest := ire.entries.filter fun e => e.1 ≠ area
  if h : rest = [] then none else some ⟨rest, h⟩

theorem insert_ne_nil (x : AreaId × RouteEntry w) (l : List (AreaId × RouteEntry w)) :
    OrderedSet.insert Prod.fst x l ≠ [] := by
  cases l with
  | nil => exact cons_ne_nil _ _
  | cons a l =>
    unfold OrderedSet.insert
    split_ifs
    · exact cons_ne_nil _ _
    · exact cons_ne_nil _ _
    · exact cons_ne_nil _ _

/-- `add_entry`, to what there is for the network. -/
def addEntry (ire : Option (InternalRouteEntry w)) (area : AreaId) (rt : RouteEntry w) :
    Except Fault (InternalRouteEntry w) :=
  if ire.any (·.hasArea area) then .error .assertion
  else .ok ⟨OrderedSet.insert Prod.fst (area, rt) ((ire.map entries).getD []), insert_ne_nil _ _⟩

def replaceEntry (area : AreaId) (rt : RouteEntry w) :
    Except Fault (InternalRouteEntry w) :=
  addEntry (ire.deleteEntry area) area rt

end InternalRouteEntry

/-- `Trie<A, InternalRouteEntry<A>>`: the networks in some order. -/
structure Table (w : Nat) where
  entries : List (IPNet w × InternalRouteEntry w)
  nodup : (entries.map Prod.fst).Nodup

namespace Table

def empty : Table w := ⟨[], List.nodup_nil⟩

def isFor (net : IPNet w) (e : IPNet w × InternalRouteEntry w) : Bool := e.1 = net

/-- `lookup_node`. -/
def lookup (t : Table w) (net : IPNet w) : Option (InternalRouteEntry w) :=
  (t.entries.find? (isFor net)).map Prod.snd

/-- The entries change, and not the networks. -/
def mapEntries (t : Table w) (f : IPNet w → InternalRouteEntry w → InternalRouteEntry w) :
    Table w where
  entries := t.entries.map fun e => (e.1, f e.1 e.2)
  nodup := by
    rw [List.map_map]
    exact t.nodup

/-- Some of the entries stay, changed or not. -/
def keep (t : Table w) (f : InternalRouteEntry w → Option (InternalRouteEntry w)) : Table w where
  entries := t.entries.filterMap fun e => (f e.2).map (Prod.mk e.1)
  nodup := by
    have hsub : ((t.entries.filterMap fun e => (f e.2).map (Prod.mk e.1)).map Prod.fst).Sublist
        (t.entries.map Prod.fst) := by
      generalize t.entries = l
      induction l with
      | nil => exact List.Sublist.slnil
      | cons e l ih =>
          cases hf : f e.2 with
          | none =>
              rw [List.filterMap_cons_none (by rw [hf]; rfl)]
              exact ih.cons _
          | some ire =>
              rw [List.filterMap_cons_some (b := (e.1, ire)) (by rw [hf]; rfl)]
              exact ih.cons_cons _
    exact hsub.nodup t.nodup

/-- The entry of a network is set. -/
def set (t : Table w) (net : IPNet w) (ire : InternalRouteEntry w) : Table w where
  entries := (net, ire) :: t.entries.filter fun e => e.1 ≠ net
  nodup := by
    rw [List.map_cons, List.nodup_cons]
    refine ⟨fun hin => ?_, (List.filter_sublist.map _).nodup t.nodup⟩
    obtain ⟨e, he, rfl⟩ := List.mem_map.mp hin
    exact absurd rfl (of_decide_eq_true (List.mem_filter.mp he).2)

end Table

/-- What the routing table calls: `Ospf::add_route`, `replace_route` and `delete_route`, and the
summary functions of the peer manager. -/
inductive Call (w : Nat)
  | addRoute (net : IPNet w) (nexthop : BitVec w) (metric : Nat)
  | replaceRoute (net : IPNet w) (nexthop : BitVec w) (metric : Nat)
  | deleteRoute (net : IPNet w)
  | summaryAnnounce (area : AreaId) (net : IPNet w) (rt : RouteEntry w)
  | summaryWithdraw (area : AreaId) (net : IPNet w) (rt : RouteEntry w)
  | summaryReplace (area : AreaId) (net : IPNet w) (rt previous : RouteEntry w)
      (previousArea : AreaId)
deriving DecidableEq

/-- The import policy and the source match: a route is rejected, or accepted with a nexthop and a
metric. -/
abbrev Policy (w : Nat) := IPNet w → BitVec w → Nat → Option (BitVec w × Nat)

structure RoutingTable (w : Nat) where
  version : Version
  policy : Policy w
  inTransaction : Bool
  current : Option (Table w)
  previous : Option (Table w)
  log : List (Call w)

namespace RoutingTable

/-- `do_filtering`, with what the policy makes of the route. -/
def doFiltering (policy : Policy w) (net : IPNet w) (rt : RouteEntry w) : Option (BitVec w × Nat) :=
  if rt.destinationType = .router ∨ rt.direct then none else policy net rt.nexthop rt.cost

/-- `add_route`: the calls, and the flag of the entry. -/
def addRoute (policy : Policy w) (net : IPNet w) (rt : RouteEntry w) (summaries : Bool) :
    List (Call w) × Bool :=
  let (calls, filtered) :=
    if rt.discard then ([], rt.filtered)
    else
      match doFiltering policy net rt with
      | some (nexthop, metric) => ([.addRoute net nexthop metric], false)
      | none => ([], true)
  (calls ++ if summaries then [.summaryAnnounce rt.area net { rt with filtered := filtered }] else [],
    filtered)

def deleteRoute (net : IPNet w) (rt : RouteEntry w) (summaries : Bool) : List (Call w) :=
  (if rt.discard ∨ rt.filtered then [] else [.deleteRoute net])
    ++ if summaries then [.summaryWithdraw rt.area net rt] else []

def replaceRoute (policy : Policy w) (net : IPNet w) (rt previous : RouteEntry w) :
    List (Call w) × Bool :=
  let (calls, filtered) := addRoute policy net rt false
  (deleteRoute net previous false ++ calls
    ++ [.summaryReplace rt.area net { rt with filtered := filtered } previous previous.area],
    filtered)

/-- The comparison of `end` for a network of the table. -/
def endEntry (policy : Policy w) (net : IPNet w) (rt : RouteEntry w) :
    Option (RouteEntry w) → List (Call w) × Bool
  | none => addRoute policy net rt true
  | some previous =>
      if rt.nexthop ≠ previous.nexthop ∨ rt.cost ≠ previous.cost then
        replaceRoute policy net rt previous
      else ([], previous.filtered)

/-- The winner for a network, in a table that may not be there yet. -/
def entryAt (previous : Option (Table w)) (net : IPNet w) : Option (RouteEntry w) :=
  (previous.bind (·.lookup net)).map InternalRouteEntry.getEntry

/-- The first loop of `end`. -/
def endDeletes (previous : Option (Table w)) (current : Table w) : List (Call w) :=
  ((previous.map Table.entries).getD []).flatMap fun e =>
    if (current.lookup e.1).isSome then [] else deleteRoute e.1 e.2.getEntry true

/-- The second loop of `end`: its calls. -/
def endUpdates (policy : Policy w) (previous : Option (Table w)) (current : Table w) :
    List (Call w) :=
  current.entries.flatMap fun e =>
    (endEntry policy e.1 e.2.getEntry (entryAt previous e.1)).1

/-- The second loop of `end`: the table it leaves. -/
def endTable (policy : Policy w) (previous : Option (Table w)) (current : Table w) : Table w :=
  current.mapEntries fun net ire =>
    ire.setFiltered (endEntry policy net ire.getEntry (entryAt previous net)).2

/-- What `push_routes` does for a network: the calls, and the flag of the entry. -/
def pushEntry (policy : Policy w) (net : IPNet w) (rt : RouteEntry w) : List (Call w) × Bool :=
  if rt.discard then ([], rt.filtered)
  else
    match doFiltering policy net rt with
    | some (nexthop, metric) =>
        ([if rt.filtered then .addRoute net nexthop metric
          else .replaceRoute net nexthop metric], false)
    | none => (if rt.filtered then [] else [.deleteRoute net], true)

/-- The calls on the routing table.  `push_routes` comes with the policy that is in force from then
on. -/
inductive Op (w : Nat)
  | beginTransaction (area : AreaId)
  | addEntry (area : AreaId) (net : IPNet w) (rt : RouteEntry w)
  | replaceEntry (area : AreaId) (net : IPNet w) (rt : RouteEntry w)
  | endTransaction
  | pushRoutes (policy : Policy w)

variable (S : RoutingTable w)

/-- `begin`. -/
def beginTransaction (area : AreaId) : Except Fault (RoutingTable w) :=
  if S.inTransaction then .error .assertion
  else .ok { S with
    inTransaction := true
    previous := S.current
    current := some ((S.current.map fun t => t.keep (·.deleteEntry area)).getD .empty) }

/-- In OSPFv3 a router has no entry by network. -/
def entryByNet (rt : RouteEntry w) : Bool :=
  rt.destinationType = .network || S.version = .v2

def addEntry (area : AreaId) (net : IPNet w) (rt : RouteEntry w) :
    Except Fault (RoutingTable w) :=
  if ¬ S.inTransaction ∨ area ≠ rt.area ∨ ¬ (rt.direct ∨ rt.nexthop ≠ 0) then .error .assertion
  else if ¬ S.entryByNet rt then .ok S
  else
    match S.current with
    | none => .error .badPointer
    | some t => do
        let ire ← InternalRouteEntry.addEntry (t.lookup net) area rt
        .ok { S with current := some (t.set net ire) }

def replaceEntry (area : AreaId) (net : IPNet w) (rt : RouteEntry w) :
    Except Fault (RoutingTable w) :=
  if ¬ S.inTransaction then .error .assertion
  else if ¬ S.entryByNet rt then .ok S
  else
    match S.current with
    | none => .error .badPointer
    | some t =>
        match t.lookup net with
        | none => S.addEntry area net rt
        | some old => do
            let ire ← old.replaceEntry area rt
            .ok { S with current := some (t.set net ire) }

/-- `end`. -/
def endTransaction : Except Fault (RoutingTable w) :=
  if ¬ S.inTransaction then .error .assertion
  else
    match S.current with
    | none => .error .badPointer
    | some t => .ok { S with
        inTransaction := false
        current := some (endTable S.policy S.previous t)
        log := S.log ++ (endDeletes S.previous t ++ endUpdates S.policy S.previous t) }

def pushRoutes (policy : Policy w) : RoutingTable w :=
  match S.current with
  | none => { S with policy := policy }
  | some t => { S with
      policy := policy
      current := some (t.mapEntries fun net ire =>
        ire.setFiltered (pushEntry policy net ire.getEntry).2)
      log := S.log ++ t.entries.flatMap fun e => (pushEntry policy e.1 e.2.getEntry).1 }

def step : Op w → Except Fault (RoutingTable w)
  | .beginTransaction area => S.beginTransaction area
  | .addEntry area net rt => S.addEntry area net rt
  | .replaceEntry area net rt => S.replaceEntry area net rt
  | .endTransaction => S.endTransaction
  | .pushRoutes policy => .ok (S.pushRoutes policy)

/-- `push_routes` is not called in the middle of a transaction. -/
def Legal : Op w → Prop
  | .pushRoutes _ => S.inTransaction = false
  | _ => True

/-- The states of a run. -/
inductive Reach (ok : RoutingTable w → Op w → Prop) : RoutingTable w → Prop
  | init (version : Version) (policy : Policy w) :
      Reach ok ⟨version, policy, false, none, none, []⟩
  | step {S S' : RoutingTable w} (op : Op w) : Reach ok S → S.Legal op → ok S op →
      S.step op = .ok S' → Reach ok S'

end RoutingTable

end Xorp.Ospf

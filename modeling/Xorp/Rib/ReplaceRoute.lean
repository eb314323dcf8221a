/-
Replacing a route.

`RIB::replace_route` deletes the old route and then calls `add_route`, which still has its
checks to make: the interface has to exist, and a route of an IGP needs a connected route
to its nexthop.  Nothing brings the old route back if they fail.

What the tables downstream make of a change, and which routes win there, is left open.
-/
import Xorp.Trie.PrefixMap
import Xorp.Rib.ProtocolTables

namespace Xorp

namespace Rib

open Linked Function

variable {w : Nat} {δ : Type}

/-- `IPPeerNextHop` and `IPExternalNextHop`. -/
inductive NextHop (w : Nat) where
  | peer (a : BitVec w)
  | external (a : BitVec w)

structure IPRouteEntry (w : Nat) where
  net : IPNet w
  vif : Option String
  nexthop : NextHop w
  metric : UInt32
  policytags : List UInt32
  adminDistance : UInt16

/-- The routes of an `OriginTable`, and the distance it gives them. -/
structure Routes (w : Nat) where
  ipRouteTable : PrefixMap w (IPRouteEntry w)
  adminDistance : UInt16

/-- The tables that the origin tables pass their changes to. -/
structure Downstream (w : Nat) (δ : Type) where
  add : δ → String → IPRouteEntry w → δ
  delete : δ → String → IPRouteEntry w → Bool → δ
  flush : δ → δ
  winner : δ → IPNet w → Option (IPRouteEntry w)

structure RIB (w : Nat) (δ : Type) where
  /-- `_igp_origin_tables` and `_egp_origin_tables` -/
  originTables : ProtocolType × String → Option (Routes w)
  vifs : List String
  errorsAreFatal : Bool
  down : δ

/-- The arguments of a call. -/
structure NewRoute (w : Nat) where
  tablename : String
  net : IPNet w
  nexthop : BitVec w
  vifname : String
  metric : UInt32
  policytags : List UInt32

/-- `_connected_origin_table`. -/
def connected : ProtocolType × String := (.igp, "connected")

namespace RIB

variable (D : Downstream w δ) (S : RIB w δ) (r : NewRoute w)

/-- Where `find_origin_table` looks last. -/
def findOriginTable (name : String) : ProtocolType × String :=
  if (S.originTables (.egp, name)).isSome then (.egp, name) else (.igp, name)

/-- `OriginTable::add_route`, with the `flush` after it. -/
def originAdd (k : ProtocolType × String) (ot : Routes w) (vif : Option String)
    (nexthop : NextHop w) : RIB w δ :=
  let e := ⟨r.net, vif, nexthop, r.metric, r.policytags, ot.adminDistance⟩
  if (ot.ipRouteTable.get r.net).isSome then { S with down := D.flush S.down }
  else
    { S with
      originTables := update S.originTables k
        (some { ot with ipRouteTable := ot.ipRouteTable.insert r.net e })
      down := D.flush (D.add S.down r.tablename e) }

/-- `add_route`; the answer says whether it is `XORP_OK`. -/
def addRoute : Except Fault (RIB w δ × Bool) :=
  match S.originTables connected, S.originTables (S.findOriginTable r.tablename) with
  | none, _ => .error .assertion
  | some _, none => if S.errorsAreFatal then .error .abort else .ok (S, false)
  | some c, some ot =>
      let k := S.findOriginTable r.tablename
      if r.vifname ≠ "" then
        if r.vifname ∈ S.vifs then
          .ok (S.originAdd D r k ot (some r.vifname) (.peer r.nexthop), true)
        else .ok (S, false)
      else
        match (c.ipRouteTable.findAddr r.nexthop).bind (·.2.vif), k.1 with
        | some vif, _ => .ok (S.originAdd D r k ot (some vif) (.peer r.nexthop), true)
        | none, .igp => .ok (S, false)
        | none, .egp => .ok (S.originAdd D r k ot none (.external r.nexthop), true)

/-- The origin tables when the old route has gone. -/
def without (ot : Routes w) : ProtocolType × String → Option (Routes w) :=
  update S.originTables (S.findOriginTable r.tablename)
    (some { ot with ipRouteTable := ot.ipRouteTable.erase r.net })

/-- `OriginTable::delete_route`, for a route that another one will follow. -/
def originDelete (ot : Routes w) (old : IPRouteEntry w) : RIB w δ :=
  { S with originTables := S.without r ot, down := D.delete S.down r.tablename old true }

def replaceRoute : Except Fault (RIB w δ × Bool) :=
  match S.originTables (S.findOriginTable r.tablename) with
  | none => .ok (S, false)
  | some ot =>
      match ot.ipRouteTable.get r.net with
      | none => .ok (S, false)
      | some old => (S.originDelete D r ot old).addRoute D r

/-- The route that the origin table holds. -/
def held (name : String) (n : IPNet w) : Option (IPRouteEntry w) :=
  (S.originTables (S.findOriginTable name)).bind (·.ipRouteTable.get n)

/-- The checks turn a new route for a table `k` down: its interface does not exist, or the
table is of an IGP and no connected route leads to the nexthop. -/
def Refuses (k : ProtocolType × String) (c : Routes w) : Prop :=
  if r.vifname ≠ "" then r.vifname ∉ S.vifs
  else k.1 = .igp ∧ (c.ipRouteTable.findAddr r.nexthop).bind (·.2.vif) = none

/-- There is a route to replace, and the new one is turned down when the old one has gone. -/
def LosesRoute : Prop :=
  ∃ ot c, S.originTables (S.findOriginTable r.tablename) = some ot ∧
    (ot.ipRouteTable.get r.net).isSome ∧ S.without r ot connected = some c ∧
    S.Refuses r (S.findOriginTable r.tablename) c

variable {D S r} {ot c : Routes w}

theorem findOriginTable_delete (D : Downstream w δ) (old : IPRouteEntry w)
    (h : S.originTables (S.findOriginTable r.tablename) = some ot) :
    (S.originDelete D r ot old).findOriginTable r.tablename = S.findOriginTable r.tablename := by
  have hsome : ∀ k, (S.without r ot k).isSome = (S.originTables k).isSome := by
    intro k
    unfold without
    by_cases hk : k = S.findOriginTable r.tablename
    · simp [hk, h]
    · simp [hk]
  simp only [findOriginTable, originDelete, hsome]

theorem addRoute_eq_error (hc : S.originTables connected = some c)
    (h : S.originTables (S.findOriginTable r.tablename) = some ot) {S' : RIB w δ} :
    S.addRoute D r = .ok (S', false) ↔ S' = S ∧ S.Refuses r (S.findOriginTable r.tablename) c := by
  unfold addRoute Refuses
  simp only [hc, h]
  split_ifs with hv hin
  · simp [hin]
  · simp [hin, eq_comm]
  · cases (c.ipRouteTable.findAddr r.nexthop).bind (·.2.vif) with
    | some vif => simp
    | none => cases (S.findOriginTable r.tablename).1 <;> simp [eq_comm]

/-- **A replacement that fails leaves everything as it was** unless the new route is turned down
after the old one has gone. -/
theorem replaceRoute_atomic_iff (D : Downstream w δ) (S : RIB w δ) (r : NewRoute w) :
    (∀ S', S.replaceRoute D r = .ok (S', false) →
      S'.held r.tablename r.net = S.held r.tablename r.net ∧
        ∀ n, D.winner S'.down n = D.winner S.down n) ↔ ¬ S.LosesRoute r := by
  -- a failure before anything is deleted
  have hsame : ∀ S', Except.ok (ε := Fault) (S, false) = .ok (S', false) →
      S'.held r.tablename r.net = S.held r.tablename r.net ∧
        ∀ n, D.winner S'.down n = D.winner S.down n := by
    rintro S' ⟨⟩
    exact ⟨rfl, fun _ => rfl⟩
  unfold replaceRoute LosesRoute
  cases h : S.originTables (S.findOriginTable r.tablename) with
  | none => exact iff_of_true hsame (by simp)
  | some ot =>
    dsimp only
    cases ho : ot.ipRouteTable.get r.net with
    | none =>
      refine iff_of_true hsame ?_
      rintro ⟨_, _, ⟨⟩, hsome, -⟩
      simp [ho] at hsome
    | some old =>
      have hfind := findOriginTable_delete D old h
      have hot : S.without r ot (S.findOriginTable r.tablename) = some _ := update_self ..
      rw [← hfind] at hot
      cases hc : S.without r ot connected with
      | none =>
        refine iff_of_true (fun S' hrun => ?_) (by simp [hc])
        simp [addRoute, originDelete, hc] at hrun
      | some c =>
        simp only [addRoute_eq_error (S := S.originDelete D r ot old) hc hot, hfind]
        constructor
        · rintro hkeep ⟨_, _, ⟨⟩, -, hcon, hno⟩
          cases hc.symm.trans hcon
          have hheld := (hkeep _ ⟨rfl, hno⟩).1
          unfold held at hheld
          rw [h, show (S.originDelete D r ot old).originTables _ = _ from hot] at hheld
          simp [PrefixMap.get_erase ho, ho] at hheld
        · rintro hno S' ⟨-, hrefuse⟩
          exact absurd ⟨ot, c, rfl, by simp [ho], hc, hrefuse⟩ hno

end RIB

/-- Downstream tables where the route told of last wins. -/
def lastTold : Downstream 32 (IPNet 32 → Option (IPRouteEntry 32)) where
  add d _ e := update d e.net (some e)
  delete d _ e _ := update d e.net none
  flush := id
  winner := id

/-- No routes, and one interface. -/
def oneVif : RIB 32 (IPNet 32 → Option (IPRouteEntry 32)) where
  originTables k := if k ∈ [connected, (.igp, "static")] then some ⟨.empty, 1⟩ else none
  vifs := ["eth0"]
  errorsAreFatal := false
  down _ := none

/-- A default route is moved to an interface that does not exist. -/
theorem replaced_route_lost : ∃ S S',
    oneVif.addRoute lastTold ⟨"static", .any 32, 1, "eth0", 1, []⟩ = .ok (S, true) ∧
    S.replaceRoute lastTold ⟨"static", .any 32, 1, "eth1", 1, []⟩ = .ok (S', false) ∧
    (S.held "static" (.any 32)).isSome ∧ (S'.held "static" (.any 32)).isNone ∧
    (lastTold.winner S.down (.any 32)).isSome ∧ (lastTold.winner S'.down (.any 32)).isNone :=
  ⟨_, _, rfl, rfl, rfl, rfl, rfl, rfl⟩

end Rib

end Xorp

/-
An area is removed from the routing table.

`remove_area` goes through the networks and drops what they have from the area.  Its loop starts at
`begin()` and is tested against `begin()`, so it ends before the first network and the routes stay.

What the loop would do to one network is modelled too (`sweepEntry`), with the references it goes on
using when what they refer to is gone.  `Removed` says what should hold at the end, and it holds
exactly if no network had an entry of the area.
-/
import Xorp.Ospf.RoutingSync

namespace Xorp.Ospf.RoutingTable

open Linked List

variable {w : Nat} (S : RoutingTable w) (stays : IPNet w → Bool) (area : AreaId) (net : IPNet w)

/-! ### The loop of `remove_area` -/

def ireAt : Option (InternalRouteEntry w) := S.current.bind (·.lookup net)

/-- The body of the loop.  With its last entry a network goes, and the iterator is used once more:
its node is still there if it has two children (`stays`).  A new winner is announced with the
nexthop and the cost of the old one, whose entry is gone. -/
def sweepEntry (t : Table w) (ire : InternalRouteEntry w) : Except Fault (RoutingTable w) :=
  let rt := ire.getEntry
  let S := { S with log := S.log ++ if rt.area = area then deleteRoute net rt true else [] }
  if ¬ ire.hasArea area then .ok S
  else
    match ire.deleteEntry area with
    | none =>
        let rest : Table w :=
          ⟨t.entries.filter fun e => e.1 ≠ net, (filter_sublist.map _).nodup t.nodup⟩
        if stays net then .ok { S with current := some rest } else .error .badPointer
    | some left =>
        if left.winner.1 = ire.winner.1 then .ok { S with current := some (t.set net left) }
        else .error .badPointer

/-- The loop, from an iterator on.  `begin()` is the first network that is there. -/
def sweep (nets : List (IPNet w)) : List (IPNet w) → RoutingTable w → Except Fault (RoutingTable w)
  | tic, S =>
    if tic.head? = nets.find? fun n => (S.ireAt n).isSome then .ok S
    else
      match tic, S.current with
      | net :: tic, some t =>
          match t.lookup net with
          | none => .error .badPointer
          | some ire => do
              let S ← S.sweepEntry stays area net t ire
              sweep nets tic S
      | _, _ => .error .badPointer

def removeArea : Except Fault (RoutingTable w) :=
  if S.inTransaction then .error .assertion
  else
    match S.current with
    | none => .ok S
    | some t => sweep stays area (t.entries.map Prod.fst) (t.entries.map Prod.fst) S

/-! ### What is removed -/

def entriesAt : List (AreaId × RouteEntry w) := ((S.ireAt net).map (·.entries)).getD []

/-- The entries of the area are gone and the others as before, and where the winner was one of them
the RIB has the best of the others. -/
structure Removed (S' : RoutingTable w) : Prop where
  entries : ∀ net, S'.entriesAt net = (S.entriesAt net).filter (·.1 ≠ area)
  routes : ∀ net ire, S.ireAt net = some ire → ire.winner.1 = area →
    installed S'.log net = some (expected S.policy S'.current net)

variable {S}

theorem removeArea_eq (h : S.inTransaction = false) : S.removeArea stays area = .ok S := by
  unfold removeArea
  cases hcur : S.current with
  | none => simp [h]
  | some t =>
    cases hnets : t.entries with
    | nil => simp [h, hnets, sweep]
    | cons e es => simp [h, hnets, sweep, ireAt, hcur, Table.lookup, Table.isFor]

theorem winnerOf_mem (e : AreaId × RouteEntry w) (es : List (AreaId × RouteEntry w)) :
    InternalRouteEntry.winnerOf e es ∈ e :: es := by
  unfold InternalRouteEntry.winnerOf
  induction es generalizing e with
  | nil => simp
  | cons c es ih =>
    rw [foldl_cons]
    have hmem := ih (if c.2.beats e.2 then c else e)
    grind

/-- The area is removed exactly if there is nothing of it. -/
theorem area_removed_iff (h : S.inTransaction = false) : ∃ S', S.removeArea stays area = .ok S' ∧
    (S.Removed area S' ↔ ∀ net, ∀ e ∈ S.entriesAt net, e.1 ≠ area) := by
  refine ⟨S, removeArea_eq stays area h, fun hr net e he => ?_, fun hnone => ⟨fun net => ?_, ?_⟩⟩
  · rw [hr.entries net] at he
    simpa using (mem_filter.mp he).2
  · exact (filter_eq_self.mpr fun e he => by simpa using hnone net e he).symm
  · intro net ire hire harea
    refine absurd harea (hnone net _ ?_)
    have hmem := winnerOf_mem (ire.entries.head ire.nonempty) ire.entries.tail
    rw [cons_head_tail] at hmem
    simpa [entriesAt, hire, InternalRouteEntry.winner] using hmem

/-- A route of area 1 that is in the RIB. -/
def routeOfOne : RoutingTable 8 :=
  ⟨.v2, acceptAll, false,
    some ⟨[(.any 8, ⟨[(1, { backboneRoute false 1 with area := 1 })], by simp⟩)], by simp⟩, none,
    [.addRoute (.any 8) 1 1]⟩

theorem area_removed_none : ∃ S', routeOfOne.removeArea (fun _ => true) 2 = .ok S' ∧
    routeOfOne.Removed 2 S' := by
  obtain ⟨S', hrun, hiff⟩ := area_removed_iff (S := routeOfOne) (fun _ => true) 2 rfl
  refine ⟨S', hrun, hiff.mpr fun net => ?_⟩
  by_cases h : net = .any 8 <;>
    simp [entriesAt, ireAt, routeOfOne, Table.lookup, Table.isFor, h, eq_comm]

theorem area_stays : routeOfOne.removeArea (fun _ => true) 1 = .ok routeOfOne ∧
    ¬ routeOfOne.Removed 1 routeOfOne := by
  refine ⟨removeArea_eq _ _ rfl, fun h => ?_⟩
  have hentries := h.entries (.any 8)
  simp [entriesAt, ireAt, routeOfOne, Table.lookup, Table.isFor] at hentries

end Xorp.Ospf.RoutingTable

/-
Route aggregation.

`AggregationTable` collects the routes that are marked for an aggregate, computes the path
attributes of the aggregate from theirs, and announces it as long as the components agree on
their MED.

The list of attributes an aggregate starts from has the nexthop zero, and the constructor of the
nexthop attribute refuses an address that is not unicast.  So an aggregate cannot be made, and
the table is of use only to routes that pass it by.
-/
import Xorp.Bgp.FindWinner
import Xorp.Lib.Stream
import Xorp.Trie.PrefixMap

namespace Xorp.Bgp

open Linked Stream List

variable {w : Nat} {π : Type}

/-- The addresses of a family. -/
class Family (w : Nat) where
  isUnicast : BitVec w → Bool
  /-- the address that stands for none -/
  zero : isUnicast 0 = false

/-- `IPv4::is_unicast`. -/
instance : Family 32 where
  isUnicast a := !((a &&& 0xf0000000 == 0xe0000000) || (a &&& 0xf0000000 == 0xf0000000) || a == 0)
  zero := rfl

/-- `IPv6::is_unicast`. -/
instance : Family 128 where
  isUnicast a := !((a >>> 120 == 0xff) || a == 0)
  zero := by decide

/-- What an operation ends with that does not complete. -/
inductive Failure where
  | corruptMessage
  | invalidNetmaskLength
  | fault (f : Fault)
deriving DecidableEq

/-! ### Path attributes -/

/-- `NextHopAttribute`. -/
structure NextHop (w : Nat) [Family w] where
  addr : BitVec w
  unicast : Family.isUnicast addr = true

/-- The constructor of `NextHopAttribute`. -/
def NextHop.new [Family w] (addr : BitVec w) : Except Failure (NextHop w) :=
  if h : Family.isUnicast addr = true then .ok ⟨addr, h⟩ else .error .corruptMessage

/-- `AggregatorAttribute`. -/
structure Aggregator where
  routeaggregator : BitVec 32
  aggregatoras : AsNum
deriving DecidableEq

/-- The attributes an aggregate has to do with. -/
structure AttributeList (w : Nat) [Family w] where
  nexthop : BitVec w
  aspath : ASPath
  origin : OriginType
  med : Option (BitVec 32)
  atomicAggregate : Bool
  aggregator : Option Aggregator
deriving DecidableEq

/-- `FastPathAttributeList(nexthop, aspath, origin)`. -/
def AttributeList.new [Family w] (nexthop : NextHop w) (aspath : ASPath) (origin : OriginType) :
    AttributeList w :=
  ⟨nexthop.addr, aspath, origin, none, false, none⟩

/-! ### Routes and their marks -/

def srAggrIgnore : BitVec 8 := 0xff
def srAggrIbgpOnly : BitVec 8 := 0xe0
def srAggrEbgpAggregate : BitVec 8 := 0xd0
def srAggrEbgpNotAggregated : BitVec 8 := 0xd1
def srAggrEbgpWasAggregated : BitVec 8 := 0xd2

structure MarkedRoute (w : Nat) [Family w] where
  net : IPNet w
  attributes : AttributeList w
  aggrPrefixLen : BitVec 8
  aggrBriefMode : Bool

/-- `InternalMessage`.  The aggregates are announced in the name of the rib handler, which is no
peer, with `GENID_UNKNOWN`. -/
structure AggrMsg (w : Nat) [Family w] (π : Type) where
  route : MarkedRoute w
  originPeer : Option π
  genid : BitVec 32
  push : Bool
  fromPrevious : Bool

def genidUnknown : BitVec 32 := 0

inductive Sent (w : Nat) [Family w] (π : Type) where
  | update (u : Update (AggrMsg w π))
  | push

structure ComponentRoute (w : Nat) [Family w] (π : Type) where
  route : MarkedRoute w
  originPeer : Option π
  genid : BitVec 32
  fromPrevious : Bool

structure AggregateRoute (w : Nat) [Family w] (π : Type) where
  net : IPNet w
  briefMode : Bool
  aggregator : Aggregator
  components : PrefixMap w (ComponentRoute w π)
  paList : AttributeList w
  wasAnnounced : Bool
  isSuppressed : Bool

namespace AggregateRoute

variable [Family w]

def new (net : IPNet w) (briefMode : Bool) (bgpId : BitVec 32) (asnum : AsNum) :
    Except Failure (AggregateRoute w π) := do
  let nexthop ← NextHop.new 0
  pure ⟨net, briefMode, ⟨bgpId, asnum⟩, .empty, .new nexthop [] .igp, false, false⟩

/-- The components, in the order of the iterator. -/
def componentList (a : AggregateRoute w π) : List (ComponentRoute w π) :=
  a.components.shape.nodes.filterMap Prod.snd

/-- What the first phase of `reevaluate` accumulates. -/
structure Phase (w : Nat) [Family w] where
  med : BitVec 32
  fpaList : AttributeList w
  isSuppressed : Bool
  mustSetAtomicAggr : Bool

def Phase.atomic (p : Phase w) (c : ComponentRoute w π) : Phase w :=
  { p with mustSetAtomicAggr := p.mustSetAtomicAggr || c.route.attributes.atomicAggregate }

/-- The first component sets the attributes. -/
def phaseFirst (p : Phase w) (c : ComponentRoute w π) : Phase w :=
  let att := c.route.attributes
  Phase.atomic
    { p with
      med := att.med.getD p.med
      fpaList := { p.fpaList with aspath := att.aspath, origin := att.origin } } c

/-- The others join them.  Origin and path are compared and merged with those of the aggregate
as it was before. -/
def phaseRest (briefMode : Bool) (old : AttributeList w) :
    List (ComponentRoute w π) → Phase w → Except Failure (Phase w)
  | [], p => .ok p
  | c :: cs, p => do
      let att := c.route.attributes
      if att.med.any (p.med ≠ ·) then pure { p with isSuppressed := true }
      else
        let p :=
          if old.origin.value < att.origin.value then
            { p with fpaList := { p.fpaList with origin := att.origin } }
          else p
        if briefMode then
          let p :=
            if p.fpaList.aspath ≠ att.aspath then
              { p with fpaList := { p.fpaList with aspath := [] }, mustSetAtomicAggr := true }
            else p
          phaseRest briefMode old cs (p.atomic c)
        else
          let aspath ← (ASPath.aggregate old.aspath att.aspath).mapError .fault
          let p := { p with fpaList := { p.fpaList with aspath } }
          phaseRest briefMode old cs (p.atomic c)

variable (a : AggregateRoute w π)

/-- The attributes of the aggregate, and whether it is suppressed. -/
def phase1 : Except Failure (AttributeList w × Bool) := do
  let nexthop ← NextHop.new 0
  let start : Phase w := ⟨0, .new nexthop [] .igp, false, false⟩
  let p ← match a.componentList with
    | [] => pure start
    | c :: cs => phaseRest a.briefMode a.paList cs (phaseFirst start c)
  let startsWithSet : Bool := match p.fpaList.aspath with
    | [] => false
    | s :: _ => s.type = .set
  let fpaList := if p.med ≠ 0 ∧ ¬ startsWithSet then { p.fpaList with med := some p.med } else p.fpaList
  let fpaList := if p.mustSetAtomicAggr then { fpaList with atomicAggregate := true } else fpaList
  pure ({ fpaList with aggregator := some a.aggregator }, p.isSuppressed)

/-- The aggregate as a route. -/
def announcement (attributes : AttributeList w) : AggrMsg w π :=
  ⟨⟨a.net, attributes, srAggrEbgpAggregate, false⟩, none, genidUnknown, false, false⟩

/-- A component is marked anew when the aggregate gets suppressed or no longer is. -/
def remark (oldSuppressed oldAnnounced suppressed : Bool)
    (c : ComponentRoute w π) : List (Sent w π) :=
  let mark := fun m : BitVec 8 =>
    (⟨{ c.route with aggrPrefixLen := m }, c.originPeer, c.genid, false, false⟩ : AggrMsg w π)
  let old := mark (if oldSuppressed then srAggrEbgpNotAggregated else srAggrEbgpWasAggregated)
  let new := mark (if oldSuppressed then srAggrEbgpWasAggregated else srAggrEbgpNotAggregated)
  (if oldAnnounced ∧ c.route.net = a.net then [] else [.update (.delete old)]) ++
    if ¬ suppressed ∧ c.route.net = a.net then [] else [.update (.add new)]

def reevaluate :
    Except Failure (AggregateRoute w π × List (Sent w π)) := do
  let (fpaList, suppressed) ← a.phase1
  -- the old version goes if it is not right any more
  let gone := a.wasAnnounced ∧ (suppressed ∨ a.paList ≠ fpaList)
  let out₂ := if gone then [Sent.update (.delete (a.announcement a.paList))] else []
  let stillAnnounced := a.wasAnnounced ∧ ¬ gone
  let out₃ :=
    if a.isSuppressed ≠ suppressed then
      a.componentList.flatMap (a.remark a.isSuppressed a.wasAnnounced suppressed)
    else []
  -- and the new one is announced
  let comes := ¬ stillAnnounced ∧ ¬ suppressed ∧ a.components.routeCount ≠ 0 ∧
    (a.isSuppressed ∨ a.paList ≠ fpaList)
  let out₄ := if comes then [Sent.update (.add (a.announcement fpaList))] else []
  pure
    ({ a with
        paList := fpaList
        isSuppressed := suppressed
        wasAnnounced := decide (stillAnnounced ∨ comes) }, out₂ ++ out₃ ++ out₄)

end AggregateRoute

/-! ### The table -/

structure AggregationTable (w : Nat) [Family w] (π : Type) where
  bgpId : BitVec 32
  asnum : AsNum
  aggregates : PrefixMap w (AggregateRoute w π)
  out : List (Sent w π)

namespace AggregationTable

variable [Family w]

def empty (bgpId : BitVec 32) (asnum : AsNum) : AggregationTable w π :=
  ⟨bgpId, asnum, .empty, []⟩

section
variable (T : AggregationTable w π)

def send (ms : List (Sent w π)) : AggregationTable w π :=
  { T with out := T.out ++ ms }

/-- `IPNet(addr, prefix_len)`. -/
def aggrNet (r : MarkedRoute w) : Except Failure (IPNet w) :=
  if h : r.aggrPrefixLen.toNat ≤ w then .ok (.ofAddr r.net.maskedAddr r.aggrPrefixLen.toNat h)
  else .error .invalidNetmaskLength

/-- The message with another mark. -/
def marked (m : AggrMsg w π) (mark : BitVec 8) (push : Bool) : AggrMsg w π :=
  { m with route := { m.route with aggrPrefixLen := mark }, push }

/-- The mark of a component for the peers outside. -/
def ebgpMark (a : AggregateRoute w π) : BitVec 8 :=
  if a.isSuppressed then srAggrEbgpNotAggregated else srAggrEbgpWasAggregated

/-- What a component that is more specific than the aggregate, or not aggregated, is sent as. -/
def ebgpMessages (a : AggregateRoute w π) (m : AggrMsg w π)
    (message : AggrMsg w π → Update (AggrMsg w π)) : List (Sent w π) :=
  if a.net ≠ m.route.net ∨ a.isSuppressed then
    [.update (message (marked m (ebgpMark a) false))]
  else []

def ibgpMessages (m : AggrMsg w π) (message : AggrMsg w π → Update (AggrMsg w π)) :
    List (Sent w π) :=
  .update (message (marked m srAggrIbgpOnly false)) :: if m.push then [.push] else []

def addRoute (m : AggrMsg w π) :
    Except Failure (AggregationTable w π) := do
  if m.route.aggrPrefixLen = srAggrIgnore then pure (T.send [.update (.add m)])
  else
    let aggrNet ← aggrNet m.route
    if m.route.net.prefixLen < m.route.aggrPrefixLen.toNat then
      pure (T.send [.update (.add (marked m srAggrIgnore m.push))])
    else
      let a ← match T.aggregates.get aggrNet with
        | some a => pure a
        | none => AggregateRoute.new aggrNet m.route.aggrBriefMode T.bgpId T.asnum
      if (a.components.get m.route.net).isSome then .error (.fault .assertion)
      else
        let a := { a with
          components := a.components.insert m.route.net
            ⟨m.route, m.originPeer, m.genid, m.fromPrevious⟩ }
        let (a', ms) ← a.reevaluate
        pure ({ T with aggregates := T.aggregates.insert aggrNet a' }.send
          (ebgpMessages a m .add ++ ms ++ ibgpMessages m .add))

def deleteRoute (m : AggrMsg w π) :
    Except Failure (AggregationTable w π) := do
  if m.route.aggrPrefixLen = srAggrIgnore then pure (T.send [.update (.delete m)])
  else
    let aggrNet ← aggrNet m.route
    if m.route.net.prefixLen < m.route.aggrPrefixLen.toNat then
      pure (T.send [.update (.delete (marked m srAggrIgnore m.push))])
    else
      match T.aggregates.get aggrNet with
      | none => .error (.fault .assertion)
      | some a =>
          let out := ebgpMessages a m .delete
          let a := { a with components := a.components.erase m.route.net }
          let (a', ms) ← a.reevaluate
          let aggregates :=
            if a'.components.routeCount = 0 then T.aggregates.erase aggrNet
            else T.aggregates.insert aggrNet a'
          pure ({ T with aggregates }.send (out ++ ms ++ ibgpMessages m .delete))

def replaceRoute (old new : AggrMsg w π) :
    Except Failure (AggregationTable w π) := do
  if old.route.aggrPrefixLen = srAggrIgnore ∧ new.route.aggrPrefixLen = srAggrIgnore then
    pure (T.send [.update (.replace old new)])
  else
    let T ← T.deleteRoute old
    T.addRoute new

def step : Update (AggrMsg w π) → Except Failure (AggregationTable w π)
  | .add m => T.addRoute m
  | .replace old new => T.replaceRoute old new
  | .delete m => T.deleteRoute m

def run (ops : List (Update (AggrMsg w π))) :
    Except Failure (AggregationTable w π) :=
  ops.foldlM step T

/-! ### Routes that pass the table by -/

/-- What there is of the aggregate of a net: whether it is announced, its attributes, and whether
it is suppressed. -/
def aggregate (n : IPNet w) : Option (Bool × AttributeList w × Bool) :=
  (T.aggregates.get n).map fun a => (a.wasAnnounced, a.paList, a.isSuppressed)

end

/-- The components of the aggregate of a net. -/
def components (T : AggregationTable w π) (n : IPNet w) :
    Option (IPNet w → Option (ComponentRoute w π)) :=
  (T.aggregates.get n).map fun a => a.components.get

/-- The changes complete, and the aggregates are those of any other changes with the same
components. -/
def FunctionOfComponents (bgpId : BitVec 32) (asnum : AsNum) (ops : List (Update (AggrMsg w π))) :
    Prop :=
  ∃ T, (empty bgpId asnum : AggregationTable w π).run ops = .ok T ∧
    ∀ ops' T', (empty bgpId asnum : AggregationTable w π).run ops' = .ok T' →
      T'.components = T.components → T'.aggregate = T.aggregate

/-- A route that is not marked, or marked for an aggregate more specific than itself. -/
def Passes (r : MarkedRoute w) : Prop :=
  r.aggrPrefixLen = srAggrIgnore ∨
    r.aggrPrefixLen.toNat ≤ w ∧ r.net.prefixLen < r.aggrPrefixLen.toNat

instance (r : MarkedRoute w) : Decidable (Passes r) := by
  unfold Passes
  infer_instance

/-- The routes a message is about. -/
def routes : Update (AggrMsg w π) → List (MarkedRoute w)
  | .add m | .delete m => [m.route]
  | .replace old new => [old.route, new.route]

variable {T : AggregationTable w π} {m : AggrMsg w π} {ops : List (Update (AggrMsg w π))}

/-- **No aggregate can be made.** -/
theorem new_refused (net : IPNet w) (briefMode : Bool) (bgpId : BitVec 32) (asnum : AsNum) :
    (AggregateRoute.new net briefMode bgpId asnum : Except Failure (AggregateRoute w π)) =
      .error .corruptMessage := by
  have hzero : (NextHop.new 0 : Except Failure (NextHop w)) = .error .corruptMessage :=
    dif_neg (by rw [Family.zero]; exact Bool.false_ne_true)
  rw [AggregateRoute.new, hzero]
  rfl

/-- What a table without aggregates does with a message. -/
structure PassedBy (T : AggregationTable w π) (ok : Prop)
    (result : Except Failure (AggregationTable w π)) : Prop where
  passes : ok → ∃ T', result = .ok T' ∧ T'.aggregates = T.aggregates
  refused : ¬ ok → result.isOk = false

theorem PassedBy.bind {p q : Prop} {X : Except Failure (AggregationTable w π)}
    {f : AggregationTable w π → Except Failure (AggregationTable w π)} (hX : T.PassedBy p X)
    (hf : ∀ T₁ : AggregationTable w π, T₁.aggregates = T.aggregates → T₁.PassedBy q (f T₁)) :
    T.PassedBy (p ∧ q) (X >>= f) := by
  by_cases hp : p
  · obtain ⟨T₁, rfl, hsame⟩ := hX.passes hp
    refine ⟨?_, fun h => (hf T₁ hsame).refused fun hq => h ⟨hp, hq⟩⟩
    rintro ⟨-, hq⟩
    obtain ⟨T₂, hrun, hsame₂⟩ := (hf T₁ hsame).passes hq
    exact ⟨T₂, hrun, hsame₂.trans hsame⟩
  · have hrefused := hX.refused hp
    cases X with
    | ok T₁ => exact absurd hrefused Bool.noConfusion
    | error e => exact ⟨fun h => absurd h.1 hp, fun _ => rfl⟩

/-- What `add_route` and `delete_route` have in common. -/
theorem passedBy_of {A B : AggregationTable w π}
    {X : IPNet w → Except Failure (AggregationTable w π)} (hA : A.aggregates = T.aggregates)
    (hB : B.aggregates = T.aggregates) (hX : ∀ n, (X n).isOk = false) :
    T.PassedBy (Passes m.route) (if m.route.aggrPrefixLen = srAggrIgnore then pure A else do
        let n ← aggrNet m.route
        if m.route.net.prefixLen < m.route.aggrPrefixLen.toNat then pure B else X n) := by
  by_cases hmark : m.route.aggrPrefixLen = srAggrIgnore
  · rw [if_pos hmark]
    exact ⟨fun _ => ⟨A, rfl, hA⟩, fun h => absurd (.inl hmark) h⟩
  · rw [if_neg hmark]
    by_cases hle : m.route.aggrPrefixLen.toNat ≤ w
    · rw [show aggrNet m.route = .ok _ from dif_pos hle]
      show T.PassedBy _ (if _ then _ else _)
      by_cases hlt : m.route.net.prefixLen < m.route.aggrPrefixLen.toNat
      · rw [if_pos hlt]
        exact ⟨fun _ => ⟨B, rfl, hB⟩, fun h => absurd (.inr ⟨hle, hlt⟩) h⟩
      · rw [if_neg hlt]
        exact ⟨fun h => absurd (h.resolve_left hmark).2 hlt, fun _ => hX _⟩
    · rw [show aggrNet m.route = .error _ from dif_neg hle]
      exact ⟨fun h => absurd (h.resolve_left hmark).1 hle, fun _ => rfl⟩

section
variable (hT : ∀ n, T.aggregates.get n = none)
include hT

theorem addRoute_passedBy : T.PassedBy (Passes m.route) (T.addRoute m) := by
  refine passedBy_of rfl rfl ?_
  intro n
  rw [hT, new_refused]
  rfl

theorem deleteRoute_passedBy : T.PassedBy (Passes m.route) (T.deleteRoute m) := by
  refine passedBy_of rfl rfl ?_
  intro n
  rw [hT]
  rfl

theorem replaceRoute_passedBy (old new : AggrMsg w π) :
    T.PassedBy (Passes old.route ∧ Passes new.route) (T.replaceRoute old new) := by
  unfold replaceRoute
  by_cases hmark : old.route.aggrPrefixLen = srAggrIgnore ∧ new.route.aggrPrefixLen = srAggrIgnore
  · rw [if_pos hmark]
    exact ⟨fun _ => ⟨_, rfl, rfl⟩, fun h => absurd ⟨.inl hmark.1, .inl hmark.2⟩ h⟩
  · rw [if_neg hmark]
    exact (deleteRoute_passedBy hT).bind fun T₁ hsame =>
      addRoute_passedBy (fun n => hsame ▸ hT n)

theorem step_passedBy (u : Update (AggrMsg w π)) :
    T.PassedBy (∀ r ∈ routes u, Passes r) (T.step u) := by
  cases u with
  | add m =>
    simp only [routes, mem_singleton, forall_eq]
    exact addRoute_passedBy hT
  | replace old new =>
    simp only [routes, mem_cons, not_mem_nil, or_false, forall_eq_or_imp, forall_eq]
    exact replaceRoute_passedBy hT old new
  | delete m =>
    simp only [routes, mem_singleton, forall_eq]
    exact deleteRoute_passedBy hT

/-- A table without aggregates stays one, as long as it gets along. -/
theorem run_passedBy (ops : List (Update (AggrMsg w π))) :
    T.PassedBy (∀ u ∈ ops, ∀ r ∈ routes u, Passes r) (T.run ops) := by
  induction ops generalizing T with
  | nil => exact ⟨fun _ => ⟨T, rfl, rfl⟩, fun h => absurd (fun u hu => absurd hu not_mem_nil) h⟩
  | cons u ops ih =>
    simp only [forall_mem_cons]
    exact (step_passedBy hT u).bind fun T₁ hsame => ih fun n => hsame ▸ hT n

end

/-- **Changes complete exactly if no route among them is a component**: the constructor of the
aggregate throws, and so would `reevaluate`.  There is no aggregate then. -/
theorem aggregation_completes_iff (bgpId : BitVec 32) (asnum : AsNum)
    (ops : List (Update (AggrMsg w π))) :
    FunctionOfComponents bgpId asnum ops ↔ ∀ u ∈ ops, ∀ r ∈ routes u, Passes r := by
  have hempty : ∀ n, (empty bgpId asnum : AggregationTable w π).aggregates.get n = none :=
    fun _ => rfl
  have hops := run_passedBy hempty ops
  constructor
  · rintro ⟨T, hrun, -⟩
    by_contra hno
    have hrefused := hops.refused hno
    rw [hrun] at hrefused
    cases hrefused
  · intro hpass
    obtain ⟨T, hrun, hsame⟩ := hops.passes hpass
    refine ⟨T, hrun, ?_⟩
    intro ops' T' hrun' hcomponents
    funext n
    have hnone : T.components n = none := by
      rw [components, hsame, hempty]
      rfl
    have hnone' := (congrFun hcomponents n).trans hnone
    rw [components, Option.map_eq_none_iff] at hnone'
    rw [aggregate, aggregate, hsame, hempty, hnone']

/-- One route that is marked for an aggregate it belongs to. -/
theorem component_refused : (empty 1 65000 : AggregationTable 32 Nat).run
      [.add ⟨⟨.host 0x0a000001, ⟨0x0a0000fe, [⟨.sequence, [65001]⟩], .igp, none, false, none⟩, 24,
        false⟩, some 1, 1, false, false⟩] = .error .corruptMessage := rfl

end AggregationTable

end Xorp.Bgp

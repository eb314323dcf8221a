/-
The graph of the shortest path computation, and the computation.

Nodes are objects that are found by name and point at each other.  A removed node is only marked
until the next computation; it can be brought back before that, and edges may lead to it in the
meantime.  The computation keeps its tentative nodes in a set that is ordered by their weights and,
between equal weights, by their addresses, so a weight may only change while its node is out of the
set.
-/
import Xorp.Lib.Outcome
import Xorp.Lib.OrderedSet
import Mathlib.Data.Prod.Lex

namespace Xorp.Libproto

open Linked

/-- `NodeRef`: the address of a node. -/
abbrev Ref := Nat

structure Path where
  valid : Bool
  firstHop : Option Ref
  lastHop : Option Ref
  pathLength : Nat
deriving DecidableEq

/-- `Edge`.  Weights are not negative. -/
structure Edge where
  dst : Ref
  weight : Nat
deriving DecidableEq

structure Node (A : Type) where
  nodename : A
  valid : Bool
  adjacencies : List (A × Edge)
  tentative : Bool
  current : Path
  previous : Path

/-- `path::path`. -/
def Path.empty : Path := ⟨false, none, none, 0⟩

/-- `path::clear`. -/
def Path.clear (p : Path) : Path := { p with firstHop := none, lastHop := none }

namespace Node

variable {A : Type}

/-- `Node::Node`, which leaves `_tentative` as it is. -/
def new (a : A) (tentative : Bool) : Node A := ⟨a, true, [], tentative, .empty, .empty⟩

def clear (n : Node A) : Node A :=
  { n with current := n.current.clear, previous := n.previous.clear, adjacencies := [] }

def setWeight (n : Node A) (weight : Nat) : Node A :=
  { n with current := { n.current with valid := true, pathLength := weight } }

def setLastHop (n : Node A) (r : Ref) : Node A :=
  { n with current := { n.current with lastHop := some r } }

def setFirstHop (n : Node A) (r : Option Ref) : Node A :=
  { n with current := { n.current with firstHop := r } }

end Node

/-- The objects at their addresses. -/
abbrev Objects (A : Type) := Ref → Node A

/-- One object changes. -/
def Objects.modify {A : Type} (obj : Objects A) (r : Ref) (f : Node A → Node A) : Objects A :=
  Function.update obj r (f (obj r))

/-- `Spt`: the nodes by name, the origin, and the addresses that have been given to nodes. -/
structure Spt (A : Type) where
  obj : Objects A
  nodes : List (A × Ref)
  origin : Option Ref
  allocated : List Ref

inductive Cmd
  | add | delete | replace
deriving DecidableEq

structure RouteCmd (A : Type) where
  cmd : Cmd
  node : A
  nexthop : A
  prevhop : A
  weight : Nat
  nextHopChanged : Bool
  weightChanged : Bool
deriving DecidableEq

/-! ### The queue of tentative nodes -/

section Queue

variable {A : Type} (obj : Objects A)

/-- The assertions of `get_local_weight`. -/
def ready (r : Ref) : Bool := (obj r).valid && (obj r).tentative && (obj r).current.valid

/-- The order `lweight`. -/
def lweight (r : Ref) : Nat ×ₗ Nat := toLex ((obj r).current.pathLength, r)

/-- `find`, and the loop in `PriorityQueue::add` that goes on from there to the node itself. -/
def eraseFrom (n : Ref) : List Ref → List Ref
  | [] => []
  | m :: rest =>
      if lweight obj m < lweight obj n then m :: eraseFrom n rest
      else if lweight obj n < lweight obj m then m :: rest
      else (m :: rest).erase n

/-- The first half of `PriorityQueue::add`.  A comparison can be with any node of the queue. -/
def takeOut (queue : List Ref) (n : Ref) : Except Fault (List Ref) :=
  if (obj n).current.valid then
    if (n :: queue).all (ready obj) then .ok (eraseFrom obj n queue) else .error .assertion
  else .ok queue

/-- `set_local_weight`, but for its assertion: is the weight accepted? -/
def accepts (n : Ref) (weight : Nat) : Bool :=
  !(obj n).current.valid || weight < (obj n).current.pathLength

/-- The insertion at the end of `PriorityQueue::add`. -/
def putIn (queue : List Ref) (n : Ref) : Except Fault (List Ref) :=
  if (n :: queue).all (ready obj) then .ok (OrderedSet.insert (lweight obj) n queue)
  else .error .assertion

end Queue

/-- The state of a computation. -/
structure Search (A : Type) where
  obj : Objects A
  queue : List Ref

namespace Search

variable {A : Type}

/-- `PriorityQueue::add`, with `set_last_hop` when the weight was accepted. -/
def add (T : Search A) (me n : Ref) (weight : Nat) : Except Fault (Search A) := do
  let queue ← takeOut T.obj T.queue n
  if ¬ (T.obj n).tentative then .error .assertion
  else if accepts T.obj n weight then
    let obj := T.obj.modify n (·.setWeight weight)
    let queue ← putIn obj queue n
    .ok ⟨obj.modify n (·.setLastHop me), queue⟩
  else
    let queue ← putIn T.obj queue n
    .ok ⟨T.obj, queue⟩

/-- `set_adjacent_weights`, over the edges in the order of their names.  The sum of the weights has
to fit. -/
def setAdjacentWeights (me : Ref) (delta : Nat) : Search A → List (A × Edge) →
    Except Fault (Search A)
  | T, [] => .ok T
  | T, (_, e) :: rest =>
      if (T.obj e.dst).valid && (T.obj e.dst).tentative then
        if 2 ^ 31 ≤ delta + e.weight then .error .saturated
        else do
          let T ← T.add me e.dst (delta + e.weight)
          setAdjacentWeights me delta T rest
      else setAdjacentWeights me delta T rest

/-- The node that was popped is made permanent, and its first hop is that of the node before it. -/
def makePermanent (origin : Ref) (T : Search A) (n : Ref) (queue : List Ref) :
    Except Fault (Search A) :=
  let obj := T.obj.modify n fun x => { x with tentative := false }
  match (obj n).current.lastHop with
  | none => .error .badPointer
  | some prev =>
      if prev = origin then .ok ⟨obj.modify n (·.setFirstHop (some n)), queue⟩
      else if ¬ (obj prev).current.valid then .error .assertion
      else .ok ⟨obj.modify n (·.setFirstHop (obj prev).current.firstHop), queue⟩

/-- The loop of `dijkstra`. -/
def loop (origin : Ref) : Nat → Search A → Ref → Nat → Except Fault (Search A)
  | 0, _, _, _ => .error .outOfFuel
  | fuel + 1, T, current, weight => do
      let T ← T.setAdjacentWeights current weight (T.obj current).adjacencies
      match T.queue with
      | [] => .ok T
      | n :: queue =>
          if ¬ ready T.obj n then .error .assertion
          else do
            let T' ← T.makePermanent origin n queue
            loop origin fuel T' n (T.obj n).current.pathLength

end Search

namespace Spt

variable {A : Type} [LinearOrder A]

/-! ### Building the graph -/

variable (S : Spt A)

def findNode (a : A) : Option Ref := (S.nodes.find? fun e => e.1 = a).map Prod.snd

/-- `Spt::add_node`, when the new object would be at `r`. -/
def addNode (a : A) (r : Ref) : Spt A :=
  match S.findNode a with
  | some n =>
      if (S.obj n).valid then S
      else { S with obj := S.obj.modify n fun x => { x with adjacencies := [], valid := true } }
  | none =>
      { S with
        obj := Function.update S.obj r (.new a (S.obj r).tentative)
        nodes := OrderedSet.insert Prod.fst (a, r) S.nodes
        allocated := r :: S.allocated }

def removeNode (a : A) : Spt A :=
  match S.findNode a with
  | none => S
  | some n => { S with obj := S.obj.modify n fun x => { x with valid := false } }

def hasEdge (n : Node A) (a : A) : Bool := n.adjacencies.any fun e => e.1 = a

def addEdge (src : A) (weight : Nat) (dst : A) (r : Ref) : Spt A :=
  match S.findNode src with
  | none => S
  | some s =>
      let T := if S.findNode dst = none then S.addNode dst r else S
      match T.findNode dst with
      | none => T
      | some d =>
          let name := (T.obj d).nodename
          if hasEdge (T.obj s) name then T
          else { T with obj := T.obj.modify s fun x => { x with
            adjacencies := OrderedSet.insert Prod.fst (name, ⟨d, weight⟩) x.adjacencies } }

/-- An edge changes, between nodes that exist. -/
def changeEdges (src dst : A) (f : A → List (A × Edge) → List (A × Edge)) : Spt A :=
  match S.findNode src, S.findNode dst with
  | some s, some d =>
      { S with obj := S.obj.modify s fun x => { x with
        adjacencies := f (S.obj d).nodename x.adjacencies } }
  | _, _ => S

def updateEdgeWeight (src : A) (weight : Nat) (dst : A) : Spt A :=
  S.changeEdges src dst fun name es =>
    es.map fun e => if e.1 = name then (e.1, { e.2 with weight := weight }) else e

def removeEdge (src dst : A) : Spt A :=
  S.changeEdges src dst fun name es => es.filter fun e => e.1 ≠ name

def setOrigin (a : A) : Spt A :=
  match S.findNode a with
  | none => S
  | some n => { S with origin := some n }

/-! ### The computation -/

/-- `init_dijkstra`, for all nodes. -/
def initDijkstra : Objects A :=
  S.nodes.foldl (fun obj e => obj.modify e.2 fun x =>
    { x with tentative := true, current := { x.current with valid := false } }) S.obj

/-- `dijkstra`, from an origin.  Every round makes a node permanent. -/
def dijkstra (origin : Ref) : Except Fault (Search A) :=
  let obj := S.initDijkstra.modify origin fun x => { x with tentative := false }
  Search.loop origin (S.nodes.length + 1) ⟨obj, []⟩ origin 0

/-- A name that is read through a pointer. -/
def nameOf (obj : Objects A) : Option Ref → Except Fault A
  | none => .error .badPointer
  | some r => .ok (obj r).nodename

/-- The end of `delta`: the new route to a node that is reached. -/
def deltaReached (obj : Objects A) (n : Node A) : Except Fault (Option (RouteCmd A)) :=
  let c := n.current
  let p := n.previous
  if p.valid ∧ c.firstHop = p.firstHop ∧ c.pathLength = p.pathLength then .ok none
  else do
    let nexthop ← nameOf obj c.firstHop
    let prevhop ← nameOf obj c.lastHop
    if p.valid then
      .ok (some ⟨.replace, n.nodename, nexthop, prevhop, c.pathLength,
        c.firstHop ≠ p.firstHop, c.pathLength ≠ p.pathLength⟩)
    else .ok (some ⟨.add, n.nodename, nexthop, prevhop, c.pathLength, false, false⟩)

/-- `Node::delta`, but for `_previous = _current`. -/
def delta (obj : Objects A) (r : Ref) : Except Fault (Option (RouteCmd A)) :=
  let n := obj r
  let gone : RouteCmd A := ⟨.delete, n.nodename, n.nodename, n.nodename, 0, false, false⟩
  if ¬ n.valid then .ok (some gone)
  else if ¬ n.current.valid then .ok (if n.previous.valid then some gone else none)
  else deltaReached obj n

/-- The loop of `compute` over the nodes. -/
def deltas (origin : Ref) : Objects A → List (A × Ref) →
    Except Fault (Objects A × List (RouteCmd A))
  | obj, [] => .ok (obj, [])
  | obj, (_, r) :: rest =>
      if r = origin then deltas origin obj rest
      else do
        let cmd ← delta obj r
        let obj := if (obj r).valid then obj.modify r fun x => { x with previous := x.current }
          else obj
        let (obj, cmds) ← deltas origin obj rest
        .ok (obj, cmd.toList ++ cmds)

/-- `Node::garbage_collect`. -/
def collect (obj : Objects A) (r : Ref) : Objects A :=
  let dead := (obj r).adjacencies.filter fun e => !(obj e.2.dst).valid
  let cleared := dead.foldl (fun o e => o.modify e.2.dst Node.clear) obj
  cleared.modify r fun x => { x with
    adjacencies := x.adjacencies.filter fun e => (obj e.2.dst).valid }

def garbageCollect : Spt A :=
  let nodes := S.nodes.filter fun e => (S.obj e.2).valid
  { S with nodes := nodes, obj := nodes.foldl (fun obj e => collect obj e.2) S.obj }

/-- `Spt::compute`.  Without an origin it does nothing. -/
def compute : Except Fault (Spt A × Option (List (RouteCmd A))) :=
  match S.origin with
  | none => .ok (S, none)
  | some origin => do
      let T ← S.dijkstra origin
      let (obj, cmds) ← deltas origin T.obj S.nodes
      .ok (garbageCollect { S with obj := obj }, some cmds)

end Spt

end Xorp.Libproto

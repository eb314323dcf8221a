/-
The output queue of a peer.

A `RibOutTable` does not send a change to its peer at once.  It keeps a queue, and a change
for a net that is in the queue already is folded into what is there: an add that was not
sent yet is cancelled by a delete, and a delete that was not sent yet becomes a replace.
`push` empties the queue, in packets of routes that share an attribute list.

The queue holds a replace as two entries next to each other.  What the proofs carry is the
queue read as a list of pending operations, one for each net at most, and for each of them
what the peer holds and what upstream holds.
-/
import Xorp.Net.IPNet
import Xorp.Lib.Outcome

namespace Xorp.Bgp

open Linked Function List Option

variable {w : Nat} {ρ α : Type}

/-- `FPAListRef`: the attribute list object, and what is in it. -/
structure AttrRef (α : Type) where
  ref : Nat
  list : α
deriving DecidableEq, Repr

inductive RouteQueueOp where
  | add
  | delete
  | replaceOld
  | replaceNew
  | push
deriving DecidableEq, Repr

/-- A route as it is sent: with its attributes, and whether its origin is an internal peer. -/
structure Offer (ρ α : Type) where
  route : ρ
  attributes : AttrRef α
  ibgp : Bool

structure InternalMessage (ρ α : Type) extends Offer ρ α where
  push : Bool

structure RouteQueueEntry (ρ α : Type) extends Offer ρ α where
  op : RouteQueueOp

/-- What a table asks of the `PeerHandler`. -/
inductive PeerCall (ρ α : Type) where
  | startPacket
  | addRoute (x : Offer ρ α)
  | deleteRoute (x : Offer ρ α)
  | replaceRoute (old : ρ) (oldIbgp : Bool) (new : Offer ρ α)
  | pushPacket

structure RibOutTable (ρ α : Type) where
  queue : List (RouteQueueEntry ρ α)
  /-- the attribute lists that are locked -/
  locked : List Nat
  peerBusy : Bool
  /-- everything asked of the peer handler so far -/
  calls : List (PeerCall ρ α)

/-- `FastPathAttributeList::lock`. -/
def lock (a : AttrRef α) (locked : List Nat) : Except Fault (List Nat) :=
  if a.ref ∈ locked then .error .assertion else .ok (a.ref :: locked)

/-- `FastPathAttributeList::unlock`. -/
def unlock (a : AttrRef α) (locked : List Nat) : Except Fault (List Nat) :=
  if a.ref ∈ locked then .ok (locked.erase a.ref) else .error .assertion

namespace RibOutTable

/-- The first entry for a net, with what stands before and after it. -/
def find (net : ρ → IPNet w) (n : IPNet w) : List (RouteQueueEntry ρ α) →
    Option (List (RouteQueueEntry ρ α) × RouteQueueEntry ρ α × List (RouteQueueEntry ρ α))
  | [] => none
  | e :: q =>
      if net e.route = n then some ([], e, q)
      else (find net n q).map fun (before, f, after) => (e :: before, f, after)

/-! ### `push` -/

/-- The entries that share the attribute list of the first one go to the packet, the others
stay.  A replace is compared by its new half, and by the list object. -/
def extract [DecidableEq α] (attributes : Option (AttrRef α)) :
    List (RouteQueueEntry ρ α) →
      Except Fault (List (RouteQueueEntry ρ α) × List (RouteQueueEntry ρ α))
  | [] => .ok ([], [])
  | e :: q =>
      if e.op = .replaceOld then
        match q with
        | [] => .error .badPointer
        | f :: q =>
            if f.op = .replaceNew then do
              let attributes := attributes.getD f.attributes
              let (packet, rest) ← extract (some attributes) q
              if f.attributes.ref = attributes.ref then pure (e :: f :: packet, rest)
              else pure (packet, e :: f :: rest)
            else .error .assertion
      else do
        let attributes := attributes.getD e.attributes
        let (packet, rest) ← extract (some attributes) q
        if e.attributes.list = attributes.list then pure (e :: packet, rest)
        else pure (packet, e :: rest)

/-- The packet, as calls of the peer handler. -/
def output : List Nat → List (RouteQueueEntry ρ α) →
    Except Fault (List Nat × List (PeerCall ρ α))
  | locked, [] => .ok (locked, [])
  | locked, e :: q =>
      match e.op with
      | .add => do
          let (locked, calls) ← output (← unlock e.attributes locked) q
          pure (locked, .addRoute e.toOffer :: calls)
      | .delete => do
          let (locked, calls) ← output (← unlock e.attributes locked) q
          pure (locked, .deleteRoute e.toOffer :: calls)
      | .replaceOld =>
          match q with
          | [] => .error .assertion
          | f :: q =>
              if f.op = .replaceNew then do
                let locked ← unlock f.attributes locked
                let (locked, calls) ← output (← unlock e.attributes locked) q
                pure (locked, .replaceRoute e.route e.ibgp f.toOffer :: calls)
              else .error .assertion
      | .replaceNew => .error .abort
      | .push => .error .abort

/-- The loop of `push`.  `busy` is what `push_packet` answers, for each packet. -/
def pushLoop [DecidableEq α] (busy : Nat → Bool) :
    Nat → RibOutTable ρ α → Except Fault (RibOutTable ρ α)
  | 0, _ => .error .outOfFuel
  | fuel + 1, T =>
      match T.queue with
      | [] => .ok T
      | e :: q => do
          let (packet, rest) ← extract none (e :: q)
          let (locked, calls) ← output T.locked packet
          pushLoop busy fuel
            { queue := rest
              locked := locked
              peerBusy := T.peerBusy || busy fuel
              calls := T.calls ++ (.startPacket :: calls ++ [.pushPacket]) }

def push [DecidableEq α] (busy : Nat → Bool) (T : RibOutTable ρ α) :
    Except Fault (RibOutTable ρ α) :=
  pushLoop busy (T.queue.length + 1) T

/-! ### Changes from upstream -/

section
variable (net : ρ → IPNet w)

def queueAdd (T : RibOutTable ρ α) (x : Offer ρ α) : Except Fault (RibOutTable ρ α) :=
  match find net (net x.route) T.queue with
  | none => do
      pure { T with locked := ← lock x.attributes T.locked, queue := T.queue ++ [⟨x, .add⟩] }
  | some (before, e, after) =>
      match e.op with
      | .delete => do
          pure
            { T with
              locked := ← lock x.attributes T.locked
              queue := before ++ after ++ [⟨e.toOffer, .replaceOld⟩, ⟨x, .replaceNew⟩] }
      | .replaceOld => do
          let locked ← unlock e.attributes T.locked
          match after with
          | [] => .error .badPointer
          | f :: after =>
              if f.op = .replaceNew then
                pure
                  { T with
                    locked := ← lock x.attributes locked
                    queue := before ++ e :: ⟨x, .replaceNew⟩ :: after }
              else .error .assertion
      | .add => .error .abort
      | .replaceNew | .push => .ok T

def queueDelete (T : RibOutTable ρ α) (x : Offer ρ α) : Except Fault (RibOutTable ρ α) :=
  match find net (net x.route) T.queue with
  | none => do
      pure { T with locked := ← lock x.attributes T.locked, queue := T.queue ++ [⟨x, .delete⟩] }
  | some (before, e, after) =>
      match e.op with
      | .add => do
          pure { T with locked := ← unlock e.attributes T.locked, queue := before ++ after }
      | .delete => .error .abort
      | .replaceOld =>
          match after with
          | [] => .error .badPointer
          | f :: after =>
              if f.op = .replaceNew then do
                pure
                  { T with
                    locked := ← unlock f.attributes T.locked
                    queue := before ++ after ++ [⟨e.toOffer, .delete⟩] }
              else .error .assertion
      | .replaceNew | .push => .ok T

variable [DecidableEq α] (busy : Nat → Bool)

def addRoute (T : RibOutTable ρ α) (m : InternalMessage ρ α) : Except Fault (RibOutTable ρ α) := do
  let T ← T.queueAdd net m.toOffer
  if m.push then T.push busy else pure T

def deleteRoute (T : RibOutTable ρ α) (m : InternalMessage ρ α) :
    Except Fault (RibOutTable ρ α) := do
  let T ← T.queueDelete net m.toOffer
  if m.push then T.push busy else pure T

def replaceRoute (T : RibOutTable ρ α) (old new : InternalMessage ρ α) :
    Except Fault (RibOutTable ρ α) := do
  if old.push then throw .assertion
  (← T.deleteRoute net busy old).addRoute net busy new

end

inductive Op (ρ α : Type) where
  | add (m : InternalMessage ρ α)
  | replace (old new : InternalMessage ρ α)
  | delete (m : InternalMessage ρ α)
  | push

/-- An operation, with the answers of the peer for the packets it sends. -/
def step [DecidableEq α] (net : ρ → IPNet w) (T : RibOutTable ρ α) :
    Op ρ α × (Nat → Bool) → Except Fault (RibOutTable ρ α)
  | (.add m, busy) => T.addRoute net busy m
  | (.replace old new, busy) => T.replaceRoute net busy old new
  | (.delete m, busy) => T.deleteRoute net busy m
  | (.push, busy) => T.push busy

def run [DecidableEq α] (net : ρ → IPNet w) (T : RibOutTable ρ α)
    (ops : List (Op ρ α × (Nat → Bool))) : Except Fault (RibOutTable ρ α) :=
  ops.foldlM (step net) T

def empty : RibOutTable ρ α := ⟨[], [], false, []⟩

/-- The table when the change of an operation is in the queue, before it pushes. -/
def queued (net : ρ → IPNet w) (T : RibOutTable ρ α) : Op ρ α → Except Fault (RibOutTable ρ α)
  | .add m => T.queueAdd net m.toOffer
  | .replace old new => do (← T.queueDelete net old.toOffer).queueAdd net new.toOffer
  | .delete m => T.queueDelete net m.toOffer
  | .push => .ok T

/-! ### What the peer holds, and what upstream holds -/

/-- What one side holds for each net. -/
abbrev Held (w : Nat) (ρ α : Type) := IPNet w → Option (Offer ρ α)

/-- A call, for a peer that holds `held`: an announcement is for a net it holds nothing for,
a withdrawal or a replacement for a net it holds a route for. -/
def announce (net : ρ → IPNet w) (held : Held w ρ α) : PeerCall ρ α → Option (Held w ρ α)
  | .startPacket | .pushPacket => some held
  | .addRoute x =>
      if held (net x.route) |>.isNone then some (Function.update held (net x.route) (some x))
      else none
  | .deleteRoute x =>
      if held (net x.route) |>.isSome then some (Function.update held (net x.route) none)
      else none
  | .replaceRoute old _ new =>
      if (held (net old)).isSome ∧ net new.route = net old then
        some (Function.update held (net old) (some new))
      else none

/-- The routes announced and not withdrawn, if the calls make sense to the peer. -/
def announced (net : ρ → IPNet w) (calls : List (PeerCall ρ α)) : Option (Held w ρ α) :=
  calls.foldlM (announce net) fun _ => none

/-- The net a call sends something for. -/
def sentNet (net : ρ → IPNet w) : PeerCall ρ α → Option (IPNet w)
  | .startPacket | .pushPacket => none
  | .addRoute x | .deleteRoute x => some (net x.route)
  | .replaceRoute old _ _ => some (net old)

namespace Op

/-- An operation of an upstream table that holds `held`: nothing when it is not one the
table may send. -/
def upstream (net : ρ → IPNet w) (held : Held w ρ α) : Op ρ α → Option (Held w ρ α)
  | .add m =>
      if held (net m.route) |>.isNone then
        some (Function.update held (net m.route) (some m.toOffer))
      else none
  | .replace old new =>
      if (held (net old.route)).isSome ∧ net new.route = net old.route ∧ old.push = false then
        some (Function.update held (net old.route) (some new.toOffer))
      else none
  | .delete m =>
      if held (net m.route) |>.isSome then some (Function.update held (net m.route) none)
      else none
  | .push => some held

/-- The attribute list objects that come with an operation. -/
def refs : Op ρ α → List Nat
  | .add m | .delete m => [m.attributes.ref]
  | .replace old new => [old.attributes.ref, new.attributes.ref]
  | .push => []

/-- Whether the operation ends with a push. -/
def pushes : Op ρ α → Bool
  | .add m | .replace _ m | .delete m => m.push
  | .push => true

end Op

/-- What upstream holds after its operations, when each is one it may send. -/
def upstream (net : ρ → IPNet w) (ops : List (Op ρ α × (Nat → Bool))) :
    Option (Held w ρ α) :=
  ops.foldlM (fun held o => o.1.upstream net held) fun _ => none

/-! ### The queue as pending operations -/

/-- What the queue holds for a net. -/
inductive Pending (ρ α : Type) where
  | add (x : Offer ρ α)
  | delete (x : Offer ρ α)
  | replace (old new : Offer ρ α)

variable {peer up : Held w ρ α} {i : Pending ρ α} {locked : List Nat}

variable {e : RouteQueueEntry ρ α} {peer' up' : Held w ρ α} {a : AttrRef α} {rest : List Nat}

namespace Pending

def first : Pending ρ α → RouteQueueEntry ρ α
  | .add x => ⟨x, .add⟩
  | .delete x => ⟨x, .delete⟩
  | .replace old _ => ⟨old, .replaceOld⟩

/-- The second entry of a replace. -/
def second : Pending ρ α → List (RouteQueueEntry ρ α)
  | .add _ | .delete _ => []
  | .replace _ new => [⟨new, .replaceNew⟩]

def entries (i : Pending ρ α) : List (RouteQueueEntry ρ α) :=
  i.first :: i.second

def net (net : ρ → IPNet w) (i : Pending ρ α) : IPNet w :=
  net i.first.route

/-- The lists that are locked for it. -/
def refs : Pending ρ α → List Nat
  | .add x | .delete x => [x.attributes.ref]
  | .replace old new => [new.attributes.ref, old.attributes.ref]

/-- The attribute list that a packet for it has. -/
def key : Pending ρ α → AttrRef α
  | .add x | .delete x | .replace _ x => x.attributes

/-- Whether it goes to a packet with this attribute list. -/
def joins [DecidableEq α] (a : AttrRef α) : Pending ρ α → Bool
  | .add x | .delete x => x.attributes.list = a.list
  | .replace _ new => new.attributes.ref = a.ref

def call : Pending ρ α → PeerCall ρ α
  | .add x => .addRoute x
  | .delete x => .deleteRoute x
  | .replace old new => .replaceRoute old.route old.ibgp new

/-- It leads from what the peer holds for the net to what upstream holds. -/
def Fits (net : ρ → IPNet w) (peer up : Held w ρ α) : Pending ρ α → Prop
  | .add x => peer (net x.route) = none ∧ up (net x.route) = some x
  | .delete x => (peer (net x.route)).isSome ∧ up (net x.route) = none
  | .replace old new =>
      (peer (net old.route)).isSome ∧ net new.route = net old.route ∧
        up (net old.route) = some new

theorem Fits.congr {net : ρ → IPNet w} (h : i.Fits net peer up)
    (hp : peer' (i.net net) = peer (i.net net)) (hu : up' (i.net net) = up (i.net net)) :
    i.Fits net peer' up' := by
  cases i with
  | add x => exact ⟨hp.trans h.1, hu.trans h.2⟩
  | delete x => exact ⟨(congrArg isSome hp).trans h.1, hu.trans h.2⟩
  | replace old new => exact ⟨(congrArg isSome hp).trans h.1, h.2.1, hu.trans h.2.2⟩

theorem Fits.entries_net {net : ρ → IPNet w} (h : i.Fits net peer up) (he : e ∈ i.entries) :
    net e.route = i.net net := by
  cases i with
  | add x => rw [mem_singleton.mp he]; rfl
  | delete x => rw [mem_singleton.mp he]; rfl
  | replace old new =>
    rcases mem_cons.mp he with he | he
    · rw [he]; rfl
    · rw [mem_singleton.mp he]
      exact h.2.1

end Pending

open Pending

/-- The pending operations lead from what the peer holds to what upstream holds, one for a
net at most. -/
structure Tracks (net : ρ → IPNet w) (items : List (Pending ρ α)) (peer up : Held w ρ α) :
    Prop where
  /-- no net has two -/
  nodup : (items.map (Pending.net net)).Nodup
  fits : ∀ i ∈ items, i.Fits net peer up
  /-- for the other nets the two agree -/
  rest : ∀ n ∉ items.map (Pending.net net), peer n = up n

variable {net : ρ → IPNet w} {n : IPNet w}

namespace Tracks

variable {items : List (Pending ρ α)}

theorem nil (held : Held w ρ α) : Tracks net [] held held :=
  ⟨nodup_nil, by simp, fun _ _ => rfl⟩

theorem perm {items' : List (Pending ρ α)} (h : Tracks net items peer up)
    (hp : items'.Perm items) : Tracks net items' peer up := by
  refine ⟨(hp.map _).nodup_iff.mpr h.nodup, fun i hi => h.fits i (hp.mem_iff.mp hi), ?_⟩
  intro n hn
  exact h.rest n fun hm => hn ((hp.map _).mem_iff.mpr hm)

/-- An operation that is no longer pending, for a net the two sides agree on now. -/
theorem tail (h : Tracks net (i :: items) peer up) (hn : peer' (i.net net) = up' (i.net net))
    (hp : ∀ m, m ≠ i.net net → peer' m = peer m) (hu : ∀ m, m ≠ i.net net → up' m = up m) :
    Tracks net items peer' up' := by
  have hi := (nodup_cons.mp h.nodup).1
  refine ⟨(nodup_cons.mp h.nodup).2, ?_, ?_⟩
  · intro j hj
    have hne : j.net net ≠ i.net net := fun he => hi (he ▸ mem_map_of_mem hj)
    exact (h.fits j (mem_cons_of_mem i hj)).congr (hp _ hne) (hu _ hne)
  · intro m hm
    by_cases he : m = i.net net
    · rw [he, hn]
    · rw [hp m he, hu m he]
      exact h.rest m fun hm' => (mem_cons.mp hm').elim he hm

variable {v : Option (Offer ρ α)}

/-- A new operation for a net, which upstream changed. -/
theorem cons (h : Tracks net items peer up) (hn : i.net net ∉ items.map (Pending.net net))
    (hi : i.Fits net peer (update up (i.net net) v)) :
    Tracks net (i :: items) peer (update up (i.net net) v) := by
  refine ⟨nodup_cons.mpr ⟨hn, h.nodup⟩, ?_, ?_⟩
  · refine forall_mem_cons.mpr ⟨hi, fun j hj => ?_⟩
    have hne : j.net net ≠ i.net net := fun he => hn (he ▸ mem_map_of_mem hj)
    exact (h.fits j hj).congr rfl (update_of_ne hne _ _)
  · intro m hm
    have hne : m ≠ i.net net := fun he => hm (he ▸ mem_map_of_mem mem_cons_self)
    rw [update_of_ne hne]
    exact h.rest m fun hm' => hm (mem_cons_of_mem _ hm')

/-- An operation that takes the place of another for the same net. -/
theorem convert {j : Pending ρ α} (h : Tracks net (i :: items) peer up) (hj : j.net net = i.net net)
    (hf : j.Fits net peer (update up (j.net net) v)) :
    Tracks net (j :: items) peer (update up (j.net net) v) := by
  have ht : Tracks net items peer (update up (j.net net) (peer (j.net net))) := by
    refine h.tail ?_ (fun _ _ => rfl) ?_
    · rw [← hj, update_self]
    · intro m hm
      exact update_of_ne (hj ▸ hm) _ _
  have hn : j.net net ∉ items.map (Pending.net net) := hj ▸ (nodup_cons.mp h.nodup).1
  have hv := ht.cons (v := v) hn (by rwa [update_idem])
  rwa [update_idem] at hv

end Tracks

/-! ### Looking up a net in the queue -/

variable {net : ρ → IPNet w} {items : List (Pending ρ α)}

section

theorem find_append {l : List (RouteQueueEntry ρ α)} (hl : ∀ e ∈ l, net e.route ≠ n)
    (q : List (RouteQueueEntry ρ α)) :
    find net n (l ++ q) = (find net n q).map fun (b, e, a) => (l ++ b, e, a) := by
  induction l with
  | nil => cases hq : find net n q <;> simp [hq]
  | cons f l ih =>
    have hf := hl f mem_cons_self
    rw [cons_append, find, if_neg hf, ih fun e he => hl e (mem_cons_of_mem f he),
      Option.map_map]
    rfl

section
variable (hf : ∀ i ∈ items, i.Fits net peer up) (hn : n ∉ items.map (Pending.net net))
include hf hn

/-- The entries of operations for other nets are passed over. -/
theorem find_skip : ∀ e ∈ items.flatMap entries, net e.route ≠ n := by
  intro e he
  obtain ⟨i, hi, he⟩ := mem_flatMap.mp he
  rw [(hf i hi).entries_net he]
  exact fun h => hn (h ▸ mem_map_of_mem hi)

theorem find_none : find net n (items.flatMap entries) = none := by
  have h := find_append (find_skip hf hn) []
  rwa [append_nil] at h

end

theorem find_some {pre post : List (Pending ρ α)} (hf : ∀ j ∈ pre, j.Fits net peer up)
    (hn : n ∉ pre.map (Pending.net net)) (hi : i.net net = n) :
    find net n ((pre ++ i :: post).flatMap entries)
      = some (pre.flatMap entries, i.first, i.second ++ post.flatMap entries) := by
  have hhead : find net n (i.first :: (i.second ++ post.flatMap entries))
      = some ([], i.first, i.second ++ post.flatMap entries) := by
    rw [find, if_pos (by exact hi)]
  rw [flatMap_append, flatMap_cons, find_append (find_skip hf hn), entries,
    cons_append, hhead]
  simp

end

/-! ### Locks -/

theorem lock_ok (h : a.ref ∉ locked) : lock a locked = .ok (a.ref :: locked) :=
  if_neg h

theorem unlock_ok (h : locked.Perm (a.ref :: rest)) :
    ∃ l, unlock a locked = .ok l ∧ l.Perm rest := by
  refine ⟨locked.erase a.ref, if_pos (h.mem_iff.mpr mem_cons_self), ?_⟩
  have he := h.erase a.ref
  rwa [erase_cons_head] at he

/-! ### The invariant -/

/-- The queue is a list of pending operations, its attribute lists are the locked ones, and
the operations lead from what the peer holds to what upstream holds. -/
structure Inv (net : ρ → IPNet w) (T : RibOutTable ρ α) (items : List (Pending ρ α))
    (peer up : Held w ρ α) : Prop where
  queue : T.queue = items.flatMap entries
  locked : T.locked.Perm (items.flatMap refs)
  nodup : (items.flatMap refs).Nodup
  tracks : Tracks net items peer up
  peer : announced net T.calls = some peer

namespace Inv

variable {T : RibOutTable ρ α} {items : List (Pending ρ α)} {x : Offer ρ α}

theorem init : Inv net (empty : RibOutTable ρ α) [] (fun _ => none) fun _ => none :=
  ⟨rfl, .refl _, nodup_nil, .nil _, rfl⟩

theorem split (h : Inv net T items peer up)
    (hn : n ∈ items.map (Pending.net net)) :
    ∃ pre i post, items = pre ++ i :: post ∧ i.net net = n ∧
      Tracks net (i :: (pre ++ post)) peer up ∧
      T.locked.Perm (i.refs ++ (pre ++ post).flatMap refs) ∧
      find net n T.queue = some (pre.flatMap entries, i.first,
        i.second ++ post.flatMap entries) := by
  obtain ⟨i, hi, hin⟩ := mem_map.mp hn
  obtain ⟨pre, post, rfl⟩ := append_of_mem hi
  have ht := h.tracks.perm perm_middle.symm
  refine ⟨pre, i, post, rfl, hin, ht, ?_, ?_⟩
  · have hp := h.locked.trans (perm_middle.flatMap_right refs)
    rwa [flatMap_cons] at hp
  · rw [h.queue]
    refine find_some (fun j hj => h.tracks.fits j (mem_append_left _ hj)) ?_ hin
    intro hpre
    have hnot := (nodup_cons.mp ht.nodup).1
    rw [map_append, hin] at hnot
    exact hnot (mem_append_left _ hpre)

/-- A pending operation goes to the end of the queue. -/
theorem put (hq : T.queue = items.flatMap entries ++ i.entries)
    (hl : T.locked.Perm (i.refs ++ items.flatMap refs)) (hd : T.locked.Nodup)
    (ht : Tracks net (i :: items) peer up) (hp : announced net T.calls = some peer) :
    Inv net T (items ++ [i]) peer up := by
  have hl : T.locked.Perm ((items ++ [i]).flatMap refs) := by
    rw [flatMap_append, flatMap_singleton]
    exact hl.trans perm_append_comm
  exact ⟨hq.trans (by simp), hl, hl.nodup_iff.mp hd, ht.perm (perm_append_singleton _ _), hp⟩

/-- An add: a pending delete becomes a replace. -/
theorem queueAdd (h : Inv net T items peer up) (hx : up (net x.route) = none)
    (hr : x.attributes.ref ∉ T.locked) :
    ∃ T' items', T.queueAdd net x = .ok T' ∧ T'.calls = T.calls ∧
      (∀ r ∈ T'.locked, r ∈ T.locked ∨ r = x.attributes.ref) ∧
      Inv net T' items' peer (update up (net x.route) (some x)) := by
  unfold RibOutTable.queueAdd
  rw [lock_ok hr]
  have hd : (x.attributes.ref :: T.locked).Nodup :=
    nodup_cons.mpr ⟨hr, h.locked.nodup_iff.mpr h.nodup⟩
  have hlocked : ∀ r ∈ x.attributes.ref :: T.locked, r ∈ T.locked ∨ r = x.attributes.ref :=
    fun r hr => (mem_cons.mp hr).symm
  by_cases hn : net x.route ∈ items.map (Pending.net net)
  · obtain ⟨pre, i, post, -, hin, ht, hl, hfind⟩ := h.split hn
    rw [hfind]
    have hfit := ht.fits i mem_cons_self
    cases i with
    | add y => exact absurd (hfit.2.symm.trans ((congrArg up hin).trans hx)) (by simp)
    | replace old new =>
      exact absurd (hfit.2.2.symm.trans ((congrArg up hin).trans hx)) (by simp)
    | delete y =>
      have hj : (Pending.replace y x).net net = net x.route := hin
      have hc := ht.convert (j := .replace y x) (v := some x) rfl
        ⟨hfit.1, hin.symm, update_self ..⟩
      rw [hj] at hc
      exact ⟨_, _, rfl, rfl, hlocked, put (by simp; rfl) (hl.cons _) hd hc h.peer⟩
  · rw [h.queue, find_none h.tracks.fits hn]
    have hpeer : peer (net x.route) = none := (h.tracks.rest _ hn).trans hx
    have hc := h.tracks.cons (i := .add x) hn ⟨hpeer, update_self ..⟩
    exact ⟨_, _, rfl, rfl, hlocked, put rfl (h.locked.cons _) hd hc h.peer⟩

/-- A delete: a pending add is dropped, and a pending replace becomes a delete. -/
theorem queueDelete (h : Inv net T items peer up) (hx : (up (net x.route)).isSome)
    (hr : x.attributes.ref ∉ T.locked) :
    ∃ T' items', T.queueDelete net x = .ok T' ∧ T'.calls = T.calls ∧
      (∀ r ∈ T'.locked, r ∈ T.locked ∨ r = x.attributes.ref) ∧
      Inv net T' items' peer (update up (net x.route) none) := by
  unfold RibOutTable.queueDelete
  have hd := h.locked.nodup_iff.mpr h.nodup
  by_cases hn : net x.route ∈ items.map (Pending.net net)
  · obtain ⟨pre, i, post, -, hin, ht, hl, hfind⟩ := h.split hn
    rw [hfind]
    have hfit := ht.fits i mem_cons_self
    cases i with
    | delete y =>
      rw [← hin] at hx
      exact absurd ((congrArg isSome hfit.2).symm.trans hx) (by simp)
    | add y =>
      obtain ⟨l, hunlock, hperm⟩ := unlock_ok (a := y.attributes) hl
      refine ⟨{ T with locked := l, queue := (pre ++ post).flatMap entries },
        pre ++ post, ?_, rfl, ?_, rfl, hperm, (nodup_cons.mp (hl.nodup_iff.mp hd)).2, ?_, h.peer⟩
      · simp only [first, second, hunlock, ok_bind, nil_append,
          flatMap_append]
        rfl
      · intro r hr
        exact .inl (hl.mem_iff.mpr (mem_cons_of_mem _ (hperm.mem_iff.mp hr)))
      · refine ht.tail ?_ (fun _ _ => rfl) fun m hm => update_of_ne (hin ▸ hm) _ _
        rw [← hin, update_self]
        exact hfit.1
    | replace old new =>
      obtain ⟨l, hunlock, hperm⟩ := unlock_ok (a := new.attributes) hl
      have hj : (Pending.delete old).net net = net x.route := hin
      have hc := ht.convert (j := .delete old) (v := none) rfl
        ⟨hfit.1, update_self ..⟩
      rw [hj] at hc
      refine ⟨{ T with
          locked := l
          queue := (pre ++ post).flatMap entries ++ (Pending.delete old).entries }, _, ?_,
        rfl, ?_, put rfl hperm
          (hperm.nodup_iff.mpr (nodup_cons.mp (hl.nodup_iff.mp hd)).2) hc h.peer⟩
      · simp only [first, second, hunlock, ok_bind, flatMap_append, cons_append,
          if_true]
        rfl
      · intro r hr
        exact .inl (hl.mem_iff.mpr (mem_cons_of_mem _ (hperm.mem_iff.mp hr)))
  · rw [h.queue, find_none h.tracks.fits hn, lock_ok hr]
    have hpeer : (peer (net x.route)).isSome := by rwa [h.tracks.rest _ hn]
    have hc := h.tracks.cons (i := .delete x) hn ⟨hpeer, update_self ..⟩
    exact ⟨_, _, rfl, rfl, fun r hr => (mem_cons.mp hr).symm,
      put rfl (h.locked.cons _) (nodup_cons.mpr ⟨hr, hd⟩) hc h.peer⟩

end Inv

/-! ### Emptying the queue -/

/-- The packets of a queue. -/
def packets [DecidableEq α] : List (Pending ρ α) → List (List (Pending ρ α))
  | [] => []
  | i :: items => (i :: items.filter (·.joins i.key)) :: packets (items.filter (!·.joins i.key))
termination_by items => items.length
decreasing_by simpa using Nat.lt_succ_of_le ((length_filter_le ..).trans_eq length_attach)

/-- The calls for a packet. -/
def packetCalls (packet : List (Pending ρ α)) : List (PeerCall ρ α) :=
  .startPacket :: packet.map call ++ [.pushPacket]

theorem extract_single [DecidableEq α] {q packet rest : List (RouteQueueEntry ρ α)}
    (he : e.op ≠ .replaceOld) (h : extract (some a) q = .ok (packet, rest)) :
    extract (some a) (e :: q) = .ok (if e.attributes.list = a.list then (e :: packet, rest)
      else (packet, e :: rest)) := by
  have hq : extract (some a) (e :: q) = (do
      let (packet, rest) ← extract (some a) q
      if e.attributes.list = a.list then pure (e :: packet, rest)
      else pure (packet, e :: rest)) := by
    cases q <;> conv_lhs => rw [extract, if_neg he]
    all_goals rfl
  rw [hq, h, ok_bind]
  split_ifs <;> rfl

/-- The packet is the pending operations that share the attribute list, the rest the others. -/
theorem extract_entries [DecidableEq α] (a : AttrRef α) (items : List (Pending ρ α)) :
    extract (some a) (items.flatMap entries)
      = .ok ((items.filter (·.joins a)).flatMap entries,
          (items.filter (!·.joins a)).flatMap entries) := by
  induction items with
  | nil => rfl
  | cons i items ih =>
    cases i with
    | add x =>
      refine (extract_single (e := ⟨x, .add⟩) nofun ih).trans ?_
      by_cases hx : x.attributes.list = a.list <;>
        simp [hx, joins, entries, first, second]
    | delete x =>
      refine (extract_single (e := ⟨x, .delete⟩) nofun ih).trans ?_
      by_cases hx : x.attributes.list = a.list <;>
        simp [hx, joins, entries, first, second]
    | replace old new =>
      simp only [flatMap_cons, entries, first, second, cons_append,
        nil_append, extract, ih, ok_bind, if_true, getD_some]
      by_cases hx : new.attributes.ref = a.ref <;>
        simp [hx, joins, entries, first, second, pure, Except.pure]

theorem joins_key [DecidableEq α] (i : Pending ρ α) : i.joins i.key = true := by
  cases i <;> simp [joins, key]

/-- The first operation says which attribute list it is. -/
theorem extract_first [DecidableEq α] (i : Pending ρ α) (items : List (Pending ρ α)) :
    extract none ((i :: items).flatMap entries)
      = .ok ((i :: items.filter (·.joins i.key)).flatMap entries,
          (items.filter (!·.joins i.key)).flatMap entries) := by
  have hsome := extract_entries i.key (i :: items)
  rw [filter_cons_of_pos (joins_key i), filter_cons_of_neg (by simp [joins_key i])] at hsome
  rw [← hsome]
  cases i with
  | add x | delete x =>
    cases hq : items.flatMap entries <;>
      simp [hq, entries, first, second, extract, key]
  | replace old new => simp [entries, first, second, extract, key]

/-- Sending a packet unlocks its attribute lists. -/
theorem output_entries (h : locked.Perm (items.flatMap refs ++ rest)) :
    ∃ l, output locked (items.flatMap entries) = .ok (l, items.map call) ∧
      l.Perm rest := by
  induction items generalizing locked with
  | nil => exact ⟨locked, rfl, h⟩
  | cons i items ih =>
    rw [flatMap_cons] at h ⊢
    cases i with
    | add x | delete x =>
      obtain ⟨l₁, h₁, hp₁⟩ := unlock_ok (a := x.attributes) h
      obtain ⟨l, hl, hp⟩ := ih hp₁
      refine ⟨l, ?_, hp⟩
      simp only [entries, first, second, cons_append,
        nil_append, output, h₁, ok_bind, hl]
      rfl
    | replace old new =>
      obtain ⟨l₁, h₁, hp₁⟩ := unlock_ok (a := new.attributes) h
      obtain ⟨l₂, h₂, hp₂⟩ := unlock_ok (a := old.attributes) hp₁
      obtain ⟨l, hl, hp⟩ := ih hp₂
      refine ⟨l, ?_, hp⟩
      simp only [entries, first, second, cons_append,
        nil_append, output, h₁, h₂, ok_bind, hl, if_true]
      rfl

variable {T : RibOutTable ρ α}

section
variable {items rest : List (Pending ρ α)}

/-- The call of a pending operation makes sense to the peer, and gives it what upstream holds
for the net. -/
theorem Tracks.announce (h : Tracks net (i :: rest) peer up) :
    announce net peer i.call = some (update peer (i.net net) (up (i.net net))) := by
  have hfit := h.fits i mem_cons_self
  cases i with
  | add x =>
    have hup : up (Pending.net net (.add x)) = some x := hfit.2
    rw [hup]
    exact if_pos (by rw [hfit.1]; rfl)
  | delete x =>
    have hup : up (Pending.net net (.delete x)) = none := hfit.2
    rw [hup]
    exact if_pos hfit.1
  | replace old new =>
    have hup : up (Pending.net net (.replace old new)) = some new := hfit.2.2
    rw [hup]
    exact if_pos ⟨hfit.1, hfit.2.1⟩

theorem Tracks.send (h : Tracks net (items ++ rest) peer up) :
    ∃ peer', (items.map call).foldlM (RibOutTable.announce net) peer = some peer' ∧
      Tracks net rest peer' up := by
  induction items generalizing peer with
  | nil => exact ⟨peer, rfl, h⟩
  | cons i items ih =>
    have ht : Tracks net (items ++ rest)
        (update peer (i.net net) (up (i.net net))) up :=
      h.tail (update_self ..) (fun m hm => update_of_ne hm _ _)
        fun _ _ => rfl
    obtain ⟨peer', hpeer, htracks⟩ := ih ht
    refine ⟨peer', ?_, htracks⟩
    rw [map_cons, foldlM_cons, h.announce]
    exact hpeer

/-- The calls of a packet send the nets of its operations. -/
theorem filterMap_sentNet :
    (PeerCall.startPacket :: items.map call ++ [PeerCall.pushPacket]).filterMap
        (sentNet net)
      = items.map (Pending.net net) := by
  have hcalls : (items.map call).filterMap (sentNet net)
      = items.map (Pending.net net) := by
    rw [filterMap_map, ← filterMap_eq_map]
    exact filterMap_congr fun i _ => by cases i <;> rfl
  rw [filterMap_append, filterMap_cons_none rfl, hcalls]
  exact append_nil _

theorem announced_packet {calls : List (PeerCall ρ α)} (h : announced net calls = some peer)
    (sent : List (PeerCall ρ α)) :
    announced net (calls ++ (.startPacket :: sent ++ [.pushPacket]))
      = sent.foldlM (announce net) peer := by
  unfold announced at h ⊢
  rw [foldlM_append, h]
  change List.foldlM (announce net) peer (sent ++ [.pushPacket]) = _
  rw [foldlM_append]
  cases sent.foldlM (announce net) peer <;> rfl

/-- Emptying the queue gives the peer what upstream holds, and sends each pending net once.
The number of operations goes down with each packet, as the first one is in it. -/
theorem Inv.pushLoop [DecidableEq α] (busy : Nat → Bool) {fuel : Nat} (h : Inv net T items peer up)
    (hfuel : items.length < fuel) :
    ∃ T', RibOutTable.pushLoop busy fuel T = .ok T' ∧ Inv net T' [] up up ∧
      T'.calls = T.calls ++ (packets items).flatMap packetCalls ∧
      ((packets items).flatMap packetCalls |>.filterMap (sentNet net)).Perm
        (items.map (Pending.net net)) := by
  induction fuel generalizing items peer T with
  | zero => omega
  | succ fuel ih =>
    cases items with
    | nil =>
      have hqueue : T.queue = [] := h.queue
      have heq : peer = up := funext fun n => h.tracks.rest n (by simp)
      refine ⟨T, ?_, heq ▸ h, by simp [packets], by simp [packets]⟩
      rw [RibOutTable.pushLoop, hqueue]
    | cons i items =>
      set packet := i :: items.filter (·.joins i.key)
      set rest := items.filter (!·.joins i.key)
      have hperm : (packet ++ rest).Perm (i :: items) := (filter_append_perm _ items).cons i
      have hlocked := h.locked.trans (hperm.symm.flatMap_right refs)
      have hnodup := (hperm.flatMap_right refs).nodup_iff.mpr h.nodup
      rw [flatMap_append] at hlocked hnodup
      obtain ⟨locked, houtput, hl⟩ := output_entries hlocked
      obtain ⟨peer', hpeer, htracks⟩ := (h.tracks.perm hperm).send
      have hlen : rest.length < fuel :=
        (length_filter_le ..).trans_lt (Nat.lt_of_succ_lt_succ hfuel)
      have hrest : Inv net
          { queue := rest.flatMap entries
            locked := locked
            peerBusy := T.peerBusy || busy fuel
            calls := T.calls ++ packetCalls packet }
          rest peer' up :=
        ⟨rfl, hl, (nodup_append'.mp hnodup).2.1, htracks, (announced_packet h.peer _).trans hpeer⟩
      obtain ⟨T', hloop, hinv, hcalls, hsent⟩ := ih hrest hlen
      rw [packets, flatMap_cons]
      refine ⟨T', ?_, hinv, by rw [hcalls, append_assoc], ?_⟩
      · have hqueue : T.queue = i.first :: (i.second ++ items.flatMap entries) := h.queue
        have hextract : extract none (i.first :: (i.second ++ items.flatMap entries)) =
            .ok (packet.flatMap entries, rest.flatMap entries) := extract_first i items
        rw [RibOutTable.pushLoop, hqueue]
        simp only [hextract, ok_bind, houtput]
        exact hloop
      · rw [filterMap_append, packetCalls, filterMap_sentNet]
        refine (hsent.append_left _).trans ?_
        rw [← map_append]
        exact hperm.map _

theorem length_le_entries : items.length ≤ (items.flatMap entries).length := by
  induction items with
  | nil => exact Nat.zero_le _
  | cons i items ih =>
    rw [flatMap_cons, length_append, length_cons, entries,
      length_cons]
    omega

theorem Inv.push [DecidableEq α] (busy : Nat → Bool) (h : Inv net T items peer up) :
    ∃ T', T.push busy = .ok T' ∧ Inv net T' [] up up ∧
      T'.calls = T.calls ++ (packets items).flatMap packetCalls ∧
      ((packets items).flatMap packetCalls |>.filterMap (sentNet net)).Nodup := by
  have hlen : items.length < T.queue.length + 1 := by
    rw [h.queue]
    exact Nat.lt_succ_of_le length_le_entries
  obtain ⟨T', hpush, hinv, hcalls, hsent⟩ := h.pushLoop busy hlen
  exact ⟨T', hpush, hinv, hcalls, hsent.nodup_iff.mpr h.tracks.nodup⟩

end

/-! ### Whole runs -/

section

/-- What is known after an operation on a table that held `T`. -/
structure After [DecidableEq α] (net : ρ → IPNet w) (T T' : RibOutTable ρ α) (o : Op ρ α)
    (up : Held w ρ α) : Prop where
  inv : ∃ items peer, Inv net T' items peer up
  /-- only lists that came with the operation are locked by it -/
  locked : ∀ r ∈ T'.locked, r ∈ T.locked ∨ r ∈ o.refs
  /-- a push sends the packets of the queue, and no net twice -/
  sent : ∃ T₁ pending sent, T.queued net o = .ok T₁ ∧
    T₁.queue = pending.flatMap entries ∧ (pending.flatMap refs).Nodup ∧
    sent = (if o.pushes then (packets pending).flatMap packetCalls else []) ∧
    T'.calls = T.calls ++ sent ∧ (sent.filterMap (sentNet net)).Nodup
  /-- after a push the queue is empty, and the peer holds what upstream holds -/
  pushed : o.pushes = true → T'.queue = [] ∧ announced net T'.calls = some up

variable {T₁ : RibOutTable ρ α}

theorem Inv.finish [DecidableEq α] {o : Op ρ α} (h : Inv net T₁ items peer up)
    (hqueued : T.queued net o = .ok T₁) (hcalls : T₁.calls = T.calls)
    (hlocked : ∀ r ∈ T₁.locked, r ∈ T.locked ∨ r ∈ o.refs) (busy : Nat → Bool) :
    ∃ T', (if o.pushes then T₁.push busy else pure T₁) = .ok T' ∧ After net T T' o up := by
  cases hflag : o.pushes with
  | false =>
    refine ⟨T₁, rfl, ⟨items, peer, h⟩, hlocked, ?_, by simp [hflag]⟩
    exact ⟨T₁, items, [], hqueued, h.queue, h.nodup, by simp [hflag], by simp [hcalls], nodup_nil⟩
  | true =>
    obtain ⟨T', hpush, hinv, hsent, hnodup⟩ := h.push busy
    refine ⟨T', hpush, ⟨[], up, hinv⟩, ?_, ?_, fun _ => ⟨hinv.queue, hinv.peer⟩⟩
    · intro r hr
      rw [hinv.locked.eq_nil] at hr
      cases hr
    · exact ⟨T₁, items, _, hqueued, h.queue, h.nodup, by simp [hflag], hcalls ▸ hsent, hnodup⟩

theorem Inv.step [DecidableEq α] (h : Inv net T items peer up) (o : Op ρ α × (Nat → Bool))
    (ho : o.1.upstream net up = some up') (hnodup : o.1.refs.Nodup)
    (hfresh : ∀ r ∈ o.1.refs, r ∉ T.locked) :
    ∃ T', RibOutTable.step net T o = .ok T' ∧ After net T T' o.1 up' := by
  obtain ⟨o, busy⟩ := o
  cases o with
  | push =>
    obtain rfl : up = up' := some.inj ho
    exact h.finish (o := .push) rfl rfl (fun r hr => .inl hr) busy
  | add m =>
    obtain ⟨hnone, hup⟩ := ite_none_right_eq_some.mp ho
    obtain ⟨T₁, items₁, hadd, hcalls, hlocked, hinv⟩ :=
      h.queueAdd (x := m.toOffer) (isNone_iff_eq_none.mp hnone)
        (hfresh _ mem_cons_self)
    rw [some.inj hup] at hinv
    simp only [RibOutTable.step, addRoute, hadd, ok_bind]
    exact hinv.finish (o := .add m) hadd hcalls
      (fun r hr => (hlocked r hr).imp_right mem_singleton.mpr) busy
  | delete m =>
    obtain ⟨hsome, hup⟩ := ite_none_right_eq_some.mp ho
    obtain ⟨T₁, items₁, hdelete, hcalls, hlocked, hinv⟩ :=
      h.queueDelete (x := m.toOffer) hsome (hfresh _ mem_cons_self)
    rw [some.inj hup] at hinv
    simp only [RibOutTable.step, deleteRoute, hdelete, ok_bind]
    exact hinv.finish (o := .delete m) hdelete hcalls
      (fun r hr => (hlocked r hr).imp_right mem_singleton.mpr) busy
  | replace old new =>
    obtain ⟨⟨hsome, hnet, hflag⟩, hup⟩ := ite_none_right_eq_some.mp ho
    -- a replace is a delete and then an add
    obtain ⟨T₁, items₁, hdelete, hcalls₁, hlocked₁, hinv₁⟩ :=
      h.queueDelete (x := old.toOffer) hsome (hfresh _ mem_cons_self)
    have hne : new.attributes.ref ≠ old.attributes.ref := by
      intro he
      exact (nodup_cons.mp hnodup).1 (mem_singleton.mpr he.symm)
    have hnew : new.attributes.ref ∉ T₁.locked := fun hr =>
      (hlocked₁ _ hr).elim (hfresh _ (mem_cons_of_mem _ mem_cons_self)) hne
    obtain ⟨T₂, items₂, hadd, hcalls₂, hlocked₂, hinv₂⟩ :=
      hinv₁.queueAdd (x := new.toOffer) (by rw [hnet, update_self]) hnew
    rw [hnet, update_idem, some.inj hup] at hinv₂
    simp only [RibOutTable.step, replaceRoute, deleteRoute, addRoute, hflag, hdelete, hadd,
      ok_bind, Bool.false_eq_true, if_false, pure_bind]
    have hqueued : T.queued net (.replace old new) = .ok T₂ := by
      rw [queued, hdelete]
      exact hadd
    refine hinv₂.finish (o := .replace old new) hqueued (hcalls₂.trans hcalls₁) ?_ busy
    intro r hr
    rcases hlocked₂ r hr with hr | rfl
    · exact (hlocked₁ r hr).imp_right fun he => mem_cons.mpr (.inl he)
    · exact .inr (mem_cons_of_mem _ mem_cons_self)

/-- Upstream's operations on a table can always be carried out, if each of them comes with
attribute lists of its own. -/
theorem Inv.run [DecidableEq α] {ops : List (Op ρ α × (Nat → Bool))}
    (h : Inv net T items peer up)
    (hup : ops.foldlM (fun held o => o.1.upstream net held) up = some up')
    (hrefs : (ops.flatMap fun o => o.1.refs).Nodup)
    (hfresh : ∀ r ∈ ops.flatMap fun o => o.1.refs, r ∉ T.locked) :
    ∃ T' items' peer', RibOutTable.run net T ops = .ok T' ∧ Inv net T' items' peer' up' ∧
      ∀ r ∈ T'.locked, r ∈ T.locked ∨ r ∈ ops.flatMap fun o => o.1.refs := by
  induction ops generalizing T items peer up with
  | nil =>
    obtain rfl : up = up' := some.inj hup
    exact ⟨T, items, peer, rfl, h, fun r hr => .inl hr⟩
  | cons o ops ih =>
    obtain ⟨up₁, ho, hup⟩ := bind_eq_some_iff.mp hup
    obtain ⟨hself, hrest, hdisj⟩ := nodup_append'.mp hrefs
    obtain ⟨T₁, hstep, hafter⟩ := h.step o ho hself fun r hr =>
      hfresh r (mem_append_left _ hr)
    obtain ⟨items₁, peer₁, hinv⟩ := hafter.inv
    obtain ⟨T', items', peer', hrun, hinv', hlocked⟩ := ih hinv hup hrest (by
      intro r hr hl
      exact (hafter.locked r hl).elim (hfresh r (mem_append_right _ hr))
        fun hr' => hdisj hr' hr)
    refine ⟨T', items', peer', ?_, hinv', ?_⟩
    · rw [RibOutTable.run, foldlM_cons, hstep]
      exact hrun
    · intro r hr
      rcases hlocked r hr with hr | hr
      · exact (hafter.locked r hr).imp_right (mem_append_left _)
      · exact .inr (mem_append_right _ hr)

end

end RibOutTable

end Xorp.Bgp

/-
The packets for a peer.

The `PeerHandler` makes update packets of what an output table asks of it.  Routes of IPv4 unicast
go into the packet itself, all others into attributes of the packet.  There the handler takes a
packet whose attribute list is not empty for one that has the attributes of the routes already.  A
withdrawal makes an attribute, so in a packet that starts with one the attributes for an announcement
are missing.
-/
import Mathlib.Data.List.Flatten
import Xorp.Bgp.RibOut

namespace Xorp.Bgp.RibOutTable

open Linked List Pending

variable {w : Nat} {ρ α N : Type}

/-- The address family and the SAFI of a table.  Routes of IPv6 are handled alike for both. -/
inductive Family where
  | ipv4Unicast
  | ipv4Multicast
  | ipv6
deriving DecidableEq, Repr

structure UpdatePacket (ρ α : Type) where
  wrList : List ρ := []
  nlriList : List ρ := []
  /-- the attributes of the routes, from the first one on -/
  attributes : Option α := none
  mpReach : Option (List ρ) := none
  mpUnreach : Option (List ρ) := none

namespace UpdatePacket

variable (p : UpdatePacket ρ α)

/-- Whether the attribute list of the packet is empty.  That of a route never is. -/
def noAttributes : Bool :=
  p.attributes.isNone && p.mpReach.isNone && p.mpUnreach.isNone

def bigEnough : Bool := 2048 < (p.wrList.length + p.nlriList.length) * 4

/-- How many routes the packet announces. -/
def nlri : Nat := p.nlriList.length + (p.mpReach.getD []).length

/-- How many routes the packet withdraws. -/
def wdr : Nat := p.wrList.length + (p.mpUnreach.getD []).length

variable [DecidableEq N] (family : Family) (nexthop : α → N)

/-- An announcement; `nexthop` is that of an attribute list. -/
def addRoute (x : Offer ρ α) (p : UpdatePacket ρ α) : Except Fault (UpdatePacket ρ α) :=
  let own := some x.attributes.list
  match family with
  | .ipv4Unicast =>
      let p := if p.noAttributes then { p with attributes := own } else p
      if p.attributes.map nexthop = own.map nexthop then
        .ok { p with nlriList := p.nlriList ++ [x.route] }
      else .error .assertion
  | .ipv4Multicast =>
      -- The packet gets the route's own list, without the nexthop, and asks that list for it.
      -- Otherwise the route's list should have an `MP_REACH_NLRI`.
      if p.noAttributes then .error .badPointer else .error .assertion
  | .ipv6 =>
      let p := if p.noAttributes then { p with attributes := own, mpReach := some [] } else p
      match p.mpReach with
      | none => .error .assertion
      | some nlri =>
          if p.attributes.map nexthop = own.map nexthop then
            .ok { p with mpReach := some (nlri ++ [x.route]) }
          else .error .assertion

def deleteRoute (x : Offer ρ α) (p : UpdatePacket ρ α) : UpdatePacket ρ α :=
  match family with
  | .ipv4Unicast => { p with wrList := p.wrList ++ [x.route] }
  | .ipv4Multicast | .ipv6 => { p with mpUnreach := some (p.mpUnreach.getD [] ++ [x.route]) }

end UpdatePacket

structure PeerHandler (ρ α : Type) where
  packet : Option (UpdatePacket ρ α)
  sent : List (UpdatePacket ρ α)

namespace PeerHandler

def startPacket (H : PeerHandler ρ α) : Except Fault (PeerHandler ρ α) :=
  if H.packet.isSome then .error .assertion else .ok { H with packet := some {} }

/-- A packet in which there is nothing for the peer is dropped. -/
def pushPacket (H : PeerHandler ρ α) : Except Fault (PeerHandler ρ α) :=
  match H.packet with
  | none => .error .assertion
  | some p =>
      if p.wdr + p.nlri = 0 then .ok { H with packet := none }
      else if 0 < p.nlri ∧ p.noAttributes then .error .assertion
      else .ok ⟨none, H.sent ++ [p]⟩

/-- A route, for a peer that wants routes of this kind: it goes into the packet or, if that is big
enough, into the next one. -/
def put (negotiated : Bool) (f : UpdatePacket ρ α → Except Fault (UpdatePacket ρ α))
    (H : PeerHandler ρ α) : Except Fault (PeerHandler ρ α) :=
  match H.packet with
  | none => .error .assertion
  | some p =>
      if !negotiated then .ok H
      else if p.bigEnough then do
        let H ← H.pushPacket
        let p ← f {}
        return { H with packet := some p }
      else do
        let p ← f p
        return { H with packet := some p }

/-- A call.  A replacement is an announcement. -/
def take [DecidableEq N] (family : Family) (negotiated : Bool) (nexthop : α → N)
    (H : PeerHandler ρ α) : PeerCall ρ α → Except Fault (PeerHandler ρ α)
  | .startPacket => H.startPacket
  | .addRoute x | .replaceRoute _ _ x => H.put negotiated (·.addRoute family nexthop x)
  | .deleteRoute x => H.put negotiated fun p => .ok (p.deleteRoute family x)
  | .pushPacket => H.pushPacket

def takeAll [DecidableEq N] (family : Family) (negotiated : Bool) (nexthop : α → N)
    (H : PeerHandler ρ α) (calls : List (PeerCall ρ α)) : Except Fault (PeerHandler ρ α) :=
  calls.foldlM (take family negotiated nexthop) H

end PeerHandler

/-! ### One packet -/

namespace UpdatePacket

/-- Every route with these attributes can go into the packet. -/
def Serves (a : α) (p : UpdatePacket ρ α) : Family → Prop
  | .ipv4Unicast => p.mpReach = none ∧ p.mpUnreach = none ∧
      (p.attributes = some a ∨ p.attributes = none ∧ p.nlriList = [])
  | .ipv4Multicast => False
  | .ipv6 => p.attributes = some a ∧ p.mpReach.isSome ∧ p.wrList = [] ∧ p.nlriList = []

/-- Only withdrawals can go into the packet. -/
structure Withdraws (p : UpdatePacket ρ α) (family : Family) : Prop where
  family : family ≠ .ipv4Unicast
  attributes : p.attributes = none
  mpReach : p.mpReach = none
  mpUnreach : p.mpUnreach.isSome
  small : p.wrList = [] ∧ p.nlriList = []

variable {family : Family} {nexthop : α → N} {a : α} {p : UpdatePacket ρ α} {x : Offer ρ α}

section Serves

variable (h : p.Serves a family)
include h

theorem Serves.addRoute [DecidableEq N] (hx : x.attributes.list = a) :
    ∃ p', p.addRoute family nexthop x = .ok p' ∧ p'.Serves a family := by
  subst hx
  cases family with
  | ipv4Unicast =>
    obtain ⟨hreach, hun, hatt | ⟨hatt, hnlri⟩⟩ := h
    · simp [UpdatePacket.addRoute, noAttributes, hatt, Serves, hreach, hun]
    · simp [UpdatePacket.addRoute, noAttributes, hatt, Serves, hreach, hun]
  | ipv4Multicast => exact h.elim
  | ipv6 =>
    obtain ⟨hatt, hreach, hwr, hnlri⟩ := h
    obtain ⟨l, hl⟩ := Option.isSome_iff_exists.mp hreach
    simp [UpdatePacket.addRoute, noAttributes, hatt, hl, Serves, hwr, hnlri]

theorem Serves.deleteRoute : (p.deleteRoute family x).Serves a family := by
  cases family with
  | ipv4Unicast => exact h
  | ipv4Multicast => exact h.elim
  | ipv6 => exact h

/-- The next packet serves as well. -/
theorem Serves.next (hbig : p.bigEnough = true) :
    UpdatePacket.Serves a ({} : UpdatePacket ρ α) family := by
  cases family with
  | ipv4Unicast => exact ⟨rfl, rfl, .inr ⟨rfl, rfl⟩⟩
  | ipv4Multicast => exact h.elim
  | ipv6 => simp [bigEnough, h.2.2.1, h.2.2.2] at hbig

theorem Serves.attributes_of_nlri (hn : 0 < p.nlri) : p.noAttributes = false := by
  cases family with
  | ipv4Unicast =>
    obtain ⟨hreach, -, hatt | ⟨-, hnlri⟩⟩ := h
    · simp [noAttributes, hatt]
    · simp [nlri, hreach, hnlri] at hn
  | ipv4Multicast => exact h.elim
  | ipv6 => simp [noAttributes, h.1]

end Serves

section Withdraws

variable (h : p.Withdraws family)
include h

theorem Withdraws.addRoute [DecidableEq N] : ∃ e, p.addRoute family nexthop x = .error e := by
  obtain ⟨hfamily, hatt, hreach, hun, -⟩ := h
  obtain ⟨l, hl⟩ := Option.isSome_iff_exists.mp hun
  cases family with
  | ipv4Unicast => exact absurd rfl hfamily
  | ipv4Multicast => simp [UpdatePacket.addRoute, noAttributes, hl]
  | ipv6 => simp [UpdatePacket.addRoute, noAttributes, hl, hreach]

theorem Withdraws.bigEnough : p.bigEnough = false := by
  simp [UpdatePacket.bigEnough, h.small.1, h.small.2]

theorem Withdraws.nlri : p.nlri = 0 := by
  simp [UpdatePacket.nlri, h.small.2, h.mpReach]

end Withdraws

end UpdatePacket

namespace Pending

def isDelete : Pending ρ α → Bool
  | .delete _ => true
  | .add _ | .replace _ _ => false

end Pending

namespace PeerHandler

variable {family : Family} {nexthop : α → N} {a : α} {H : PeerHandler ρ α} {p : UpdatePacket ρ α}
  {i : Pending ρ α} {l : List (Pending ρ α)}

/-- The handler returns if `P` and stops otherwise, and has no packet open after it. -/
abbrev Finishes (P : Prop) (r : Except Fault (PeerHandler ρ α)) : Prop :=
  Yields (fun _ => ¬ P) (fun H' => P ∧ H'.packet = none) r

theorem pushPacket_ok (hp : H.packet = some p) (hn : 0 < p.nlri → p.noAttributes = false) :
    ∃ H', H.pushPacket = .ok H' ∧ H'.packet = none := by
  unfold pushPacket
  rw [hp]
  dsimp only
  split_ifs with hzero hfault
  · exact ⟨_, rfl, rfl⟩
  · rw [hn hfault.1] at hfault
    cases hfault.2
  · exact ⟨_, rfl, rfl⟩

/-- A route goes into a packet that serves it. -/
theorem put_serves {f : UpdatePacket ρ α → Except Fault (UpdatePacket ρ α)} (hp : H.packet = some p)
    (h : p.Serves a family)
    (hf : ∀ q : UpdatePacket ρ α, q.Serves a family → ∃ q', f q = .ok q' ∧ q'.Serves a family) :
    ∃ H' p', H.put true f = .ok H' ∧ H'.packet = some p' ∧ p'.Serves a family := by
  unfold put
  rw [hp]
  dsimp only
  cases hbig : p.bigEnough with
  | false =>
    obtain ⟨p', hp', h'⟩ := hf p h
    exact ⟨_, p', by rw [hp']; rfl, rfl, h'⟩
  | true =>
    obtain ⟨H₁, hpush, -⟩ := pushPacket_ok hp h.attributes_of_nlri
    obtain ⟨p', hp', h'⟩ := hf _ (h.next hbig)
    exact ⟨_, p', by rw [hpush, ok_bind, hp']; rfl, rfl, h'⟩

variable [DecidableEq N] {negotiated : Bool}

theorem takeAll_cons (c : PeerCall ρ α) (calls : List (PeerCall ρ α)) :
    H.takeAll family negotiated nexthop (c :: calls) =
      (do (← H.take family negotiated nexthop c).takeAll family negotiated nexthop calls) :=
  foldlM_cons ..

theorem takeAll_append (calls calls' : List (PeerCall ρ α)) :
    H.takeAll family negotiated nexthop (calls ++ calls') = (do
      let H ← H.takeAll family negotiated nexthop calls
      H.takeAll family negotiated nexthop calls') :=
  foldlM_append ..

theorem takeAll_last {H' : PeerHandler ρ α} (h : H.pushPacket = .ok H') :
    H.takeAll family negotiated nexthop [.pushPacket] = .ok H' := by
  rw [takeAll_cons]
  exact congrArg (· >>= _) h

/-- Into a packet that serves go all the routes with its attributes. -/
theorem serves_run (hl : ∀ j ∈ l, j.key.list = a) (hp : H.packet = some p) (h : p.Serves a family) :
    ∃ H', H.takeAll family true nexthop (l.map call ++ [.pushPacket]) = .ok H' ∧
      H'.packet = none := by
  induction l generalizing H p with
  | nil =>
    obtain ⟨H', hpush, hnone⟩ := pushPacket_ok hp h.attributes_of_nlri
    exact ⟨H', takeAll_last hpush, hnone⟩
  | cons j l ih =>
    obtain ⟨hj, hl⟩ := forall_mem_cons.mp hl
    obtain ⟨H₁, p₁, htake, hp₁, h₁⟩ : ∃ H' p', H.take family true nexthop j.call = .ok H' ∧
        H'.packet = some p' ∧ p'.Serves a family := by
      cases j with
      | add x | replace _ x => exact put_serves hp h fun q hq => hq.addRoute hj
      | delete x => exact put_serves hp h fun q hq => ⟨_, rfl, hq.deleteRoute⟩
    obtain ⟨H', hrun, hnone⟩ := ih hl hp₁ h₁
    refine ⟨H', ?_, hnone⟩
    rw [map_cons, cons_append, takeAll_cons, htake]
    exact hrun

/-- Into the others go withdrawals, up to the first route that is none. -/
theorem withdraws_run (l : List (Pending ρ α)) (hp : H.packet = some p) (h : p.Withdraws family) :
    Finishes (∀ j ∈ l, j.isDelete = true)
      (H.takeAll family true nexthop (l.map call ++ [.pushPacket])) := by
  induction l generalizing H p with
  | nil =>
    obtain ⟨H', hpush, hnone⟩ := pushPacket_ok hp (by simp [h.nlri])
    exact .of_ok (takeAll_last hpush) ⟨by simp, hnone⟩
  | cons j l ih =>
    have hput : ∀ f, H.put true f = (do return { H with packet := some (← f p) }) := by
      intro f
      simp only [put, hp, h.bigEnough]
      rfl
    rw [map_cons, cons_append, takeAll_cons]
    cases j with
    | add x | replace _ x =>
      obtain ⟨e, he⟩ : ∃ e, p.addRoute family nexthop x = .error e := h.addRoute
      simp only [call, take, hput, he]
      show ¬ _
      simp [isDelete]
    | delete x =>
      have hp' : (p.deleteRoute family x).Withdraws family := by
        obtain ⟨hfamily, hatt, hreach, hun, hsmall⟩ := h
        cases family with
        | ipv4Unicast => exact absurd rfl hfamily
        | ipv4Multicast | ipv6 => exact ⟨hfamily, hatt, hreach, rfl, hsmall⟩
      simp only [call, take, hput]
      have hrun := ih (H := { H with packet := some (p.deleteRoute family x) }) rfl hp'
      simpa [isDelete] using hrun

/-- A handler makes a packet of these operations. -/
def Sendable (family : Family) (l : List (Pending ρ α)) : Prop :=
  match family with
  | .ipv4Unicast => True
  | .ipv4Multicast => ∀ j ∈ l, j.isDelete = true
  | .ipv6 => (l.head?.any isDelete) → ∀ j ∈ l, j.isDelete = true

/-- **One packet**: the handler takes the calls of it, or stops. -/
theorem packet_run (hnone : H.packet = none) (hl : ∀ j ∈ l, j.key.list = i.key.list) :
    Finishes (Sendable family (i :: l)) (H.takeAll family true nexthop (packetCalls (i :: l))) := by
  have hstart : H.take family true nexthop .startPacket = .ok { H with packet := some {} } := by
    simp [take, startPacket, hnone]
  rw [packetCalls, map_cons, cons_append, cons_append, takeAll_cons, hstart, ok_bind]
  set H₀ : PeerHandler ρ α := { H with packet := some {} }
  have hfirst : ∀ f, H₀.put true f = (do return { H with packet := some (← f {}) }) := fun _ => rfl
  -- What a packet takes that a withdrawal has made.
  have hclosed : ∀ x, family ≠ .ipv4Unicast → Finishes (∀ j ∈ l, j.isDelete = true)
      (H₀.takeAll family true nexthop (.deleteRoute x :: (l.map call ++ [.pushPacket]))) := by
    intro x hfamily
    rw [takeAll_cons]
    simp only [take, hfirst]
    refine withdraws_run l rfl ?_
    cases family with
    | ipv4Unicast => exact absurd rfl hfamily
    | ipv4Multicast | ipv6 => exact ⟨hfamily, rfl, rfl, rfl, rfl, rfl⟩
  cases family with
  | ipv4Unicast =>
    have hserves : UpdatePacket.Serves i.key.list ({} : UpdatePacket ρ α) .ipv4Unicast :=
      ⟨rfl, rfl, .inr ⟨rfl, rfl⟩⟩
    obtain ⟨H', hrun, hend⟩ : ∃ H', H₀.takeAll _ true nexthop ((i :: l).map _ ++ _) = .ok H' ∧ _ :=
      serves_run (forall_mem_cons.mpr ⟨rfl, hl⟩) rfl hserves
    exact .of_ok hrun ⟨trivial, hend⟩
  | ipv4Multicast =>
    cases i with
    | delete x => simpa [Sendable, isDelete, call] using hclosed x (by decide)
    | add x | replace _ x =>
      rw [takeAll_cons]
      show ¬ ∀ j ∈ _ :: l, _
      simp [isDelete]
  | ipv6 =>
    cases i with
    | delete x => simpa [Sendable, isDelete, call] using hclosed x (by decide)
    | add x | replace _ x =>
      set p : UpdatePacket ρ α := ⟨[], [], some x.attributes.list, some [x.route], none⟩
      have hserves : p.Serves x.attributes.list .ipv6 := ⟨rfl, rfl, rfl, rfl⟩
      have hadd : UpdatePacket.addRoute .ipv6 nexthop x {} = .ok p := if_pos rfl
      obtain ⟨H', hrun, hend⟩ : ∃ H', takeAll _ true nexthop { H with packet := some p } _ = .ok H' ∧ _ :=
        serves_run hl rfl hserves
      refine .of_ok ?_ ⟨fun hdel => absurd hdel Bool.false_ne_true, hend⟩
      rw [takeAll_cons]
      simp only [call, take, hfirst, hadd]
      exact hrun

/-- A peer that does not want the routes is sent nothing. -/
theorem packet_skipped (hnone : H.packet = none) (l : List (Pending ρ α)) :
    H.takeAll family false nexthop (packetCalls l) = .ok H := by
  obtain ⟨packet, sent⟩ := H
  obtain rfl : packet = none := hnone
  show takeAll family false nexthop ⟨some {}, sent⟩ (l.map call ++ [.pushPacket]) = _
  induction l with
  | nil => rfl
  | cons j l ih =>
    rw [map_cons, cons_append, takeAll_cons]
    cases j <;> exact ih

/-- All the packets of a push. -/
theorem packets_run (hnone : H.packet = none) {P : List (List (Pending ρ α))}
    (hP : ∀ l ∈ P, ∃ i l', l = i :: l' ∧ ∀ j ∈ l', j.key.list = i.key.list) :
    Finishes (negotiated = true → ∀ l ∈ P, Sendable family l)
      (H.takeAll family negotiated nexthop (P.flatMap packetCalls)) := by
  induction P generalizing H with
  | nil => exact ⟨by simp, hnone⟩
  | cons l P ih =>
    obtain ⟨⟨i, l', rfl, hl⟩, hrest⟩ := forall_mem_cons.mp hP
    rw [flatMap_cons, takeAll_append]
    cases negotiated with
    | false =>
      rw [packet_skipped hnone]
      simpa using ih hnone hrest
    | true =>
      have hone : Finishes _ (H.takeAll family true nexthop _) := packet_run hnone hl
      rcases hone.ok_or with ⟨H₁, h₁, hs, hend⟩ | ⟨e, he, hs⟩
      · rw [h₁]
        simpa [hs] using ih hend hrest
      · rw [he]
        show ¬ _
        simp [hs]

end PeerHandler

/-! ### The packets of a queue -/

variable [DecidableEq α] {items : List (Pending ρ α)}

/-- The operations of a packet have the attributes of the first one: no replacement has its attribute
list object. -/
theorem packets_share (h : (items.flatMap refs).Nodup) : ∀ l ∈ packets items,
    ∃ i l', l = i :: l' ∧ ∀ j ∈ l', j.key.list = i.key.list := by
  induction items using packets.induct with
  | case1 => simp [packets]
  | case2 i items ih =>
    rw [@unattach_filter _ _ _ _ (!·.joins i.key) fun _ _ => rfl, unattach_attach] at ih
    rw [flatMap_cons, nodup_append'] at h
    obtain ⟨-, hrest, hdisj⟩ := h
    rw [packets]
    refine forall_mem_cons.mpr ⟨⟨i, _, rfl, fun j hj => ?_⟩,
      ih (hrest.sublist (filter_sublist.flatMap _))⟩
    obtain ⟨hj, hjoin⟩ := mem_filter.mp hj
    cases j with
    | add x | delete x => exact of_decide_eq_true hjoin
    | replace old new =>
      have href : new.attributes.ref = i.key.ref := of_decide_eq_true hjoin
      refine (hdisj ?_ (mem_flatMap.mpr ⟨_, hj, mem_cons_self⟩)).elim
      rw [href]
      cases i <;> simp [refs, key]

/-- A route is announced, and replaced before the next push. -/
def replacedOnce : List (Op (IPNet 32 × Nat) Nat × (Nat → Bool)) :=
  [(.add ⟨⟨(IPNet.any 32, 0), ⟨0, 0⟩, false⟩, true⟩, fun _ => false),
   (.replace ⟨⟨(IPNet.any 32, 0), ⟨1, 0⟩, false⟩, false⟩
      ⟨⟨(IPNet.any 32, 1), ⟨2, 1⟩, true⟩, false⟩, fun _ => true)]

/-- It is replaced again, with a push to a peer that is busy. -/
def replacedAgain : Op (IPNet 32 × Nat) Nat × (Nat → Bool) :=
  (.replace ⟨⟨(IPNet.any 32, 1), ⟨3, 1⟩, true⟩, false⟩
    ⟨⟨(IPNet.any 32, 2), ⟨4, 2⟩, false⟩, true⟩, fun _ => true)

/-- A route of IPv6 is announced, and withdrawn before another one is announced with the same
attributes. -/
def withdrawnFirst : List (Op (IPNet 128) Nat × (Nat → Bool)) :=
  [(.add ⟨⟨IPNet.any 128, ⟨0, 0⟩, false⟩, true⟩, fun _ => false),
   (.delete ⟨⟨IPNet.any 128, ⟨1, 0⟩, false⟩, false⟩, fun _ => false),
   (.add ⟨⟨IPNet.host 1, ⟨2, 0⟩, false⟩, false⟩, fun _ => false)]

end Xorp.Bgp.RibOutTable

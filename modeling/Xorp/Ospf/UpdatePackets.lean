/-
LSAs are packed into Link State Update packets.

Three loops of a neighbour do this: for the LSAs that were requested, for those that are queued and
for those that are retransmitted.  An LSA goes into the packet as long as it fits.  When one does
not, the packet is sent and the next one starts empty, without the LSA that did not fit.  Nor is
the number of LSAs, which is in front of them in the packet, counted as part of its length.
-/
import Xorp.Ospf.Loading
import Xorp.Ospf.Packet

namespace Xorp.Ospf

open Linked Wire List

/-- What the loops look at in an LSA.  `nack` is `exists_nack` of the neighbour. -/
structure Outgoing where
  ref : Nat
  valid : Bool
  nack : Bool
  len : Nat
deriving DecidableEq

namespace Outgoing

def pending (l : Outgoing) : Bool := l.valid && l.nack

def total (lsas : List Outgoing) : Nat := (lsas.map len).sum

section
variable (version : Version) (frame : Nat) (state : NeighbourState)

/-- The length `LinkStateUpdatePacket::encode` gives the packet. -/
def packetLength (lsas : List Outgoing) : Nat := standardHeader version + 4 + total lsas

/-- The loop with its packet, and what is left in the packet at the end. -/
def fill (take : Outgoing → Bool) : List Outgoing → Nat → List Outgoing → List (List Outgoing)
  | packet, _, [] => if packet.isEmpty then [] else [packet]
  | packet, lsasLen, l :: lsas =>
    if take l then
      if standardHeader version + l.len + lsasLen < frame then
        fill take (packet ++ [l]) (lsasLen + l.len) lsas
      else packet :: fill take [] 0 lsas
    else fill take packet lsasLen lsas

/-- `lsas` are what `get_lsas` has found. -/
def linkStateRequestReceived (lsas : Option (List Outgoing)) :
    Except Fault (List (List Outgoing)) :=
  match state, lsas with
  | .exchange, some lsas | .loading, some lsas | .full, some lsas =>
    if lsas.all valid then .ok (fill version frame (fun _ => true) [] 0 lsas)
    else .error .assertion
  | _, _ => .ok []

/-- The packets, and the queue that is left. -/
def pushLsas (queue : List Outgoing) : List (List Outgoing) × List Outgoing :=
  match state with
  | .exchange | .loading | .full => (fill version frame pending [] 0 queue, [])
  | _ => ([], [])

/-- The part of `retransmitter` that sends LSAs: the packets, and the list that is left. -/
def retransmitter (rxmt : List Outgoing) : List (List Outgoing) × List Outgoing :=
  (fill version frame pending [] 0 rxmt, rxmt.filter pending)

/-- Every LSA is in the packets once and in order, and every packet fits. -/
abbrev Complete (lsas : List Outgoing) (packets : List (List Outgoing)) : Prop :=
  packets.flatten = lsas ∧ ∀ p ∈ packets, packetLength version p ≤ frame

end

variable {version : Version} {frame n : Nat} {take : Outgoing → Bool} {packet : List Outgoing}

theorem length_fill_le (lsas : List Outgoing) :
    (fill version frame take packet n lsas).flatten.length ≤
      packet.length + (lsas.filter take).length := by
  induction lsas generalizing packet n with
  | nil => cases packet <;> simp [fill]
  | cons l lsas ih =>
    by_cases ht : take l
    · by_cases hfit : standardHeader version + l.len + n < frame
      · have hle := @ih (n + l.len) (packet ++ [l])
        simp [fill, ht, hfit] at hle ⊢
        omega
      · have hle := @ih 0 []
        simp [fill, ht, hfit] at hle ⊢
        omega
    · simpa [fill, ht] using ih

/-- As long as everything fits, there is one packet. -/
theorem fill_eq (lsas : List Outgoing)
    (h : standardHeader version + n + total (lsas.filter take) < frame) :
    fill version frame take packet n lsas =
      if (packet ++ lsas.filter take).isEmpty then [] else [packet ++ lsas.filter take] := by
  induction lsas generalizing packet n with
  | nil => simp [fill]
  | cons l lsas ih =>
    by_cases ht : take l
    · simp only [ht, filter_cons_of_pos, total, map_cons, sum_cons] at h
      rw [fill, if_pos ht, if_pos (by omega), ih (by unfold total; omega)]
      simp [ht]
    · simp only [ht, Bool.false_eq_true, not_false_eq_true, filter_cons_of_neg] at h ⊢
      rw [fill, if_neg ht, ih h]

/-- Nothing is lost only if everything fits. -/
theorem fits_of_fill (lsas : List Outgoing) (hn : standardHeader version + n < frame)
    (h : (fill version frame take packet n lsas).flatten = packet ++ lsas.filter take) :
    standardHeader version + n + total (lsas.filter take) < frame := by
  induction lsas generalizing packet n with
  | nil => simpa [total] using hn
  | cons l lsas ih =>
    by_cases ht : take l
    · by_cases hfit : standardHeader version + l.len + n < frame
      · have hrest := @ih (n + l.len) (packet ++ [l]) (by omega) (by simpa [fill, ht, hfit] using h)
        simp [ht, total] at hrest ⊢
        omega
      · -- the LSA in hand is in no packet
        have hlen := congrArg List.length h
        have hle := @length_fill_le version frame 0 take [] lsas
        simp [fill, ht, hfit] at hlen hle
        omega
    · simp only [fill, ht, Bool.false_eq_true, if_false, not_false_eq_true, filter_cons_of_neg] at h ⊢
      exact ih hn h

section
variable (hframe : packetLength version [] < frame)
include hframe

theorem complete_fill_iff (lsas : List Outgoing) :
    Complete version frame (lsas.filter take) (fill version frame take [] 0 lsas) ↔
      packetLength version (lsas.filter take) ≤ frame := by
  simp only [packetLength, total, map_nil, sum_nil] at hframe
  constructor
  · intro ⟨hall, hle⟩
    have hfit := fits_of_fill lsas (by omega) hall
    rw [fill_eq lsas hfit] at hle
    by_cases hnil : lsas.filter take = []
    · simp [hnil, packetLength, total]
      omega
    · exact hle _ (by simp [hnil])
  · intro hle
    rw [Complete, fill_eq lsas (by simp only [packetLength] at hle; omega)]
    by_cases hnil : lsas.filter take = []
    · simp [hnil]
    · simp [hnil, hle]

/-- A call loses no LSA exactly if all that it has to send fit into one packet. -/
theorem updates_complete_iff {state : NeighbourState}
    (hstate : state = .exchange ∨ state = .loading ∨ state = .full) {lsas : List Outgoing}
    (hvalid : lsas.all valid = true) (queue rxmt : List Outgoing) :
    (∃ packets, linkStateRequestReceived version frame state (some lsas) = .ok packets ∧
      (Complete version frame lsas packets ↔ packetLength version lsas ≤ frame)) ∧
    (Complete version frame (queue.filter pending) (pushLsas version frame state queue).1 ↔
      packetLength version (queue.filter pending) ≤ frame) ∧
    (Complete version frame (rxmt.filter pending) (retransmitter version frame rxmt).1 ↔
      packetLength version (rxmt.filter pending) ≤ frame) := by
  have hpush : (pushLsas version frame state queue).1 = fill version frame pending [] 0 queue := by
    rcases hstate with rfl | rfl | rfl <;> rfl
  have hsent : linkStateRequestReceived version frame state (some lsas) =
      .ok (fill version frame (fun _ => true) [] 0 lsas) := by
    rcases hstate with rfl | rfl | rfl <;> simp only [linkStateRequestReceived, hvalid, if_true]
  have hall := @complete_fill_iff version frame (fun _ => true) hframe lsas
  rw [filter_true] at hall
  rw [hpush]
  exact ⟨⟨_, hsent, hall⟩, complete_fill_iff hframe queue, complete_fill_iff hframe rxmt⟩

end

/-- Two LSAs of 40 bytes. -/
def twoLsas : List Outgoing := [⟨1, true, true, 40⟩, ⟨2, true, true, 40⟩]

theorem updates_complete_one : Complete .v2 200 twoLsas (retransmitter .v2 200 twoLsas).1 :=
  (updates_complete_iff (by decide) (.inl rfl) (show twoLsas.all valid = true from rfl) []
    twoLsas).2.2.mpr (by decide)

/-- In a frame of 100 bytes there is room for one of them. -/
theorem updates_lose_lsa : (∀ l ∈ twoLsas, packetLength .v2 [l] < 100) ∧
    (∃ packets, linkStateRequestReceived .v2 100 .full (some twoLsas) = .ok packets ∧
      ¬ Complete .v2 100 twoLsas packets) ∧
    ¬ Complete .v2 100 twoLsas (pushLsas .v2 100 .full twoLsas).1 ∧
    ¬ Complete .v2 100 twoLsas (retransmitter .v2 100 twoLsas).1 :=
  ⟨by decide, ⟨_, rfl, by decide⟩, by decide, by decide⟩

end Outgoing

end Xorp.Ospf

/-
The packets that wait to be sent.

The queue counts the bytes of its packets and, when a new one does not fit, drops old ones; the first
one is being sent and stays.  A packet that is dropped is still counted, so the queue goes on to drop
all the others, and once it is flushed the count is not zero.  It does no harm only if the packets
that are dropped have no bytes.
-/
import Xorp.Lib.Heap

namespace Xorp.Rip

open Linked List

structure RipPacket where
  data : List UInt8

def RipPacket.dataBytes (pkt : RipPacket) : BitVec 32 := .ofNat 32 pkt.data.length

structure PacketQueue where
  readyPackets : List RipPacket := []
  bufferedBytes : BitVec 32 := 0
  maxBufferedBytes : BitVec 32 := 64000
  drops : BitVec 32 := 0

namespace PacketQueue

/-- `drop_old`, if it drops a packet. -/
def dropOld (Q : PacketQueue) : Option PacketQueue :=
  match Q.readyPackets with
  | head :: _ :: rest => some { Q with readyPackets := head :: rest, drops := Q.drops + 1 }
  | _ => none

/-- The loop of `enqueue_packet`, for so many packets. -/
def dropLoop (pkt : RipPacket) : Nat → PacketQueue → PacketQueue
  | 0, Q => Q
  | n + 1, Q =>
      if Q.maxBufferedBytes ≤ Q.bufferedBytes + pkt.dataBytes then
        match Q.dropOld with
        | some Q => dropLoop pkt n Q
        | none => Q
      else Q

def enqueuePacket (Q : PacketQueue) (pkt : RipPacket) : PacketQueue :=
  let Q := dropLoop pkt Q.readyPackets.length Q
  { Q with
    bufferedBytes := Q.bufferedBytes + pkt.dataBytes
    readyPackets := Q.readyPackets ++ [pkt] }

def popHead (Q : PacketQueue) : PacketQueue :=
  match Q.readyPackets with
  | [] => Q
  | head :: rest =>
      { Q with bufferedBytes := Q.bufferedBytes - head.dataBytes, readyPackets := rest }

def flushPackets (Q : PacketQueue) : Except Fault PacketQueue :=
  if Q.readyPackets.foldl (fun b pkt => b - pkt.dataBytes) Q.bufferedBytes = 0 then
    .ok { Q with readyPackets := [], bufferedBytes := 0 }
  else .error .assertion

/-- The bytes that are there. -/
def total (l : List RipPacket) : BitVec 32 := (l.map RipPacket.dataBytes).sum

/-- The count is right, and the queue can be flushed. -/
structure Accounted (Q : PacketQueue) : Prop where
  bytes : Q.bufferedBytes = total Q.readyPackets
  flush : ∃ Q', Q.flushPackets = .ok Q'

/-- A packet behind the head is dropped for a new one only if with it the maximum would be
reached: so it was for the `k`-th that was dropped. -/
def DropsFull (Q : PacketQueue) (pkt : RipPacket) : Prop :=
  ∀ k, (Q.enqueuePacket pkt).readyPackets.length + k ≤ Q.readyPackets.length →
    Q.maxBufferedBytes ≤ total (Q.readyPackets.take 1 ++ Q.readyPackets.drop (1 + k)) + pkt.dataBytes

/-- There is room for a packet, or what is dropped for it has no bytes. -/
def Harmless (Q : PacketQueue) (pkt : RipPacket) : Prop :=
  Q.bufferedBytes + pkt.dataBytes < Q.maxBufferedBytes ∨
    ∀ x ∈ Q.readyPackets.tail, x.dataBytes = 0

inductive Reach (room : PacketQueue → RipPacket → Prop) : PacketQueue → Prop
  | init : Reach room {}
  | enqueuePacket : Reach room Q → room Q pkt → Reach room (Q.enqueuePacket pkt)
  | popHead : Reach room Q → Reach room Q.popHead
  | flushPackets : Reach room Q → Q.flushPackets = .ok Q' → Reach room Q'
  | setMaxBufferedBytes (mbb) : Reach room Q → Reach room { Q with maxBufferedBytes := mbb }

variable {Q : PacketQueue} {pkt : RipPacket}

@[simp] theorem total_nil : total [] = 0 := rfl

@[simp] theorem total_cons (l : List RipPacket) : total (pkt :: l) = pkt.dataBytes + total l := rfl

@[simp] theorem total_append (l l' : List RipPacket) : total (l ++ l') = total l + total l' := by
  simp [total]

theorem foldl_total (l : List RipPacket) :
    l.foldl (fun b pkt => b - pkt.dataBytes) (total l) = 0 := by
  induction l with
  | nil => rfl
  | cons pkt l ih => simpa [BitVec.add_comm, BitVec.add_sub_cancel] using ih

theorem total_eq_zero {l : List RipPacket} (h : ∀ x ∈ l, x.dataBytes = 0) : total l = 0 := by
  induction l with
  | nil => rfl
  | cons x l ih =>
    rw [forall_mem_cons] at h
    rw [total_cons, h.1, ih h.2]
    rfl

/-- The number of bytes, if the count does not wrap. -/
theorem toNat_total (l : List RipPacket) (h : (l.map fun x => x.data.length).sum < 2 ^ 32) :
    (total l).toNat = (l.map fun x => x.data.length).sum := by
  induction l with
  | nil => rfl
  | cons x l ih =>
    rw [map_cons, sum_cons] at h ⊢
    rw [total_cons, BitVec.toNat_add, ih (by omega), RipPacket.dataBytes, BitVec.toNat_ofNat]
    omega

theorem dataBytes_of_total {l : List RipPacket} (h : (l.map fun x => x.data.length).sum < 2 ^ 32)
    (hzero : total l = 0) : ∀ x ∈ l, x.dataBytes = 0 := by
  have hnat : (l.map fun x => x.data.length).sum = 0 := by
    rw [← toNat_total l h, hzero]
    rfl
  clear h hzero
  induction l with
  | nil => simp
  | cons x l ih =>
    rw [map_cons, sum_cons] at hnat
    have hlen : x.data.length = 0 := by omega
    rw [forall_mem_cons, RipPacket.dataBytes, hlen]
    exact ⟨rfl, ih (by omega)⟩

/-! ### What is dropped -/

/-- **A drop does not lower the count**: if one packet has to go, all behind the head go. -/
theorem dropLoop_full (hfull : Q.maxBufferedBytes ≤ Q.bufferedBytes + pkt.dataBytes) (n : Nat)
    (hn : Q.readyPackets.length ≤ n + 1) :
    (dropLoop pkt n Q).readyPackets = Q.readyPackets.take 1 ∧
      (dropLoop pkt n Q).bufferedBytes = Q.bufferedBytes := by
  induction n generalizing Q with
  | zero => exact ⟨(take_of_length_le hn).symm, rfl⟩
  | succ n ih =>
    rw [dropLoop, if_pos hfull, dropOld]
    split
    · rename_i Q' hold
      split at hold
      · rename_i head x rest hl
        cases hold
        have hrest := ih (Q := { Q with readyPackets := head :: rest, drops := Q.drops + 1 }) hfull
          (by simp only [hl, length_cons] at hn ⊢; omega)
        rw [hrest.1, hrest.2, hl]
        exact ⟨rfl, rfl⟩
      · cases hold
    · rename_i hold
      refine ⟨(take_of_length_le ?_).symm, rfl⟩
      split at hold
      · cases hold
      · match hl : Q.readyPackets with
        | [] => simp
        | [_] => simp
        | head :: x :: rest => exact absurd hl (by simp_all)

theorem dropLoop_room (hroom : Q.bufferedBytes + pkt.dataBytes < Q.maxBufferedBytes) (n : Nat) :
    dropLoop pkt n Q = Q := by
  cases n with
  | zero => rfl
  | succ n => exact if_neg (BitVec.not_le.mpr hroom)

/-- What `enqueue_packet` does, with room and without. -/
theorem enqueuePacket_cases (Q : PacketQueue) (pkt : RipPacket) :
    (Q.enqueuePacket pkt).bufferedBytes = Q.bufferedBytes + pkt.dataBytes ∧
    ((Q.bufferedBytes + pkt.dataBytes < Q.maxBufferedBytes ∧
        (Q.enqueuePacket pkt).readyPackets = Q.readyPackets ++ [pkt]) ∨
      (Q.maxBufferedBytes ≤ Q.bufferedBytes + pkt.dataBytes ∧
        (Q.enqueuePacket pkt).readyPackets = Q.readyPackets.take 1 ++ [pkt])) := by
  by_cases hroom : Q.bufferedBytes + pkt.dataBytes < Q.maxBufferedBytes
  · simp [enqueuePacket, dropLoop_room hroom, hroom]
  · have hfull := BitVec.not_lt.mp hroom
    obtain ⟨hready, hbytes⟩ := dropLoop_full hfull Q.readyPackets.length (Nat.le_succ _)
    simp [enqueuePacket, hready, hbytes, hfull]

/-- The packet that is being sent stays, in every state. -/
theorem head_enqueuePacket {x : RipPacket} (hx : Q.readyPackets.head? = some x) :
    (Q.enqueuePacket pkt).readyPackets.head? = some x := by
  rcases (enqueuePacket_cases Q pkt).2 with ⟨-, heq⟩ | ⟨-, heq⟩
  · simp [heq, head?_append, hx]
  · simp [heq, head?_append, hx, head?_take]

theorem dropsFull_of_harmless (hbytes : Q.bufferedBytes = total Q.readyPackets)
    (h : Q.Harmless pkt) : Q.DropsFull pkt := by
  intro k hk
  rcases (enqueuePacket_cases Q pkt).2 with ⟨hroom, heq⟩ | ⟨hfull, heq⟩
  · rw [heq, length_append, length_singleton] at hk
    omega
  · have hempty := h.resolve_left (BitVec.not_lt.mpr hfull)
    rw [← drop_one] at hempty
    have hzero : total (Q.readyPackets.drop (1 + k)) = total (Q.readyPackets.drop 1) := by
      rw [← drop_drop, total_eq_zero hempty, total_eq_zero fun x hx => hempty x (mem_of_mem_drop hx)]
    rw [total_append, hzero, ← total_append, take_append_drop, ← hbytes]
    exact hfull

/-- **The count stays right** exactly if what is dropped has no bytes. -/
theorem bytes_enqueuePacket_iff (hbytes : Q.bufferedBytes = total Q.readyPackets) :
    (Q.enqueuePacket pkt).bufferedBytes = total (Q.enqueuePacket pkt).readyPackets ↔
      Q.bufferedBytes + pkt.dataBytes < Q.maxBufferedBytes ∨ total Q.readyPackets.tail = 0 := by
  obtain ⟨hcount, ⟨hroom, heq⟩ | ⟨hfull, heq⟩⟩ := enqueuePacket_cases Q pkt
  · rw [hcount, heq, hbytes]
    simp [← hbytes, hroom]
  · rw [hcount, heq, hbytes, or_iff_right (BitVec.not_lt.mpr (hbytes ▸ hfull)), ← drop_one]
    conv => lhs; lhs; rw [← take_append_drop 1 Q.readyPackets]
    simp

theorem Reach.bytes (h : Reach Harmless Q) : Q.bufferedBytes = total Q.readyPackets := by
  induction h with
  | init => rfl
  | enqueuePacket _ hroom ih =>
    exact (bytes_enqueuePacket_iff ih).mpr (hroom.imp_right total_eq_zero)
  | popHead _ ih =>
    unfold PacketQueue.popHead
    split
    · exact ih
    · rename_i hl
      simp [ih, hl, BitVec.add_comm]
  | flushPackets _ hflush =>
    unfold PacketQueue.flushPackets at hflush
    split_ifs at hflush
    cases hflush
    rfl
  | setMaxBufferedBytes _ _ ih => exact ih

theorem accounted_iff : Q.Accounted ↔ Q.bufferedBytes = total Q.readyPackets := by
  refine ⟨fun h => h.bytes, fun h => ⟨h, _, if_pos ?_⟩⟩
  rw [h, foldl_total]

/-- **The queue accounts its bytes** as long as nothing is dropped that has any, and no longer.
The head is never dropped. -/
theorem queue_accounts (Q : PacketQueue) (pkt : RipPacket) :
    (∀ x, Q.readyPackets.head? = some x → (Q.enqueuePacket pkt).readyPackets.head? = some x) ∧
    (Reach Harmless Q → Q.Accounted ∧ (Q.Harmless pkt → Q.DropsFull pkt) ∧
      ((Q.readyPackets.map fun x => x.data.length).sum < 2 ^ 32 →
        ((Q.enqueuePacket pkt).Accounted ↔ Q.Harmless pkt))) := by
  refine ⟨fun x => head_enqueuePacket, fun h => ⟨accounted_iff.mpr h.bytes,
    dropsFull_of_harmless h.bytes, fun hsum => ?_⟩⟩
  rw [accounted_iff, bytes_enqueuePacket_iff h.bytes, Harmless]
  refine or_congr_right ⟨dataBytes_of_total ?_, total_eq_zero⟩
  cases hl : Q.readyPackets with
  | nil => simp
  | cons head rest =>
    rw [hl, map_cons, sum_cons] at hsum
    rw [tail_cons]
    omega

/-- A packet of four bytes, one without bytes and one of six, with a maximum of ten: the one
without bytes is dropped. -/
theorem queue_accounts_dropped :
    let Q : PacketQueue := { maxBufferedBytes := 10 }
    let Q' := (Q.enqueuePacket ⟨[2, 2, 0, 0]⟩).enqueuePacket ⟨[]⟩
    let pkt : RipPacket := ⟨[2, 2, 0, 0, 0, 0]⟩
    (Q'.enqueuePacket pkt).drops = 1 ∧ Q'.DropsFull pkt ∧ (Q'.enqueuePacket pkt).Accounted ∧
      (Q'.enqueuePacket pkt).readyPackets.head? = some ⟨[2, 2, 0, 0]⟩ := by
  intro Q Q' pkt
  have hreach : Reach Harmless Q' := .enqueuePacket (.enqueuePacket (.setMaxBufferedBytes 10 .init)
    (.inl (by decide))) (.inl (by decide))
  have hharm : Q'.Harmless pkt := .inr (by decide)
  obtain ⟨hhead, hrun⟩ := queue_accounts Q' pkt
  obtain ⟨-, hdrops, hiff⟩ := hrun hreach
  exact ⟨by decide, hdrops hharm, (hiff (by decide)).mpr hharm, hhead _ rfl⟩

/-- Three packets of four bytes, with room for two. -/
theorem dropped_still_counted : ∃ Q, Reach (fun _ _ => True) Q ∧ ¬ Q.Accounted := by
  have henqueue := fun {Q} (h : Reach (fun _ _ => True) Q) =>
    @Reach.enqueuePacket _ _ ⟨[2, 2, 0, 0]⟩ h trivial
  refine ⟨_, henqueue (henqueue (henqueue (.setMaxBufferedBytes 10 .init))), fun h => ?_⟩
  have hbytes := h.bytes
  revert hbytes
  decide

end PacketQueue

end Xorp.Rip

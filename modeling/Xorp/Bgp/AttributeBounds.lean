/-
Which path attributes are decoded inside the message.

`PathAttribute::create` hands its constructors an attribute that lies inside the message.  The
constructors that compare the length with a constant, or that take four bytes as long as there are
four, stay inside.  Three kinds do not.  The walk over an AS path with numbers of two bytes looks for
the number of AS numbers in the second byte of a segment, also if only one byte is left.  With
numbers of four bytes it asserts that the segment fits, which is a matter of what the peer sent.  The
multiprotocol attributes are read field by field, and the end of the attribute is looked at after the
nexthop and after the points of attachment, but not before a prefix is copied.
-/
import Xorp.Bgp.Attribute

namespace Xorp.Bgp

variable {n : Nat}

namespace Wire

open Bytes AttType PathAttribute Header

variable {d : Buffer} {h : Header} {p : Nat} {w : Nat} {β : Type}

/-! ### Refusals -/

variable {f : Unit → Read Rejection β} {code : ErrorCode} {why : Why} {ok : Prop}

theorem safe_rejectWith (hn : n < 4096) (hp : p + n ≤ d.size) :
    Safe (rejectWith d p n why code : Read Rejection β) := by
  unfold rejectWith
  rw [safe_verify, safe_slice]
  exact ⟨hn, .inr hp, safe_invalid _⟩

theorem safe_checkWith [Decidable ok] (hn : n < 4096) (hp : p + n ≤ d.size) :
    Safe (checkWith ok d p n why code >>= f) ↔ (ok → Safe (f ())) := by
  unfold checkWith
  by_cases h : ok
  · rw [if_pos h]
    exact ⟨fun hf _ => hf, fun hf => hf h⟩
  · rw [if_neg h, safe_bind]
    refine iff_of_true ⟨safe_rejectWith hn hp, fun a ha => ?_⟩ fun hok => absurd hok h
    unfold rejectWith verify slice at ha
    split_ifs at ha <;> cases ha

theorem ensures_checkWith [Decidable ok] {Q : β → Prop} (hf : ok → Ensures (f ()) Q) :
    Ensures (checkWith ok d p n why code >>= f) Q := by
  unfold checkWith
  by_cases h : ok
  · rw [if_pos h]
    exact hf h
  · rw [if_neg h]
    unfold rejectWith
    rw [bind_assoc]
    refine ensures_bind fun _ => ?_
    rw [bind_assoc]
    exact ensures_bind fun data => ensures_error _

/-- The constructor of one family, and that of the other when it throws. -/
theorem safe_orCatch {α : Type} {x y : Read Rejection α} :
    Safe (orCatch x y) ↔ Safe x ∧ ((∃ reason, x = .error (.invalid reason)) → Safe y) := by
  unfold orCatch
  split
  · rename_i reason
    exact ⟨fun hy => ⟨safe_invalid reason, fun _ => hy⟩, fun h => h.2 ⟨reason, rfl⟩⟩
  · rename_i hx
    exact ⟨fun h => ⟨h, fun ⟨reason, hr⟩ => absurd hr (hx reason)⟩, fun h => h.1⟩

/-! ### The header -/

/-- The header at an offset. -/
def Header.ofBuffer (d : Buffer) (p : Nat) : Header where
  start := p
  flags := Flags.ofByte (d.u8 p)
  type := d.u8 (p + 1)
  length := if (Flags.ofByte (d.u8 p)).extended then d.u16 (p + 2) else d.u8 (p + 2)

/-- The attribute is inside the message. -/
structure Header.Inside (d : Buffer) (h : Header) : Prop where
  total_lt : h.total < 4096
  total_le : h.start + h.total ≤ d.size

theorem Header.Inside.stop_le (hin : h.Inside d) : h.payload + h.length ≤ d.size := by
  have := hin.total_le
  unfold total at this
  unfold payload
  omega

theorem Header.reads (d : Buffer) (p : Nat) :
    Reads (decode d p) (p + (ofBuffer d p).size ≤ d.size) (ofBuffer d p) := by
  have hlength : Reads (decodeLength (Flags.ofByte (d.u8 p)).extended d p)
      (p + (ofBuffer d p).size ≤ d.size) (ofBuffer d p).length := by
    unfold decodeLength size ofBuffer
    by_cases hext : (Flags.ofByte (d.u8 p)).extended = true
    · rw [if_pos hext, if_pos hext, if_pos hext]
      exact (reads_extract16 d (p + 2)).of_iff (by omega)
    · rw [if_neg hext, if_neg hext, if_neg hext]
      exact (reads_byte d (p + 2)).of_iff (by omega)
  have h3 : 3 ≤ (ofBuffer d p).size := by
    unfold size
    split <;> omega
  exact ((reads_byte d p).bind (hlength.bind ((reads_byte d (p + 1)).map _))).of_iff (by omega)

/-! ### Fixed layouts -/

theorem reads_readAddr :
    Reads (readAddr w d p) (w / 8 = 0 ∨ p + w / 8 ≤ d.size) (addrOfBytes w (d.slice p (w / 8))) :=
  (reads_slice d p (w / 8)).map _

theorem safe_readAddr {f : BitVec w → Read Rejection β} (hp : p + w / 8 ≤ d.size) :
    Safe (readAddr w d p >>= f) ↔ Safe (f (addrOfBytes w (d.slice p (w / 8)))) := by
  rw [reads_readAddr.safe_bind]
  exact and_iff_right (.inr hp)

variable {x y : Read Rejection β} {width : Nat}

section
variable (hin : h.Inside d)
include hin

theorem safe_checkTlv [Decidable ok] : Safe (checkTlv ok d h why code >>= f) ↔ (ok → Safe (f ())) :=
  safe_checkWith hin.total_lt hin.total_le

/-- The words that fit into the payload. -/
theorem safe_readWords {f : List (BitVec 32) → Read Rejection β} (hf : ∀ words, Safe (f words)) :
    Safe (readWords d h >>= f) := by
  have hstop := hin.stop_le
  unfold readWords
  rw [(reads_readMany (fun j => reads_readAddr) (h.length / 4) 0).safe_bind]
  refine ⟨fun j _ hj => .inr ?_, hf _⟩
  omega

theorem safe_decodeOrigin : Safe (decodeOrigin d h) := by
  have hstop := hin.stop_le
  unfold decodeOrigin
  rw [safe_check]
  intro hlen
  rw [safe_checkTlv hin]
  intro _
  rw [safe_byte]
  refine ⟨by omega, ?_⟩
  cases OriginType.ofNat? (d.u8 h.payload) with
  | none => exact safe_rejectWith hin.total_lt hin.total_le
  | some origin => exact safe_ok _

theorem safe_decodeNextHop : Safe (decodeNextHop d h) := by
  have hstop := hin.stop_le
  unfold decodeNextHop
  rw [safe_checkTlv hin]
  intro _
  rw [safe_check]
  intro hlen
  rw [safe_readAddr (show h.payload + 4 ≤ d.size by omega), safe_check]
  exact fun _ => safe_ok _

theorem safe_decodeMed : Safe (decodeMed d h) := by
  have hstop := hin.stop_le
  unfold decodeMed
  rw [safe_checkTlv hin]
  intro _
  rw [safe_check]
  intro hlen
  rw [safe_readAddr (show h.payload + 4 ≤ d.size by omega)]
  exact safe_ok _

theorem safe_decodeLocalPref : Safe (decodeLocalPref d h) := by
  have hstop := hin.stop_le
  unfold decodeLocalPref
  rw [safe_checkTlv hin]
  intro _
  rw [safe_check]
  intro hlen
  rw [safe_readAddr (show h.payload + 4 ≤ d.size by omega)]
  exact safe_ok _

theorem safe_decodeAtomicAgg : Safe (decodeAtomicAgg d h) := by
  unfold decodeAtomicAgg
  rw [safe_check]
  intro _
  rw [safe_checkTlv hin]
  exact fun _ => safe_ok _

theorem safe_readAggregator {f : BitVec 32 × AsNum → Read Rejection β} (hlen : h.length = width + 4)
    (hf : ∀ a, Safe (f a)) : Safe (readAggregator width d h >>= f) := by
  have hstop := hin.stop_le
  unfold readAggregator
  rw [bind_assoc, safe_checkTlv hin]
  intro _
  rw [bind_assoc, safe_slice]
  refine ⟨.inr (by omega), ?_⟩
  rw [bind_assoc, safe_readAddr (show h.payload + width + 4 ≤ d.size by omega)]
  exact hf _

theorem safe_decodeAggregator {use4byteAsnums : Bool} :
    Safe (decodeAggregator use4byteAsnums d h) := by
  unfold decodeAggregator
  rw [safe_check]
  intro hlen
  refine safe_readAggregator hin ?_ fun a => safe_ok _
  cases use4byteAsnums <;> exact hlen

theorem safe_decodeAS4Aggregator : Safe (decodeAS4Aggregator d h) := by
  unfold decodeAS4Aggregator
  rw [safe_check]
  intro hlen
  exact safe_readAggregator hin hlen fun a => safe_ok _

theorem safe_decodeCommunity : Safe (decodeCommunity d h) := by
  unfold decodeCommunity
  rw [safe_check]
  exact fun _ => safe_readWords hin fun words => safe_ok _

theorem safe_decodeOriginatorId : Safe (decodeOriginatorId d h) := by
  have hstop := hin.stop_le
  unfold decodeOriginatorId
  rw [safe_check]
  intro _
  rw [safe_check]
  intro hlen
  rw [safe_readAddr (show h.payload + 4 ≤ d.size by omega)]
  exact safe_ok _

theorem safe_decodeClusterList : Safe (decodeClusterList d h) := by
  unfold decodeClusterList
  rw [safe_check]
  exact fun _ => safe_readWords hin fun words => safe_ok _

theorem safe_decodeUnknown : Safe (decodeUnknown d h) := by
  unfold decodeUnknown
  rw [safe_checkTlv hin]
  intro _
  rw [safe_slice]
  exact ⟨.inr hin.total_le, safe_ok _⟩

end

/-! ### AS paths -/

section AsPaths

variable {c c' : PathCursor} {l : Nat}

/-- A segment with its numbers inside the message. -/
theorem safe_decodeSegment {extract : Nat → Read Rejection Nat} {g : Nat → Nat}
    (hextract : ∀ i, Reads (extract i) (i + width ≤ d.size) (g i))
    (hp : p + 2 + d.u8 (p + 1) * width ≤ d.size) : Safe (decodeSegment extract width d p) := by
  unfold decodeSegment
  rw [safe_byte, safe_byte]
  refine ⟨by omega, by omega, ?_⟩
  cases ASPathSegType.ofNat? (d.u8 p) with
  | none => exact safe_invalid _
  | some type =>
    rw [(reads_readMany (fun j => hextract (p + 2 + j * width)) (d.u8 (p + 1)) 0).safe_bind]
    refine ⟨fun j _ hj => ?_, safe_ok _⟩
    have hmul : (j + 1) * width ≤ d.u8 (p + 1) * width := Nat.mul_le_mul_right width (by omega)
    rw [Nat.add_mul, Nat.one_mul] at hmul
    omega

theorem safe_asPathStep (hc : c.pos + c.left ≤ d.size) :
    Safe (asPathStep d c) ↔ c.pos + 2 ≤ d.size := by
  unfold asPathStep
  rw [safe_byte]
  refine ⟨fun h => by omega, fun h => ⟨by omega, ?_⟩⟩
  rw [safe_check]
  intro hlen
  rw [safe_bind]
  exact ⟨safe_decodeSegment (reads_extract16 d) (by omega), fun s _ => safe_ok _⟩

theorem safe_as4PathStep (hc : c.pos + c.left ≤ d.size) :
    Safe (as4PathStep d c) ↔ 2 + d.u8 (c.pos + 1) * 4 ≤ c.left := by
  unfold as4PathStep
  rw [safe_byte, safe_verify]
  refine ⟨fun h => h.2.1, fun h => ⟨by omega, h, ?_⟩⟩
  rw [safe_bind]
  exact ⟨safe_decodeSegment (reads_extract32 d) (by omega), fun s _ => safe_ok _⟩

/-- A segment of `width` bytes a number is taken off what is left. -/
def Takes (d : Buffer) (width : Nat) (c c' : PathCursor) : Prop :=
  2 + d.u8 (c.pos + 1) * width ≤ c.left ∧ c'.pos = c.pos + (2 + d.u8 (c.pos + 1) * width) ∧
    c'.left = c.left - (2 + d.u8 (c.pos + 1) * width)

theorem asPathStep_eq (hstep : asPathStep d c = .ok c') : Takes d 2 c c' := by
  have hens : Ensures (asPathStep d c) (Takes d 2 c) := by
    refine (reads_byte d (c.pos + 1)).ensures.bind ?_
    rintro n ⟨-, rfl⟩
    exact ensures_check fun hlen => ensures_bind fun s => ensures_ok ⟨hlen, rfl, rfl⟩
  exact hens c' hstep

theorem as4PathStep_eq (hstep : as4PathStep d c = .ok c') : Takes d 4 c c' := by
  have hens : Ensures (as4PathStep d c) (Takes d 4 c) := by
    refine (reads_byte d (c.pos + 1)).ensures.bind ?_
    rintro n ⟨-, rfl⟩
    exact ensures_verify fun hlen => ensures_bind fun s => ensures_ok ⟨hlen, rfl, rfl⟩
  exact hens c' hstep

/-- The steps of a walk take two bytes or more off what is left. -/
def Advances (step : PathCursor → Read Rejection PathCursor) : Prop :=
  ∀ c c', step c = .ok c' → ∃ k, 2 ≤ k ∧ k ≤ c.left ∧ c'.pos = c.pos + k ∧ c'.left = c.left - k

theorem asPathStep_advances (d : Buffer) : Advances (asPathStep d) :=
  fun _ _ hstep => ⟨_, Nat.le_add_right 2 _, asPathStep_eq hstep⟩

theorem as4PathStep_advances (d : Buffer) : Advances (as4PathStep d) :=
  fun _ _ hstep => ⟨_, Nat.le_add_right 2 _, as4PathStep_eq hstep⟩

variable {step : PathCursor → Read Rejection PathCursor}

/-- A walk does not leave the path. -/
theorem Advances.inside (hstep : Advances step) (hp : p + l ≤ d.size)
    (hc : Reached PathCursor.more step ⟨p, l, []⟩ c) : c.pos + c.left ≤ d.size := by
  refine hc.induct (P := fun c => c.pos + c.left ≤ d.size) hp fun u v hu _ huv => ?_
  obtain ⟨k, _, hk, hpos, hleft⟩ := hstep u v huv
  omega

theorem Advances.safe_walkPath (hstep : Advances step) :
    Safe (walkPath step p l) ↔ ∀ c, Reached PathCursor.more step ⟨p, l, []⟩ c → 0 < c.left →
      Safe (step c) := by
  unfold walkPath
  rw [safe_bind, safe_loop PathCursor.left (fun u v _ hu huv => ?_) (Nat.lt_succ_self l)]
  · constructor
    · intro h c hc hleft
      exact h.1 c hc (decide_eq_true hleft)
    · intro h
      exact ⟨fun c hc hmore => h c hc (of_decide_eq_true hmore), fun c _ => safe_ok _⟩
  · obtain ⟨k, hk2, hk, _, hleft⟩ := hstep u v huv
    omega

/-- Where the walk over a path with numbers of two bytes stands before a single byte, the byte after
it is in the message too. -/
def PathInside (d : Buffer) (p l : Nat) : Prop :=
  ∀ c, Reached PathCursor.more (asPathStep d) ⟨p, l, []⟩ c → c.left = 1 → c.pos + 2 ≤ d.size

/-- Every segment that the walk over a path with numbers of four bytes comes to ends inside the
path. -/
def Path4Inside (d : Buffer) (p l : Nat) : Prop :=
  ∀ c, Reached PathCursor.more (as4PathStep d) ⟨p, l, []⟩ c → 0 < c.left →
    2 + d.u8 (c.pos + 1) * 4 ≤ c.left

theorem safe_decodeASPath (hp : p + l ≤ d.size) : Safe (decodeASPath d p l) ↔ PathInside d p l := by
  have hadv := asPathStep_advances d
  unfold decodeASPath PathInside
  rw [hadv.safe_walkPath]
  refine forall_congr' fun c => imp_congr_right fun hc => ?_
  rw [safe_asPathStep (hadv.inside hp hc)]
  have hin := hadv.inside hp hc
  constructor
  · intro h hone
    exact h (by omega)
  · intro h hleft
    by_cases hone : c.left = 1
    · exact h hone
    · omega

theorem safe_decodeAS4Path (hp : p + l ≤ d.size) :
    Safe (decodeAS4Path d p l) ↔ Path4Inside d p l := by
  have hadv := as4PathStep_advances d
  unfold decodeAS4Path Path4Inside
  rw [hadv.safe_walkPath]
  refine forall_congr' fun c => imp_congr_right fun hc => ?_
  rw [safe_as4PathStep (hadv.inside hp hc)]

end AsPaths

/-! ### The multiprotocol attributes -/

section Multiprotocol

variable {stop len : Nat} {c c' : NlriCursor w} {name : AttName} {afi : Nat}

theorem le_of_prefixBytes_le (hlen : prefixBytes len ≤ w / 8) : len ≤ w := by
  unfold prefixBytes at hlen
  omega

theorem reads_ipNet (a : BitVec w) (hlen : len ≤ w) :
    Reads (ipNet w a len) True (IPNet.ofAddr a len hlen) := by
  unfold ipNet
  rw [dif_pos hlen]
  exact reads_ok _

theorem safe_nlriStep (hpos : c.pos < d.size) :
    Safe (nlriStep w d c) ↔ (prefixBytes (d.u8 c.pos) ≤ w / 8 →
      c.pos + 1 + prefixBytes (d.u8 c.pos) ≤ d.size) := by
  unfold nlriStep
  rw [safe_byte, safe_check, safe_slice]
  constructor
  · intro h hlen
    rcases (h.2 hlen).1 with hzero | hle
    · omega
    · exact hle
  · intro h
    refine ⟨hpos, fun hlen => ⟨.inr (h hlen), ?_⟩⟩
    rw [(reads_ipNet _ (le_of_prefixBytes_le hlen)).safe_bind]
    exact ⟨trivial, safe_ok _⟩

theorem nlriStep_pos (hstep : nlriStep w d c = .ok c') :
    c'.pos = c.pos + 1 + prefixBytes (d.u8 c.pos) := by
  have hens : Ensures (nlriStep w d c) fun c' =>
      c'.pos = c.pos + 1 + prefixBytes (d.u8 c.pos) := by
    refine (reads_byte d c.pos).ensures.bind ?_
    rintro n ⟨-, rfl⟩
    exact ensures_check fun _ => ensures_bind fun bytes => ensures_bind fun net => ensures_ok rfl
  exact hens c' hstep

/-- Every prefix that is copied ends inside the message. -/
def NlriInside (w : Nat) (d : Buffer) (p stop : Nat) : Prop :=
  ∀ c : NlriCursor w, Reached (fun c => decide (c.pos < stop)) (nlriStep w d) ⟨p, []⟩ c →
    c.pos < stop → prefixBytes (d.u8 c.pos) ≤ w / 8 →
      c.pos + 1 + prefixBytes (d.u8 c.pos) ≤ d.size

variable {f : List (IPNet w) → Read Rejection β}

theorem safe_decodeNlri (hstop : stop ≤ d.size)
    (hf : ∀ nets, Safe (f nets)) :
    Safe (decodeNlri w d p stop >>= f) ↔ NlriInside w d p stop := by
  unfold decodeNlri NlriInside
  rw [bind_assoc, safe_bind, safe_loop (fun c => stop - c.pos) (fun u v _ hu huv => ?_)
    (Nat.lt_succ_self (stop - p))]
  · constructor
    · intro h c hc hpos
      exact (safe_nlriStep (by omega)).mp (h.1 c hc (decide_eq_true hpos))
    · intro h
      refine ⟨fun c hc hmore => ?_, fun c _ => hf _⟩
      have hpos := of_decide_eq_true hmore
      exact (safe_nlriStep (by omega)).mpr (h c hc hpos)
  · have hpos := of_decide_eq_true hu
    have hnext := nlriStep_pos huv
    omega

/-- Where the points of attachment end. -/
def snpaEnd (d : Buffer) : Nat → Nat → Nat
  | 0, p => p
  | n + 1, p => snpaEnd d n (p + 1 + d.u8 p)

theorem reads_skipSnpa (n p : Nat) :
    Reads (skipSnpa d n p) (∀ k < n, snpaEnd d k p + 1 ≤ d.size) (snpaEnd d n p) := by
  induction n generalizing p with
  | zero => exact (reads_ok p).of_iff (iff_of_true trivial fun k hk => absurd hk (Nat.not_lt_zero k))
  | succ n ih =>
    refine ((reads_byte d p).bind (ih (p + 1 + d.u8 p))).of_iff ⟨fun h k hk => ?_, fun h => ?_⟩
    · cases k with
      | zero => exact h.1
      | succ k => exact h.2 k (by omega)
    · exact ⟨h 0 (by omega), fun k hk => h (k + 1) (by omega)⟩

/-- The part of an `MP_REACH_NLRI` after the nexthop: the points of attachment are counted and
stepped over inside the message, whatever the length of the attribute is. -/
def ReachInside (w : Nat) (d : Buffer) (p stop : Nat) : Prop :=
  p ≤ stop → p + 1 ≤ d.size ∧ (∀ k < d.u8 p, snpaEnd d k (p + 1) + 1 ≤ d.size) ∧
    (snpaEnd d (d.u8 p) (p + 1) ≤ stop → NlriInside w d (snpaEnd d (d.u8 p) (p + 1)) stop)

theorem safe_decodeReach (hstop : stop ≤ d.size)
    (hf : ∀ nets, Safe (f nets)) :
    Safe (decodeReach w d p stop >>= f) ↔ ReachInside w d p stop := by
  unfold decodeReach ReachInside
  simp only [bind_assoc]
  rw [safe_check, safe_byte, (reads_skipSnpa (d.u8 p) (p + 1)).safe_bind, safe_check,
    safe_decodeNlri hstop hf]

theorem Safi.isSome_ofNat? : (Safi.ofNat? n).isSome = true ↔ n = 1 ∨ n = 2 := by
  unfold Safi.ofNat?
  split <;> simp_all

/-- The family is inside, and if it is this one, what follows it. -/
def AfiInside (d : Buffer) (h : Header) (afi : Nat) (rest : Prop) : Prop :=
  h.flags.optionalNonTransitive = true → h.payload + 2 ≤ d.size ∧ (d.u16 h.payload = afi → rest)

/-- The address family, and after it the subsequent one. -/
theorem safe_openMultiprotocol {f : Safi → Read Rejection β} :
    Safe (openMultiprotocol name afi d h >>= f) ↔ AfiInside d h afi (h.payload + 3 ≤ d.size ∧
        ∀ safi, Safi.ofNat? (d.u8 (h.payload + 2)) = some safi → Safe (f safi)) := by
  unfold openMultiprotocol
  simp only [bind_assoc]
  rw [safe_check, safe_extract16, safe_check, safe_byte]
  refine imp_congr_right fun _ => and_congr_right fun _ => imp_congr_right fun _ =>
    and_congr_right fun _ => ?_
  cases Safi.ofNat? (d.u8 (h.payload + 2)) with
  | none => exact iff_of_true (safe_invalid _) fun safi hsafi => by cases hsafi
  | some safi =>
    constructor
    · intro hf s hs
      cases hs
      exact hf
    · intro hf
      exact hf safi rfl

/-- A constructor does not get past another family. -/
theorem openMultiprotocol_afi {f : Safi → Read Rejection β}
    (hflags : h.flags.optionalNonTransitive = true) (hp : h.payload + 2 ≤ d.size)
    (hafi : d.u16 h.payload ≠ afi) :
    ∃ reason, openMultiprotocol name afi d h >>= f = .error (.invalid reason) := by
  unfold openMultiprotocol
  rw [(reads_extract16 d h.payload).yes hp]
  refine ⟨corrupt (.expectedAfi afi (d.u16 h.payload)) .optAttr, ?_⟩
  simp only [check, if_pos hflags, bind, Except.bind, if_neg hafi]

variable {Q : Prop}

theorem safe_readNexthop6 {f : BitVec 128 × BitVec 128 → Read Rejection β}
    (hf : ∀ x, Safe (f x) ↔ Q) :
    Safe (readNexthop6 d p len >>= f) ↔ (len = 16 ∨ len = 32 → p + len ≤ d.size ∧ Q) := by
  have hread : ∀ q, Reads (readAddr 128 d q) (q + 16 ≤ d.size) (addrOfBytes 128 (d.slice q 16)) :=
    fun q => reads_readAddr.of_iff (or_iff_right (by decide))
  unfold readNexthop6
  by_cases h16 : len = 16
  · rw [if_pos h16, bind_assoc, (hread p).safe_bind, safe_ok_bind, hf, h16]
    exact ⟨fun h _ => h, fun h => h (.inl rfl)⟩
  · rw [if_neg h16]
    by_cases h32 : len = 32
    · rw [if_pos h32, bind_assoc, (hread p).safe_bind, bind_assoc, (hread (p + 16)).safe_bind,
        safe_ok_bind, hf, h32]
      refine ⟨fun h _ => ⟨by omega, h.2.2⟩, fun h => ?_⟩
      obtain ⟨hle, hq⟩ := h (.inr rfl)
      exact ⟨by omega, by omega, hq⟩
    · rw [if_neg h32]
      exact iff_of_true (safe_invalid _) fun h => absurd h (by omega)

theorem safe_readNexthop4 {f : BitVec 32 → Read Rejection β} (hf : ∀ x, Safe (f x) ↔ Q) :
    Safe (readNexthop4 d p len >>= f) ↔ (len = 4 → p + len ≤ d.size ∧ Q) := by
  unfold readNexthop4
  by_cases h4 : len = 4
  · rw [if_pos h4, reads_readAddr.safe_bind, hf, h4]
    refine ⟨fun h _ => ⟨?_, h.2⟩, fun h => ⟨.inr (h rfl).1, (h rfl).2⟩⟩
    rcases h.1 with hzero | hle
    · simp at hzero
    · exact hle
  · rw [if_neg h4]
    exact iff_of_true (safe_invalid _) fun h => absurd h h4

/-- The rest of an `MP_REACH_NLRI` of IPv6, field by field. -/
def MpReach6Inside (d : Buffer) (h : Header) : Prop :=
  h.payload + 3 ≤ d.size ∧ (d.u8 (h.payload + 2) = 1 ∨ d.u8 (h.payload + 2) = 2 →
    h.payload + 4 ≤ d.size ∧ (d.u8 (h.payload + 3) = 16 ∨ d.u8 (h.payload + 3) = 32 →
      h.payload + 4 + d.u8 (h.payload + 3) ≤ d.size ∧
        ReachInside 128 d (h.payload + 4 + d.u8 (h.payload + 3)) h.stop))

/-- The rest of an `MP_REACH_NLRI` of IPv4. -/
def MpReach4Inside (d : Buffer) (h : Header) : Prop :=
  h.payload + 3 ≤ d.size ∧ (d.u8 (h.payload + 2) = 2 →
    h.payload + 4 ≤ d.size ∧ (d.u8 (h.payload + 3) = 4 →
      h.payload + 4 + d.u8 (h.payload + 3) ≤ d.size ∧
        ReachInside 32 d (h.payload + 4 + d.u8 (h.payload + 3)) h.stop))

/-- The rest of an `MP_UNREACH_NLRI` of IPv6. -/
def MpUnreach6Inside (d : Buffer) (h : Header) : Prop :=
  h.payload + 3 ≤ d.size ∧ (d.u8 (h.payload + 2) = 1 ∨ d.u8 (h.payload + 2) = 2 →
    NlriInside 128 d (h.payload + 3) h.stop)

/-- The rest of an `MP_UNREACH_NLRI` of IPv4. -/
def MpUnreach4Inside (d : Buffer) (h : Header) : Prop :=
  h.payload + 3 ≤ d.size ∧ (d.u8 (h.payload + 2) = 2 → NlriInside 32 d (h.payload + 3) h.stop)

/-- What follows the subsequent family of IPv6, where both are taken. -/
theorem forall_safi_iff : (∀ safi, Safi.ofNat? n = some safi → Q) ↔ (n = 1 ∨ n = 2 → Q) := by
  rw [← Safi.isSome_ofNat?]
  cases Safi.ofNat? n with
  | none => exact iff_of_true nofun nofun
  | some safi => exact ⟨fun h _ => h safi rfl, fun h _ _ => h rfl⟩

/-- What follows the subsequent family of IPv4, where unicast is refused. -/
theorem forall_multicast_iff :
    (∀ safi, Safi.ofNat? n = some safi → safi ≠ .unicast → Q) ↔ (n = 2 → Q) := by
  constructor
  · rintro h rfl
    exact h .multicast rfl (by decide)
  · intro h safi hsafi hne
    rcases Safi.isSome_ofNat?.mp (Option.isSome_of_eq_some hsafi) with rfl | rfl
    · cases hsafi
      contradiction
    · exact h rfl

section
variable (hstop : h.stop ≤ d.size)
include hstop

theorem safe_decodeMpReach6 : Safe (decodeMpReach6 d h) ↔ AfiInside d h 2 (MpReach6Inside d h) := by
  unfold decodeMpReach6 MpReach6Inside
  rw [safe_openMultiprotocol]
  simp only [safe_byte, safe_readNexthop6 fun x => safe_decodeReach hstop fun nets => safe_ok _,
    forall_safi_iff]

theorem safe_decodeMpReach4 : Safe (decodeMpReach4 d h) ↔ AfiInside d h 1 (MpReach4Inside d h) := by
  unfold decodeMpReach4 MpReach4Inside
  rw [safe_openMultiprotocol]
  simp only [safe_check, safe_byte,
    safe_readNexthop4 fun x => safe_decodeReach hstop fun nets => safe_ok _, forall_multicast_iff]

theorem safe_decodeMpUnreach6 :
    Safe (decodeMpUnreach6 d h) ↔ AfiInside d h 2 (MpUnreach6Inside d h) := by
  unfold decodeMpUnreach6 MpUnreach6Inside
  rw [safe_openMultiprotocol]
  simp only [safe_decodeNlri hstop fun nets => safe_ok _, forall_safi_iff]

theorem safe_decodeMpUnreach4 :
    Safe (decodeMpUnreach4 d h) ↔ AfiInside d h 1 (MpUnreach4Inside d h) := by
  unfold decodeMpUnreach4 MpUnreach4Inside
  rw [safe_openMultiprotocol]
  simp only [safe_check, safe_decodeNlri hstop fun nets => safe_ok _, forall_multicast_iff]

end

/-- A multiprotocol attribute: the family is inside, and what the constructor of that family reads. -/
def FamilyInside (d : Buffer) (h : Header) (six four : Prop) : Prop :=
  h.flags.optionalNonTransitive = true →
    h.payload + 2 ≤ d.size ∧ (d.u16 h.payload = 2 → six) ∧ (d.u16 h.payload = 1 → four)

/-- The constructor of IPv4 is tried after that of IPv6, also on an attribute of IPv6 that the
latter refused; it reads the family and refuses it too. -/
theorem safe_family {six four : Prop} (hx : Safe x ↔ AfiInside d h 2 six)
    (hy : Safe y ↔ AfiInside d h 1 four)
    (hrefuse : h.flags.optionalNonTransitive = true → h.payload + 2 ≤ d.size →
      d.u16 h.payload ≠ 2 → ∃ reason, x = .error (.invalid reason)) :
    Safe (orCatch x y) ↔ FamilyInside d h six four := by
  rw [safe_orCatch, hx, hy]
  constructor
  · rintro ⟨hsix, hfour⟩ hflags
    obtain ⟨hp, h6⟩ := hsix hflags
    refine ⟨hp, h6, fun hafi => ?_⟩
    exact (hfour (hrefuse hflags hp (by omega)) hflags).2 hafi
  · intro hin
    exact ⟨fun hflags => ⟨(hin hflags).1, (hin hflags).2.1⟩,
      fun _ hflags => ⟨(hin hflags).1, (hin hflags).2.2⟩⟩

end Multiprotocol

/-! ### Any attribute -/

variable {use4byteAsnums : Bool} {maxLen : Nat}

/-- The four types that can lead out of the message, and what they ask. -/
def ValueInside (use4byteAsnums : Bool) (d : Buffer) (h : Header) : Prop :=
  (h.type = AttType.asPath → h.flags.wellKnownTransitive = true →
    if use4byteAsnums then Path4Inside d h.payload h.length
    else PathInside d h.payload h.length) ∧
  (h.type = AttType.mpReachNlri → FamilyInside d h (MpReach6Inside d h) (MpReach4Inside d h)) ∧
  (h.type = AttType.mpUnreachNlri →
    FamilyInside d h (MpUnreach6Inside d h) (MpUnreach4Inside d h)) ∧
  (h.type = AttType.as4Path → h.flags.optionalTransitive = true →
    Path4Inside d h.payload h.length)

theorem inside_of_type (hsafe : Safe x)
    (hno : h.type ≠ 2 ∧ h.type ≠ 14 ∧ h.type ≠ 15 ∧ h.type ≠ 17) :
    Safe x ↔ ValueInside use4byteAsnums d h :=
  iff_of_true hsafe ⟨fun ht => absurd ht hno.1, fun ht => absurd ht hno.2.1,
    fun ht => absurd ht hno.2.2.1, fun ht => absurd ht hno.2.2.2⟩

theorem safe_decodeASPathAttribute (hin : h.Inside d) :
    Safe (decodeASPathAttribute use4byteAsnums d h) ↔ (h.flags.wellKnownTransitive = true →
      if use4byteAsnums then Path4Inside d h.payload h.length
      else PathInside d h.payload h.length) := by
  unfold decodeASPathAttribute
  rw [safe_checkTlv hin]
  refine imp_congr_right fun _ => ?_
  rw [safe_bind]
  cases use4byteAsnums with
  | true =>
    exact (and_iff_left fun path _ => safe_ok _).trans (safe_decodeAS4Path hin.stop_le)
  | false =>
    exact (and_iff_left fun path _ => safe_ok _).trans (safe_decodeASPath hin.stop_le)

theorem safe_decodeAS4PathAttribute (hin : h.Inside d) :
    Safe (decodeAS4PathAttribute d h) ↔ (h.flags.optionalTransitive = true →
      Path4Inside d h.payload h.length) := by
  unfold decodeAS4PathAttribute
  rw [safe_checkTlv hin]
  refine imp_congr_right fun _ => ?_
  rw [safe_bind]
  exact (and_iff_left fun path _ => safe_ok _).trans (safe_decodeAS4Path hin.stop_le)

theorem safe_decodeValue (hin : h.Inside d) :
    Safe (decodeValue use4byteAsnums d h) ↔ ValueInside use4byteAsnums d h := by
  have hstop : h.stop ≤ d.size := hin.stop_le
  unfold decodeValue
  split
  · exact inside_of_type (safe_decodeOrigin hin) (by omega)
  · rename_i ht
    rw [safe_decodeASPathAttribute hin]
    simp [ValueInside, ht, asPath, mpReachNlri, mpUnreachNlri, as4Path]
  · exact inside_of_type (safe_decodeNextHop hin) (by omega)
  · exact inside_of_type (safe_decodeMed hin) (by omega)
  · exact inside_of_type (safe_decodeLocalPref hin) (by omega)
  · exact inside_of_type (safe_decodeAtomicAgg hin) (by omega)
  · exact inside_of_type (safe_decodeAggregator hin) (by omega)
  · exact inside_of_type (safe_decodeCommunity hin) (by omega)
  · exact inside_of_type (safe_decodeOriginatorId hin) (by omega)
  · exact inside_of_type (safe_decodeClusterList hin) (by omega)
  · rename_i ht
    rw [safe_family (safe_decodeMpReach6 hstop) (safe_decodeMpReach4 hstop)
      fun hflags hp hafi => openMultiprotocol_afi hflags hp hafi]
    simp [ValueInside, ht, asPath, mpReachNlri, mpUnreachNlri, as4Path]
  · rename_i ht
    rw [safe_family (safe_decodeMpUnreach6 hstop) (safe_decodeMpUnreach4 hstop)
      fun hflags hp hafi => openMultiprotocol_afi hflags hp hafi]
    simp [ValueInside, ht, asPath, mpReachNlri, mpUnreachNlri, as4Path]
  · rename_i ht
    rw [safe_decodeAS4PathAttribute hin]
    simp [ValueInside, ht, asPath, mpReachNlri, mpUnreachNlri, as4Path]
  · exact inside_of_type (safe_decodeAS4Aggregator hin) (by omega)
  · exact inside_of_type (safe_decodeUnknown hin)
      ⟨by assumption, by assumption, by assumption, by assumption⟩

/-- An attribute whose length passes the checks of `create` is decoded inside the message. -/
def AttributeInside (use4byteAsnums : Bool) (d : Buffer) (p maxLen : Nat) : Prop :=
  3 ≤ maxLen → ¬ ((Flags.ofByte (d.u8 p)).extended = true ∧ maxLen < 4) →
    (Header.ofBuffer d p).total ≤ maxLen →
      ValueInside use4byteAsnums d (Header.ofBuffer d p)

theorem safe_create (hle : p + maxLen ≤ d.size) (hlt : maxLen < 4096) :
    Safe (create use4byteAsnums d p maxLen) ↔ AttributeInside use4byteAsnums d p maxLen := by
  have hsize : 3 ≤ maxLen → ¬ ((Flags.ofByte (d.u8 p)).extended = true ∧ maxLen < 4) →
      p + (ofBuffer d p).size ≤ d.size := by
    intro h3 h4
    unfold size ofBuffer
    split
    · rename_i hext
      have : ¬ maxLen < 4 := fun hlt => h4 ⟨hext, hlt⟩
      omega
    · omega
  unfold create AttributeInside
  rw [safe_checkWith hlt hle]
  refine imp_congr_right fun h3 => ?_
  rw [safe_byte, safe_checkWith hlt hle, and_iff_right (by omega)]
  refine imp_congr_right fun h4 => ?_
  rw [(reads d p).safe_bind, and_iff_right (hsize h3 h4), safe_checkWith hlt hle]
  refine imp_congr_right fun htotal => ?_
  have hin : (ofBuffer d p).Inside d := by
    refine ⟨by omega, ?_⟩
    show p + (ofBuffer d p).total ≤ d.size
    omega
  rw [safe_bind, safe_decodeValue hin]
  exact and_iff_left fun value _ => safe_ok _

/-! ### What comes out -/

/-- The types that have a constructor of their own. -/
def knownTypes : List Nat := [1, 2, 3, 4, 5, 6, 7, 8, 9, 10, 14, 15, 17, 18]

theorem Value.type_eq (v : Value) : v.type = match v with
    | .origin _ => 1
    | .asPath _ => 2
    | .nextHop _ => 3
    | .med _ => 4
    | .localPref _ => 5
    | .atomicAggregate => 6
    | .aggregator _ _ => 7
    | .community _ => 8
    | .originatorId _ => 9
    | .clusterList _ => 10
    | .mpReach4 _ _ _ | .mpReach6 _ _ _ _ => 14
    | .mpUnreach4 _ _ | .mpUnreach6 _ _ => 15
    | .as4Path _ => 17
    | .as4Aggregator _ _ => 18
    | .unknown type _ => type := by
  cases v <;> rfl

/-- A value of a type: only the types without a constructor of their own are unknown. -/
structure Value.HasType (type : Nat) (v : Value) : Prop where
  type_eq : v.type = type
  proper : ∀ t data, v = .unknown t data → t ∉ knownTypes

theorem Value.HasType.of_ne {v : Value} {type : Nat} (htype : v.type = type)
    (hv : ∀ t data, v ≠ .unknown t data) : v.HasType type :=
  ⟨htype, fun t data h => absurd h (hv t data)⟩

theorem ensures_orCatch {P : β → Prop} (hx : Ensures x P) (hy : Ensures y P) :
    Ensures (orCatch x y) P := by
  unfold orCatch
  split
  · exact hy
  · exact hx

theorem decodeValue_hasType : Ensures (decodeValue use4byteAsnums d h) (Value.HasType h.type) := by
  unfold decodeValue
  split <;> rename_i ht
  case h_1 =>
    refine ensures_bind fun _ => ensures_bind fun _ => ensures_bind fun type => ?_
    cases OriginType.ofNat? type with
    | none => exact ensures_bind fun _ => ensures_bind fun data => ensures_error _
    | some origin => exact ensures_ok (.of_ne ht.symm nofun)
  case h_15 =>
    refine ensures_bind fun _ => ensures_bind fun data => ensures_ok ⟨rfl, ?_⟩
    intro t bytes heq hmem
    cases heq
    simp only [knownTypes, List.mem_cons, List.not_mem_nil, or_false] at hmem
    rcases hmem with h | h | h | h | h | h | h | h | h | h | h | h | h | h <;> contradiction
  case' h_11 => refine ensures_orCatch ?_ ?_
  case' h_12 => refine ensures_orCatch ?_ ?_
  -- Whatever the fields are that are read, the value made of them is of the type.
  all_goals
    repeat refine ensures_bind fun _ => ?_
    exact ensures_ok (.of_ne ht.symm nofun)

/-- The attribute that `create` makes is the one at the offset, and the length that it used is the
length of that attribute. -/
theorem create_eq {a : PathAttribute} {used : Nat}
    (hcreate : create use4byteAsnums d p maxLen = .ok (a, used)) :
    used = (ofBuffer d p).total ∧ used ≤ maxLen ∧ a.flags = Flags.ofByte (d.u8 p) ∧
      a.value.HasType (d.u8 (p + 1)) := by
  have hens : Ensures (create use4byteAsnums d p maxLen) fun r =>
      r.2 = (ofBuffer d p).total ∧ r.2 ≤ maxLen ∧ r.1.flags = Flags.ofByte (d.u8 p) ∧
        r.1.value.HasType (d.u8 (p + 1)) := by
    refine ensures_bind fun _ => ensures_bind fun flags => ensures_bind fun _ => ?_
    refine (reads d p).ensures.bind ?_
    rintro h ⟨-, rfl⟩
    refine ensures_checkWith fun htotal => ?_
    refine decodeValue_hasType.bind fun value hvalue => ?_
    exact ensures_ok ⟨rfl, htotal, rfl, hvalue⟩
  exact hens (a, used) hcreate

theorem Header.three_le_total (h : Header) : 3 ≤ h.total := by
  unfold total size
  split <;> omega

end Wire

end Xorp.Bgp

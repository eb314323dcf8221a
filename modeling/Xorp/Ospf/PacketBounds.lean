/-
Which packets are decoded inside the buffer.

With a length in the header that covers the header, every count comes out right, and only LSAs can
lead out of the packet.  A smaller length is accepted too.  What is left after the header then wraps
around and passes for a packet of any size.  The counts computed from it are put into an `int`,
where most of them come out negative, and a loop over requests goes on for a billion rounds.
-/
import Xorp.Lib.Outcome
import Xorp.Ospf.Packet
import Xorp.Ospf.LsaBounds

namespace Xorp.Ospf

namespace Wire

open Bytes Nat

variable {version : Version} {d : Buffer} {type len offset : Nat}

/-! ### The standard header -/

theorem standardHeader_le : standardHeader version ≤ 24 := by
  cases version <;> decide

theorem safe_decodeLength (expected : Version) : Safe (decodeLength expected type d) := by
  unfold decodeLength
  rw [safe_check]
  intro h2
  rw [safe_byte]
  refine ⟨by omega, ?_⟩
  rw [safe_check]
  intro _
  rw [safe_byte]
  refine ⟨by omega, ?_⟩
  rw [safe_check]
  intro _
  rw [safe_check]
  intro hstd
  have h16 : 16 ≤ standardHeader (if d.u8 0 = 2 then .v2 else .v3) := by
    split_ifs <;> decide
  rw [safe_extract16, safe_check]
  exact ⟨by omega, fun _ => safe_ok _⟩

/-- The length is the one in the packet, and the packet has room for the header. -/
theorem decodeLength_result (expected : Version) : Ensures (decodeLength expected type d) fun a =>
      a.1 = (if d.u8 0 = 2 then .v2 else .v3) ∧ a.2 = d.u16 2 ∧ standardHeader a.1 ≤ d.size ∧
        a.2 ≤ d.size := by
  refine ensures_check fun _ => (reads_byte d 0).ensures.bind fun number hnumber =>
    ensures_check fun _ => ensures_bind fun received => ensures_check fun _ =>
      ensures_check fun hstd => (reads_extract16 d 2).ensures.bind fun packetLength hlength =>
        ensures_check fun hle => ensures_ok ?_
  rw [hnumber.2] at hstd
  exact ⟨by rw [hnumber.2], hlength.2, by rw [hnumber.2]; exact hstd, hle⟩

theorem version_of_number (h : d.u8 0 = version.toNat) :
    (if d.u8 0 = 2 then Version.v2 else .v3) = version := by
  rw [h]
  cases version <;> rfl

section
variable (hnumber : d.u8 0 = version.toNat)
include hnumber

theorem safe_decodeStandardHeader : Safe (decodeStandardHeader version type d) := by
  unfold decodeStandardHeader
  rw [safe_bind]
  refine ⟨safe_decodeLength version, fun a ha => ?_⟩
  obtain ⟨hversion, -, hstd, hle⟩ := decodeLength_result version a ha
  obtain ⟨v, len⟩ := a
  rw [version_of_number hnumber] at hversion
  subst hversion
  rw [safe_extract32, safe_extract32, safe_bind]
  cases v with
  | v2 =>
    have h24 : 24 ≤ d.size := hstd
    refine ⟨by omega, by omega, ?_, fun _ _ => safe_ok _⟩
    unfold decodeAuth
    rw [safe_extract16, safe_slice, safe_extract16, safe_slice, safe_check]
    exact ⟨by omega, .inr (by omega), by omega, .inr (by omega), fun _ => safe_ok _⟩
  | v3 =>
    have h16 : 16 ≤ d.size := hstd
    refine ⟨by omega, by omega, ?_, fun _ _ => safe_ok _⟩
    unfold decodeAuth
    rw [safe_verify, safe_byte]
    exact ⟨rfl, by omega, safe_ok _⟩

theorem decodeStandardHeader_result : Ensures (decodeStandardHeader version type d) fun a =>
      a.2 = d.u16 2 ∧ standardHeader version ≤ d.size ∧ a.2 ≤ d.size := by
  refine (decodeLength_result version).bind fun a ha => ensures_bind fun routerId =>
    ensures_bind fun areaId => ensures_bind fun auth => ensures_ok ?_
  obtain ⟨hversion, hlen, hstd, hle⟩ := ha
  rw [version_of_number hnumber] at hversion
  rw [hversion] at hstd
  exact ⟨hlen, hstd, hle⟩

/-- A decoder that starts with the standard header. -/
theorem safe_afterHeader {β : Type}
    {f : StandardHeader × Nat → Read InvalidPacket β} {inside : Nat → Prop}
    (hf : ∀ header len, len < 2 ^ 16 → standardHeader version ≤ 24 →
      standardHeader version ≤ d.size → len ≤ d.size → (Safe (f (header, len)) ↔ inside len)) :
    Safe (decodeStandardHeader version type d >>= f) ↔
      ∀ header len, decodeStandardHeader version type d = .ok (header, len) → inside len := by
  rw [safe_bind, and_iff_right (safe_decodeStandardHeader hnumber), Prod.forall]
  refine forall₂_congr fun header len => imp_congr_right fun heq => ?_
  obtain ⟨hlen, hstd, hle⟩ := decodeStandardHeader_result hnumber _ heq
  exact hf header len (hlen.trans_lt (d.u16_lt 2)) standardHeader_le hstd hle

end

/-! ### Counts -/

variable {n size : Nat}

theorem count_of_le (hle : offset ≤ len) (hlen : len < 2 ^ 16) :
    countInt (sub64 len offset / size) = (len - offset) / size := by
  rw [sub64_of_le hle (by omega)]
  have hdiv := div_le_self (len - offset) size
  exact countInt_of_lt (by omega)

/-- Neighbours in a packet that is too short: a negative number. -/
theorem count_four_of_lt (hlt : len < offset) (hoffset : offset ≤ 64) :
    countInt (sub64 len offset / 4) = 0 := by
  rw [sub64_of_lt hlt (by omega)]
  exact if_neg (by omega)

theorem count_twenty_of_lt (hlt : len < offset) (hoffset : offset ≤ 64) :
    countInt (sub64 len offset / headerLength) = 0 := by
  rw [sub64_of_lt hlt (by omega)]
  unfold headerLength
  exact if_neg (by omega)

/-- So many items of so many bytes, within what is left. -/
theorem items_inside {bound : Nat} (hn : n * size ≤ bound) {j : Nat} (hj : j < n) :
    j * size + size ≤ bound :=
  calc j * size + size = (j + 1) * size := (succ_mul j size).symm
    _ ≤ n * size := mul_le_mul_right size hj
    _ ≤ bound := hn

/-- With the length that the header gives, what is read of a packet of a type is inside the
buffer. -/
def TypeInside (version : Version) (type : Nat) (d : Buffer) (len : Nat) : Prop :=
  match type with
  | 1 => standardHeader version ≤ len ∨ standardHeader version + helloMinimumLength ≤ d.size
  | 2 => standardHeader version ≤ len ∨ standardHeader version + ddMinimumLength version ≤ d.size
  | 3 => standardHeader version ≤ len ∨ standardHeader version +
      countInt (sub64 len (standardHeader version) / lsRequestLength) * lsRequestLength ≤ d.size
  | 4 => minLsaLength version ≤ sub64 len (standardHeader version) →
      standardHeader version + 4 ≤ d.size ∧
        ∀ k < d.u32 (standardHeader version), ∀ lsas p,
          decodeLsas version d len k (standardHeader version + 4) = .ok (lsas, p) →
            LsaInside version d p (sub64 len p)
  | _ => True

/-- It is so for every header that is accepted. -/
def HeaderInside (version : Version) (type : Nat) (d : Buffer) : Prop :=
  ∀ header len, decodeStandardHeader version type d = .ok (header, len) →
    TypeInside version type d len

/-! ### Hello -/

theorem exists_reads_helloFields :
    ∃ fields, Reads (decodeHelloFields version d offset) (offset + helloMinimumLength ≤ d.size)
      fields := by
  unfold helloMinimumLength
  cases version with
  | v2 =>
    exact ⟨_, ((reads_extract32 d offset).bind ((reads_extract16 d (offset + 4)).bind
      ((reads_byte d (offset + 6)).bind ((reads_byte d (offset + 7)).bind
        ((reads_extract32 d (offset + 8)).bind ((reads_extract32 d (offset + 12)).bind
          ((reads_extract32 d (offset + 16)).map _))))))).of_iff (by omega)⟩
  | v3 =>
    exact ⟨_, ((reads_extract32 d offset).bind ((reads_byte d (offset + 4)).bind
      ((reads_extract32 d (offset + 4)).bind ((reads_extract16 d (offset + 8)).bind
        ((reads_extract16 d (offset + 10)).bind ((reads_extract32 d (offset + 12)).bind
          ((reads_extract32 d (offset + 16)).map _))))))).of_iff (by omega)⟩

theorem safe_decodeHello (hnumber : d.u8 0 = version.toNat) :
    Safe (decodeHello version d) ↔ HeaderInside version 1 d := by
  refine safe_afterHeader hnumber fun header len hlt h24 hstd hle => ?_
  obtain ⟨fields, hfields⟩ := exists_reads_helloFields
  show Safe _ ↔ (standardHeader version ≤ len ∨ _)
  rw [safe_check, hfields.safe_bind,
    (reads_readMany (fun j => reads_extract32 d _) _ 0).safe_bind, and_iff_left (safe_ok _)]
  by_cases hcover : standardHeader version ≤ len
  · refine iff_of_true (fun hmin => ?_) (.inl hcover)
    rw [sub64_of_le hcover (by omega)] at hmin
    rw [count_of_le (by omega) (by omega)]
    refine ⟨by omega, fun j _ hj => ?_⟩
    omega
  · rw [sub64_of_lt (by omega) (by omega), count_four_of_lt (by unfold helloMinimumLength; omega)
      (by unfold helloMinimumLength; omega), imp_iff_right (by unfold helloMinimumLength; omega),
      or_iff_right hcover]
    exact and_iff_left fun j _ hj => absurd hj (by omega)

/-! ### Database description -/

theorem exists_reads_dataDescriptionFields (version : Version) (d : Buffer) (offset : Nat) :
    ∃ fields, Reads (decodeDataDescriptionFields version d offset)
      (offset + ddMinimumLength version ≤ d.size) fields := by
  cases version with
  | v2 =>
    exact ⟨_, ((reads_extract16 d offset).bind ((reads_byte d (offset + 2)).bind
      ((reads_byte d (offset + 3)).bind ((reads_extract32 d (offset + 4)).map _)))).of_iff
        (show _ ↔ offset + 8 ≤ d.size by omega)⟩
  | v3 =>
    exact ⟨_, ((reads_extract32 d offset).bind ((reads_extract16 d (offset + 4)).bind
      ((reads_byte d (offset + 7)).bind ((reads_extract32 d (offset + 8)).map _)))).of_iff
        (show _ ↔ offset + 12 ≤ d.size by omega)⟩

/-- LSA headers never lead out of the packet: in one that is too short there are none. -/
theorem safe_decodeLsaHeaders (hoffset : offset ≤ 64) (hlen : len < 2 ^ 16) (hle : len ≤ d.size) :
    Safe (decodeLsaHeaders version d offset len) := by
  unfold decodeLsaHeaders
  rw [(reads_readMany (fun j => LsaHeader.reads version d _) _ 0).safe_iff]
  intro j _ hj
  by_cases hcover : offset ≤ len
  · rw [count_of_le hcover hlen] at hj
    have hitems := items_inside (div_mul_le_self (len - offset) headerLength)
      (show j < _ by omega)
    omega
  · rw [count_twenty_of_lt (by omega) hoffset] at hj
    omega

theorem safe_decodeDataDescription (hnumber : d.u8 0 = version.toNat) :
    Safe (decodeDataDescription version d) ↔ HeaderInside version 2 d := by
  refine safe_afterHeader hnumber fun header len hlt h24 hstd hle => ?_
  obtain ⟨fields, hfields⟩ := exists_reads_dataDescriptionFields version d (standardHeader version)
  have h12 : ddMinimumLength version ≤ 12 := by cases version <;> decide
  have hheaders : Safe (decodeLsaHeaders version d (standardHeader version + ddMinimumLength version)
      len) := safe_decodeLsaHeaders (by omega) (by omega) hle
  show Safe _ ↔ (standardHeader version ≤ len ∨ _)
  rw [safe_check, hfields.safe_bind, safe_bind, and_iff_right hheaders,
    and_iff_left fun _ _ => safe_ok _]
  by_cases hcover : standardHeader version ≤ len
  · refine iff_of_true (fun hmin => ?_) (.inl hcover)
    rw [sub64_of_le hcover (by omega)] at hmin
    omega
  · rw [sub64_of_lt (by omega) (by omega), imp_iff_right (by omega), or_iff_right hcover]

/-! ### Requests and acknowledgements -/

theorem exists_reads_lsRequest : ∃ request : Nat → LsRequest, ∀ p,
      Reads (LsRequest.decode version d p) (p + lsRequestLength ≤ d.size) (request p) := by
  unfold lsRequestLength
  cases version with
  | v2 =>
    exact ⟨fun p => _, fun p => ((reads_extract32 d p).bind ((reads_extract32 d (p + 4)).bind
      ((reads_extract32 d (p + 8)).map _))).of_iff (by omega)⟩
  | v3 =>
    exact ⟨fun p => _, fun p => ((reads_extract16 d (p + 2)).bind ((reads_extract32 d (p + 4)).bind
      ((reads_extract32 d (p + 8)).map _))).of_iff (by omega)⟩

theorem items_iff {bound : Nat} (hoffset : offset ≤ bound) :
    (∀ j, 0 ≤ j → j < 0 + n → offset + j * size + size ≤ bound) ↔ offset + n * size ≤ bound := by
  constructor
  · intro h
    cases n with
    | zero =>
      rw [Nat.zero_mul]
      exact hoffset
    | succ n =>
      rw [Nat.succ_mul, ← Nat.add_assoc]
      exact h n (Nat.zero_le n) (by omega)
  · intro h j _ hj
    have hitems := items_inside (Nat.le_sub_of_add_le' h) (show j < n by omega)
    omega

theorem safe_decodeLinkStateRequest (hnumber : d.u8 0 = version.toNat) :
    Safe (decodeLinkStateRequest version d) ↔ HeaderInside version 3 d := by
  refine safe_afterHeader hnumber fun header len hlt h24 hstd hle => ?_
  obtain ⟨request, hrequest⟩ := exists_reads_lsRequest
  show Safe _ ↔ (standardHeader version ≤ len ∨ _)
  rw [safe_check, (reads_readMany (fun j => hrequest _) _ 0).safe_bind, and_iff_left (safe_ok _),
    items_iff hstd]
  by_cases hcover : standardHeader version ≤ len
  · refine iff_of_true (fun _ => ?_) (.inl hcover)
    rw [count_of_le hcover (by omega)]
    have hitems := div_mul_le_self (len - standardHeader version) lsRequestLength
    omega
  · rw [sub64_of_lt (by omega) (by omega)]
    unfold lsRequestLength
    omega

theorem safe_decodeLinkStateAcknowledgement (hnumber : d.u8 0 = version.toNat) :
    Safe (decodeLinkStateAcknowledgement version d) := by
  refine (safe_afterHeader hnumber fun header len hlt h24 hstd hle => ?_).mpr fun _ _ _ => trivial
  rw [safe_check, safe_bind]
  exact iff_of_true (fun _ => ⟨safe_decodeLsaHeaders (by omega) (by omega) hle,
    fun _ _ => safe_ok _⟩) trivial

/-! ### Updates -/

theorem decodeLsas_succ {a : List Lsa × Nat} (h : decodeLsas version d len (n + 1) offset = .ok a) :
    ∃ x rest, decodeLsa version d offset (sub64 len offset) = .ok x ∧
      decodeLsas version d len n (offset + x.2) = .ok rest ∧ a = (x.1 :: rest.1, rest.2) := by
  obtain ⟨x, hx, h⟩ := Linked.bind_eq_ok.mp h
  obtain ⟨rest, hrest, h⟩ := Linked.bind_eq_ok.mp h
  cases h
  exact ⟨x, rest, hx, hrest, rfl⟩

/-- The loop over the LSAs is safe when every LSA that it comes to is read inside the packet. -/
theorem safe_decodeLsas (n offset : Nat) : Safe (decodeLsas version d len n offset) ↔
      ∀ k < n, ∀ lsas p, decodeLsas version d len k offset = .ok (lsas, p) →
        LsaInside version d p (sub64 len p) := by
  induction n generalizing offset with
  | zero => exact iff_of_true (safe_ok _) fun k hk => absurd hk (not_lt_zero k)
  | succ n ih =>
    constructor
    · intro h k hk lsas p hlsas
      obtain ⟨hfirst, hrest⟩ := safe_bind.mp h
      cases k with
      | zero =>
        cases hlsas
        exact safe_decodeLsa.mp hfirst
      | succ k =>
        obtain ⟨x, rest, hx, htail, ha⟩ := decodeLsas_succ hlsas
        cases ha
        exact (ih (offset + x.2)).mp (safe_bind.mp (hrest x hx)).1 k (lt_of_succ_lt_succ hk)
          rest.1 rest.2 htail
    · intro h
      unfold decodeLsas
      rw [safe_bind]
      refine ⟨safe_decodeLsa.mpr (h 0 (succ_pos n) [] offset rfl), fun x hx => ?_⟩
      rw [safe_bind]
      refine ⟨(ih (offset + x.2)).mpr fun k hk lsas p hlsas => ?_, fun _ _ => safe_ok _⟩
      refine h (k + 1) (succ_lt_succ hk) (x.1 :: lsas) p ?_
      unfold decodeLsas
      rw [hx]
      change (decodeLsas version d len k (offset + x.2) >>= _) = _
      rw [hlsas]
      rfl

/-- Every LSA takes its share of the packet. -/
theorem decodeLsas_result (n offset : Nat) (hlen : len < 2 ^ 64) :
    Ensures (decodeLsas version d len n offset) fun a =>
      offset + a.1.length * headerLength ≤ a.2 ∧ (offset ≤ d.size → a.2 ≤ d.size) ∧
        (offset ≤ len → a.2 ≤ len) := by
  induction n generalizing offset with
  | zero => exact ensures_ok ⟨by rw [List.length_nil]; omega, id, id⟩
  | succ n ih =>
    refine decodeLsa_length.bind fun x hx => (ih _).bind fun rest hrest =>
      ensures_ok ⟨?_, fun _ => hrest.2.1 hx.2.2.2, fun hle => hrest.2.2 ?_⟩
    · rw [List.length_cons, succ_mul]
      omega
    · have hle' := hx.2.2.1
      rw [sub64_of_le hle hlen] at hle'
      omega

/-- An LSA starts where the lengths of those before it say. -/
theorem decodeLsas_offset (n offset : Nat) : Ensures (decodeLsas version d len n offset) fun a =>
    a.2 = (fun q => q + d.u16 (q + 18))^[n] offset := by
  induction n generalizing offset with
  | zero => exact ensures_ok rfl
  | succ n ih =>
    refine decodeLsa_length.bind fun x hx => (ih _).bind fun rest hrest => ensures_ok ?_
    rw [Function.iterate_succ_apply, ← hx.1]
    exact hrest

theorem minLsaLength_eq : minLsaLength version = 24 := by
  cases version <;> rfl

theorem safe_decodeLinkStateUpdate (hnumber : d.u8 0 = version.toNat) :
    Safe (decodeLinkStateUpdate version d) ↔ HeaderInside version 4 d := by
  refine safe_afterHeader hnumber fun header len _ _ _ _ => ?_
  show Safe _ ↔ (minLsaLength version ≤ sub64 len (standardHeader version) → _)
  rw [safe_check, safe_extract32, safe_bind, safe_decodeLsas, and_iff_left fun _ _ => safe_ok _]

/-! ### What is returned -/

/-- The bytes that the contents of a packet take up. -/
def Packet.needs (version : Version) : Packet → Nat
  | .hello _ _ neighbours => standardHeader version + helloMinimumLength + neighbours.length * 4
  | .dataDescription _ _ lsaHeaders =>
      standardHeader version + ddMinimumLength version + lsaHeaders.length * headerLength
  | .linkStateRequest _ lsRequest => standardHeader version + lsRequest.length * lsRequestLength
  | .linkStateUpdate _ lsas => standardHeader version + 4 + lsas.length * headerLength
  | .linkStateAcknowledgement _ lsaHeaders =>
      standardHeader version + lsaHeaders.length * headerLength

/-- What was read fits into the buffer, and into the length of the packet when that covers the
header.  With a shorter length the count of the items wraps, and only the buffer bounds them. -/
def Packet.Fits (version : Version) (d : Buffer) (packet : Packet) : Prop :=
  packet.needs version ≤ d.size ∧
    (standardHeader version ≤ d.u16 2 → packet.needs version ≤ d.u16 2)

/-- A loop over items of one size: as many as were asked for, one after the other. -/
theorem readMany_items {α : Type} {f : Nat → Read InvalidPacket α} {g : Nat → α}
    (hf : ∀ j, Reads (f j) (offset + j * size + size ≤ d.size) (g j)) (hoffset : offset ≤ d.size) :
    Ensures (readMany f n 0) fun l => l.length = n ∧ offset + n * size ≤ d.size := by
  intro l hl
  obtain ⟨hin, hval⟩ := (reads_readMany hf n 0).ensures l hl
  refine ⟨?_, (items_iff hoffset).mp hin⟩
  rw [hval, List.length_map, List.length_range']

/-- Items that fill what is left of a packet fit into its length. -/
theorem count_le (hle : offset ≤ len) (hlen : len < 2 ^ 16) :
    offset + countInt (sub64 len offset / size) * size ≤ len := by
  rw [count_of_le hle hlen]
  have hitems := div_mul_le_self (len - offset) size
  omega

theorem decodeHello_fits (hnumber : d.u8 0 = version.toNat) :
    Ensures (decodeHello version d) (Packet.Fits version d) := by
  have hlt := d.u16_lt 2
  refine (decodeStandardHeader_result hnumber).bind fun a ha => ensures_check fun hmin => ?_
  obtain ⟨fields, hfields⟩ := exists_reads_helloFields
  refine hfields.ensures.bind fun _ hin => (readMany_items (fun j => reads_extract32 d _) hin.1).bind
    fun neighbours hn => ensures_ok ?_
  unfold Packet.Fits Packet.needs
  dsimp only
  rw [hn.1]
  refine ⟨hn.2, fun hcover => ?_⟩
  rw [ha.1, sub64_of_le hcover (by omega)] at hmin
  rw [ha.1]
  exact count_le (by omega) hlt

theorem decodeLsaHeaders_items (hoffset : offset ≤ d.size) :
    Ensures (decodeLsaHeaders version d offset len) fun l =>
      l.length = countInt (sub64 len offset / headerLength) ∧
        offset + l.length * headerLength ≤ d.size := by
  intro l hl
  obtain ⟨hlength, hin⟩ := readMany_items (fun j => LsaHeader.reads version d _) hoffset l hl
  refine ⟨hlength, ?_⟩
  rw [hlength]
  exact hin

section
variable (hnumber : d.u8 0 = version.toNat)
include hnumber

theorem decodeDataDescription_fits :
    Ensures (decodeDataDescription version d) (Packet.Fits version d) := by
  have hlt := d.u16_lt 2
  refine (decodeStandardHeader_result hnumber).bind fun a ha => ensures_check fun hmin => ?_
  obtain ⟨fields, hfields⟩ := exists_reads_dataDescriptionFields version d (standardHeader version)
  refine hfields.ensures.bind fun _ hin => (decodeLsaHeaders_items hin.1).bind fun lsaHeaders hn =>
    ensures_ok ⟨hn.2, fun hcover => ?_⟩
  rw [ha.1, sub64_of_le hcover (by omega)] at hmin
  unfold Packet.needs
  dsimp only
  rw [hn.1, ha.1]
  exact count_le (by omega) hlt

theorem decodeLinkStateRequest_fits :
    Ensures (decodeLinkStateRequest version d) (Packet.Fits version d) := by
  have hlt := d.u16_lt 2
  obtain ⟨request, hrequest⟩ := exists_reads_lsRequest
  refine (decodeStandardHeader_result hnumber).bind fun a ha => ensures_check fun _ =>
    (readMany_items (fun j => hrequest _) ha.2.1).bind fun requests hn => ensures_ok ?_
  unfold Packet.Fits Packet.needs
  dsimp only
  rw [hn.1]
  refine ⟨hn.2, fun hcover => ?_⟩
  rw [ha.1]
  exact count_le hcover hlt

theorem decodeLinkStateUpdate_fits :
    Ensures (decodeLinkStateUpdate version d) (Packet.Fits version d) := by
  have hlt := d.u16_lt 2
  refine (decodeStandardHeader_result hnumber).bind fun a ha => ensures_check fun hmin =>
    (reads_extract32 d _).ensures.bind fun nLsas hin =>
      (decodeLsas_result _ _ (by omega)).bind fun lsas hlsas => ensures_ok ⟨?_, fun hcover => ?_⟩
  · exact hlsas.1.trans (hlsas.2.1 hin.1)
  · rw [minLsaLength_eq, ha.1, sub64_of_le hcover (by omega)] at hmin
    rw [← ha.1]
    exact hlsas.1.trans (hlsas.2.2 (by omega))

theorem decodeLinkStateAcknowledgement_fits :
    Ensures (decodeLinkStateAcknowledgement version d) (Packet.Fits version d) := by
  have hlt := d.u16_lt 2
  refine (decodeStandardHeader_result hnumber).bind fun a ha => ensures_check fun _ =>
    (decodeLsaHeaders_items ha.2.1).bind fun lsaHeaders hn => ensures_ok ⟨hn.2, fun hcover => ?_⟩
  unfold Packet.needs
  dsimp only
  rw [hn.1, ha.1]
  exact count_le hcover hlt

end

/-! ### The packet decoder -/

/-- A packet with an acceptable header is read inside the buffer. -/
def PacketInside (version : Version) (d : Buffer) : Prop :=
  d.u8 0 = version.toNat → ∀ header len,
    decodeStandardHeader version (d.u8 1) d = .ok (header, len) →
      TypeInside version (d.u8 1) d len

theorem safe_decodeType (hnumber : d.u8 0 = version.toNat) : Safe (match d.u8 1 with
      | 1 => decodeHello version d
      | 2 => decodeDataDescription version d
      | 3 => decodeLinkStateRequest version d
      | 4 => decodeLinkStateUpdate version d
      | 5 => decodeLinkStateAcknowledgement version d
      | _ => .error (.invalid (.unknownType (d.u8 0) (d.u8 1)))) ↔
    HeaderInside version (d.u8 1) d := by
  generalize d.u8 1 = type
  split
  · exact safe_decodeHello hnumber
  · exact safe_decodeDataDescription hnumber
  · exact safe_decodeLinkStateRequest hnumber
  · exact safe_decodeLinkStateUpdate hnumber
  · exact iff_of_true (safe_decodeLinkStateAcknowledgement hnumber) fun _ _ _ => trivial
  · refine iff_of_true (safe_invalid _) fun _ len _ => ?_
    unfold TypeInside
    split
    all_goals first | contradiction | trivial

theorem safe_decode : Safe (decode version d) ↔ PacketInside version d := by
  unfold decode PacketInside
  rw [safe_check]
  by_cases h2 : 2 ≤ d.size
  · rw [imp_iff_right h2, safe_byte, and_iff_right (by omega), safe_check]
    by_cases hnumber : d.u8 0 = version.toNat
    · have hknown : d.u8 0 = 2 ∨ d.u8 0 = 3 := by
        rw [hnumber]
        cases version
        · exact .inl rfl
        · exact .inr rfl
      rw [imp_iff_right hknown, safe_byte, and_iff_right (by omega), if_pos hnumber,
        imp_iff_right hnumber]
      exact safe_decodeType hnumber
    · refine iff_of_true (fun _ => ?_) fun h => absurd h hnumber
      rw [safe_byte, if_neg hnumber]
      exact ⟨by omega, safe_invalid _⟩
  · refine iff_of_true (fun h => absurd h h2) fun hnumber header len hheader => ?_
    have hstd := (decodeStandardHeader_result hnumber _ hheader).2.1
    have h16 : 16 ≤ standardHeader version := by cases version <;> decide
    omega

theorem decode_fits (version : Version) (d : Buffer) :
    Ensures (decode version d) (Packet.Fits version d) := by
  refine ensures_check fun _ => (reads_byte d 0).ensures.bind fun number hnumber =>
    ensures_check fun _ => ensures_bind fun type => ?_
  split_ifs with hversion
  · rw [hnumber.2] at hversion
    split
    · exact decodeHello_fits hversion
    · exact decodeDataDescription_fits hversion
    · exact decodeLinkStateRequest_fits hversion
    · exact decodeLinkStateUpdate_fits hversion
    · exact decodeLinkStateAcknowledgement_fits hversion
    · exact ensures_error _
  · exact ensures_error _

/-- **Decoding a packet is total and in bounds.**  A packet comes out that holds no more than the
packet length allows, or the packet is rejected, exactly when the length in the header does not lead
a decoder out of the buffer, and no LSA does. -/
theorem decode_in_bounds_iff (version : Version) (d : Buffer) :
    ((∃ packet, decode version d = .ok packet ∧ packet.Fits version d) ∨
      ∃ reason, decode version d = .error (.invalid reason)) ↔ PacketInside version d := by
  rw [← safe_decode, safe_iff_cases]
  refine or_congr_left (exists_congr fun packet => ?_)
  exact and_iff_left_of_imp (decode_fits version d packet)

/-- A Hello packet that gives its length as 8, with a checksum over these eight bytes. -/
def shortHello : Buffer where
  data := [2, 1, 0, 8, 253, 246, 0, 0, 0, 0, 0, 0, 0, 0, 0, 0, 0, 0, 0, 0, 0, 0, 0, 0]
  fits := by decide

/-- An update with a Network-LSA of 29 bytes at its end, with both checksums in order. -/
def oddNetworkLsa : Buffer where
  data := [2, 4, 0, 57, 10, 0, 0, 2, 0, 0, 0, 0, 252, 181, 0, 0, 0, 0, 0, 0, 0, 0, 0, 0,
    0, 0, 0, 1,
    0, 1, 2, 2, 10, 0, 0, 1, 10, 0, 0, 1, 128, 0, 0, 1, 77, 228, 0, 29, 255, 255, 255, 0,
    10, 0, 0, 1, 10]
  fits := by decide

/-- Both are read past their end. -/
theorem decode_past_end : decode .v2 shortHello = .error .outOfBounds ∧
    decode .v2 oddNetworkLsa = .error .outOfBounds :=
  ⟨eq_of_readsOutside (by decide +kernel), eq_of_readsOutside (by decide +kernel)⟩

end Wire

end Xorp.Ospf

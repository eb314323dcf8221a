/-
Which LSA decoders stay inside the packet.

The length in the header of an LSA is compared with what is left of the packet, so a decoder that
stays inside the LSA stays inside the packet.  Three do not.  A Network-LSA is walked in steps of
four, and the last step may end up to three bytes after the LSA.  A Link-LSA and an
Intra-Area-Prefix-LSA may come to a place with three bytes left where a prefix needs four: the space
that is computed for its address wraps around, and the address is read wherever it is.
-/
import Xorp.Ospf.Lsa

namespace Xorp.Ospf

namespace Wire

open Bytes IPv6Prefix

variable {version : Version} {d : Buffer} {p len tlen : Nat}

/-! ### Fixed parts -/

/-- The header at an offset. -/
def LsaHeader.ofBytes (version : Version) (d : Buffer) (p : Nat) : LsaHeader where
  lsAge := d.u16 p
  options := match version with | .v2 => d.u8 (p + 2) | .v3 => 0
  lsType := match version with | .v2 => d.u8 (p + 3) | .v3 => d.u16 (p + 2)
  linkStateId := d.u32 (p + 4)
  advertisingRouter := d.u32 (p + 8)
  lsSequenceNumber := (BitVec.ofNat 32 (d.u32 (p + 12))).toInt
  lsChecksum := d.u16 (p + 16)
  length := d.u16 (p + 18)

theorem LsaHeader.reads (version : Version) (d : Buffer) (p : Nat) :
    Reads (LsaHeader.decode version d p) (p + headerLength ≤ d.size)
      (LsaHeader.ofBytes version d p) := by
  have htype : Reads (decodeType version d p) (p + 4 ≤ d.size)
      ((ofBytes version d p).options, (ofBytes version d p).lsType) := by
    cases version with
    | v2 => exact ((reads_byte d (p + 2)).bind ((reads_byte d (p + 3)).map _)).of_iff (by omega)
    | v3 => exact ((reads_extract16 d (p + 2)).map _).of_iff (by omega)
  exact ((reads_extract16 d p).bind (htype.bind ((reads_extract32 d (p + 4)).bind
    ((reads_extract32 d (p + 8)).bind ((reads_extract32 d (p + 12)).bind
      ((reads_extract16 d (p + 16)).bind ((reads_extract16 d (p + 18)).map _))))))).of_iff
        (by unfold headerLength; omega)

variable {stop : Nat} {name : LsaName} {kind : LsaKind} {β : Type} {useMetric : Bool}

theorem safe_openLsa {required : Nat} (hreq : headerLength ≤ required)
    {f : Nat × List UInt8 × LsaHeader → Read InvalidPacket β} :
    Safe (openLsa name version required d p len >>= f) ↔
      (required ≤ len → p + headerLength ≤ d.size ∧
        (d.u16 (p + 18) ≤ len → required ≤ d.u16 (p + 18) → p + d.u16 (p + 18) ≤ d.size ∧
          (verifyChecksum (d.slice (p + 2) (d.u16 (p + 18) - 2)) 14 →
            Safe (f (d.u16 (p + 18), d.slice p (d.u16 (p + 18)),
              LsaHeader.ofBytes version d p))))) := by
  unfold openLsa getLsaLenFromHeader
  simp only [bind_assoc, safe_check, safe_extract16, safe_ok_bind, safe_slice,
    (LsaHeader.reads version d p).safe_bind]
  have hsub : ∀ t, headerLength ≤ t → t < 2 ^ 16 → sub64 t 2 = t - 2 := fun t ht hlt =>
    sub64_of_le (by unfold headerLength at ht; omega) (by omega)
  have hlt := d.u16_lt (p + 18)
  refine imp_congr_right fun hlen => ⟨fun h => ?_, fun h => ?_⟩
  · refine ⟨h.1, fun hle hmin => ?_⟩
    have h20 := hreq.trans hmin
    have hrest := h.2 hle hmin
    rw [hsub _ h20 hlt] at hrest
    refine ⟨by omega, fun hsum => (hrest.2 hsum).2.2⟩
  · refine ⟨h.1, fun hle hmin => ?_⟩
    have h20 := hreq.trans hmin
    have hrest := h.2 hle hmin
    rw [hsub _ h20 hlt]
    refine ⟨by omega, fun hsum => ⟨by omega, h.1, hrest.2 hsum⟩⟩

/-! ### Links and attached routers -/

theorem bytesPerPrefix_le (n : Nat) : bytesPerPrefix n ≤ 16 ↔ n ≤ 128 := by
  unfold bytesPerPrefix
  omega

theorem RouterLink.safe_decode (h : p + len ≤ d.size) : Safe (RouterLink.decode version d p len) := by
  unfold RouterLink.decode
  rw [safe_check]
  intro hlen
  cases version with
  | v2 =>
    have h12 : 12 ≤ len := hlen
    simp only [safe_extract32, safe_byte]
    refine ⟨by omega, by omega, by omega, ?_⟩
    cases LinkType.ofNat? (d.u8 (p + 8)) with
    | none => exact safe_invalid _
    | some link =>
      simp only [safe_extract16, safe_byte]
      exact ⟨by omega, by omega, safe_ok _⟩
  | v3 =>
    have h16 : 16 ≤ len := hlen
    rw [safe_byte]
    refine ⟨by omega, ?_⟩
    split
    · exact safe_invalid _
    · exact safe_invalid _
    · rw [safe_byte, safe_extract16, safe_extract32, safe_extract32, safe_extract32]
      exact ⟨by omega, by omega, by omega, by omega, by omega, safe_ok _⟩

theorem RouterLink.decode_pos : Ensures (RouterLink.decode version d p len) fun a => 0 < a.2 := by
  have hpos : 0 < RouterLink.length version := by cases version <;> decide
  refine ensures_check fun _ => ?_
  cases version with
  | v2 =>
    refine ensures_bind fun _ => ensures_bind fun _ => ensures_bind fun type => ?_
    split
    · exact ensures_error _
    · exact ensures_bind fun _ => ensures_bind fun _ => ensures_ok (Nat.add_pos_left hpos _)
  | v3 =>
    refine ensures_bind fun type => ?_
    split
    · exact ensures_error _
    · exact ensures_error _
    · exact ensures_bind fun _ => ensures_bind fun _ => ensures_bind fun _ => ensures_bind fun _ =>
        ensures_bind fun _ => ensures_ok hpos

/-- The walk over the links stays inside the LSA. -/
theorem safe_decodeRouterLinks (hstop : stop ≤ d.size) (fuel start : Nat)
    (hfuel : stop - start < fuel) : Safe (decodeRouterLinks version d stop fuel start) := by
  induction fuel generalizing start with
  | zero => omega
  | succ fuel ih =>
    unfold decodeRouterLinks
    split_ifs with hlt
    · rw [safe_bind]
      refine ⟨RouterLink.safe_decode (by omega), fun a ha => ?_⟩
      have hpos := RouterLink.decode_pos a ha
      rw [safe_verify, safe_bind]
      exact ⟨by omega, ih _ (by omega), fun rest _ => safe_ok _⟩
    · exact safe_ok _

/-- The walk over the attached routers ends after the LSA when its length is not a multiple of
four. -/
theorem safe_decodeAttachedRouters (fuel start : Nat) (hfuel : stop - start < fuel) :
    Safe (decodeAttachedRouters d stop fuel start) ↔
      (start < stop → start + (stop - start + 3) / 4 * 4 ≤ d.size) := by
  induction fuel generalizing start with
  | zero => omega
  | succ fuel ih =>
    unfold decodeAttachedRouters
    split_ifs with hlt
    · rw [safe_extract32, safe_bind, ih _ (by omega)]
      refine ⟨fun h _ => ?_, fun h => ⟨?_, fun _ => ?_, fun _ _ => safe_ok _⟩⟩
      · by_cases hnext : start + 4 < stop
        · omega
        · omega
      · omega
      · omega
    · exact iff_of_true (safe_ok _) fun h => absurd h hlt

/-! ### Prefixes -/

theorem IPv6Prefix.safe_decode {prefixLen option : Nat} : Safe (decode d p len prefixLen option) ↔
      (bytesPerPrefix prefixLen ≤ 16 → bytesPerPrefix prefixLen ≤ len →
        bytesPerPrefix prefixLen = 0 ∨ p + bytesPerPrefix prefixLen ≤ d.size) := by
  unfold decode
  simp only [safe_check, safe_slice]
  refine imp_congr_right fun h16 => imp_congr_right fun _ => ?_
  rw [dif_pos ((bytesPerPrefix_le prefixLen).mp h16)]
  exact and_iff_left (safe_ok _)

theorem IPv6Prefix.decode_bytes (p len prefixLen option : Nat) :
    Ensures (decode d p len prefixLen option) fun a =>
      a.2 = bytesPerPrefix prefixLen ∧ bytesPerPrefix prefixLen ≤ 16 ∧
        bytesPerPrefix prefixLen ≤ len := by
  refine ensures_check fun h16 => ensures_check fun hlen => ensures_bind fun addr => ?_
  split_ifs
  · exact ensures_ok ⟨rfl, h16, hlen⟩
  · exact ensures_error _

theorem IPv6Prefix.exists_decode {prefixLen : Nat} (option : Nat) (h16 : bytesPerPrefix prefixLen ≤ 16)
    (hlen : bytesPerPrefix prefixLen ≤ len)
    (hin : bytesPerPrefix prefixLen = 0 ∨ p + bytesPerPrefix prefixLen ≤ d.size) :
    ∃ a, decode d p len prefixLen option = .ok a := by
  unfold decode check
  dsimp only
  rw [if_pos h16, if_pos hlen, (reads_slice d p _).yes hin]
  exact ⟨_, dif_pos ((bytesPerPrefix_le prefixLen).mp h16)⟩

/-- Where the walk over the prefixes comes to a place with three bytes left, if it does. -/
def threeLeft (d : Buffer) (stop : Nat) : Nat → Nat → Nat → Option Nat
  | 0, _, _ => none
  | fuel + 1, start, prefixNum =>
      if start + 3 = stop then some start
      else if start + (bytesPerPrefix (d.u8 start) + 4) ≤ stop ∧
          bytesPerPrefix (d.u8 start) ≤ 16 ∧ sub64 prefixNum 1 ≠ 0 then
        threeLeft d stop fuel (start + (bytesPerPrefix (d.u8 start) + 4)) (sub64 prefixNum 1)
      else none

/-- The prefix at a place is inside the packet, or it is rejected before it is read. -/
def PrefixInside (useMetric : Bool) (d : Buffer) (start : Nat) : Prop :=
  bytesPerPrefix (d.u8 start) ≤ 16 →
    (bytesPerPrefix (d.u8 start) = 0 ∨ start + 4 + bytesPerPrefix (d.u8 start) ≤ d.size) ∧
      (useMetric = true → start + 4 ≤ d.size)

theorem safe_metric {f : Nat → Read InvalidPacket β} {q : Prop} (hf : ∀ a, Safe (f a) ↔ q) :
    Safe (decodeMetric useMetric d p >>= f) ↔ (useMetric = true → p + 4 ≤ d.size) ∧ q := by
  unfold decodeMetric
  cases useMetric with
  | false => exact (hf 0).trans (and_iff_right nofun).symm
  | true =>
    rw [if_pos rfl, safe_extract16, hf]
    exact and_congr_left' (imp_iff_right rfl).symm

/-- After a prefix the walk ends, or goes on with the next one. -/
theorem safe_afterPrefix {fuel next prefixNum : Nat} {ipv6Prefix : IPv6Prefix} :
    Safe (if sub64 prefixNum 1 = 0 then do
        check (next = stop) (.dataLeft name)
        .ok [ipv6Prefix]
      else do
        let rest ← decodePrefixes name useMetric d stop fuel next (sub64 prefixNum 1)
        .ok (ipv6Prefix :: rest)) ↔
      (sub64 prefixNum 1 ≠ 0 →
        Safe (decodePrefixes name useMetric d stop fuel next (sub64 prefixNum 1))) := by
  by_cases h : sub64 prefixNum 1 = 0
  · rw [if_pos h, safe_check]
    exact iff_of_true (fun _ => safe_ok _) fun hne => absurd h hne
  · rw [if_neg h, safe_bind]
    exact ⟨fun hs _ => hs.1, fun hs => ⟨hs h, fun _ _ => safe_ok _⟩⟩

theorem threeLeft_of_lt {start : Nat} (h : stop < start) (fuel prefixNum : Nat) :
    threeLeft d stop fuel start prefixNum = none := by
  cases fuel with
  | zero => rfl
  | succ fuel =>
    unfold threeLeft
    rw [if_neg (by omega), if_neg fun hin => by omega]

/-- The walk over the prefixes leaves the packet only from a place with three bytes left. -/
theorem safe_decodePrefixes (hstop : stop ≤ d.size) (fuel start prefixNum : Nat)
    (hfuel : stop - start < fuel) :
    Safe (decodePrefixes name useMetric d stop fuel start prefixNum) ↔
      ∀ s, threeLeft d stop fuel start prefixNum = some s → PrefixInside useMetric d s := by
  induction fuel generalizing start prefixNum with
  | zero => omega
  | succ fuel ih =>
    have hsize := d.size_lt
    unfold decodePrefixes threeLeft
    by_cases hlt : start < stop
    · rw [if_pos hlt, safe_check]
      by_cases hthree : start + 3 = stop
      · -- the space for the address wraps around, so only its length limits it
        have hspace : sub64 stop (start + 4) = 2 ^ 64 - 1 := by
          unfold sub64
          omega
        rw [if_pos hthree, hspace, imp_iff_right (by omega), safe_byte, safe_byte, safe_bind,
          safe_decode]
        have hafter : ∀ space prefixNum', (sub64 prefixNum 1 ≠ 0 → Safe (decodePrefixes name
            useMetric d stop fuel (start + (space + 4)) prefixNum')) := by
          intro space prefixNum' _
          rw [ih _ _ (by omega), threeLeft_of_lt (by omega)]
          exact nofun
        constructor
        · rintro ⟨-, -, hpre, hrest⟩ s hs h16
          cases hs
          have hin := hpre h16 (by omega)
          obtain ⟨x, hx⟩ := exists_decode (d.u8 (start + 1)) h16
            (show bytesPerPrefix (d.u8 start) ≤ 2 ^ 64 - 1 by omega) hin
          exact ⟨hin, ((safe_metric fun _ => safe_afterPrefix).mp (hrest x hx)).1⟩
        · intro h
          refine ⟨by omega, by omega, fun h16 _ => (h _ rfl h16).1, fun a ha => ?_⟩
          obtain ⟨-, h16, -⟩ := decode_bytes _ _ _ _ a ha
          exact (safe_metric fun _ => safe_afterPrefix).mpr ⟨(h _ rfl h16).2, hafter _ _⟩
      · rw [if_neg hthree]
        by_cases hfour : start + 4 ≤ stop
        · have hspace : sub64 stop (start + 4) = stop - (start + 4) := sub64_of_le hfour (by omega)
          rw [imp_iff_right (by omega), safe_byte, safe_byte, safe_bind, safe_decode, hspace]
          constructor
          · rintro ⟨-, -, -, hrest⟩ s hs
            split_ifs at hs with hin
            obtain ⟨x, hx⟩ := exists_decode (d.u8 (start + 1)) hin.2.1
              (show bytesPerPrefix (d.u8 start) ≤ stop - (start + 4) by omega)
              (.inr (show start + 4 + bytesPerPrefix (d.u8 start) ≤ d.size by omega))
            have hbytes := (decode_bytes _ _ _ _ x hx).1
            have hnext := ((safe_metric fun _ => safe_afterPrefix).mp (hrest x hx)).2 hin.2.2
            rw [hbytes, ih _ _ (by omega)] at hnext
            exact hnext s hs
          · intro h
            refine ⟨by omega, by omega, fun h16 hle => .inr (by omega), fun a ha => ?_⟩
            obtain ⟨hbytes, h16, hle⟩ := decode_bytes _ _ _ _ a ha
            refine (safe_metric fun _ => safe_afterPrefix).mpr ⟨fun _ => by omega, fun hne => ?_⟩
            rw [hbytes, ih _ _ (by omega)]
            intro s hs
            refine h s ?_
            rw [if_pos ⟨by omega, h16, hne⟩]
            exact hs
        · rw [if_neg (by omega)]
          exact iff_of_true (fun hin => absurd hin (by omega)) nofun
    · rw [if_neg hlt, safe_check, if_neg (by omega), if_neg (by omega)]
      exact iff_of_true (fun _ => safe_ok _) nofun

/-! ### Bodies -/

theorem safe_optionalPart {α : Type} {present : Bool} {bytes index : Nat} {reason : InvalidPacket}
    {read : Read InvalidPacket α} {f : Option α × Nat → Read InvalidPacket β}
    (hread : index + bytes ≤ len → Safe read) (hf : ∀ a, Safe (f a)) :
    Safe (optionalPart present bytes index len reason read >>= f) := by
  unfold optionalPart
  cases present with
  | false => exact hf _
  | true =>
    rw [if_pos rfl, bind_assoc, safe_check]
    intro hle
    rw [bind_assoc, safe_bind]
    exact ⟨hread hle, fun a _ => hf _⟩

theorem safe_decodeRouterLsa (hin : p + tlen ≤ d.size) (hmin : 24 ≤ tlen) :
    Safe (decodeRouterLsa version d p tlen) := by
  have hlinks : Safe (decodeRouterLinks version d (p + tlen) (tlen + 1) (p + headerLength + 4)) :=
    safe_decodeRouterLinks hin _ _ (by omega)
  unfold decodeRouterLsa headerLength at *
  rw [safe_byte]
  refine ⟨by omega, ?_⟩
  cases version with
  | v2 =>
    rw [safe_extract16, safe_bind]
    refine ⟨by omega, hlinks, fun links _ => ?_⟩
    rw [safe_check]
    exact fun _ => safe_ok _
  | v3 =>
    rw [safe_extract24, safe_bind]
    exact ⟨by omega, hlinks, fun links _ => safe_ok _⟩

theorem safe_decodeNetworkLsa (hmin : 28 ≤ tlen) :
    Safe (decodeNetworkLsa version d p tlen) ↔ p + 24 + (tlen - 24 + 3) / 4 * 4 ≤ d.size := by
  have hrouters : Safe (decodeAttachedRouters d (p + tlen) (tlen + 1) (p + headerLength + 4)) ↔
      p + 24 + (tlen - 24 + 3) / 4 * 4 ≤ d.size := by
    unfold headerLength
    rw [safe_decodeAttachedRouters _ _ (by omega), imp_iff_right (by omega),
      Nat.add_assoc p 20 4, Nat.add_sub_add_left]
  unfold decodeNetworkLsa
  cases version with
  | v2 =>
    rw [safe_extract32, safe_bind, hrouters]
    exact ⟨fun h => h.2.1, fun h => ⟨by unfold headerLength; omega, h, fun _ _ => safe_ok _⟩⟩
  | v3 =>
    rw [safe_extract24, safe_bind, hrouters]
    exact ⟨fun h => h.2.1, fun h => ⟨by unfold headerLength; omega, h, fun _ _ => safe_ok _⟩⟩

section
variable (hin : p + tlen ≤ d.size)
include hin

theorem safe_decodeSummaryNetworkLsa (hmin : 28 ≤ tlen) :
    Safe (decodeSummaryNetworkLsa version d p tlen) := by
  have hsize := d.size_lt
  unfold decodeSummaryNetworkLsa headerLength ipv6PrefixOffset
  cases version with
  | v2 =>
    rw [safe_extract32, safe_extract24]
    exact ⟨by omega, by omega, safe_ok _⟩
  | v3 =>
    rw [safe_extract24, safe_byte, safe_byte, safe_bind, safe_decode, sub64_of_le hmin (by omega)]
    refine ⟨by omega, by omega, by omega, fun _ hle => .inr (by omega), fun a _ => ?_⟩
    rw [safe_check]
    exact fun _ => safe_ok _

theorem safe_decodeSummaryRouterLsa
    (hmin : headerLength + LsaKind.summaryRouter.minLength version ≤ tlen) :
    Safe (decodeSummaryRouterLsa version d p) := by
  unfold decodeSummaryRouterLsa headerLength at *
  cases version with
  | v2 =>
    have h28 : 28 ≤ tlen := hmin
    rw [safe_extract32, safe_extract24]
    exact ⟨by omega, by omega, safe_ok _⟩
  | v3 =>
    have h32 : 32 ≤ tlen := hmin
    rw [safe_extract24, safe_extract24, safe_extract32]
    exact ⟨by omega, by omega, by omega, safe_ok _⟩

theorem safe_decodeAsExternalV3 (hmin : 28 ≤ tlen) : Safe (decodeAsExternalV3 d p tlen) := by
  have hsize := d.size_lt
  unfold decodeAsExternalV3 headerLength ipv6PrefixOffset
  rw [safe_byte, safe_extract24, safe_extract16, safe_byte, safe_byte, safe_bind,
    safe_decode, sub64_of_le hmin (by omega)]
  refine ⟨by omega, by omega, by omega, by omega, by omega, fun _ hle => .inr (by omega),
    fun a _ => ?_⟩
  refine safe_optionalPart (fun hle => ?_) fun forwarding => safe_optionalPart (fun hle => ?_)
    fun tag => safe_optionalPart (fun hle => ?_) fun referenced => safe_ok _
  · exact (reads_slice d _ _).safe_iff.mpr (.inr (by omega))
  · exact (reads_extract32 d _).safe_iff.mpr (by omega)
  · exact (reads_extract32 d _).safe_iff.mpr (by omega)

theorem safe_decodeAsExternalLsa
    (hmin : headerLength + LsaKind.asExternal.minLength version ≤ tlen) :
    Safe (decodeAsExternalLsa version d p tlen) := by
  cases version with
  | v2 =>
    have h36 : 36 ≤ tlen := hmin
    unfold decodeAsExternalLsa headerLength
    rw [safe_extract32, safe_byte, safe_extract24, safe_slice, safe_extract32]
    exact ⟨by omega, by omega, by omega, .inr (by omega), by omega, safe_ok _⟩
  | v3 => exact safe_decodeAsExternalV3 hin hmin

end

/-- The bytes that an LSA of a class reads after its header are inside the packet, when the LSA
is. -/
def BodyInside (kind : LsaKind) (d : Buffer) (p tlen : Nat) : Prop :=
  match kind with
  | .network => p + 24 + (tlen - 24 + 3) / 4 * 4 ≤ d.size
  | .link => ∀ s, threeLeft d (p + tlen) (tlen + 1) (p + 44) (d.u32 (p + 40)) = some s →
      PrefixInside false d s
  | .intraAreaPrefix => ∀ s, threeLeft d (p + tlen) (tlen + 1) (p + 32) (d.u16 (p + 20)) = some s →
      PrefixInside true d s
  | _ => True

section
variable (hin : p + tlen ≤ d.size)
include hin

theorem safe_decodeLinkLsa (hmin : 44 ≤ tlen) :
    Safe (decodeLinkLsa d p tlen) ↔ BodyInside .link d p tlen := by
  unfold decodeLinkLsa headerLength
  rw [safe_byte, safe_extract24, safe_slice, safe_extract32, safe_bind,
    safe_decodePrefixes hin _ _ _ (by omega)]
  exact ⟨fun h => h.2.2.2.2.1, fun h => ⟨by omega, by omega, .inr (by omega), by omega, h,
    fun _ _ => safe_ok _⟩⟩

theorem safe_decodeIntraAreaPrefixLsa (hmin : 32 ≤ tlen) :
    Safe (decodeIntraAreaPrefixLsa d p tlen) ↔ BodyInside .intraAreaPrefix d p tlen := by
  unfold decodeIntraAreaPrefixLsa headerLength
  rw [safe_extract16, safe_extract16, safe_extract32, safe_extract32, safe_bind,
    safe_decodePrefixes hin _ _ _ (by omega)]
  exact ⟨fun h => h.2.2.2.2.1, fun h => ⟨by omega, by omega, by omega, by omega, h,
    fun _ _ => safe_ok _⟩⟩

theorem safe_decodeBody (hmin : headerLength + kind.minLength version ≤ tlen) :
    Safe (kind.decodeBody version d p tlen) ↔ BodyInside kind d p tlen := by
  cases kind with
  | unknown => exact iff_of_true (safe_ok _) trivial
  | router => exact iff_of_true (safe_decodeRouterLsa hin hmin) trivial
  | network => exact safe_decodeNetworkLsa hmin
  | summaryNetwork => exact iff_of_true (safe_decodeSummaryNetworkLsa hin hmin) trivial
  | summaryRouter => exact iff_of_true (safe_decodeSummaryRouterLsa hin hmin) trivial
  | asExternal => exact iff_of_true (safe_decodeAsExternalLsa hin hmin) trivial
  | type7 =>
    have hmin' : headerLength + LsaKind.asExternal.minLength version ≤ tlen := by
      cases version <;> exact hmin
    exact iff_of_true (safe_decodeAsExternalLsa hin hmin') trivial
  | link => exact safe_decodeLinkLsa hin hmin
  | intraAreaPrefix => exact safe_decodeIntraAreaPrefixLsa hin hmin

end

/-! ### An LSA -/

theorem LsaKind.version_of_ofType {type : Nat} (h : LsaKind.ofType version type = some kind) :
    kind = .link ∨ kind = .intraAreaPrefix → version = .v3 := by
  cases version with
  | v3 => exact fun _ => rfl
  | v2 =>
    intro hkind
    unfold ofType at h
    cases hfind : (registered .v2).find? fun kind => kind.lsType .v2 = type with
    | none =>
      rw [hfind] at h
      cases h
    | some found =>
      rw [hfind] at h
      cases h
      have hmem := List.mem_of_find?_eq_some hfind
      rcases hkind with rfl | rfl
      · exact absurd hmem (by decide)
      · exact absurd hmem (by decide)

/-- What is read of an LSA with `len` bytes left is inside the packet.  When that many bytes are
left in the buffer, only the last line says something. -/
def LsaInside (version : Version) (d : Buffer) (p len : Nat) : Prop :=
  headerLength ≤ len → p + headerLength ≤ d.size ∧
    ∀ kind, LsaKind.ofType version (LsaHeader.ofBytes version d p).lsType = some kind →
      d.u16 (p + 18) ≤ len → headerLength + kind.minLength version ≤ d.u16 (p + 18) →
        p + d.u16 (p + 18) ≤ d.size ∧
          (verifyChecksum (d.slice (p + 2) (d.u16 (p + 18) - 2)) 14 →
            BodyInside kind d p (d.u16 (p + 18)))

theorem LsaKind.safe_decode (hkind : kind = .link ∨ kind = .intraAreaPrefix → version = .v3)
    (hhead : p + headerLength ≤ d.size) : Safe (kind.decode version d p len) ↔
      (d.u16 (p + 18) ≤ len → headerLength + kind.minLength version ≤ d.u16 (p + 18) →
        p + d.u16 (p + 18) ≤ d.size ∧ (verifyChecksum (d.slice (p + 2) (d.u16 (p + 18) - 2)) 14 →
            BodyInside kind d p (d.u16 (p + 18)))) := by
  unfold LsaKind.decode
  rw [safe_verify, and_iff_right hkind, safe_openLsa (Nat.le_add_right _ _)]
  constructor
  · intro h hle hmin
    obtain ⟨hin, hrest⟩ := (h (hmin.trans hle)).2 hle hmin
    exact ⟨hin, fun hsum => (safe_decodeBody hin hmin).mp (safe_bind.mp (hrest hsum)).1⟩
  · intro h _
    refine ⟨hhead, fun hle hmin => ?_⟩
    obtain ⟨hin, hrest⟩ := h hle hmin
    exact ⟨hin, fun hsum => safe_bind.mpr
      ⟨(safe_decodeBody hin hmin).mpr (hrest hsum), fun _ _ => safe_ok _⟩⟩

theorem safe_decodeLsa : Safe (decodeLsa version d p len) ↔ LsaInside version d p len := by
  unfold decodeLsa LsaInside
  rw [safe_check, (LsaHeader.reads version d p).safe_bind]
  refine imp_congr_right fun _ => and_congr_right fun hhead => ?_
  cases hkind : LsaKind.ofType version (LsaHeader.ofBytes version d p).lsType with
  | none => exact iff_of_true (safe_invalid _) nofun
  | some kind =>
    rw [LsaKind.safe_decode (LsaKind.version_of_ofType hkind) hhead]
    exact ⟨fun h k hk => by cases hk; exact h, fun h => h kind rfl⟩

theorem openLsa_length {required : Nat} (hreq : headerLength ≤ required) :
    Ensures (openLsa name version required d p len) fun a =>
      a.1 = d.u16 (p + 18) ∧ headerLength ≤ a.1 ∧ a.1 ≤ len ∧ p + a.1 ≤ d.size := by
  have hlen : Ensures (getLsaLenFromHeader name d p len required) fun t =>
      t = d.u16 (p + 18) ∧ required ≤ t ∧ t ≤ len := by
    exact (reads_extract16 d (p + 18)).ensures.bind fun t ht => ensures_check fun hle =>
      ensures_check fun hmin => ensures_ok ⟨ht.2, hmin, hle⟩
  refine ensures_check fun _ => hlen.bind fun t ht => ensures_bind fun data => ensures_check fun _ =>
    (reads_slice d p t).ensures.bind fun pkt hpkt => ensures_bind fun header => ensures_ok ?_
  have h20 := hreq.trans ht.2.1
  refine ⟨ht.1, h20, ht.2.2, hpkt.1.resolve_left ?_⟩
  unfold headerLength at h20
  omega

/-- An LSA takes what its length says: at least a header, and no more than there is. -/
theorem decodeLsa_length : Ensures (decodeLsa version d p len) fun a =>
      a.2 = d.u16 (p + 18) ∧ headerLength ≤ a.2 ∧ a.2 ≤ len ∧ p + a.2 ≤ d.size := by
  refine ensures_check fun _ => ensures_bind fun header => ?_
  split
  · exact ensures_error _
  · next kind _ =>
      refine ensures_bind fun _ => (openLsa_length (Nat.le_add_right _ _)).bind
        fun x hx => ensures_bind fun body => ensures_ok hx

end Wire

end Xorp.Ospf

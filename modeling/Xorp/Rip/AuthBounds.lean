/-
Where the entries of a RIP packet are.

What the handlers accept is stated as conditions on the bytes of the packet.  From them the entries are
inside the packet, behind the entry for authentication and before the trailer, with two exceptions.
The password is read as a string that ends with a zero, and where the packet has none from there on the
read goes past its end.  And MD5 counts the entries as those before the trailer less one: a packet whose
trailer lies in the first entry has none before it, and the count wraps around.
-/
import Xorp.Rip.Auth

namespace Xorp.Rip

open Bytes Md5Handler

variable {d : Buffer} {src : Ipv4} {newPeer : Bool} {e : Entries}
  {md5 : Md5}

/-- The entries are these bytes, or there are none. -/
def Entries.Between (e : Entries) (first last : Nat) : Prop :=
  e.nEntries = 0 ∨ ∃ p, e.entriesPtr = some p ∧ first ≤ p ∧ p + e.nEntries * routeEntrySize ≤ last

/-- The entries behind the one for authentication, counted as those before `last` less one. -/
theorem Entries.between_of_le {last n : Nat} (hmin : 24 ≤ last) (hlt : last < 2 ^ 64)
    (hn : n = sub64 ((last - 4) / routeEntrySize) 1 % 2 ^ 32) :
    Entries.Between ⟨if n = 0 then none else some (ripHeaderSize + routeEntrySize), n⟩
      (ripHeaderSize + routeEntrySize) last := by
  by_cases hzero : n = 0
  · exact .inl hzero
  · refine .inr ⟨ripHeaderSize + routeEntrySize, if_neg hzero, Nat.le_refl _, ?_⟩
    unfold routeEntrySize ripHeaderSize at *
    rw [sub64_of_le (by omega) (by omega)] at hn
    dsimp only
    omega

/-! ### No authentication -/

theorem safe_nullInbound : Safe (nullInbound d) := by
  unfold nullInbound
  simp only [safe_check]
  intro hmax hmin hint
  split
  · exact safe_ok _
  · rename_i hsome
    have hsub : sub64 d.size ripHeaderSize = d.size - 4 := sub64_of_le hmin d.size_lt
    have hlong : 24 ≤ d.size := by
      rw [hsub] at hint hsome
      unfold routeEntrySize at hint hsome
      by_contra hshort
      have : (d.size - 4) / 20 = 0 := Nat.div_eq_of_lt (by omega)
      simp [this] at hsome
    unfold firstEntry
    rw [safe_extract16]
    refine ⟨by unfold ripHeaderSize; omega, ?_⟩
    split
    · rw [safe_extract16]
      exact ⟨by unfold ripHeaderSize; omega, safe_invalid _⟩
    · exact safe_ok _

theorem nullInbound_between : Ensures (nullInbound d) fun e => e.Between ripHeaderSize d.size := by
  refine ensures_check fun hmax => ensures_check fun hmin => ensures_check fun hint => ?_
  have hsub : sub64 d.size ripHeaderSize = d.size - 4 := sub64_of_le hmin d.size_lt
  dsimp only
  split
  · exact ensures_ok (.inl rfl)
  · refine ensures_bind fun family => ?_
    split
    · exact ensures_bind fun tag => ensures_error _
    · refine ensures_ok (.inr ⟨_, rfl, Nat.le_refl _, ?_⟩)
      dsimp only
      have hmod := Nat.mod_le (sub64 d.size ripHeaderSize / routeEntrySize) (2 ^ 32)
      unfold routeEntrySize ripHeaderSize at *
      omega

/-! ### A password -/

/-- The packet passes the checks before the password is read. -/
structure PlaintextHeader (d : Buffer) : Prop where
  most : d.size ≤ ripv2MaxPacketBytes
  least : ripv2MinAuthPacketBytes ≤ d.size
  integral : (d.size - 4) % 20 = 0
  family : d.u16 4 = 0xffff
  authType : d.u16 6 = 2

/-- The password ends inside the packet. -/
def PasswordEnds (d : Buffer) : Prop := 0 ∈ d.data.drop 8

theorem safe_password_bind {β : Type} {f : List UInt8 → Read AuthError β} :
    Safe (password d ripHeaderSize >>= f) ↔
      PasswordEnds d ∧ Safe (f (((d.data.drop 8).takeWhile (· ≠ 0)).take 16)) := by
  unfold password cString PasswordEnds
  rw [show ripHeaderSize + 4 = 8 from rfl]
  by_cases h : 0 ∈ d.data.drop 8
  · rw [if_pos h]
    exact ⟨fun hf => ⟨h, hf⟩, fun hf => hf.2⟩
  · rw [if_neg h]
    exact ⟨fun hf => absurd (safe_bind.mp hf).1 not_safe_outOfBounds, fun hf => absurd hf.1 h⟩

/-- Nothing is read past the end exactly when the password ends in the packet, where it is read. -/
theorem safe_plaintextInbound_iff (key : List UInt8) :
    Safe (plaintextInbound key d) ↔ (PlaintextHeader d → PasswordEnds d) := by
  unfold plaintextInbound
  simp only [safe_check, safe_extract16, safe_password_bind]
  constructor
  · intro hsafe hd
    have hmin := hd.least
    unfold ripv2MinAuthPacketBytes at hmin
    have hint : sub64 d.size ripHeaderSize % routeEntrySize = 0 := by
      rw [sub64_of_le (by unfold ripHeaderSize; omega) d.size_lt]
      exact hd.integral
    exact ((((hsafe hd.most hd.least hint).2 hd.family).2) hd.authType).1
  · intro hends hmax hmin hint
    have hmin' := hmin
    unfold ripv2MinAuthPacketBytes at hmin'
    rw [sub64_of_le (by unfold ripHeaderSize; omega) d.size_lt] at hint
    refine ⟨by unfold ripHeaderSize; omega, fun hfam => ⟨by unfold ripHeaderSize; omega, ?_⟩⟩
    intro htype
    exact ⟨hends ⟨hmax, hmin, hint, hfam, htype⟩, fun _ => safe_ok _⟩

theorem plaintextInbound_between (key : List UInt8) : Ensures (plaintextInbound key d) fun e =>
    e.Between (ripHeaderSize + routeEntrySize) d.size := by
  refine ensures_check fun hmax => ensures_check fun hmin => ensures_check fun hint => ?_
  refine ensures_bind fun family => ensures_check fun _ => ensures_bind fun authType =>
    ensures_check fun _ => ensures_bind fun passwd => ensures_check fun _ => ?_
  unfold ripv2MinAuthPacketBytes at hmin
  have hsub : sub64 d.size ripHeaderSize = d.size - 4 :=
    sub64_of_le (by unfold ripHeaderSize; omega) d.size_lt
  refine ensures_ok ?_
  rw [hsub]
  exact Entries.between_of_le hmin d.size_lt rfl

/-! ### MD5 -/

/-- The packet passes the checks before the key is looked for. -/
structure Md5Header (d : Buffer) : Prop where
  most : d.size ≤ ripv2MaxPacketBytes + md5TrailerSize
  least : ripv2MinAuthPacketBytes ≤ d.size
  family : d.u16 4 = 0xffff
  authType : d.u16 6 = 3
  authBytes : d.u8 11 = 20
  trailer : d.u16 8 + 20 = d.size

/-- What the entry for MD5 says. -/
def readEntry (d : Buffer) : Md5Entry := ⟨d.u16 8, d.u8 10, BitVec.ofNat 32 (d.u32 12)⟩

theorem safe_md5Entry (d : Buffer) : Safe (md5Entry d) := by
  unfold md5Entry
  simp only [safe_check, safe_extract16, safe_extract32, safe_byte]
  intro hmax hmin
  unfold ripv2MinAuthPacketBytes at hmin
  unfold ripHeaderSize
  refine ⟨by omega, fun _ => ⟨by omega, fun _ => ⟨by omega, fun _ => ⟨by omega, fun _ => ?_⟩⟩⟩⟩
  exact ⟨by omega, by omega, safe_ok _⟩

theorem md5Entry_eq_ok {m : Md5Entry} : md5Entry d = .ok m ↔ Md5Header d ∧ m = readEntry d := by
  have hoff := d.u16_lt 8
  unfold md5Entry
  simp only [check_bind_eq_ok, extract16_bind_eq_ok, (reads_extract32 d _).bind_eq_ok,
    (reads_byte d _).bind_eq_ok]
  constructor
  · rintro ⟨hmax, hmin, -, hfam, -, htype, -, hbytes, -, hsum, -, -, hm⟩
    refine ⟨⟨hmax, hmin, hfam, htype, hbytes, ?_⟩, (Except.ok.inj hm).symm⟩
    rw [hbytes] at hsum
    exact (Nat.mod_eq_of_lt (by omega)).symm.trans hsum
  · rintro ⟨h, rfl⟩
    have hmin := h.least
    unfold ripv2MinAuthPacketBytes at hmin
    refine ⟨h.most, h.least, ?_, h.family, ?_, h.authType, ?_, h.authBytes, ?_, ?_, ?_, ?_, rfl⟩
    all_goals unfold ripHeaderSize
    · omega
    · omega
    · omega
    · omega
    · rw [h.authBytes, ← h.trailer]
      exact Nat.mod_eq_of_lt (show d.u16 8 + 20 < 2 ^ 32 by omega)
    · omega
    · omega

/-- What a key accepts: the sequence number, the trailer and the digest. -/
structure Md5Key.Accepts (md5 : Md5) (k : Md5Key) (d : Buffer) (src : Ipv4)
    (newPeer : Bool) : Prop where
  seqno : k.refuses src newPeer (readEntry d).seqno = false
  family : d.u16 (d.u16 8) = 0xffff
  one : d.u16 (d.u16 8 + 2) = 1
  digest : (md5 (d.slice 0 (d.u16 8 + 4) ++ k.keyData)).toList = d.slice (d.u16 8 + 4) 16

theorem trailerValid_eq {off : Nat} (hin : off + 4 ≤ d.size) :
    trailerValid d off = .ok (decide (d.u16 off = 0xffff ∧ d.u16 (off + 2) = 1)) := by
  unfold trailerValid
  rw [extract16_bind_eq_ok]
  refine ⟨by omega, ?_⟩
  split
  · rename_i hfam
    rw [extract16_bind_eq_ok]
    refine ⟨by omega, ?_⟩
    simp [hfam]
  · rename_i hfam
    simp [hfam]

theorem verify_eq (h : Md5Header d) (k : Md5Key) : k.verify md5 d src newPeer (readEntry d) = (do
      check (k.refuses src newPeer (readEntry d).seqno = false)
        (.badSeqno (readEntry d).seqno (k.lastSeqnoRecv src))
      check (decide (d.u16 (d.u16 8) = 0xffff ∧ d.u16 (d.u16 8 + 2) = 1) = true) .invalidTrailer
      check ((md5 (d.slice 0 (d.u16 8 + 4) ++ k.keyData)).toList = d.slice (d.u16 8 + 4) 16)
        (.badDigest k.id)) := by
  have htrailer := h.trailer
  have hdata := (reads_slice (ε := AuthError) d 0 (d.u16 8 + 4)).yes (.inr (by omega))
  have hauth := (reads_slice (ε := AuthError) d (d.u16 8 + 4) 16).yes (.inr (by omega))
  unfold Md5Key.verify
  rw [show (readEntry d).authOff = d.u16 8 from rfl, trailerValid_eq (by omega), hdata, hauth]
  rfl

section
variable (h : Md5Header d) (md5 : Md5) (k : Md5Key) (src : Ipv4) (newPeer : Bool)
include h

theorem safe_verify : Safe (k.verify md5 d src newPeer (readEntry d)) := by
  rw [verify_eq h, safe_check]
  intro _
  rw [safe_check]
  intro _
  exact safe_check_last

theorem verify_eq_ok : k.verify md5 d src newPeer (readEntry d) = .ok () ↔ k.Accepts md5 d src newPeer := by
  rw [verify_eq h, check_bind_eq_ok, check_bind_eq_ok, check, guard_eq_ok, decide_eq_true_iff]
  constructor
  · rintro ⟨hseq, ⟨hfam, hone⟩, hdig⟩
    exact ⟨hseq, hfam, hone, hdig⟩
  · intro ha
    exact ⟨ha.seqno, ⟨ha.family, ha.one⟩, ha.digest⟩

end

/-- What a handler with keys accepts. -/
def Md5Handler.Accepts (md5 : Md5) (H : Md5Handler) (d : Buffer)
    (src : Ipv4) (newPeer : Bool) : Prop :=
  Md5Header d ∧ ∃ k, H.findKey (d.u8 10) = some k ∧
    (Md5Handler.keyFor k src newPeer).Accepts md5 d src newPeer

variable {H : Md5Handler}

/-- A packet is read inside its bounds, and accepted exactly under that condition. -/
theorem md5_authenticateInbound_spec (hkeys : H.validKeyChain ≠ [])
    (md5 : Md5) (d : Buffer) (src : Ipv4) (newPeer : Bool) (e : Entries) :
    Safe (H.authenticateInbound md5 d src newPeer).2 ∧
      ((H.authenticateInbound md5 d src newPeer).2 = .ok e ↔
        H.Accepts md5 d src newPeer ∧ e = (readEntry d).entries) := by
  unfold authenticateInbound
  rw [if_neg (by simpa using hkeys)]
  cases hm : md5Entry d with
  | error stop =>
    have hsafe := safe_md5Entry d
    rw [hm] at hsafe
    refine ⟨hsafe.rethrow, nofun, ?_⟩
    rintro ⟨⟨h, -⟩, -⟩
    rw [md5Entry_eq_ok.mpr ⟨h, rfl⟩] at hm
    cases hm
  | ok m =>
    obtain ⟨h, rfl⟩ := md5Entry_eq_ok.mp hm
    dsimp only
    rw [show (readEntry d).keyId = d.u8 10 from rfl]
    cases hk : H.findKey (d.u8 10) with
    | none =>
      refine ⟨safe_invalid _, nofun, ?_⟩
      rintro ⟨⟨-, k, hk', -⟩, -⟩
      rw [hk] at hk'
      cases hk'
    | some k =>
      dsimp only
      have hsafe := safe_verify h md5 (keyFor k src newPeer) src newPeer
      have hok := verify_eq_ok h md5 (keyFor k src newPeer) src newPeer
      cases hv : (keyFor k src newPeer).verify md5 d src newPeer (readEntry d) with
      | error stop =>
        refine ⟨?_, nofun, ?_⟩
        · rw [hv] at hsafe
          exact hsafe.rethrow
        · rintro ⟨⟨-, k', hk', hacc⟩, -⟩
          rw [hk] at hk'
          cases hk'
          rw [hok.mpr hacc] at hv
          cases hv
      | ok u =>
        refine ⟨safe_ok _, fun heq => ⟨⟨h, k, hk, hok.mp hv⟩, (Except.ok.inj heq).symm⟩, ?_⟩
        rintro ⟨-, rfl⟩
        rfl

/-- The entries of an accepted packet are before the trailer unless the trailer is in the first entry. -/
theorem md5_between_iff (h : Md5Header d) :
    (readEntry d).entries.Between (ripHeaderSize + routeEntrySize) (d.u16 8) ↔ 44 ≤ d.size := by
  have htrailer := h.trailer
  have hleast := h.least
  unfold ripv2MinAuthPacketBytes at hleast
  have hlt := d.size_lt
  have hsub : sub64 (d.u16 8) ripHeaderSize = d.u16 8 - 4 :=
    sub64_of_le (by unfold ripHeaderSize; omega) (by omega)
  set q := (d.u16 8 - 4) / routeEntrySize with hq
  have hentries : (readEntry d).entries = ⟨if sub64 q 1 % 2 ^ 32 = 0
      then none else some (ripHeaderSize + routeEntrySize), sub64 q 1 % 2 ^ 32⟩ := by
    rw [hq, ← hsub]
    rfl
  rw [hentries]
  constructor
  · intro hbetween
    by_contra hshort
    -- No entry is before the trailer, and the count is the largest there is.
    have hzero : q = 0 := Nat.div_eq_of_lt (by unfold routeEntrySize; omega)
    have hcount : sub64 q 1 % 2 ^ 32 = 2 ^ 32 - 1 := by
      rw [hzero]
      rfl
    rw [hcount] at hbetween
    rcases hbetween with hnone | ⟨p, -, -, hle⟩
    · simp at hnone
    · dsimp only at hle
      unfold routeEntrySize at hle
      omega
  · exact fun hlong => Entries.between_of_le (by omega) (by omega) rfl

/-! ### Every handler -/

namespace AuthHandler

/-- The first byte behind the entry for authentication. -/
def entriesStart : AuthHandler → Nat
  | .none => 4
  | .simple _ => 24
  | .md5 H => if H.validKeyChain = [] then 4 else 24

/-- The first byte of the trailer, or the end of the packet. -/
def entriesEnd (d : Buffer) : AuthHandler → Nat
  | .md5 H => if H.validKeyChain = [] then d.size else d.u16 8
  | _ => d.size

/-- A valid key with the id of the packet gives its digest. -/
def Genuine (md5 : Md5) (d : Buffer) : AuthHandler → Prop
  | .md5 H => H.validKeyChain ≠ [] → ∃ k ∈ H.validKeyChain, k.id = d.u8 10 ∧
      (md5 (d.slice 0 (d.u16 8 + 4) ++ k.keyData)).toList = d.slice (d.u16 8 + 4) 16
  | _ => True

/-- The password ends in the packet where it is read, and what MD5 accepts has its trailer behind the
first entry. -/
def InBounds (md5 : Md5) (d : Buffer) (src : Ipv4) (newPeer : Bool) :
    AuthHandler → Prop
  | .none => True
  | .simple _ => PlaintextHeader d → PasswordEnds d
  | .md5 H => H.validKeyChain ≠ [] → H.Accepts md5 d src newPeer → 44 ≤ d.size

/-- The outcome for a packet: nothing is read past its end, and when it is accepted the entries are in
their place and the digest is that of a key. -/
def Proper (md5 : Md5) (d : Buffer) (h : AuthHandler)
    (x : Read AuthError Entries) : Prop :=
  Safe x ∧ ∀ e, x = .ok e → e.Between h.entriesStart (h.entriesEnd d) ∧
    h.entriesEnd d ≤ d.size ∧ h.Genuine md5 d

theorem keyFor_keyData (k : Md5Key) : (keyFor k src newPeer).keyData = k.keyData := by
  unfold keyFor
  split
  · rfl
  · rfl

theorem proper_md5_iff (hkeys : H.validKeyChain ≠ []) :
    Proper md5 d (.md5 H) (H.authenticateInbound md5 d src newPeer).2 ↔
      (H.Accepts md5 d src newPeer → 44 ≤ d.size) := by
  have hspec := md5_authenticateInbound_spec hkeys md5 d src newPeer
  have hstart : entriesStart (.md5 H) = 24 := if_neg hkeys
  have hend : entriesEnd d (.md5 H) = d.u16 8 := if_neg hkeys
  unfold Proper
  rw [hstart, hend]
  constructor
  · rintro ⟨-, hall⟩ hacc
    exact (md5_between_iff hacc.1).mp (hall _ ((hspec _).2.mpr ⟨hacc, rfl⟩)).1
  · intro hlong
    refine ⟨(hspec (readEntry d).entries).1, fun e he => ?_⟩
    obtain ⟨hacc, rfl⟩ := (hspec e).2.mp he
    have htrailer := hacc.1.trailer
    refine ⟨(md5_between_iff hacc.1).mpr (hlong hacc), by omega, fun _ => ?_⟩
    obtain ⟨-, k, hk, hkey⟩ := hacc
    have hdigest := hkey.digest
    rw [keyFor_keyData] at hdigest
    exact ⟨k, List.mem_of_find?_eq_some hk, by simpa using List.find?_some hk, hdigest⟩

/-- A packet has a proper outcome exactly under that condition, whatever the handler has done. -/
theorem proper_iff (h : AuthHandler) : Proper md5 d h (h.authenticateInbound md5 d src newPeer).2 ↔
    h.InBounds md5 d src newPeer := by
  cases h with
  | none =>
    refine ⟨fun _ => trivial, fun _ => ⟨safe_nullInbound, fun e he => ?_⟩⟩
    exact ⟨nullInbound_between e he, Nat.le_refl _, trivial⟩
  | simple key =>
    refine ⟨fun hp => (safe_plaintextInbound_iff key).mp hp.1, fun hin => ?_⟩
    refine ⟨(safe_plaintextInbound_iff key).mpr hin, fun e he => ?_⟩
    exact ⟨plaintextInbound_between key e he, Nat.le_refl _, trivial⟩
  | md5 H =>
    by_cases hkeys : H.validKeyChain = []
    · have hnull : (H.authenticateInbound md5 d src newPeer).2 = nullInbound d := by
        unfold Md5Handler.authenticateInbound
        rw [if_pos (by simpa using hkeys)]
      have hstart : entriesStart (.md5 H) = 4 := if_pos hkeys
      have hend : entriesEnd d (.md5 H) = d.size := if_pos hkeys
      refine ⟨fun _ hne => absurd hkeys hne, fun _ => ?_⟩
      show Proper md5 d (.md5 H) (H.authenticateInbound md5 d src newPeer).2
      unfold Proper
      rw [hnull, hstart, hend]
      refine ⟨safe_nullInbound, fun e he => ?_⟩
      exact ⟨nullInbound_between e he, Nat.le_refl _, fun hne => absurd hkeys hne⟩
    · show Proper md5 d (.md5 H) (H.authenticateInbound md5 d src newPeer).2 ↔ _
      rw [proper_md5_iff hkeys]
      exact ⟨fun hin _ => hin, fun hin => hin hkeys⟩

end AuthHandler

end Xorp.Rip

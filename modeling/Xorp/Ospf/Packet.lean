/-
The packet decoders of OSPF.

The standard header carries the length of the packet.  Received bytes after that length are dropped:
the length from the header takes the place of the length that was received.  It is not compared with
the length of the header itself, and the decoders subtract that length from it.
-/
import Xorp.Ospf.Lsa

namespace Xorp.Ospf

namespace Wire

open Bytes

/-- `STANDARD_HEADER_V2` and `STANDARD_HEADER_V3`. -/
def standardHeader : Version → Nat
  | .v2 => 24
  | .v3 => 16

/-! ### The checksum of a packet -/

/-- The sum of the 16-bit words, an odd byte at the end being the high one of its word. -/
def wordSum : List UInt8 → Nat
  | [] => 0
  | [b] => b.toNat * 2 ^ 8
  | b :: c :: rest => b.toNat * 2 ^ 8 + c.toNat + wordSum rest

/-- `checksum`: `inet_checksum` in host order. -/
def checksum (data : List UInt8) : Nat :=
  let sum := wordSum data % 2 ^ 32
  let folded := sum / 2 ^ 16 + sum % 2 ^ 16
  2 ^ 16 - 1 - (folded + folded / 2 ^ 16) % 2 ^ 16

/-- The bytes with those from `first` to `last` set to zero. -/
def zeroed (first last : Nat) (data : List UInt8) : List UInt8 :=
  data.mapIdx fun i b => if first ≤ i ∧ i < last then 0 else b

/-! ### The standard header -/

/-- The part of the standard header that depends on the version. -/
inductive Auth
  | v2 (authType : Nat) (auth : List UInt8)
  | v3 (instanceId : Nat)

/-- The standard header. -/
structure StandardHeader where
  routerId : Nat
  areaId : Nat
  auth : Auth

/-- The checks of `decode_standard_header` before it reads the header: the version and the length
that the packet claims. -/
def decodeLength (expected : Version) (type : Nat) (d : Buffer) :
    Read InvalidPacket (Version × Nat) := do
  check (2 ≤ d.size) (.packetTooShort (uint d.size) 2)
  let number ← byte d 0
  check (number = 2 ∨ number = 3) (.versionMismatch expected.toNat number)
  let version := if number = 2 then Version.v2 else .v3
  let received ← byte d 1
  check (received = type) (.typeMismatch type received)
  check (standardHeader version ≤ d.size)
    (.packetTooShort (uint d.size) (standardHeader version))
  let packetLength ← extract16 d 2
  check (packetLength ≤ d.size) (.packetLength packetLength (uint d.size))
  .ok (version, packetLength)

/-- The end of `decode_standard_header`.  In OSPFv2 the checksum is verified, with the
authentication field set to zero; in OSPFv3 that was done before. -/
def decodeAuth (expected version : Version) (d : Buffer) (len : Nat) : Read InvalidPacket Auth :=
  match version with
  | .v2 => do
      let authType ← extract16 d 14
      let auth ← slice d 16 8
      let inPacket ← extract16 d 12
      let data ← slice d 0 len
      check (inPacket = 0 ∧ authType = 2 ∨ checksum (zeroed 16 24 data) = 0)
        (.checksumMismatch (checksum (zeroed 12 14 data)) inPacket)
      .ok (.v2 authType auth)
  | .v3 => do
      verify (expected = .v3)
      let instanceId ← byte d 14
      .ok (.v3 instanceId)

/-- `decode_standard_header`, with the length that takes the place of the one received. -/
def decodeStandardHeader (expected : Version) (type : Nat) (d : Buffer) :
    Read InvalidPacket (StandardHeader × Nat) := do
  let (version, len) ← decodeLength expected type d
  let routerId ← extract32 d 4
  let areaId ← extract32 d 8
  let auth ← decodeAuth expected version d len
  .ok (⟨routerId, areaId, auth⟩, len)

/-! ### The packets -/

/-- `HelloPacket`, without its neighbours. -/
structure HelloFields where
  networkMask : Nat
  interfaceId : Nat
  helloInterval : Nat
  options : Nat
  routerPriority : Nat
  routerDeadInterval : Nat
  designatedRouter : Nat
  backupDesignatedRouter : Nat

/-- `DataDescriptionPacket`, without its LSA headers. -/
structure DataDescriptionFields where
  interfaceMtu : Nat
  options : Nat
  iBit : Bool
  mBit : Bool
  msBit : Bool
  ddSeqno : Nat

structure LsRequest where
  lsType : Nat
  linkStateId : Nat
  advertisingRouter : Nat

inductive Packet
  | hello (header : StandardHeader) (fields : HelloFields) (neighbours : List Nat)
  | dataDescription (header : StandardHeader) (fields : DataDescriptionFields)
      (lsaHeaders : List LsaHeader)
  | linkStateRequest (header : StandardHeader) (lsRequest : List LsRequest)
  | linkStateUpdate (header : StandardHeader) (lsas : List Lsa)
  | linkStateAcknowledgement (header : StandardHeader) (lsaHeaders : List LsaHeader)

/-- `HelloPacket::MINIMUM_LENGTH`. -/
def helloMinimumLength : Nat := 20

variable (version : Version) (d : Buffer)

/-- The fixed part of a Hello packet. -/
def decodeHelloFields (offset : Nat) :
    Read InvalidPacket HelloFields :=
  match version with
  | .v2 => do
      let networkMask ← extract32 d offset
      let helloInterval ← extract16 d (offset + 4)
      let options ← byte d (offset + 6)
      let routerPriority ← byte d (offset + 7)
      let routerDeadInterval ← extract32 d (offset + 8)
      let designatedRouter ← extract32 d (offset + 12)
      let backupDesignatedRouter ← extract32 d (offset + 16)
      .ok { networkMask, interfaceId := 0, helloInterval, options, routerPriority,
            routerDeadInterval, designatedRouter, backupDesignatedRouter }
  | .v3 => do
      let interfaceId ← extract32 d offset
      let routerPriority ← byte d (offset + 4)
      let options ← extract32 d (offset + 4)
      let helloInterval ← extract16 d (offset + 8)
      let routerDeadInterval ← extract16 d (offset + 10)
      let designatedRouter ← extract32 d (offset + 12)
      let backupDesignatedRouter ← extract32 d (offset + 16)
      .ok { networkMask := 0, interfaceId, helloInterval, options := options % 2 ^ 24,
            routerPriority, routerDeadInterval, designatedRouter, backupDesignatedRouter }

/-- `HelloPacket::decode`. -/
def decodeHello : Read InvalidPacket Packet := do
  let (header, len) ← decodeStandardHeader version 1 d
  let offset := standardHeader version
  check (helloMinimumLength ≤ sub64 len offset)
    (.packetTooShort (uint len) (offset + helloMinimumLength))
  let fields ← decodeHelloFields version d offset
  let neighbours ← readMany (fun i => extract32 d (offset + helloMinimumLength + i * 4))
    (countInt (sub64 len (offset + helloMinimumLength) / 4)) 0
  .ok (.hello header fields neighbours)

/-- `DataDescriptionPacket::minimum_length`. -/
def ddMinimumLength : Version → Nat
  | .v2 => 8
  | .v3 => 12

/-- The fixed part of a Database Description packet. -/
def decodeDataDescriptionFields (offset : Nat) :
    Read InvalidPacket DataDescriptionFields :=
  match version with
  | .v2 => do
      let interfaceMtu ← extract16 d offset
      let options ← byte d (offset + 2)
      let flag ← byte d (offset + 3)
      let ddSeqno ← extract32 d (offset + 4)
      .ok { interfaceMtu, options, iBit := flag.testBit 2, mBit := flag.testBit 1,
            msBit := flag.testBit 0, ddSeqno }
  | .v3 => do
      let options ← extract32 d offset
      let interfaceMtu ← extract16 d (offset + 4)
      let flag ← byte d (offset + 7)
      let ddSeqno ← extract32 d (offset + 8)
      .ok { interfaceMtu, options := options % 2 ^ 24, iBit := flag.testBit 2,
            mBit := flag.testBit 1, msBit := flag.testBit 0, ddSeqno }

/-- The LSA headers from `offset` on, as many as there is space for. -/
def decodeLsaHeaders (offset len : Nat) :
    Read InvalidPacket (List LsaHeader) :=
  readMany (fun i => LsaHeader.decode version d (offset + i * headerLength))
    (countInt (sub64 len offset / headerLength)) 0

/-- `DataDescriptionPacket::decode`. -/
def decodeDataDescription : Read InvalidPacket Packet := do
  let (header, len) ← decodeStandardHeader version 2 d
  let offset := standardHeader version
  check (ddMinimumLength version ≤ sub64 len offset)
    (.packetTooShort (uint len) (offset + ddMinimumLength version))
  let fields ← decodeDataDescriptionFields version d offset
  let lsaHeaders ← decodeLsaHeaders version d (offset + ddMinimumLength version) len
  .ok (.dataDescription header fields lsaHeaders)

/-- `Ls_request::length`. -/
def lsRequestLength : Nat := 12

def LsRequest.decode (p : Nat) : Read InvalidPacket LsRequest :=
  match version with
  | .v2 => do
      let lsType ← extract32 d p
      let linkStateId ← extract32 d (p + 4)
      let advertisingRouter ← extract32 d (p + 8)
      .ok { lsType, linkStateId, advertisingRouter }
  | .v3 => do
      let lsType ← extract16 d (p + 2)
      let linkStateId ← extract32 d (p + 4)
      let advertisingRouter ← extract32 d (p + 8)
      .ok { lsType, linkStateId, advertisingRouter }

/-- `LinkStateRequestPacket::decode`. -/
def decodeLinkStateRequest : Read InvalidPacket Packet := do
  let (header, len) ← decodeStandardHeader version 3 d
  let offset := standardHeader version
  check (lsRequestLength ≤ sub64 len offset)
    (.packetTooShort (uint len) (offset + lsRequestLength))
  let requests ← readMany (fun i => LsRequest.decode version d (offset + i * lsRequestLength))
    (countInt (sub64 len offset / lsRequestLength)) 0
  .ok (.linkStateRequest header requests)

/-- The loop of `LinkStateUpdatePacket::decode`: the LSAs, and where the next one would start. -/
def decodeLsas (version : Version) (d : Buffer) (len : Nat) :
    Nat → Nat → Read InvalidPacket (List Lsa × Nat)
  | 0, offset => .ok ([], offset)
  | n + 1, offset => do
      let (lsa, lsaLength) ← decodeLsa version d offset (sub64 len offset)
      let (lsas, last) ← decodeLsas version d len n (offset + lsaLength)
      .ok (lsa :: lsas, last)

/-- `LinkStateUpdatePacket::decode`. -/
def decodeLinkStateUpdate : Read InvalidPacket Packet := do
  let (header, len) ← decodeStandardHeader version 4 d
  let offset := standardHeader version
  check (minLsaLength version ≤ sub64 len offset)
    (.packetTooShort (uint len) (offset + minLsaLength version))
  let nLsas ← extract32 d offset
  let (lsas, _) ← decodeLsas version d len nLsas (offset + 4)
  .ok (.linkStateUpdate header lsas)

/-- `LinkStateAcknowledgementPacket::decode`. -/
def decodeLinkStateAcknowledgement : Read InvalidPacket Packet := do
  let (header, len) ← decodeStandardHeader version 5 d
  let offset := standardHeader version
  check (headerLength ≤ sub64 len offset)
    (.packetTooShort (uint len) (offset + headerLength))
  let lsaHeaders ← decodeLsaHeaders version d offset len
  .ok (.linkStateAcknowledgement header lsaHeaders)

/-- `PacketDecoder::decode`, of a process that runs `version`: only the decoders of that version are
registered. -/
def decode : Read InvalidPacket Packet := do
  check (2 ≤ d.size) (.packetTooShort (uint d.size) 1)
  let number ← byte d 0
  check (number = 2 ∨ number = 3) (.unknownVersion number)
  let type ← byte d 1
  if number = version.toNat then
    match type with
    | 1 => decodeHello version d
    | 2 => decodeDataDescription version d
    | 3 => decodeLinkStateRequest version d
    | 4 => decodeLinkStateUpdate version d
    | 5 => decodeLinkStateAcknowledgement version d
    | _ => .error (.invalid (.unknownType number type))
  else .error (.invalid (.unknownType number type))

end Wire

end Xorp.Ospf

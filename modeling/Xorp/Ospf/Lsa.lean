/-
The LSA decoders of OSPF.

An LSA starts with a header of twenty bytes that says how long it is.  Every decoder first compares
that length with the bytes that are left of the packet and with the least length of its type, and
verifies the checksum over it.  After that it trusts the length and walks to its end: over links,
over attached routers, over prefixes.  Offsets are counted from the start of the packet, so that a
read past the end of an LSA is told from a read past the end of the packet.
-/
import Xorp.Ospf.Flooding
import Xorp.Lib.Bytes
import Xorp.Net.IPNet

namespace Xorp.Ospf

/-- The number of a version. -/
def Version.toNat : Version → Nat
  | .v2 => 2
  | .v3 => 3

namespace Wire

open Bytes

/-- The names that the decoders pass on to their messages. -/
inductive LsaName
  | unknown | router | network | summary | asExternal | link | intraAreaPrefix
deriving DecidableEq

/-- `InvalidPacket`: what is said about the packet. -/
inductive InvalidPacket
  | packetTooShort (len least : Nat)
  | unknownVersion (version : Nat)
  | versionMismatch (expected received : Nat)
  | unknownType (version type : Nat)
  | typeMismatch (expected received : Nat)
  | packetLength (expected received : Nat)
  | checksumMismatch (expected received : Nat)
  | lsaTooShort (len least : Nat)
  | unknownLsaType (version type : Nat)
  | tooShort (name : LsaName) (len least : Nat)
  | headerLenLarger (caller : LsaName) (tlen len : Nat)
  | headerLenSmaller (caller : LsaName) (tlen least : Nat)
  | lsaChecksum
  | routerLinkTooShort (len least : Nat)
  | routerLinkType (version type : Nat)
  | routerLinks (expected received : Nat)
  | prefixLength (bytes most : Nat)
  | prefixLargerThanPacket (bytes len : Nat)
  | spaceLeft (bytes : Nat)
  | bitFTooShort
  | bitTTooShort
  | referencedTypeTooShort
  | elementTooShort (name : LsaName)
  | dataLeft (name : LsaName)
  | bufferDepleted (name : LsaName) (left : Nat)

/-- `XORP_UINT_CAST`. -/
def uint (n : Nat) : Nat := n % 2 ^ 32

/-! ### The header -/

structure LsaHeader where
  lsAge : Nat
  options : Nat
  lsType : Nat
  linkStateId : Nat
  advertisingRouter : Nat
  lsSequenceNumber : Int
  lsChecksum : Nat
  length : Nat

/-- `Lsa_header::length`. -/
def headerLength : Nat := 20

variable (version : Version) (d : Buffer) (p len : Nat)

/-- `Lsa_header::decode`: the options and the type.  In OSPFv3 the type takes both places. -/
def LsaHeader.decodeType (p : Nat) :
    Read InvalidPacket (Nat × Nat) :=
  match version with
  | .v2 => do
      let options ← byte d (p + 2)
      let lsType ← byte d (p + 3)
      .ok (options, lsType)
  | .v3 => do
      let lsType ← extract16 d (p + 2)
      .ok (0, lsType)

def LsaHeader.decode (p : Nat) : Read InvalidPacket LsaHeader := do
  let lsAge ← extract16 d p
  let kind ← decodeType version d p
  let linkStateId ← extract32 d (p + 4)
  let advertisingRouter ← extract32 d (p + 8)
  let lsSequenceNumber ← extract32 d (p + 12)
  let lsChecksum ← extract16 d (p + 16)
  let length ← extract16 d (p + 18)
  .ok { lsAge, options := kind.1, lsType := kind.2, linkStateId, advertisingRouter,
        lsSequenceNumber := (BitVec.ofNat 32 lsSequenceNumber).toInt, lsChecksum, length }

/-! ### Length and checksum -/

/-- The two running sums of `fletcher_checksum`. -/
def fletcherSums (data : List UInt8) : BitVec 32 × BitVec 32 :=
  data.foldl (fun c b => (c.1 + b.toBitVec.setWidth 32, c.2 + (c.1 + b.toBitVec.setWidth 32))) (0, 0)

def onecomp (a : BitVec 32) : Int :=
  let res := a.toInt.tmod 255
  if res ≤ 0 then 255 + res else res

def fletcherChecksum (data : List UInt8) (off : Nat) : Int × Int :=
  let c0 := (fletcherSums data).1.srem 255
  let c1 := (fletcherSums data).2.srem 255
  (onecomp (-c1 + BitVec.ofNat 32 (sub64 data.length (off + 1)) * c0),
    onecomp (c1 - BitVec.ofNat 32 (sub64 data.length (off + 1) + 1) * c0))

def verifyChecksum (data : List UInt8) (off : Nat) : Bool :=
  fletcherChecksum data off = (255, 255)

def getLsaLenFromHeader (caller : LsaName) (d : Buffer) (p len minLen : Nat) :
    Read InvalidPacket Nat := do
  let tlen ← extract16 d (p + 18)
  check (tlen ≤ len) (.headerLenLarger caller (uint tlen) (uint len))
  check (minLen ≤ tlen) (.headerLenSmaller caller (uint tlen) (uint minLen))
  .ok tlen

/-- The start of every LSA decoder: the length that it takes from the header, the bytes that it
keeps, and the header. -/
def openLsa (name : LsaName) (version : Version) (required : Nat) (d : Buffer) (p len : Nat) :
    Read InvalidPacket (Nat × List UInt8 × LsaHeader) := do
  check (required ≤ len) (.tooShort name (uint len) (uint required))
  let tlen ← getLsaLenFromHeader name d p len required
  let data ← slice d (p + 2) (sub64 tlen 2)
  check (verifyChecksum data (16 - 2)) .lsaChecksum
  let pkt ← slice d p tlen
  let header ← LsaHeader.decode version d p
  .ok (tlen, pkt, header)

/-! ### Prefixes -/

/-- A row of bytes as an address. -/
def toAddr (w : Nat) (bytes : List UInt8) : BitVec w :=
  BitVec.ofNat w (bytes.foldl (fun n b => n * 2 ^ 8 + b.toNat) 0)

structure IPv6Prefix where
  network : IPNet 128
  prefixOptions : Nat
  metric : Nat

def bytesPerPrefix (prefixLen : Nat) : Nat := (prefixLen + 31) / 32 * 4

/-- `IPv6Prefix::decode`, with the bytes that were taken.  `IPNet` does not take a length over
128. -/
def IPv6Prefix.decode (p len prefixLen option : Nat) :
    Read InvalidPacket (IPv6Prefix × Nat) := do
  let bytes := bytesPerPrefix prefixLen
  check (bytes ≤ 16) (.prefixLength bytes 16)
  check (bytes ≤ len) (.prefixLargerThanPacket bytes (uint len))
  let addr ← slice d p bytes
  if h : prefixLen ≤ 128 then
    .ok (⟨.ofAddr (toAddr 128 (addr ++ List.replicate (16 - bytes) 0)) prefixLen h, option, 0⟩,
      bytes)
  else .error .assertion

/-- The metric of a prefix, in the LSAs that have one. -/
def decodeMetric (useMetric : Bool) (d : Buffer) (start : Nat) : Read InvalidPacket Nat :=
  if useMetric then extract16 d (start + 2) else .ok 0

/-- The prefixes of a Link-LSA, and with a metric those of an Intra-Area-Prefix-LSA: from `start` to
`stop`, at most as many as the LSA says. -/
def decodePrefixes (name : LsaName) (useMetric : Bool) (d : Buffer) (stop : Nat) :
    Nat → Nat → Nat → Read InvalidPacket (List IPv6Prefix)
  | 0, _, _ => .error .outOfFuel
  | fuel + 1, start, prefixNum =>
      if start < stop then do
        check (start + 2 < stop) (.elementTooShort name)
        let prefixLen ← byte d start
        let option ← byte d (start + 1)
        let (decoded, space) ← IPv6Prefix.decode d (start + 4) (sub64 stop (start + 4)) prefixLen option
        let metric ← decodeMetric useMetric d start
        let ipv6Prefix := { decoded with metric := metric }
        if sub64 prefixNum 1 = 0 then do
          check (start + (space + 4) = stop) (.dataLeft name)
          .ok [ipv6Prefix]
        else do
          let rest ← decodePrefixes name useMetric d stop fuel (start + (space + 4))
            (sub64 prefixNum 1)
          .ok (ipv6Prefix :: rest)
      else do
        check (prefixNum = 0 ∨ start = stop) (.bufferDepleted name (uint prefixNum))
        .ok []

/-! ### Router links -/

/-- `RouterLink::Type`. -/
inductive LinkType
  | p2p | transit | stub | vlink
deriving DecidableEq

def LinkType.ofNat? : Nat → Option LinkType
  | 1 => some .p2p
  | 2 => some .transit
  | 3 => some .stub
  | 4 => some .vlink
  | _ => none

inductive RouterLink
  | v2 (type : LinkType) (metric linkId linkData : Nat)
  | v3 (type : LinkType) (metric interfaceId neighbourInterfaceId neighbourRouterId : Nat)

def RouterLink.length : Version → Nat
  | .v2 => 12
  | .v3 => 16

/-- `RouterLink::decode`, with the bytes that were taken.  In OSPFv2 they include the metrics of
other types of service, which are not read. -/
def RouterLink.decode :
    Read InvalidPacket (RouterLink × Nat) := do
  check (length version ≤ len) (.routerLinkTooShort (uint len) (length version))
  match version with
  | .v2 => do
      let linkId ← extract32 d p
      let linkData ← extract32 d (p + 4)
      let type ← byte d (p + 8)
      match LinkType.ofNat? type with
      | none => .error (.invalid (.routerLinkType version.toNat type))
      | some link => do
          let metric ← extract16 d (p + 10)
          let tosNumber ← byte d (p + 9)
          .ok (.v2 link metric linkId linkData, length version + tosNumber * 4)
  | .v3 => do
      let type ← byte d p
      match LinkType.ofNat? type with
      | none | some .stub => .error (.invalid (.routerLinkType version.toNat type))
      | some link => do
          let _ ← byte d (p + 1)
          let metric ← extract16 d (p + 2)
          let interfaceId ← extract32 d (p + 4)
          let neighbourInterfaceId ← extract32 d (p + 8)
          let neighbourRouterId ← extract32 d (p + 12)
          .ok (.v3 link metric interfaceId neighbourInterfaceId neighbourRouterId, length version)

/-- The loop of `RouterLsa::decode`. -/
def decodeRouterLinks (version : Version) (d : Buffer) (stop : Nat) :
    Nat → Nat → Read InvalidPacket (List RouterLink)
  | 0, _ => .error .outOfFuel
  | fuel + 1, start =>
      if start < stop then do
        let (link, linkLen) ← RouterLink.decode version d start (stop - start)
        verify (linkLen ≠ 0)
        let rest ← decodeRouterLinks version d stop fuel (start + linkLen)
        .ok (link :: rest)
      else .ok []

/-! ### The bodies -/

/-- What follows the header of an LSA. -/
inductive LsaBody
  | unknown
  | router (ntBit wBit vBit eBit bBit : Bool) (options : Nat) (routerLinks : List RouterLink)
  | network (networkMask options : Nat) (attachedRouters : List Nat)
  | summaryNetwork (networkMask metric : Nat) (ipv6Prefix : Option IPv6Prefix)
  | summaryRouter (networkMask options metric destinationId : Nat)
  | asExternal (networkMask : Nat) (eBit : Bool) (metric : Nat) (forwardingAddress : BitVec 32)
      (externalRouteTag : Nat)
  | asExternalV3 (eBit fBit tBit : Bool) (metric : Nat) (ipv6Prefix : IPv6Prefix)
      (referencedLsType : Nat) (forwardingAddress : Option (BitVec 128))
      (externalRouteTag referencedLinkStateId : Option Nat)
  | link (rtrPriority options : Nat) (linkLocalAddress : BitVec 128) (prefixes : List IPv6Prefix)
  | intraAreaPrefix (referencedLsType referencedLinkStateId referencedAdvertisingRouter : Nat)
      (prefixes : List IPv6Prefix)

/-- `RouterLsa::decode`, after the header. -/
def decodeRouterLsa : Read InvalidPacket LsaBody := do
  let flag ← byte d (p + headerLength)
  match version with
  | .v2 => do
      let nlinks ← extract16 d (p + headerLength + 2)
      let links ← decodeRouterLinks version d (p + len) (len + 1) (p + headerLength + 4)
      check (nlinks = links.length) (.routerLinks (uint nlinks) (uint links.length))
      .ok (.router (flag.testBit 4) false (flag.testBit 2) (flag.testBit 1) (flag.testBit 0) 0 links)
  | .v3 => do
      let options ← extract24 d (p + headerLength + 1)
      let links ← decodeRouterLinks version d (p + len) (len + 1) (p + headerLength + 4)
      .ok (.router (flag.testBit 4) (flag.testBit 3) (flag.testBit 2) (flag.testBit 1)
        (flag.testBit 0) options links)

/-- The loop of `NetworkLsa::decode`. -/
def decodeAttachedRouters (d : Buffer) (stop : Nat) : Nat → Nat → Read InvalidPacket (List Nat)
  | 0, _ => .error .outOfFuel
  | fuel + 1, start =>
      if start < stop then do
        let router ← extract32 d start
        let rest ← decodeAttachedRouters d stop fuel (start + 4)
        .ok (router :: rest)
      else .ok []

/-- `NetworkLsa::decode`. -/
def decodeNetworkLsa : Read InvalidPacket LsaBody :=
  match version with
  | .v2 => do
      let networkMask ← extract32 d (p + headerLength)
      let routers ← decodeAttachedRouters d (p + len) (len + 1) (p + headerLength + 4)
      .ok (.network networkMask 0 routers)
  | .v3 => do
      let options ← extract24 d (p + headerLength + 1)
      let routers ← decodeAttachedRouters d (p + len) (len + 1) (p + headerLength + 4)
      .ok (.network 0 options routers)

def ipv6PrefixOffset : Nat := 28

/-- `SummaryNetworkLsa::decode`. -/
def decodeSummaryNetworkLsa :
    Read InvalidPacket LsaBody :=
  match version with
  | .v2 => do
      let networkMask ← extract32 d (p + headerLength)
      let metric ← extract24 d (p + headerLength + 5)
      .ok (.summaryNetwork networkMask metric none)
  | .v3 => do
      let metric ← extract24 d (p + headerLength + 1)
      let prefixLen ← byte d (p + headerLength + 4)
      let option ← byte d (p + headerLength + 5)
      let (ipv6Prefix, space) ← IPv6Prefix.decode d (p + headerLength + 8)
        (sub64 len ipv6PrefixOffset) prefixLen option
      let spaceLeft := sub64 len (ipv6PrefixOffset + space)
      check (spaceLeft = 0) (.spaceLeft (uint spaceLeft))
      .ok (.summaryNetwork 0 metric (some ipv6Prefix))

/-- `SummaryRouterLsa::decode`. -/
def decodeSummaryRouterLsa (p : Nat) : Read InvalidPacket LsaBody :=
  match version with
  | .v2 => do
      let networkMask ← extract32 d (p + headerLength)
      let metric ← extract24 d (p + headerLength + 5)
      .ok (.summaryRouter networkMask 0 metric 0)
  | .v3 => do
      let options ← extract24 d (p + headerLength + 1)
      let metric ← extract24 d (p + headerLength + 5)
      let destinationId ← extract32 d (p + headerLength + 8)
      .ok (.summaryRouter 0 options metric destinationId)

/-- A part of an AS-External-LSA that is there when a flag says so: `bytes` of them from `index` on,
and where the next part starts. -/
def optionalPart {α : Type} (present : Bool) (bytes index len : Nat) (reason : InvalidPacket)
    (read : Read InvalidPacket α) : Read InvalidPacket (Option α × Nat) :=
  if present then do
    check (index + bytes ≤ len) reason
    let value ← read
    .ok (some value, index + bytes)
  else .ok (none, index)

/-- `ASExternalLsa::decode`, in OSPFv3. -/
def decodeAsExternalV3 : Read InvalidPacket LsaBody := do
  let flag ← byte d (p + headerLength)
  let metric ← extract24 d (p + headerLength + 1)
  let referencedLsType ← extract16 d (p + headerLength + 6)
  let prefixLen ← byte d (p + headerLength + 4)
  let option ← byte d (p + headerLength + 5)
  let (ipv6Prefix, space) ← IPv6Prefix.decode d (p + headerLength + 8)
    (sub64 len ipv6PrefixOffset) prefixLen option
  let index := headerLength + 8 + space
  let (forwarding, index) ← optionalPart (flag.testBit 1) 16 index len .bitFTooShort
    (slice d (p + index) 16)
  let (tag, index) ← optionalPart (flag.testBit 0) 4 index len .bitTTooShort
    (extract32 d (p + index))
  let (referenced, _) ← optionalPart (referencedLsType ≠ 0) 4 index len .referencedTypeTooShort
    (extract32 d (p + index))
  .ok (.asExternalV3 (flag.testBit 2) (flag.testBit 1) (flag.testBit 0) metric ipv6Prefix
    referencedLsType (forwarding.map (toAddr 128)) tag referenced)

/-- `ASExternalLsa::decode`, also for a Type-7-LSA. -/
def decodeAsExternalLsa :
    Read InvalidPacket LsaBody :=
  match version with
  | .v2 => do
      let networkMask ← extract32 d (p + headerLength)
      let flag ← byte d (p + headerLength + 4)
      let metric ← extract24 d (p + headerLength + 5)
      let forwardingAddress ← slice d (p + headerLength + 8) 4
      let externalRouteTag ← extract32 d (p + headerLength + 12)
      .ok (.asExternal networkMask (flag.testBit 7) metric (toAddr 32 forwardingAddress)
        externalRouteTag)
  | .v3 => decodeAsExternalV3 d p len

/-- `LinkLsa::decode`. -/
def decodeLinkLsa : Read InvalidPacket LsaBody := do
  let rtrPriority ← byte d (p + headerLength)
  let options ← extract24 d (p + headerLength + 1)
  let linkLocalAddress ← slice d (p + headerLength + 4) 16
  let prefixNum ← extract32 d (p + headerLength + 20)
  let prefixes ← decodePrefixes .link false d (p + len) (len + 1) (p + headerLength + 24) prefixNum
  .ok (.link rtrPriority options (toAddr 128 linkLocalAddress) prefixes)

/-- `IntraAreaPrefixLsa::decode`. -/
def decodeIntraAreaPrefixLsa : Read InvalidPacket LsaBody := do
  let prefixNum ← extract16 d (p + headerLength)
  let referencedLsType ← extract16 d (p + headerLength + 2)
  let referencedLinkStateId ← extract32 d (p + headerLength + 4)
  let referencedAdvertisingRouter ← extract32 d (p + headerLength + 8)
  let prefixes ← decodePrefixes .intraAreaPrefix true d (p + len) (len + 1) (p + headerLength + 12)
    prefixNum
  .ok (.intraAreaPrefix referencedLsType referencedLinkStateId referencedAdvertisingRouter prefixes)

/-! ### The decoders by type -/

/-- The classes of LSAs. -/
inductive LsaKind
  | unknown | router | network | summaryNetwork | summaryRouter | asExternal | type7 | link
  | intraAreaPrefix
deriving DecidableEq

namespace LsaKind

def name : LsaKind → LsaName
  | unknown => .unknown
  | router => .router
  | network => .network
  | summaryNetwork => .summary
  | summaryRouter => .summary
  | asExternal => .asExternal
  | type7 => .asExternal
  | link => .link
  | intraAreaPrefix => .intraAreaPrefix

/-- `min_length`: the least length after the header. -/
def minLength : LsaKind → Version → Nat
  | unknown, _ => 0
  | router, _ => 4
  | network, _ => 8
  | summaryNetwork, _ => 8
  | summaryRouter, .v2 => 8
  | summaryRouter, .v3 => 12
  | asExternal, .v2 => 16
  | asExternal, .v3 => 8
  | type7, .v2 => 16
  | type7, .v3 => 8
  | link, _ => 24
  | intraAreaPrefix, _ => 12

/-- `get_ls_type`, for the decoders that are registered by type. -/
def lsType : LsaKind → Version → Nat
  | unknown, _ => 0
  | router, .v2 => 1
  | router, .v3 => 0x2001
  | network, .v2 => 2
  | network, .v3 => 0x2002
  | summaryNetwork, .v2 => 3
  | summaryNetwork, .v3 => 0x2003
  | summaryRouter, .v2 => 4
  | summaryRouter, .v3 => 0x2004
  | asExternal, .v2 => 5
  | asExternal, .v3 => 0x4005
  | type7, .v2 => 7
  | type7, .v3 => 0x2007
  | link, _ => 8
  | intraAreaPrefix, _ => 0x2009

/-- `initialise_lsa_decoder`: the decoders by type. -/
def registered : Version → List LsaKind
  | .v2 => [router, network, summaryNetwork, summaryRouter, asExternal, type7]
  | .v3 => [router, network, summaryNetwork, summaryRouter, asExternal, type7, link,
      intraAreaPrefix]

/-- The decoder for a type, with the unknown LSAs of OSPFv3. -/
def ofType (version : Version) (type : Nat) : Option LsaKind :=
  match (registered version).find? fun kind => kind.lsType version = type, version with
  | some kind, _ => some kind
  | none, .v2 => none
  | none, .v3 => some unknown

/-- What follows the header, by the class of the LSA. -/
def decodeBody (kind : LsaKind) (version : Version) (d : Buffer) (p len : Nat) :
    Read InvalidPacket LsaBody :=
  match kind with
  | unknown => .ok .unknown
  | router => decodeRouterLsa version d p len
  | network => decodeNetworkLsa version d p len
  | summaryNetwork => decodeSummaryNetworkLsa version d p len
  | summaryRouter => decodeSummaryRouterLsa version d p
  | asExternal => decodeAsExternalLsa version d p len
  | type7 => decodeAsExternalLsa version d p len
  | link => decodeLinkLsa d p len
  | intraAreaPrefix => decodeIntraAreaPrefixLsa d p len

end LsaKind

/-- `Lsa`, as it comes out of a decoder. -/
structure Lsa where
  kind : LsaKind
  pkt : List UInt8
  header : LsaHeader
  body : LsaBody

/-- `decode` of a class of LSAs, with the length that was taken.  A Link-LSA and an
Intra-Area-Prefix-LSA are only for OSPFv3. -/
def LsaKind.decode (kind : LsaKind) (version : Version) (d : Buffer) (p len : Nat) :
    Read InvalidPacket (Lsa × Nat) := do
  verify ((kind = .link ∨ kind = .intraAreaPrefix) → version = .v3)
  let (tlen, pkt, header) ← openLsa kind.name version (headerLength + kind.minLength version) d p len
  let body ← kind.decodeBody version d p tlen
  .ok (⟨kind, pkt, header, body⟩, tlen)

/-- `LsaDecoder::decode`. -/
def decodeLsa : Read InvalidPacket (Lsa × Nat) := do
  check (headerLength ≤ len) (.lsaTooShort (uint len) headerLength)
  let header ← LsaHeader.decode version d p
  match LsaKind.ofType version header.lsType with
  | none => .error (.invalid (.unknownLsaType version.toNat header.lsType))
  | some kind => kind.decode version d p len

/-- `LsaDecoder::min_length`. -/
def minLsaLength (version : Version) : Nat :=
  ((LsaKind.registered version).map fun kind => kind.minLength version).foldl Nat.min
      (LsaKind.router.minLength version) + headerLength

end Wire

end Xorp.Ospf

/-
The path attributes of a BGP UPDATE, as they are decoded.

An attribute starts with its flags, its type and its length, which takes one byte or two.
`PathAttribute::create` compares the length with what is left of the attributes before it calls the
constructor of the type, and a constructor that stays inside its attribute stays inside the message.
Most of them take a length that they have compared with a constant.  The paths and the two
multiprotocol attributes carry lengths of their own and walk.  Offsets are counted from the start of
the message.
-/
import Xorp.Bgp.AsPath
import Xorp.Lib.OrderedSet
import Xorp.Lib.ReadLoop
import Xorp.Net.IPNet

namespace Xorp.Bgp

namespace Wire

open Bytes

/-- The flags of an attribute. -/
structure Flags where
  optional : Bool
  transitive : Bool
  isPartial : Bool
  extended : Bool
deriving DecidableEq, Repr

namespace Flags

/-- The four flags are the high bits of a byte; the other bits are masked away. -/
def ofByte (b : Nat) : Flags := ⟨b.testBit 7, b.testBit 6, b.testBit 5, b.testBit 4⟩

/-- The byte with these flags. -/
def toByte (f : Flags) : Nat :=
  f.optional.toNat * 128 + f.transitive.toNat * 64 + f.isPartial.toNat * 32 + f.extended.toNat * 16

def wellKnown (f : Flags) : Bool := !f.optional

def wellKnownTransitive (f : Flags) : Bool := f.wellKnown && f.transitive

def optionalTransitive (f : Flags) : Bool := f.optional && f.transitive

def optionalNonTransitive (f : Flags) : Bool := f.optional && !f.transitive

end Flags

/-! ### What is said about a message that is refused -/

/-- The attributes under the names that the messages use.  The two aggregators complain about the
flags of an atomic aggregate. -/
inductive AttName
  | origin | asPath | as4Path | nextHop | med | localPref | atomicAggregate | aggregator
  | as4Aggregator | community | originatorId | clusterList | mpReach | mpUnreach | unknown
deriving DecidableEq

/-- The texts of `CorruptMessage`.  The flags are left out where the text leaves them out. -/
inductive Why
  | updateTooShort (l : Nat)
  | unreachableRoutesLength (wrLen most : Nat)
  | pathattrLength (paLen most : Nat)
  | inconsistentLength (len : Nat)
  | leftoverBytes (len : Nat)
  | attributeTooShort (maxLen : Nat)
  | extendedTooShort (maxLen : Nat)
  | attributeNeeds (maxLen l : Nat)
  | badLength (name : AttName) (len : Nat)
  | badSize (name : AttName)
  | nextHopSize (was should : Nat)
  | badFlags (name : AttName) (flags : Option Flags)
  | unknownOrigin (type : Nat)
  | notUnicast (nexthop : BitVec 32)
  | badSegmentType (type : Nat)
  | badAsPath (len l : Nat)
  | expectedAfi (expected afi : Nat)
  | expectedSafi
  | ipv4Unicast
  | nexthopSize6 (len : Nat)
  | nexthopSize4 (len : Nat)
  | prematureEnd
  | prefixTooLong (len : Nat)
  | attributeSize
  | duplicateEntry
  | unknownWellKnown
  | illegalNexthop
  | missingOrigin
  | missingAsPath
  | missingNextHop
  | emptyAsPath
  | mustListPeer
  | reflectorOnEbgp
  | unexpectedConfederation
deriving DecidableEq

/-- The error and the subcode for the notification: `BADMESSLEN` of `MSGHEADERERR`, and those of
`UPDATEMSGERR`. -/
inductive ErrorCode
  | badMessLen | malAttrList | unrecogWAttr | missWAttr | attrFlags | attrLen | invalOrgAttr
  | invalNhAttr | optAttr | invalNetField | malAsPath
deriving DecidableEq

structure CorruptMessage where
  why : Why
  code : ErrorCode
  data : List UInt8
deriving DecidableEq

/-- The exceptions of the decoder: `CorruptMessage`, and `UnusableMessage` about a nexthop of this
router in an address family. -/
inductive Rejection
  | corrupt (message : CorruptMessage)
  | unusable (ipVersion : Nat)
deriving DecidableEq

/-- `CorruptMessage` without data. -/
def corrupt (why : Why) (code : ErrorCode) : Rejection := .corrupt ⟨why, code, []⟩

/-- `CorruptMessage` with `n` bytes of the message, which it copies. -/
def rejectWith {α : Type} (d : Buffer) (p n : Nat) (why : Why) (code : ErrorCode) :
    Read Rejection α := do
  verify (n < 4096)
  let data ← slice d p n
  .error (.invalid (.corrupt ⟨why, code, data⟩))

def checkWith (ok : Prop) [Decidable ok] (d : Buffer) (p n : Nat) (why : Why) (code : ErrorCode) :
    Read Rejection Unit :=
  if ok then .ok () else rejectWith d p n why code

/-! ### The attributes -/

inductive OriginType
  | igp | egp | incomplete
deriving DecidableEq, Repr

def OriginType.ofNat? : Nat → Option OriginType
  | 0 => some .igp
  | 1 => some .egp
  | 2 => some .incomplete
  | _ => none

inductive Safi
  | unicast | multicast
deriving DecidableEq, Repr

def Safi.ofNat? : Nat → Option Safi
  | 1 => some .unicast
  | 2 => some .multicast
  | _ => none

/-- The classes that derive from `PathAttribute`, with their members.  An attribute of another type
keeps its bytes from the first one on. -/
inductive Value
  | origin (origin : OriginType)
  | asPath (path : ASPath)
  | nextHop (nexthop : BitVec 32)
  | med (med : BitVec 32)
  | localPref (localpref : BitVec 32)
  | atomicAggregate
  | aggregator (speaker : BitVec 32) (as : AsNum)
  | community (communities : List (BitVec 32))
  | originatorId (id : BitVec 32)
  | clusterList (ids : List (BitVec 32))
  | mpReach4 (safi : Safi) (nexthop : BitVec 32) (nlri : List (IPNet 32))
  | mpReach6 (safi : Safi) (nexthop linkLocal : BitVec 128) (nlri : List (IPNet 128))
  | mpUnreach4 (safi : Safi) (withdrawn : List (IPNet 32))
  | mpUnreach6 (safi : Safi) (withdrawn : List (IPNet 128))
  | as4Path (path : ASPath)
  | as4Aggregator (speaker : BitVec 32) (as : AsNum)
  | unknown (type : Nat) (data : List UInt8)
deriving DecidableEq

namespace AttType

def origin : Nat := 1
def asPath : Nat := 2
def nextHop : Nat := 3
def med : Nat := 4
def localPref : Nat := 5
def atomicAggregate : Nat := 6
def aggregator : Nat := 7
def community : Nat := 8
def originatorId : Nat := 9
def clusterList : Nat := 10
def mpReachNlri : Nat := 14
def mpUnreachNlri : Nat := 15
def as4Path : Nat := 17
def as4Aggregator : Nat := 18

end AttType

def maxAttribute : Nat := 20

def Value.type : Value → Nat
  | .origin _ => AttType.origin
  | .asPath _ => AttType.asPath
  | .nextHop _ => AttType.nextHop
  | .med _ => AttType.med
  | .localPref _ => AttType.localPref
  | .atomicAggregate => AttType.atomicAggregate
  | .aggregator _ _ => AttType.aggregator
  | .community _ => AttType.community
  | .originatorId _ => AttType.originatorId
  | .clusterList _ => AttType.clusterList
  | .mpReach4 _ _ _ | .mpReach6 _ _ _ _ => AttType.mpReachNlri
  | .mpUnreach4 _ _ | .mpUnreach6 _ _ => AttType.mpUnreachNlri
  | .as4Path _ => AttType.as4Path
  | .as4Aggregator _ _ => AttType.as4Aggregator
  | .unknown type _ => type

structure PathAttribute where
  flags : Flags
  value : Value
deriving DecidableEq

def PathAttribute.type (a : PathAttribute) : Nat := a.value.type

/-! ### The header -/

/-- The start of an attribute, as its constructors read it. -/
structure Header where
  start : Nat
  flags : Flags
  type : Nat
  length : Nat
deriving DecidableEq

namespace Header

/-- Flags, type, and a length of one byte or two. -/
def size (h : Header) : Nat := if h.flags.extended then 4 else 3

def payload (h : Header) : Nat := h.start + h.size

/-- `total_tlv_length`. -/
def total (h : Header) : Nat := h.length + h.size

/-- Where the payload ends. -/
def stop (h : Header) : Nat := h.payload + h.length

/-- `length`. -/
def decodeLength (extended : Bool) (d : Buffer) (p : Nat) : Read Rejection Nat :=
  if extended then extract16 d (p + 2) else byte d (p + 2)

def decode (d : Buffer) (p : Nat) : Read Rejection Header := do
  let flags ← byte d p
  let length ← decodeLength (Flags.ofByte flags).extended d p
  let type ← byte d (p + 1)
  .ok ⟨p, Flags.ofByte flags, type, length⟩

end Header

/-- A check that sends the whole attribute back. -/
def checkTlv (ok : Prop) [Decidable ok] (d : Buffer) (h : Header) (why : Why) (code : ErrorCode) :
    Read Rejection Unit :=
  checkWith ok d h.start h.total why code

/-! ### Addresses and prefixes -/

/-- The number in a row of bytes, the high one first. -/
def ofBytes (bytes : List UInt8) : Nat := bytes.foldl (fun n b => n * 2 ^ 8 + b.toNat) 0

/-- An address out of its first bytes; the others are zero. -/
def addrOfBytes (w : Nat) (bytes : List UInt8) : BitVec w :=
  BitVec.ofNat w (ofBytes (bytes ++ List.replicate (w / 8 - bytes.length) 0))

/-- `copy_in`. -/
def readAddr (w : Nat) (d : Buffer) (p : Nat) : Read Rejection (BitVec w) := do
  let bytes ← slice d p (w / 8)
  .ok (addrOfBytes w bytes)

/-- `IPNet(a, len)`.  It throws on a length above the width, and no caller catches that. -/
def ipNet (w : Nat) (a : BitVec w) (len : Nat) : Read Rejection (IPNet w) :=
  if h : len ≤ w then .ok (IPNet.ofAddr a len h) else .error .assertion

/-- The bytes that a prefix length takes. -/
def prefixBytes (len : Nat) : Nat := (len + 7) / 8

def isUnicast (a : BitVec 32) : Bool := a ≠ 0 ∧ a.toNat < 0xe0000000

/-! ### AS paths -/

end Wire

/-- `ASPathSegType`, from its byte. -/
def ASPathSegType.ofNat? : Nat → Option ASPathSegType
  | 0 => some .none
  | 1 => some .set
  | 2 => some .sequence
  | 3 => some .confedSequence
  | 4 => some .confedSet
  | _ => none

def ASPath.containsConfedSegments (p : ASPath) : Bool :=
  p.any fun s => s.type = .confedSequence ∨ s.type = .confedSet

namespace Wire

open Bytes

/-- A segment: its type, how many numbers, and the numbers, each of `width` bytes. -/
def decodeSegment (extract : Nat → Read Rejection Nat) (width : Nat) (d : Buffer) (p : Nat) :
    Read Rejection ASSegment := do
  let n ← byte d (p + 1)
  let type ← byte d p
  match ASPathSegType.ofNat? type with
  | none => .error (.invalid (corrupt (.badSegmentType type) .malAsPath))
  | some type => do
      let aslist ← readMany (fun i => extract (p + 2 + i * width)) n 0
      .ok ⟨type, aslist.map (BitVec.ofNat 32)⟩

variable (d : Buffer)

/-- `ASSegment::decode`. -/
def decodeASSegment (p : Nat) : Read Rejection ASSegment :=
  decodeSegment (extract16 d) 2 d p

/-- `AS4Segment::decode`. -/
def decodeAS4Segment (p : Nat) : Read Rejection ASSegment :=
  decodeSegment (extract32 d) 4 d p

/-- The bytes of a path that are left, and the segments before them. -/
structure PathCursor where
  pos : Nat
  left : Nat
  segments : ASPath
deriving DecidableEq

def PathCursor.more (c : PathCursor) : Bool := 0 < c.left

/-- The loop of `ASPath::decode`. -/
def asPathStep (c : PathCursor) : Read Rejection PathCursor := do
  let n ← byte d (c.pos + 1)
  check (2 + n * 2 ≤ c.left) (corrupt (.badAsPath (2 + n * 2) c.left) .malAsPath)
  let s ← decodeASSegment d c.pos
  .ok ⟨c.pos + (2 + n * 2), c.left - (2 + n * 2), c.segments ++ [s]⟩

/-- The loop of `AS4Path::decode`.  That a segment fits is an assertion. -/
def as4PathStep (c : PathCursor) : Read Rejection PathCursor := do
  let n ← byte d (c.pos + 1)
  verify (2 + n * 4 ≤ c.left)
  let s ← decodeAS4Segment d c.pos
  .ok ⟨c.pos + (2 + n * 4), c.left - (2 + n * 4), c.segments ++ [s]⟩

/-- The segments that a step gathers. -/
def walkPath (step : PathCursor → Read Rejection PathCursor) (p l : Nat) :
    Read Rejection ASPath := do
  let c ← loop PathCursor.more step (l + 1) ⟨p, l, []⟩
  .ok c.segments

/-- `ASPath(d, l)`. -/
def decodeASPath (p l : Nat) : Read Rejection ASPath := walkPath (asPathStep d) p l

/-- `AS4Path(d, l)`. -/
def decodeAS4Path (p l : Nat) : Read Rejection ASPath := walkPath (as4PathStep d) p l

/-! ### The multiprotocol attributes -/

/-- The start of a multiprotocol attribute of an address family. -/
def openMultiprotocol (name : AttName) (afi : Nat) (d : Buffer) (h : Header) :
    Read Rejection Safi := do
  check h.flags.optionalNonTransitive (corrupt (.badFlags name none) .attrFlags)
  let received ← extract16 d h.payload
  check (received = afi) (corrupt (.expectedAfi afi received) .optAttr)
  let safi ← byte d (h.payload + 2)
  match Safi.ofNat? safi with
  | none => .error (.invalid (corrupt .expectedSafi .optAttr))
  | some safi => .ok safi

/-- The nexthops of `MPReachNLRIAttribute<IPv6>`: a global one, and a link local one if there is
room for two. -/
def readNexthop6 (p len : Nat) : Read Rejection (BitVec 128 × BitVec 128) :=
  if len = 16 then do
    let nexthop ← readAddr 128 d p
    .ok (nexthop, 0)
  else if len = 32 then do
    let nexthop ← readAddr 128 d p
    let linkLocal ← readAddr 128 d (p + 16)
    .ok (nexthop, linkLocal)
  else .error (.invalid (corrupt (.nexthopSize6 len) .optAttr))

/-- The nexthop of `MPReachNLRIAttribute<IPv4>`. -/
def readNexthop4 (p len : Nat) : Read Rejection (BitVec 32) :=
  if len = 4 then readAddr 32 d p
  else .error (.invalid (corrupt (.nexthopSize4 len) .optAttr))

/-- The subnetwork points of attachment are stepped over. -/
def skipSnpa (d : Buffer) : Nat → Nat → Read Rejection Nat
  | 0, p => .ok p
  | n + 1, p => do
      let len ← byte d p
      skipSnpa d n (p + 1 + len)

/-- How far the prefixes of a multiprotocol attribute are read. -/
structure NlriCursor (w : Nat) where
  pos : Nat
  nets : List (IPNet w)

def nlriStep (w : Nat) (d : Buffer) (c : NlriCursor w) : Read Rejection (NlriCursor w) := do
  let len ← byte d c.pos
  check (prefixBytes len ≤ w / 8) (corrupt (.prefixTooLong len) .optAttr)
  let bytes ← slice d (c.pos + 1) (prefixBytes len)
  let net ← ipNet w (addrOfBytes w bytes) len
  .ok ⟨c.pos + 1 + prefixBytes len, c.nets ++ [net]⟩

/-- The prefixes up to the end of the attribute. -/
def decodeNlri (w : Nat) (d : Buffer) (p stop : Nat) : Read Rejection (List (IPNet w)) := do
  let c ← loop (fun c => c.pos < stop) (nlriStep w d) (stop - p + 1) ⟨p, []⟩
  .ok c.nets

/-- The part of `MPReachNLRIAttribute` after the nexthop. -/
def decodeReach (w : Nat) (d : Buffer) (p stop : Nat) : Read Rejection (List (IPNet w)) := do
  check (p ≤ stop) (corrupt .prematureEnd .attrLen)
  let count ← byte d p
  let q ← skipSnpa d count (p + 1)
  check (q ≤ stop) (corrupt .prematureEnd .attrLen)
  decodeNlri w d q stop

variable (h : Header)

/-- `MPReachNLRIAttribute<IPv6>(d)`. -/
def decodeMpReach6 : Read Rejection Value := do
  let safi ← openMultiprotocol .mpReach 2 d h
  let len ← byte d (h.payload + 3)
  let nexthops ← readNexthop6 d (h.payload + 4) len
  let nlri ← decodeReach 128 d (h.payload + 4 + len) h.stop
  .ok (.mpReach6 safi nexthops.1 nexthops.2 nlri)

/-- `MPReachNLRIAttribute<IPv4>(d)`, which only takes multicast. -/
def decodeMpReach4 : Read Rejection Value := do
  let safi ← openMultiprotocol .mpReach 1 d h
  check (safi ≠ .unicast) (corrupt .ipv4Unicast .optAttr)
  let len ← byte d (h.payload + 3)
  let nexthop ← readNexthop4 d (h.payload + 4) len
  let nlri ← decodeReach 32 d (h.payload + 4 + len) h.stop
  .ok (.mpReach4 safi nexthop nlri)

/-- `MPUNReachNLRIAttribute<IPv6>(d)`. -/
def decodeMpUnreach6 : Read Rejection Value := do
  let safi ← openMultiprotocol .mpUnreach 2 d h
  let withdrawn ← decodeNlri 128 d (h.payload + 3) h.stop
  .ok (.mpUnreach6 safi withdrawn)

/-- `MPUNReachNLRIAttribute<IPv4>(d)`. -/
def decodeMpUnreach4 : Read Rejection Value := do
  let safi ← openMultiprotocol .mpUnreach 1 d h
  check (safi ≠ .unicast) (corrupt .ipv4Unicast .optAttr)
  let withdrawn ← decodeNlri 32 d (h.payload + 3) h.stop
  .ok (.mpUnreach4 safi withdrawn)

/-- `catch(...)`: what is done when an exception was thrown. -/
def orCatch {α : Type} (x y : Read Rejection α) : Read Rejection α :=
  match x with
  | .error (.invalid _) => y
  | r => r

/-! ### The other attributes -/

/-- `OriginAttribute(d)`. -/
def decodeOrigin : Read Rejection Value := do
  check (h.length = 1) (corrupt (.badLength .origin h.length) .attrLen)
  checkTlv h.flags.wellKnownTransitive d h (.badFlags .origin h.flags) .attrFlags
  let type ← byte d h.payload
  match OriginType.ofNat? type with
  | none => rejectWith d h.start h.total (.unknownOrigin type) .invalOrgAttr
  | some origin => .ok (.origin origin)

/-- `ASPathAttribute(d, use_4byte_asnums)`. -/
def decodeASPathAttribute (use4byteAsnums : Bool) (d : Buffer) (h : Header) :
    Read Rejection Value := do
  checkTlv h.flags.wellKnownTransitive d h (.badFlags .asPath h.flags) .attrFlags
  let path ← bif use4byteAsnums then decodeAS4Path d h.payload h.length
    else decodeASPath d h.payload h.length
  .ok (.asPath path)

/-- `AS4PathAttribute(d)`. -/
def decodeAS4PathAttribute : Read Rejection Value := do
  checkTlv h.flags.optionalTransitive d h (.badFlags .as4Path h.flags) .attrFlags
  let path ← decodeAS4Path d h.payload h.length
  .ok (.as4Path path)

/-- `NextHopAttribute<IPv4>(d)`. -/
def decodeNextHop : Read Rejection Value := do
  checkTlv h.flags.wellKnownTransitive d h (.badFlags .nextHop h.flags) .attrFlags
  check (h.length = 4) (corrupt (.nextHopSize h.length 4) .attrLen)
  let nexthop ← readAddr 32 d h.payload
  check (isUnicast nexthop) (corrupt (.notUnicast nexthop) .invalNhAttr)
  .ok (.nextHop nexthop)

/-- `MEDAttribute(d)`. -/
def decodeMed : Read Rejection Value := do
  checkTlv h.flags.optionalNonTransitive d h (.badFlags .med h.flags) .attrFlags
  check (h.length = 4) (corrupt (.badSize .med) .attrLen)
  let med ← readAddr 32 d h.payload
  .ok (.med med)

/-- `LocalPrefAttribute(d)`. -/
def decodeLocalPref : Read Rejection Value := do
  checkTlv h.flags.wellKnownTransitive d h (.badFlags .localPref h.flags) .attrFlags
  check (h.length = 4) (corrupt (.badSize .localPref) .attrLen)
  let localpref ← readAddr 32 d h.payload
  .ok (.localPref localpref)

/-- `AtomicAggAttribute(d)`. -/
def decodeAtomicAgg : Read Rejection Value := do
  check (h.length = 0) (corrupt (.badLength .atomicAggregate h.length) .attrLen)
  checkTlv h.flags.wellKnownTransitive d h (.badFlags .atomicAggregate h.flags) .attrFlags
  .ok .atomicAggregate

/-- The AS number and the address of an aggregator, the number in `width` bytes. -/
def readAggregator (width : Nat) (d : Buffer) (h : Header) :
    Read Rejection (BitVec 32 × AsNum) := do
  checkTlv h.flags.optionalTransitive d h (.badFlags .atomicAggregate h.flags) .attrFlags
  let as ← slice d h.payload width
  let speaker ← readAddr 32 d (h.payload + width)
  .ok (speaker, BitVec.ofNat 32 (ofBytes as))

/-- `AggregatorAttribute(d, use_4byte_asnums)`. -/
def decodeAggregator (use4byteAsnums : Bool) (d : Buffer) (h : Header) : Read Rejection Value := do
  check (h.length = bif use4byteAsnums then 8 else 6)
    (corrupt (.badLength .aggregator h.length) .attrLen)
  let a ← readAggregator (bif use4byteAsnums then 4 else 2) d h
  .ok (.aggregator a.1 a.2)

/-- `AS4AggregatorAttribute(d)`. -/
def decodeAS4Aggregator : Read Rejection Value := do
  check (h.length = 8) (corrupt (.badLength .as4Aggregator h.length) .attrLen)
  let a ← readAggregator 4 d h
  .ok (.as4Aggregator a.1 a.2)

/-- The numbers of four bytes in the payload; what is left after the last of them is passed over. -/
def readWords : Read Rejection (List (BitVec 32)) :=
  readMany (fun i => readAddr 32 d (h.payload + i * 4)) (h.length / 4) 0

/-- `CommunityAttribute(d)`: a set. -/
def decodeCommunity : Read Rejection Value := do
  check h.flags.optionalTransitive (corrupt (.badFlags .community none) .attrFlags)
  let words ← readWords d h
  .ok (.community (words.foldl (fun set c => OrderedSet.insert BitVec.toNat c set) []))

/-- `OriginatorIDAttribute(d)`. -/
def decodeOriginatorId : Read Rejection Value := do
  check h.flags.optionalNonTransitive (corrupt (.badFlags .originatorId none) .attrFlags)
  check (h.length = 4) (corrupt (.badSize .originatorId) .invalNhAttr)
  let id ← readAddr 32 d h.payload
  .ok (.originatorId id)

/-- `ClusterListAttribute(d)`. -/
def decodeClusterList : Read Rejection Value := do
  check h.flags.optionalNonTransitive (corrupt (.badFlags .clusterList none) .attrFlags)
  let ids ← readWords d h
  .ok (.clusterList ids)

/-- `UnknownAttribute(d)`. -/
def decodeUnknown : Read Rejection Value := do
  checkTlv h.flags.optional d h (.badFlags .unknown none) .unrecogWAttr
  let data ← slice d h.start h.total
  .ok (.unknown h.type data)

/-! ### Any attribute -/

/-- The constructor for a type. -/
def decodeValue (use4byteAsnums : Bool) (d : Buffer) (h : Header) : Read Rejection Value :=
  match h.type with
  | 1 => decodeOrigin d h
  | 2 => decodeASPathAttribute use4byteAsnums d h
  | 3 => decodeNextHop d h
  | 4 => decodeMed d h
  | 5 => decodeLocalPref d h
  | 6 => decodeAtomicAgg d h
  | 7 => decodeAggregator use4byteAsnums d h
  | 8 => decodeCommunity d h
  | 9 => decodeOriginatorId d h
  | 10 => decodeClusterList d h
  | 14 => orCatch (decodeMpReach6 d h) (decodeMpReach4 d h)
  | 15 => orCatch (decodeMpUnreach6 d h) (decodeMpUnreach4 d h)
  | 17 => decodeAS4PathAttribute d h
  | 18 => decodeAS4Aggregator d h
  | _ => decodeUnknown d h

/-- `PathAttribute::create`, with the length that it used. -/
def PathAttribute.create (use4byteAsnums : Bool) (d : Buffer) (p maxLen : Nat) :
    Read Rejection (PathAttribute × Nat) := do
  checkWith (3 ≤ maxLen) d p maxLen (.attributeTooShort maxLen) .attrLen
  let flags ← byte d p
  checkWith (¬ ((Flags.ofByte flags).extended ∧ maxLen < 4)) d p maxLen (.extendedTooShort maxLen)
    .attrLen
  let h ← Header.decode d p
  checkWith (h.total ≤ maxLen) d p maxLen (.attributeNeeds maxLen h.total) .attrLen
  let value ← decodeValue use4byteAsnums d h
  .ok (⟨h.flags, value⟩, h.total)

end Wire

end Xorp.Bgp

/-
The BGP UPDATE message, as it is decoded.

The message is a list of withdrawn prefixes, the path attributes, and the prefixes that are
announced.  `load_raw_data` decodes the attributes into a vector that it indexes by type, then drops
the multiprotocol attributes of families that were not announced, and then checks what the protocol
asks of the attributes.  What the peer and this router are is read from `PeerData` and `Main`.
-/
import Xorp.Bgp.Attribute

namespace Xorp.Bgp

namespace Wire

open Bytes

/-! ### The session -/

/-- `PeerType`.  A peer in a session is configured. -/
inductive PeerType
  | ebgp | ibgp | ebgpConfed | ibgpClient
deriving DecidableEq

/-- What the decoder asks of `BGPPeerData`.  The families are those that this router announced. -/
structure PeerData where
  peerType : PeerType
  as : AsNum
  use4byteAsnums : Bool
  weUse4byteAsnums : Bool
  confederation : Bool
  multiprotocol4 : Safi → Bool
  multiprotocol6 : Safi → Bool

def PeerData.ibgp (peer : PeerData) : Bool :=
  peer.peerType = .ibgp ∨ peer.peerType = .ibgpClient

/-- The addresses of the interfaces, `interface_address4` and `interface_address6` of `BGPMain`. -/
structure Main where
  interfaceAddress4 : BitVec 32 → Bool
  interfaceAddress6 : BitVec 128 → Bool

/-! ### The vector of attributes -/

/-- `_att`: a vector, and the attributes in it in the order in which they came. -/
structure AttList where
  size : Nat
  atts : List PathAttribute
deriving DecidableEq

namespace AttList

/-- `FastPathAttributeList()`. -/
def empty : AttList := ⟨maxAttribute + 1, []⟩

section
variable (l : AttList)

/-- `_att[type]`. -/
def find (type : Nat) : Option PathAttribute := l.atts.find? fun a => a.type = type

/-- `_att[type] = 0`. -/
def erase (type : Nat) : AttList :=
  { l with atts := l.atts.filter fun a => a.type ≠ type }

/-- `_att.resize`.  The vector grows for a type above its size, not for one equal to it. -/
def grow (type : Nat) : AttList :=
  { l with size := if l.size < type then type + 1 else l.size }

/-- An index into a vector. -/
def inRange (type : Nat) : Read Rejection Unit :=
  if type < l.size then .ok () else .error .outOfBounds

/-- An `UnknownAttribute` that is well known is refused, as its constructor refused it already. -/
def refuseWellKnown (a : PathAttribute) : Read Rejection Unit :=
  match a.value with
  | .unknown _ data =>
      check a.flags.optional (.corrupt ⟨.unknownWellKnown, .unrecogWAttr,
        UInt8.ofNat a.flags.toByte :: data.tail⟩)
  | _ => .ok ()

/-- An attribute is stored under its type. -/
def add (a : PathAttribute) : Read Rejection AttList := do
  verify (a.type ≤ 255)
  let l := l.grow a.type
  l.inRange a.type
  check (l.find a.type = none) (corrupt .duplicateEntry .malAttrList)
  refuseWellKnown a
  .ok { l with atts := l.atts ++ [a] }

/-- `FastPathAttributeList::str`, for a log message.  For a type without an attribute it looks into
`_att_lengths`, which has no entries after `MAX_ATTRIBUTE`. -/
def str : Read Rejection Unit :=
  if (List.range' (maxAttribute + 1) (l.size - (maxAttribute + 1))).all fun t => (l.find t).isSome
  then .ok () else .error .outOfBounds

/-- A nexthop of this router is logged, and the message is not used. -/
def refuseOwn (own : Bool) (ipVersion : Nat) : Read Rejection Unit :=
  if own then do
    l.str
    .error (.invalid (.unusable ipVersion))
  else .ok ()

end

end AttList

/-! ### `load_raw_data` -/

/-- The loop over the attributes. -/
structure LoadCursor where
  pos : Nat
  left : Nat
  count : Nat
  list : AttList
deriving DecidableEq

def LoadCursor.more (c : LoadCursor) : Bool := 0 < c.left

def loadStep (peer : PeerData) (d : Buffer) (c : LoadCursor) : Read Rejection LoadCursor := do
  let (a, used) ← PathAttribute.create peer.use4byteAsnums d c.pos c.left
  check (used ≠ 0) (corrupt .attributeSize .attrLen)
  let list ← c.list.add a
  .ok ⟨c.pos + used, c.left - used, c.count + 1, list⟩

def loadAttributes (peer : PeerData) (d : Buffer) (p size : Nat) : Read Rejection LoadCursor :=
  loop LoadCursor.more (loadStep peer d) (size + 1) ⟨p, size, 0, .empty⟩

/-- A missing or illegal attribute, with its type as the data of the notification. -/
def missing (why : Why) (type : Nat) : Rejection := .corrupt ⟨why, .missWAttr, [UInt8.ofNat type]⟩

/-- An `MP_REACH_NLRI` of IPv4: whether it is kept, in which case there is something announced. -/
def checkReach4 (main : Option Main) (peer : PeerData) (doChecks : Bool) (l : AttList)
    (haveNlri : Bool) : Read Rejection (AttList × Bool) :=
  match (l.find AttType.mpReachNlri).map PathAttribute.value with
  | some (.mpReach4 safi nexthop _) =>
      if peer.multiprotocol4 safi then do
        check (¬ (doChecks ∧ nexthop = 0)) (missing .illegalNexthop AttType.nextHop)
        l.refuseOwn (main.any fun m => m.interfaceAddress4 nexthop) 4
        .ok (l, true)
      else .ok (l.erase AttType.mpReachNlri, haveNlri)
  | _ => .ok (l, haveNlri)

/-- The same of IPv6, where the nexthop is compared with the interfaces only if checks are on. -/
def checkReach6 (main : Option Main) (peer : PeerData) (doChecks : Bool) (l : AttList)
    (haveNlri : Bool) : Read Rejection (AttList × Bool) :=
  match (l.find AttType.mpReachNlri).map PathAttribute.value with
  | some (.mpReach6 safi nexthop _ _) =>
      if peer.multiprotocol6 safi then do
        check (¬ (doChecks ∧ nexthop = 0)) (missing .illegalNexthop AttType.nextHop)
        l.refuseOwn (doChecks && main.any fun m => m.interfaceAddress6 nexthop) 6
        .ok (l, true)
      else .ok (l.erase AttType.mpReachNlri, haveNlri)
  | _ => .ok (l, haveNlri)

/-- An `MP_UNREACH_NLRI` of a family that was not announced is dropped. -/
def dropUnreach (peer : PeerData) (l : AttList) : AttList :=
  match (l.find AttType.mpUnreachNlri).map PathAttribute.value with
  | some (.mpUnreach4 safi _) =>
      if peer.multiprotocol4 safi then l else l.erase AttType.mpUnreachNlri
  | some (.mpUnreach6 safi _) =>
      if peer.multiprotocol6 safi then l else l.erase AttType.mpUnreachNlri
  | _ => l

/-- The multiprotocol attributes.  All of this is done if there is an `MP_REACH_NLRI`. -/
def checkMultiprotocol (main : Option Main) (peer : PeerData) (doChecks : Bool) (l : AttList)
    (haveNlri : Bool) : Read Rejection (AttList × Bool) :=
  if (l.find AttType.mpReachNlri).isSome then do
    let (l, haveNlri) ← checkReach4 main peer doChecks l haveNlri
    let (l, haveNlri) ← checkReach6 main peer doChecks l haveNlri
    .ok (dropUnreach peer l, haveNlri)
  else .ok (l, haveNlri)

/-- What an announcement needs. -/
def checkMandatory (l : AttList) (haveIpv4Nlri : Bool) : Read Rejection Unit := do
  check (l.find AttType.origin ≠ none) (missing .missingOrigin AttType.origin)
  check (l.find AttType.asPath ≠ none) (missing .missingAsPath AttType.asPath)
  check (¬ (haveIpv4Nlri ∧ l.find AttType.nextHop = none))
    (missing .missingNextHop AttType.nextHop)

/-- `ASPath::first_asnum`, whose assertions are that there is one. -/
def firstAsnum (path : ASPath) : Read Rejection AsNum :=
  match path.firstAsnum with
  | .ok a => .ok a
  | .error _ => .error .assertion

/-- What is asked of an external peer. -/
def checkExternal (peer : PeerData) (l : AttList) (path : ASPath) : Read Rejection Unit := do
  check (path.pathLength ≠ 0) (corrupt .emptyAsPath .malAsPath)
  let first ← firstAsnum path
  check (first = peer.as) (corrupt .mustListPeer .malAsPath)
  check (l.find AttType.clusterList = none ∧ l.find AttType.originatorId = none)
    (corrupt .reflectorOnEbgp .malAttrList)

/-- The AS path, if there is one. -/
def checkAsPath (peer : PeerData) (l : AttList) : Read Rejection Unit :=
  match (l.find AttType.asPath).map PathAttribute.value with
  | some (.asPath path) => do
      bif peer.ibgp then .ok () else checkExternal peer l path
      check (peer.confederation ∨ path.containsConfedSegments = false)
        (corrupt .unexpectedConfederation .malAsPath)
  | _ => .ok ()

/-- A nexthop of this router. -/
def checkNextHop (main : Option Main) (l : AttList) : Read Rejection Unit :=
  match (l.find AttType.nextHop).map PathAttribute.value with
  | some (.nextHop nexthop) =>
      if main.any fun m => m.interfaceAddress4 nexthop then .error (.invalid (.unusable 4))
      else .ok ()
  | _ => .ok ()

def loadRawData (main : Option Main) (peer : PeerData) (doChecks : Bool) (d : Buffer)
    (p size : Nat) (haveNlri : Bool) : Read Rejection AttList := do
  let c ← loadAttributes peer d p size
  let (l, announced) ← checkMultiprotocol main peer doChecks c.list haveNlri
  check (¬ (c.count = 0 ∧ announced)) (corrupt .illegalNexthop .malAttrList)
  bif doChecks && announced then checkMandatory l haveNlri else .ok ()
  checkAsPath peer l
  checkNextHop main l
  .ok l

/-! ### The message -/

/-- How far a list of prefixes is read. -/
structure NetCursor where
  pos : Nat
  left : Nat
  nets : List (IPNet 32)
deriving DecidableEq

def NetCursor.more (c : NetCursor) : Bool := 0 < c.left

/-- The loop of `BGPUpdateAttribList::decode`.  It stops before a prefix that is longer than what is
left, and complains about the rest then; a prefix that came before is passed over. -/
def netStep (d : Buffer) (c : NetCursor) : Read Rejection NetCursor := do
  let len ← byte d c.pos
  check (len ≤ 32) (corrupt (.inconsistentLength len) .invalNetField)
  check (prefixBytes len + 1 ≤ c.left) (corrupt (.leftoverBytes c.left) .attrLen)
  let bytes ← slice d (c.pos + 1) (prefixBytes len)
  let net ← ipNet 32 (addrOfBytes 32 bytes) len
  .ok ⟨c.pos + (prefixBytes len + 1), c.left - (prefixBytes len + 1),
    if net ∈ c.nets then c.nets else c.nets ++ [net]⟩

/-- `BGPUpdateAttribList::decode`. -/
def decodeNets (d : Buffer) (p len : Nat) : Read Rejection (List (IPNet 32)) := do
  let c ← loop NetCursor.more (netStep d) (len + 1) ⟨p, len, []⟩
  .ok c.nets

structure UpdatePacket where
  withdrawn : List (IPNet 32)
  attributes : AttList
  nlri : List (IPNet 32)
deriving DecidableEq

/-- `UpdatePacket(d, l, peerdata, mainprocess, do_checks)`. -/
def UpdatePacket.decode (main : Option Main) (peer : PeerData) (doChecks : Bool) (d : Buffer) :
    Read Rejection UpdatePacket := do
  checkWith (23 ≤ d.size) d 16 2 (.updateTooShort d.size) .badMessLen
  let wrLen ← extract16 d 19
  check (23 + wrLen ≤ d.size) (corrupt (.unreachableRoutesLength wrLen (d.size - 23)) .malAttrList)
  let paLen ← extract16 d (21 + wrLen)
  check (23 + paLen + wrLen ≤ d.size)
    (corrupt (.pathattrLength paLen (d.size - wrLen - 23)) .malAttrList)
  let withdrawn ← decodeNets d 21 wrLen
  let attributes ← loadRawData main peer doChecks d (23 + wrLen) paLen
    (0 < d.size - 23 - paLen - wrLen)
  let nlri ← decodeNets d (23 + wrLen + paLen) (d.size - 23 - paLen - wrLen)
  .ok ⟨withdrawn, attributes, nlri⟩

/-- What the packet layer hands over: a header is there, and no message is longer than
`MAXPACKETSIZE`. -/
structure Message extends Buffer where
  header_le : 19 ≤ toBuffer.size
  size_le : toBuffer.size ≤ 4096

end Wire

end Xorp.Bgp

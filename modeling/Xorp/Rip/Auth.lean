/-
The authentication of RIP packets.

A handler looks at a packet before its routes are read and says where the route entries are: how many,
and from which byte on.  Without authentication they follow the header.  With a password the first
entry holds it.  With MD5 the first entry says where the trailer with the digest is, which key it was
made with, and a sequence number; each key has, for every source, the last number that it accepted.
Offsets are counted from the start of the packet, and a read past its end is told from a packet that is
rejected.
-/
import Xorp.Lib.Bytes

namespace Xorp.Rip

open Bytes

abbrev Ipv4 := BitVec 32

/-- What `set_error` is called with. -/
inductive AuthError
  | packetTooLarge (bytes : Nat)
  | packetTooSmall (bytes : Nat)
  | nonIntegralEntries (bytes : Nat)
  | unexpectedAuthentication (type : Nat)
  | notAuthenticated
  | notPlaintext
  | wrongPassword (passwd : List UInt8)
  | notMd5
  | wrongAuthBytes (bytes size : Nat)
  | sizeMismatch (off bytes packetBytes : Nat)
  | noKey (id : Nat)
  | badSeqno (seqno last : BitVec 32)
  | invalidTrailer
  | badDigest (id : Nat)

/-- `RipPacketHeader::size`. -/
def ripHeaderSize : Nat := 4

/-- `PacketRouteEntry<IPv4>::size`, which the two entries for authentication have too. -/
def routeEntrySize : Nat := 20

/-- `MD5PacketTrailer::size`. -/
def md5TrailerSize : Nat := 20

def ripv2RoutesPerPacket : Nat := 25

def ripv2MinPacketBytes : Nat := 4

def ripv2MinAuthPacketBytes : Nat := 4 + 20

def ripv2MaxPacketBytes : Nat := 4 + 20 * ripv2RoutesPerPacket

def addrFamilyAuth : Nat := 0xffff

/-- `entries_ptr` and `n_entries`. -/
structure Entries where
  entriesPtr : Option Nat
  nEntries : Nat

/-! ### No authentication -/

/-- The first entry of a packet that should not be authenticated. -/
def firstEntry (d : Buffer) (nEntries : Nat) : Read AuthError Entries := do
  let family ← extract16 d ripHeaderSize
  if family = addrFamilyAuth then do
    let tag ← extract16 d (ripHeaderSize + 2)
    .error (.invalid (.unexpectedAuthentication tag))
  else .ok ⟨some ripHeaderSize, nEntries⟩

/-- `NullAuthHandler::authenticate_inbound`. -/
def nullInbound (d : Buffer) : Read AuthError Entries := do
  check (d.size ≤ ripv2MaxPacketBytes) (.packetTooLarge d.size)
  check (ripv2MinPacketBytes ≤ d.size) (.packetTooSmall d.size)
  let entryBytes := sub64 d.size ripHeaderSize
  check (entryBytes % routeEntrySize = 0) (.nonIntegralEntries entryBytes)
  let nEntries := entryBytes / routeEntrySize % 2 ^ 32
  if nEntries = 0 then .ok ⟨none, 0⟩ else firstEntry d nEntries

/-! ### A password -/

/-- `string(const char *)`: the bytes up to a zero, wherever that is. -/
def cString (d : Buffer) (i : Nat) : Read AuthError (List UInt8) :=
  if 0 ∈ d.data.drop i then .ok ((d.data.drop i).takeWhile (· ≠ 0)) else .error .outOfBounds

/-- `PlaintextPacketRouteEntry4::password`.  The string is made first, and then its first sixteen
characters are taken. -/
def password (d : Buffer) (i : Nat) : Read AuthError (List UInt8) := do
  let pw ← cString d (i + 4)
  .ok (pw.take 16)

/-- `PlaintextAuthHandler::authenticate_inbound`. -/
def plaintextInbound (key : List UInt8) (d : Buffer) : Read AuthError Entries := do
  check (d.size ≤ ripv2MaxPacketBytes) (.packetTooLarge d.size)
  check (ripv2MinAuthPacketBytes ≤ d.size) (.packetTooSmall d.size)
  let entryBytes := sub64 d.size ripHeaderSize
  check (entryBytes % routeEntrySize = 0) (.nonIntegralEntries entryBytes)
  let family ← extract16 d ripHeaderSize
  check (family = addrFamilyAuth) .notAuthenticated
  let authType ← extract16 d (ripHeaderSize + 2)
  check (authType = 2) .notPlaintext
  let passwd ← password d ripHeaderSize
  check (passwd = key) (.wrongPassword passwd)
  let nEntries := sub64 (entryBytes / routeEntrySize) 1 % 2 ^ 32
  .ok ⟨if nEntries = 0 then none else some (ripHeaderSize + routeEntrySize), nEntries⟩

/-! ### MD5 -/

structure Md5Key where
  id : Nat
  keyData : List UInt8
  startTime : Nat
  endTime : Nat
  isPersistent : Bool
  pktsRecv : Ipv4 → Option Bool
  lrSeqno : Ipv4 → Option (BitVec 32)

namespace Md5Key

/-- The constructor; the key is cut off or filled up to sixteen bytes. -/
def create (id : Nat) (key : List UInt8) (startTime endTime : Nat) : Md5Key where
  id := id
  keyData := key.take 16 ++ List.replicate (16 - key.length) 0
  startTime := startTime
  endTime := endTime
  isPersistent := false
  pktsRecv _ := none
  lrSeqno _ := none

def reset (k : Md5Key) : Md5Key := { k with lrSeqno := fun _ => none, pktsRecv := fun _ => none }

/-- `reset` of one source. -/
def resetSource (k : Md5Key) (src : Ipv4) : Md5Key :=
  { k with
    lrSeqno := Function.update k.lrSeqno src none
    pktsRecv := Function.update k.pktsRecv src none }

def packetsReceived (k : Md5Key) (src : Ipv4) : Bool := (k.pktsRecv src).getD false

def lastSeqnoRecv (k : Md5Key) (src : Ipv4) : BitVec 32 := (k.lrSeqno src).getD 0

def setLastSeqnoRecv (k : Md5Key) (src : Ipv4) (seqno : BitVec 32) : Md5Key :=
  { k with
    lrSeqno := Function.update k.lrSeqno src (some seqno)
    pktsRecv := Function.update k.pktsRecv src (some true) }

end Md5Key

/-- `MD5PacketRouteEntry4`. -/
structure Md5Entry where
  authOff : Nat
  keyId : Nat
  seqno : BitVec 32

/-- `MD5AuthHandler::authenticate_inbound` up to where it looks for the key. -/
def md5Entry (d : Buffer) : Read AuthError Md5Entry := do
  check (d.size ≤ ripv2MaxPacketBytes + md5TrailerSize) (.packetTooLarge d.size)
  check (ripv2MinAuthPacketBytes ≤ d.size) (.packetTooSmall d.size)
  let family ← extract16 d ripHeaderSize
  check (family = addrFamilyAuth) .notAuthenticated
  let authType ← extract16 d (ripHeaderSize + 2)
  check (authType = 3) .notMd5
  let authBytes ← byte d (ripHeaderSize + 7)
  check (authBytes = md5TrailerSize) (.wrongAuthBytes authBytes md5TrailerSize)
  let authOff ← extract16 d (ripHeaderSize + 4)
  check ((authOff + authBytes) % 2 ^ 32 = d.size) (.sizeMismatch authOff authBytes d.size)
  let keyId ← byte d (ripHeaderSize + 6)
  let seqno ← extract32 d (ripHeaderSize + 8)
  .ok ⟨authOff, keyId, BitVec.ofNat 32 seqno⟩

/-- `MD5PacketTrailer::valid`. -/
def trailerValid (d : Buffer) (off : Nat) : Read AuthError Bool := do
  let family ← extract16 d off
  if family = 0xffff then do
    let one ← extract16 d (off + 2)
    .ok (decide (one = 1))
  else .ok false

/-- The sequence number is behind the last one. -/
def Md5Key.refuses (k : Md5Key) (src : Ipv4) (newPeer : Bool) (seqno : BitVec 32) : Bool :=
  k.packetsReceived src && !(newPeer && seqno == 0) && (0x7fffffff ≤ seqno - k.lastSeqnoRecv src)

/-- What `MD5_Final` makes of the bytes. -/
abbrev Md5 := List UInt8 → Vector UInt8 16

/-- The checks that are made with the key. -/
def Md5Key.verify (md5 : Md5) (k : Md5Key) (d : Buffer) (src : Ipv4)
    (newPeer : Bool) (m : Md5Entry) : Read AuthError Unit := do
  check (k.refuses src newPeer m.seqno = false) (.badSeqno m.seqno (k.lastSeqnoRecv src))
  let valid ← trailerValid d m.authOff
  check (valid = true) .invalidTrailer
  let data ← slice d 0 (m.authOff + 4)
  let authData ← slice d (m.authOff + 4) 16
  check ((md5 (data ++ k.keyData)).toList = authData) (.badDigest k.id)

/-- The entries are between the one for MD5 and the trailer. -/
def Md5Entry.entries (m : Md5Entry) : Entries :=
  let nEntries := sub64 (sub64 m.authOff ripHeaderSize / routeEntrySize) 1 % 2 ^ 32
  ⟨if nEntries = 0 then none else some (ripHeaderSize + routeEntrySize), nEntries⟩

/-- `MD5AuthHandler`. -/
structure Md5Handler where
  validKeyChain : List Md5Key
  invalidKeyChain : List Md5Key

/-- The first key with an id is changed. -/
def modifyKey (f : Md5Key → Md5Key) (id : Nat) : List Md5Key → List Md5Key
  | [] => []
  | k :: ks => if k.id = id then f k :: ks else k :: modifyKey f id ks

namespace Md5Handler

def create : Md5Handler := ⟨[], []⟩

/-- The first valid key with an id. -/
def findKey (H : Md5Handler) (id : Nat) : Option Md5Key := H.validKeyChain.find? (·.id = id)

def setKey (H : Md5Handler) (k : Md5Key) : Md5Handler :=
  { H with validKeyChain := modifyKey (fun _ => k) k.id H.validKeyChain }

/-- The key as it is when the sequence number is looked at. -/
def keyFor (k : Md5Key) (src : Ipv4) (newPeer : Bool) : Md5Key :=
  if newPeer then k.resetSource src else k

def authenticateInbound (md5 : Md5) (H : Md5Handler) (d : Buffer)
    (src : Ipv4) (newPeer : Bool) : Md5Handler × Read AuthError Entries :=
  if H.validKeyChain.isEmpty then (H, nullInbound d)
  else
    match md5Entry d with
    | .error stop => (H, .error stop)
    | .ok m =>
        match H.findKey m.keyId with
        | none => (H, .error (.invalid (.noKey m.keyId)))
        | some k =>
            let k := keyFor k src newPeer
            match k.verify md5 d src newPeer m with
            | .error stop => (H.setKey k, .error stop)
            | .ok () => (H.setKey (k.setLastSeqnoRecv src m.seqno), .ok m.entries)

section
variable (H : Md5Handler)

def removeKey (id : Nat) : Md5Handler :=
  if (H.findKey id).isSome then
    { H with validKeyChain := H.validKeyChain.eraseP (·.id = id) }
  else { H with invalidKeyChain := H.invalidKeyChain.eraseP (·.id = id) }

/-- The last key, which was used although it had expired, is not used any more. -/
def retireLast : Md5Handler :=
  match H.validKeyChain with
  | [k] =>
      if k.isPersistent then
        ⟨[], H.invalidKeyChain ++ [{ k with isPersistent := false }]⟩
      else H
  | _ => H

def addKey (now id : Nat) (key : List UInt8) (startTime endTime : Nat) :
    Option Md5Handler :=
  if startTime > endTime then none
  else if endTime < now then none
  else
    let H := H.retireLast.removeKey id
    let k := Md5Key.create id key startTime endTime
    if startTime > now then some { H with invalidKeyChain := H.invalidKeyChain ++ [k] }
    else some { H with validKeyChain := H.validKeyChain ++ [k] }

/-- `key_start_cb`. -/
def keyStart (id : Nat) : Md5Handler :=
  match H.invalidKeyChain.find? (·.id = id) with
  | none => H
  | some k => ⟨H.validKeyChain ++ [k], H.invalidKeyChain.eraseP (·.id = id)⟩

/-- `key_stop_cb`.  The last key is kept. -/
def keyStop (id : Nat) : Md5Handler :=
  match H.findKey id with
  | none => H
  | some k =>
      if H.validKeyChain.length = 1 then H.setKey { k with isPersistent := true }
      else ⟨H.validKeyChain.eraseP (·.id = id), H.invalidKeyChain ++ [k]⟩

def reset : Md5Handler :=
  { H with validKeyChain := H.validKeyChain.map Md5Key.reset }

end

end Md5Handler

/-- `AuthHandlerBase`. -/
inductive AuthHandler
  | none
  | simple (key : List UInt8)
  | md5 (H : Md5Handler)

def AuthHandler.authenticateInbound (md5 : Md5) (d : Buffer) (src : Ipv4)
    (newPeer : Bool) : AuthHandler → AuthHandler × Read AuthError Entries
  | .none => (.none, nullInbound d)
  | .simple key => (.simple key, plaintextInbound key d)
  | .md5 H =>
      let (H, x) := H.authenticateInbound md5 d src newPeer
      (.md5 H, x)

end Xorp.Rip

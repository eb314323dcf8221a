/-
The table of rendezvous points.

The RPs of `pim/pim_rp.cc` are learned from the configuration and from Bootstrap messages.  `rpFind`
goes through the table and keeps the better of two RPs each time.  The comparison uses a hash of the
group address and of the RP address; the hash mask length of an RP is an octet that comes from the
message as it is, and the words of an address are read in the byte order of the host.
-/
import Xorp.Net.IPNet
import Xorp.Lib.Select

namespace Xorp.Pim

/-- The address family of a PIM node. -/
inductive Family
  | inet
  | inet6
deriving DecidableEq

namespace Family

/-- `addr_bytelen() / sizeof(uint32_t)`. -/
def words : Family → Nat
  | inet => 1
  | inet6 => 4

def bits (f : Family) : Nat := 32 * f.words

/-- `PIM_BOOTSTRAP_HASH_MASK_LEN_DEFAULT`. -/
def hashMaskLenDefault : Family → Fin 256
  | inet => 30
  | inet6 => 126

end Family

/-- An address of the family. -/
abbrev Addr (f : Family) := BitVec f.bits

def isUnicast : (f : Family) → Addr f → Bool
  | .inet, a => a.extractLsb' 28 4 ≠ 0xe#4 ∧ a.extractLsb' 28 4 ≠ 0xf#4 ∧ a ≠ 0
  | .inet6, a => a.extractLsb' 120 8 ≠ 0xff#8 ∧ a ≠ 0

/-- `IPvXNet::ip_multicast_base_prefix`. -/
def multicastBase : (f : Family) → IPNet f.bits
  | .inet => IPNet.ofAddr 0xe0000000#32 4 (by decide)
  | .inet6 => IPNet.ofAddr (0xff#128 <<< 120) 8 (by decide)

/-- `PimRp::rp_learned_method_t`. -/
inductive Method
  | autorp
  | bootstrap
  | static
  | unknown
deriving DecidableEq

/-- `PimRp`: what is compared. -/
structure PimRp (f : Family) where
  rpAddr : Addr f
  rpPriority : Fin 256
  groupPrefix : IPNet f.bits
  hashMaskLen : Fin 256
  method : Method
deriving DecidableEq

/-- Why a lookup does not return: `InvalidNetmaskLength`, or `XLOG_UNREACHABLE`. -/
inductive Stop
  | invalidNetmaskLength (len : Nat)
  | unreachable
deriving DecidableEq

/-- The byte order of the host. -/
inductive Host
  | little
  | big
deriving DecidableEq

def byteSwap (x : BitVec 32) : BitVec 32 :=
  x.extractLsb' 0 8 ++ x.extractLsb' 8 8 ++ x.extractLsb' 16 8 ++ x.extractLsb' 24 8

/-- Four octets in network order, read as a `uint32_t`. -/
def Host.load : Host → BitVec 32 → BitVec 32
  | little, x => byteSwap x
  | big, x => x

variable {f : Family}

/-- The `i`-th group of four octets of an address. -/
def word (a : Addr f) (i : Nat) : BitVec 32 := a.extractLsb' (32 * (f.words - 1 - i)) 32

def derivedAddr (host : Host) (a : Addr f) : BitVec 32 :=
  (List.range f.words).foldl (fun result i => result ^^^ host.load (word a i)) 0

def seed1 : BitVec 32 := 1103515245#32

def seed2 : BitVec 32 := 12345#32

def rpHashValueDerived (group rp : BitVec 32) : BitVec 32 :=
  (seed1 * ((seed1 * group + seed2) ^^^ rp) + seed2) % 0x80000000#32

/-- `IPvXNet(group_addr, hash_mask_len).masked_addr()`. -/
def groupMaskedAddr (g : Addr f) (len : Nat) : Except Stop (Addr f) :=
  if f.bits < len then .error (.invalidNetmaskLength len) else .ok (maskByPrefixLen g len)

/-- The end of `compare_rp`: the hash values, and then the addresses. -/
def compareHash (rp1 rp2 : PimRp f) (hash1 hash2 : BitVec 32) : PimRp f :=
  if hash2 < hash1 then rp1
  else if hash1 < hash2 then rp2
  else if rp2.rpAddr < rp1.rpAddr then rp1
  else if rp1.rpAddr < rp2.rpAddr then rp2
  else rp1

def compareRp (host : Host) (g : Addr f) (rp1 rp2 : PimRp f) : Except Stop (PimRp f) :=
  if rp2.groupPrefix.prefixLen < rp1.groupPrefix.prefixLen then .ok rp1
  else if rp1.groupPrefix.prefixLen < rp2.groupPrefix.prefixLen then .ok rp2
  else if rp1.method = .unknown ∨ rp2.method = .unknown then .error .unreachable
  else if rp1.rpPriority < rp2.rpPriority then .ok rp1
  else if rp2.rpPriority < rp1.rpPriority then .ok rp2
  else do
    let masked1 ← groupMaskedAddr g rp1.hashMaskLen
    let masked2 ← groupMaskedAddr g rp2.hashMaskLen
    .ok (compareHash rp1 rp2
      (rpHashValueDerived (derivedAddr host masked1) (derivedAddr host rp1.rpAddr))
      (rpHashValueDerived (derivedAddr host masked2) (derivedAddr host rp2.rpAddr)))

/-- One round of the loop of `rp_find`. -/
def findNext (host : Host) (g : Addr f) (best : Option (PimRp f)) (rp : PimRp f) :
    Except Stop (Option (PimRp f)) :=
  if !rp.groupPrefix.containsAddr g then .ok best
  else if rp.method = .unknown then .ok best
  else
    match best with
    | none => .ok (some rp)
    | some best => do
        let rp ← compareRp host g best rp
        .ok (some rp)

def rpFind (host : Host) (g : Addr f) (T : List (PimRp f)) : Except Stop (Option (PimRp f)) :=
  T.foldlM (findNext host g) none

/-! ### Changes of the table -/

/-- `add_rp`; nothing if the RP is refused. -/
def addRp (rp : PimRp f) : List (PimRp f) → Option (List (PimRp f))
  | [] => some [rp]
  | old :: T =>
      if old.rpAddr ≠ rp.rpAddr then (addRp rp T).map (old :: ·)
      else if old.groupPrefix ≠ rp.groupPrefix then (addRp rp T).map (old :: ·)
      else if old.method ≠ rp.method then none
      else if old.rpPriority = rp.rpPriority ∧ old.hashMaskLen = rp.hashMaskLen then some (old :: T)
      else some ({ old with rpPriority := rp.rpPriority, hashMaskLen := rp.hashMaskLen } :: T)

/-- `delete_rp`; nothing if there is no such RP. -/
def deleteRp (addr : Addr f) (net : IPNet f.bits) (method : Method) :
    List (PimRp f) → Option (List (PimRp f))
  | [] => none
  | old :: T =>
      if old.rpAddr ≠ addr then (deleteRp addr net method T).map (old :: ·)
      else if old.groupPrefix ≠ net then (deleteRp addr net method T).map (old :: ·)
      else if old.method ≠ method then (deleteRp addr net method T).map (old :: ·)
      else some T

/-- Deleting one RP after the other. -/
def deleteList (method : Method) (doomed T : List (PimRp f)) : List (PimRp f) :=
  doomed.foldl (fun T rp => (deleteRp rp.rpAddr rp.groupPrefix method T).getD T) T

def deleteAllGroupPrefixesRp (addr : Addr f) (method : Method) (T : List (PimRp f)) :
    List (PimRp f) :=
  deleteList method (T.filter fun rp => rp.rpAddr = addr ∧ rp.method = method) T

def deleteAllRps (method : Method) (T : List (PimRp f)) : List (PimRp f) :=
  deleteList method (T.filter fun rp => rp.method = method) T

/-- `add_config_static_rp`; nothing if the RP is refused. -/
def addConfigStaticRp (net : IPNet f.bits) (addr : Addr f) (priority hashMaskLen : Fin 256)
    (T : List (PimRp f)) : Option (List (PimRp f)) :=
  if !(multicastBase f).contains net then none
  else if !isUnicast f addr then none
  else
    let len := if hashMaskLen = 0 then f.hashMaskLenDefault else hashMaskLen
    addRp { rpAddr := addr, rpPriority := priority, groupPrefix := net, hashMaskLen := len,
            method := .static } T

/-- What changes the table: the configuration, RPs of Bootstrap messages that are added or whose
holdtime is over, and the end of the node. -/
inductive Op (f : Family)
  | addStatic (net : IPNet f.bits) (addr : Addr f) (priority hashMaskLen : Fin 256)
  | deleteStatic (addr : Addr f) (net : IPNet f.bits)
  | deleteStaticAddr (addr : Addr f)
  | deleteStaticAll
  | addBootstrap (addr : Addr f) (priority : Fin 256) (net : IPNet f.bits) (hashMaskLen : Fin 256)
  | deleteBootstrap (addr : Addr f) (net : IPNet f.bits)
  | stop

def step (T : List (PimRp f)) : Op f → List (PimRp f)
  | .addStatic net addr priority hashMaskLen =>
      (addConfigStaticRp net addr priority hashMaskLen T).getD T
  | .deleteStatic addr net => (deleteRp addr net .static T).getD T
  | .deleteStaticAddr addr => deleteAllGroupPrefixesRp addr .static T
  | .deleteStaticAll => deleteAllRps .static T
  | .addBootstrap addr priority net hashMaskLen =>
      (addRp { rpAddr := addr, rpPriority := priority, groupPrefix := net, hashMaskLen,
               method := .bootstrap } T).getD T
  | .deleteBootstrap addr net => (deleteRp addr net .bootstrap T).getD T
  | .stop => []

/-- The tables that are built. -/
inductive Reach : List (PimRp f) → Prop
  | empty : Reach []
  | step {T : List (PimRp f)} (hT : Reach T) (op : Op f) : Reach (step T op)

end Xorp.Pim

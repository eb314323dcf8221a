/-
A virtual router.

`Vrrp` is the state machine of one virtual router on one vif.  It puts its addresses and its MAC on
the vif when it becomes the master and takes them off when it stops being one, and it goes through
the set of configured addresses both times.  The configuration can edit that set at any time.
-/
import Xorp.Lib.Outcome
import Xorp.Lib.OrderedSet

namespace Xorp

open Linked

namespace Vrrp

/-- An IPv4 address. -/
abbrev IPv4 := BitVec 32

/-- The texts of `VrrpException`. -/
inductive Why
  | vridOutOfRange (vrid : Nat)
  | priorityOutOfRange (priority : Nat)
  | notRunning
  | authMethod
  | badIps
  | badInterval
deriving DecidableEq

/-- Why a call does not return: `VrrpException`, or a failed assertion. -/
inductive Stop
  | exception (why : Why)
  | assertion
deriving DecidableEq

/-- `XLOG_ASSERT`. -/
def verify (ok : Prop) [Decidable ok] : Except Stop Unit := if ok then .ok () else .error .assertion

/-! ### The vif -/

/-- `VrrpVif`, with what the virtual router has put on it. -/
structure Vif where
  /-- `_ifname == _vifname`. -/
  sameName : Bool
  ready : Bool
  /-- The addresses of the vif, the lowest first. -/
  ips : List IPv4
  join : Nat
  /-- The virtual addresses, with their prefix lengths. -/
  added : IPv4 → Option Nat
  /-- Is the virtual MAC there? -/
  mac : Bool

namespace Vif

variable (vif : Vif)

def addr : Except Stop IPv4 :=
  match vif.ips with
  | [] => .error .assertion
  | ip :: _ => .ok ip

def addMac : Except Stop Vif := do
  verify (vif.sameName = true)
  .ok { vif with mac := true }

def deleteMac : Except Stop Vif := do
  verify (vif.sameName = true)
  .ok { vif with mac := false }

def addIp (ip : IPv4) (len : Nat) : Except Stop Vif := do
  verify (vif.sameName = true)
  .ok { vif with added := fun a => if a = ip then some len else vif.added a }

def deleteIp (ip : IPv4) : Except Stop Vif := do
  verify (vif.sameName = true)
  .ok { vif with added := fun a => if a = ip then none else vif.added a }

def joinMcast : Vif := { vif with join := vif.join + 1 }

def leaveMcast : Except Stop Vif := do
  verify (vif.join ≠ 0)
  .ok { vif with join := vif.join - 1 }

end Vif

/-! ### The virtual router -/

/-- `Vrrp::State`; `INITIALIZE` is `initial`. -/
inductive State
  | initial
  | master
  | backup
deriving DecidableEq

/-- What is sent: advertisements and gratuitous ARPs. -/
inductive Frame
  | advertisement (source : IPv4) (vrid priority interval : Nat) (ips : List IPv4)
  | arp (ip : IPv4)

end Vrrp

open Vrrp in
/-- `Vrrp`.  A timer that is scheduled has the milliseconds that it was scheduled for; the skew time
and the master down interval are counted in 256ths of a second. -/
structure Vrrp where
  vif : Vif
  vrid : Nat
  priority : Nat
  interval : Nat
  skewTime : Nat
  masterDownInterval : Nat
  preempt : Bool
  state : State
  disable : Bool
  ips : List IPv4
  prefixes : IPv4 → Option Nat
  lastAdv : Option IPv4
  masterDownTimer : Option Nat
  adverTimer : Option Nat
  sent : List Frame

namespace Vrrp

def priorityLeave : Nat := 0

def priorityOwn : Nat := 255

variable (v : Vrrp)

def running : Bool := v.state ≠ .initial

def cancelTimers : Vrrp := { v with masterDownTimer := none, adverTimer := none }

/-- The end of `setup_timers`. -/
def schedule (skew : Bool) : Except Stop Vrrp :=
  match v.state with
  | .initial => .error .assertion
  | .master => .ok { v with adverTimer := some (v.interval * 1000) }
  | .backup =>
      let wait := if skew then v.skewTime else v.masterDownInterval
      .ok { v with masterDownTimer := some (wait * 1000 / 256) }

def setupTimers (skew : Bool) : Except Stop Vrrp :=
  if v.running then v.cancelTimers.schedule skew else .ok v

/-- The master down interval is computed with the skew time from before. -/
def setupIntervals : Except Stop Vrrp :=
  if v.skewTime ≠ 256 - v.priority ∨ v.masterDownInterval ≠ 3 * v.interval * 256 + v.skewTime then
    setupTimers { v with skewTime := 256 - v.priority,
                         masterDownInterval := 3 * v.interval * 256 + v.skewTime } false
  else .ok v

/-- `send_advertisement`.  The packet has room for 255 addresses. -/
def sendAdvertisement (priority : Nat) : Except Stop Vrrp := do
  verify (priority ≤ priorityOwn)
  verify (v.state = .master)
  let source ← v.vif.addr
  verify (v.ips.length ≤ 255)
  verify (v.vif.ready = true)
  .ok { v with sent := v.sent ++ [.advertisement source v.vrid priority v.interval v.ips] }

def sendArps : Except Stop Vrrp := do
  verify (v.state = .master)
  verify (v.ips = [] ∨ v.vif.ready = true)
  .ok { v with sent := v.sent ++ v.ips.map .arp }

/-- The prefix length of an address: 24 if none or zero was configured, and 32 at most. -/
def prefixLength (ip : IPv4) : Nat :=
  match v.prefixes ip with
  | none => 24
  | some 0 => 24
  | some len => if 32 < len then 32 else len

/-- `_vif.add_ip` for every configured address. -/
def installIps : Except Stop Vrrp := do
  let vif ← v.ips.foldlM (fun vif ip => vif.addIp ip (v.prefixLength ip)) v.vif
  .ok { v with vif }

/-- `_vif.delete_ip` for every configured address. -/
def removeIps : Except Stop Vrrp := do
  let vif ← v.ips.foldlM (fun vif ip => vif.deleteIp ip) v.vif
  .ok { v with vif }

/-- What a master takes off the vif. -/
def withdraw : Except Stop Vrrp := do
  let vif ← v.vif.deleteMac
  removeIps { v with vif }

def becomeMaster : Except Stop Vrrp := do
  let vif ← v.vif.addMac
  let v ← installIps { v with state := .master, vif }
  let v ← v.sendAdvertisement v.priority
  let v ← v.sendArps
  v.setupTimers false

def becomeBackup : Except Stop Vrrp := do
  let v ← bif v.state = .master then v.withdraw else .ok v
  setupTimers { v with state := .backup } false

def start : Except Stop Vrrp :=
  if v.running then .ok v
  else if !v.vif.ready then .ok v
  else if v.priority = priorityOwn then becomeMaster { v with vif := v.vif.joinMcast }
  else becomeBackup { v with vif := v.vif.joinMcast }

/-- The farewell of a master. -/
def leave : Except Stop Vrrp := do
  let v ← v.sendAdvertisement priorityLeave
  v.withdraw

def stop : Except Stop Vrrp :=
  if v.running then do
    let vif ← v.vif.leaveMcast
    let v := cancelTimers { v with vif }
    let v ← bif v.state = .master then v.leave else .ok v
    .ok { v with state := .initial }
  else .ok v

/-! ### Configuration -/

/-- `Vrrp(vif, e, vrid)`. -/
def create (vif : Vif) (vrid : Nat) : Except Stop Vrrp :=
  if vrid < 1 ∨ 255 < vrid then .error (.exception (.vridOutOfRange vrid))
  else setupIntervals {
    vif, vrid, priority := 100, interval := 1, skewTime := 0, masterDownInterval := 0,
    preempt := true, state := .initial, disable := true, ips := [], prefixes := fun _ => none,
    lastAdv := none, masterDownTimer := none, adverTimer := none, sent := [] }

def setPriority (priority : Nat) : Except Stop Vrrp :=
  if priority = priorityLeave ∨ priorityOwn ≤ priority then
    .error (.exception (.priorityOutOfRange priority))
  else setupIntervals { v with priority }

def setInterval (interval : Nat) : Except Stop Vrrp :=
  setupIntervals { v with
    interval := if interval = 0 then 1 else if 255 < interval then 255 else interval }

def setPreempt (preempt : Bool) : Vrrp := { v with preempt }

def setDisable (disable : Bool) : Except Stop Vrrp :=
  if disable then stop { v with disable } else start { v with disable }

def addIp (ip : IPv4) : Vrrp :=
  { v with ips := OrderedSet.insert BitVec.toNat ip v.ips }

def setPrefix (ip : IPv4) (len : Nat) : Vrrp :=
  let v := { v with prefixes := fun a => if a = ip then some len else v.prefixes a }
  if ip ∈ v.ips then v else v.addIp ip

def deleteIp (ip : IPv4) : Vrrp := { v with ips := OrderedSet.erase ip v.ips }

/-! ### Events -/

def masterDownExpiry : Except Stop Vrrp := do
  verify (v.state = .backup)
  v.becomeMaster

def adverExpiry : Except Stop Vrrp := do
  verify (v.state = .master)
  let v ← v.sendAdvertisement v.priority
  v.setupTimers false

def recvAdverBackup (pri : Nat) : Except Stop Vrrp :=
  if pri = priorityLeave then v.setupTimers true
  else if !v.preempt ∨ v.priority ≤ pri then v.setupTimers false
  else .ok v

def recvAdverMaster (source : IPv4) (pri : Nat) : Except Stop Vrrp :=
  if pri = priorityLeave then do
    let v ← v.sendAdvertisement v.priority
    v.setupTimers false
  else if v.priority < pri then v.becomeBackup
  else if pri = v.priority then do
    let own ← v.vif.addr
    bif own < source then v.becomeBackup else .ok v
  else .ok v

def recvAdvertisement (source : IPv4) (pri : Nat) : Except Stop Vrrp := do
  verify (pri ≤ priorityOwn)
  match v.state with
  | .initial => .error .assertion
  | .backup => recvAdverBackup { v with lastAdv := some source } pri
  | .master => v.recvAdverMaster source pri

/-- The fields of `VrrpHeader` that are looked at. -/
structure Header where
  vrid : Nat
  priority : Nat
  auth : Nat
  interval : Nat
  ips : List IPv4

def checkIps (vh : Header) : Bool :=
  vh.ips.length = v.ips.length ∧ ∀ ip ∈ vh.ips, ip ∈ v.ips

def recv (source : IPv4) (vh : Header) : Except Stop Vrrp :=
  if !v.running then .error (.exception .notRunning)
  else if vh.auth ≠ 0 then .error (.exception .authMethod)
  else if !v.checkIps vh ∧ vh.priority ≠ priorityOwn then .error (.exception .badIps)
  else if vh.interval ≠ v.interval then .error (.exception .badInterval)
  else v.recvAdvertisement source vh.priority

/-- `VrrpVif::set_ready`.  The vif is still ready while its virtual router stops. -/
def setReady (ready : Bool) : Except Stop Vrrp := do
  let v ← bif ready then start { v with vif := { v.vif with ready := true } } else v.stop
  .ok { v with vif := { v.vif with ready } }

/-- `VrrpVif::configure`: the interface and the vif are enabled or not, and the addresses of the vif
that are enabled. -/
def configure (enabled : Bool) (ips : List IPv4) : Except Stop Vrrp :=
  if !enabled then v.setReady false
  else setReady { v with vif := { v.vif with ips } } (!ips.isEmpty)

end Vrrp

end Xorp

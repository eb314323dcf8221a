/-
A virtual router owns its addresses only as the master.

What the vif has of the virtual router is a function of the state and of the configured addresses,
and so are the timers.  `Owns` says which.  Every transition goes through the configured addresses
from one end to the other, so it keeps `Owns`, and every other call leaves the vif alone.  What
breaks it are edits of the configured addresses while the virtual router is the master: they are not
passed on to the vif, and an address that is deleted is not among those that are taken off later.
-/
import Xorp.Vrrp.Vrrp

namespace Xorp.Vrrp

open Linked OrderedSet

variable {v v' : Vrrp} {vif : Vif} {l : List IPv4}

/-- The advertisement timer runs in a master, the master down timer in a backup. -/
structure Timed (v : Vrrp) : Prop where
  adver : v.adverTimer.isSome = true ↔ v.state = .master
  masterDown : v.masterDownTimer.isSome = true ↔ v.state = .backup

/-- The configured addresses and the MAC are on the vif of a master, and nothing is on the vif
otherwise; the timer of the state is scheduled, and no other. -/
structure Owns (v : Vrrp) : Prop where
  addresses : ∀ ip, (v.vif.added ip).isSome = true ↔ v.state = .master ∧ ip ∈ v.ips
  mac : v.vif.mac = true ↔ v.state = .master
  timed : Timed v

/-- What is on the vif, the state and the configured addresses are the same. -/
structure Same (v v' : Vrrp) : Prop where
  state : v'.state = v.state
  ips : v'.ips = v.ips
  added : v'.vif.added = v.vif.added
  mac : v'.vif.mac = v.vif.mac

theorem Same.trans {v'' : Vrrp} (h : Same v v') (h' : Same v' v'') : Same v v'' :=
  ⟨h'.state.trans h.state, h'.ips.trans h.ips, h'.added.trans h.added, h'.mac.trans h.mac⟩

theorem Owns.same (h : Owns v) (hs : Same v v') (ht : Timed v') : Owns v' := by
  refine ⟨fun ip => ?_, ?_, ht⟩
  · rw [hs.added, hs.state, hs.ips]
    exact h.addresses ip
  · rw [hs.mac, hs.state]
    exact h.mac

/-- The timers that a call did not touch. -/
theorem Timed.same (h : Timed v) (hs : v'.state = v.state) (ha : v'.adverTimer = v.adverTimer)
    (hm : v'.masterDownTimer = v.masterDownTimer) : Timed v' := by
  constructor
  · rw [ha, hs]
    exact h.adver
  · rw [hm, hs]
    exact h.masterDown

theorem Owns.kept (h : Owns v) (hs : Same v v') (ha : v'.adverTimer = v.adverTimer)
    (hm : v'.masterDownTimer = v.masterDownTimer) : Owns v' :=
  h.same hs (h.timed.same hs.state ha hm)

/-! ### Timers and packets -/

variable {skew : Bool} {ip source : IPv4} {pri priority : Nat}

theorem setupTimers_eq (h : v.setupTimers skew = .ok v') :
    Same v v' ∧ (v.state ≠ .initial → Timed v') ∧ (v.state = .initial → v' = v) := by
  unfold setupTimers running at h
  split_ifs at h with hrun
  · have hne : v.state ≠ .initial := by simpa using hrun
    unfold schedule cancelTimers at h
    dsimp only at h
    split at h
    · cases h
    all_goals
      rename_i hstate
      cases h
      exact ⟨⟨rfl, rfl, rfl, rfl⟩, fun _ => by constructor <;> simp [hstate],
        fun hi => absurd hi hne⟩
  · have hi : v.state = .initial := by simpa using hrun
    cases h
    exact ⟨⟨rfl, rfl, rfl, rfl⟩, fun hne => absurd hi hne, fun _ => rfl⟩

/-- Setting up the timers again, in any state. -/
theorem Owns.setupTimers (hv : Owns v) (h : v.setupTimers skew = .ok v') : Owns v' := by
  obtain ⟨hs, hrun, hinit⟩ := setupTimers_eq h
  by_cases hi : v.state = .initial
  · rw [hinit hi]
    exact hv
  · exact hv.same hs (hrun hi)

theorem Owns.setupIntervals (hv : Owns v) (h : v.setupIntervals = .ok v') : Owns v' := by
  unfold Vrrp.setupIntervals at h
  split_ifs at h
  · refine Owns.setupTimers ?_ h
    exact hv.kept ⟨rfl, rfl, rfl, rfl⟩ rfl rfl
  · cases h
    exact hv

theorem sendAdvertisement_eq (h : v.sendAdvertisement priority = .ok v') :
    ∃ sent, v' = { v with sent } := by
  obtain ⟨_, -, h⟩ := bind_eq_ok.mp h
  obtain ⟨_, -, h⟩ := bind_eq_ok.mp h
  obtain ⟨source, -, h⟩ := bind_eq_ok.mp h
  obtain ⟨_, -, h⟩ := bind_eq_ok.mp h
  obtain ⟨_, -, h⟩ := bind_eq_ok.mp h
  cases h
  exact ⟨_, rfl⟩

theorem sendArps_eq (h : v.sendArps = .ok v') : ∃ sent, v' = { v with sent } := by
  obtain ⟨_, -, h⟩ := bind_eq_ok.mp h
  obtain ⟨_, -, h⟩ := bind_eq_ok.mp h
  cases h
  exact ⟨_, rfl⟩

/-! ### What is put on the vif and taken off it -/

/-- A loop of `addIp` or of `deleteIp`: each sets one entry. -/
theorem setIps_eq (val : IPv4 → Option Nat)
    (h : l.foldlM (fun vif ip => do
      verify (vif.sameName = true)
      .ok { vif with added := fun a => if a = ip then val ip else vif.added a }) vif = .ok vif') :
    vif'.mac = vif.mac ∧ ∀ ip, vif'.added ip = if ip ∈ l then val ip else vif.added ip := by
  induction l generalizing vif with
  | nil =>
    cases h
    exact ⟨rfl, fun ip => by simp⟩
  | cons a l ih =>
    obtain ⟨vif₁, h₁, h⟩ := bind_eq_ok.mp h
    obtain ⟨_, -, h₁⟩ := bind_eq_ok.mp h₁
    cases h₁
    obtain ⟨hmac, hadded⟩ := ih h
    refine ⟨hmac, fun ip => ?_⟩
    rw [hadded ip]
    by_cases hip : ip = a
    · simp [hip]
    · simp [hip]

/-- Nothing of the virtual router is on the vif. -/
structure Clear (vif : Vif) : Prop where
  added : ∀ ip, (vif.added ip).isSome = false
  mac : vif.mac = false

theorem Owns.clear (hv : Owns v) (hstate : v.state ≠ .master) : Clear v.vif := by
  constructor
  · intro ip
    rw [Bool.eq_false_iff]
    exact fun h => hstate ((hv.addresses ip).mp h).1
  · rw [Bool.eq_false_iff]
    exact fun h => hstate (hv.mac.mp h)

/-- A vif with nothing on it, and the timers of a state that is not that of a master. -/
theorem Owns.of_clear (hvif : Clear v.vif) (hstate : v.state ≠ .master) (ht : Timed v) :
    Owns v := by
  constructor
  · intro ip
    rw [hvif.added ip]
    exact iff_of_false Bool.false_ne_true fun h => hstate h.1
  · rw [hvif.mac]
    exact iff_of_false Bool.false_ne_true hstate
  · exact ht

/-- Everything that is on the vif is taken off it, when it is among the configured addresses. -/
theorem withdraw_eq (hips : ∀ ip, (v.vif.added ip).isSome = true → ip ∈ v.ips)
    (h : v.withdraw = .ok v') : Clear v'.vif ∧ v'.adverTimer = v.adverTimer ∧
      v'.masterDownTimer = v.masterDownTimer := by
  obtain ⟨vif, hmac, h⟩ := bind_eq_ok.mp h
  obtain ⟨_, -, hmac⟩ := bind_eq_ok.mp hmac
  cases hmac
  obtain ⟨vif', hdel, h⟩ := bind_eq_ok.mp h
  cases h
  obtain ⟨hmac, hadded⟩ := setIps_eq (fun _ => none) hdel
  refine ⟨⟨fun ip => ?_, hmac⟩, rfl, rfl⟩
  rw [hadded ip]
  by_cases hip : ip ∈ v.ips
  · rw [if_pos hip, Option.isSome_none]
  · rw [if_neg hip, Bool.eq_false_iff]
    exact fun hold => hip (hips ip hold)

/-! ### Transitions -/

theorem becomeMaster_owns (hvif : Clear v.vif) (h : v.becomeMaster = .ok v') : Owns v' := by
  obtain ⟨vif, hmac, h⟩ := bind_eq_ok.mp h
  obtain ⟨_, -, hmac⟩ := bind_eq_ok.mp hmac
  cases hmac
  obtain ⟨v₁, hinstall, h⟩ := bind_eq_ok.mp h
  obtain ⟨vif', hadd, hinstall⟩ := bind_eq_ok.mp hinstall
  cases hinstall
  obtain ⟨hmac, hadded⟩ := setIps_eq (fun ip => some (v.prefixLength ip)) hadd
  obtain ⟨v₂, hsend, h⟩ := bind_eq_ok.mp h
  obtain ⟨sent, rfl⟩ := sendAdvertisement_eq hsend
  obtain ⟨v₃, harps, h⟩ := bind_eq_ok.mp h
  obtain ⟨sent', rfl⟩ := sendArps_eq harps
  obtain ⟨hs, hrun, -⟩ := setupTimers_eq h
  have ht := hrun (by simp)
  refine ⟨fun ip => ?_, ?_, ht⟩
  · rw [hs.added, hs.state, hs.ips]
    rw [hadded ip]
    by_cases hip : ip ∈ v.ips <;> simp [hip, hvif.added ip]
  · rw [hs.mac, hs.state]
    exact iff_of_true hmac rfl

/-- A backup has nothing on the vif, whatever it was before. -/
theorem becomeBackup_owns (hv : Owns v) (h : v.becomeBackup = .ok v') : Owns v' := by
  obtain ⟨v₁, hwithdraw, h⟩ := bind_eq_ok.mp h
  have hclear : Clear v₁.vif := by
    by_cases hstate : v.state = .master
    · rw [hstate] at hwithdraw
      exact (withdraw_eq (fun ip hip => ((hv.addresses ip).mp hip).2) hwithdraw).1
    · have hne : decide (v.state = .master) = false := decide_eq_false hstate
      rw [hne] at hwithdraw
      cases hwithdraw
      exact hv.clear hstate
  obtain ⟨hs, hrun, -⟩ := setupTimers_eq h
  have ht := hrun (by simp)
  have hstate : v'.state = .backup := hs.state
  refine Owns.of_clear ⟨fun ip => ?_, ?_⟩ (by rw [hstate]; simp) ht
  · rw [hs.added]
    exact hclear.added ip
  · rw [hs.mac]
    exact hclear.mac

theorem start_owns (hv : Owns v) (h : v.start = .ok v') : Owns v' := by
  unfold start at h
  split_ifs at h with hrun hready hown
  · cases h
    exact hv
  · cases h
    exact hv
  all_goals
    have hinit : v.state = .initial := by simpa [running] using hrun
  · refine becomeMaster_owns ?_ h
    have hclear := hv.clear (by rw [hinit]; simp)
    exact ⟨hclear.added, hclear.mac⟩
  · refine becomeBackup_owns ?_ h
    exact hv.kept ⟨rfl, rfl, rfl, rfl⟩ rfl rfl

theorem stop_owns (hv : Owns v) (h : v.stop = .ok v') : Owns v' := by
  unfold stop at h
  split_ifs at h with hrun
  · obtain ⟨vif, hleave, h⟩ := bind_eq_ok.mp h
    obtain ⟨_, -, hleave⟩ := bind_eq_ok.mp hleave
    cases hleave
    obtain ⟨v₁, hfarewell, h⟩ := bind_eq_ok.mp h
    cases h
    set u := cancelTimers { v with vif := { v.vif with join := v.vif.join - 1 } }
    have hafter : Clear v₁.vif ∧ v₁.adverTimer = none ∧ v₁.masterDownTimer = none := by
      by_cases hstate : v.state = .master
      · have hyes : decide (u.state = .master) = true := decide_eq_true hstate
        rw [hyes] at hfarewell
        obtain ⟨v₂, hsend, hwithdraw⟩ := bind_eq_ok.mp hfarewell
        obtain ⟨sent, rfl⟩ := sendAdvertisement_eq hsend
        refine withdraw_eq ?_ hwithdraw
        exact fun ip hip => ((hv.addresses ip).mp hip).2
      · have hno : decide (u.state = .master) = false := decide_eq_false hstate
        rw [hno] at hfarewell
        obtain rfl := Except.ok.inj hfarewell
        exact ⟨⟨(hv.clear hstate).added, (hv.clear hstate).mac⟩, rfl, rfl⟩
    obtain ⟨hclear, hadver, hdown⟩ := hafter
    refine Owns.of_clear hclear (by simp) ?_
    constructor
    · simp [hadver]
    · simp [hdown]
  · cases h
    exact hv

theorem create_owns {vrid : Nat} (hvif : Clear vif) (h : create vif vrid = .ok v) : Owns v := by
  unfold create at h
  split_ifs at h
  refine Owns.setupIntervals (Owns.of_clear hvif (by simp) ?_) h
  constructor <;> simp

/-! ### Events -/

theorem masterDownExpiry_owns (hvif : Clear v.vif) (h : v.masterDownExpiry = .ok v') : Owns v' := by
  obtain ⟨_, -, h⟩ := bind_eq_ok.mp h
  exact becomeMaster_owns hvif h

section
variable (hv : Owns v)
include hv

/-- Advertising once more, and waiting for the next time. -/
theorem advertise_owns {w : Vrrp} (hw : Same v w) (hstate : v.state = .master)
    (h : (do let w ← w.sendAdvertisement w.priority
             w.setupTimers false) = .ok v') : Owns v' := by
  obtain ⟨w', hsend, h⟩ := bind_eq_ok.mp h
  obtain ⟨sent, rfl⟩ := sendAdvertisement_eq hsend
  obtain ⟨hs, hrun, -⟩ := setupTimers_eq h
  have hne : w.state ≠ .initial := by rw [hw.state, hstate]; simp
  exact hv.same (hw.trans ⟨hs.state, hs.ips, hs.added, hs.mac⟩) (hrun hne)

theorem recvAdverBackup_owns (h : v.recvAdverBackup pri = .ok v') : Owns v' := by
  unfold recvAdverBackup at h
  split_ifs at h
  · exact hv.setupTimers h
  · exact hv.setupTimers h
  · cases h
    exact hv

theorem recvAdverMaster_owns (hstate : v.state = .master)
    (h : v.recvAdverMaster source pri = .ok v') : Owns v' := by
  unfold recvAdverMaster at h
  split_ifs at h
  · exact advertise_owns hv ⟨rfl, rfl, rfl, rfl⟩ hstate h
  · exact becomeBackup_owns hv h
  · obtain ⟨own, -, h⟩ := bind_eq_ok.mp h
    cases hlt : decide (own < source) with
    | true =>
      rw [hlt] at h
      exact becomeBackup_owns hv h
    | false =>
      rw [hlt] at h
      cases h
      exact hv
  · cases h
    exact hv

theorem recv_owns {vh : Header} (h : v.recv source vh = .ok v') : Owns v' := by
  unfold recv at h
  split_ifs at h
  obtain ⟨_, -, h⟩ := bind_eq_ok.mp h
  split at h
  · cases h
  · refine recvAdverBackup_owns ?_ h
    exact hv.kept ⟨rfl, rfl, rfl, rfl⟩ rfl rfl
  · rename_i hstate
    exact recvAdverMaster_owns hv hstate h

theorem setReady_owns {ready : Bool} (h : v.setReady ready = .ok v') : Owns v' := by
  obtain ⟨w, hw, h⟩ := bind_eq_ok.mp h
  cases h
  have howns : Owns w := by
    cases ready with
    | true =>
      refine start_owns ?_ hw
      exact hv.kept ⟨rfl, rfl, rfl, rfl⟩ rfl rfl
    | false => exact stop_owns hv hw
  exact howns.kept ⟨rfl, rfl, rfl, rfl⟩ rfl rfl

theorem configure_owns {enabled : Bool} {ips : List IPv4}
    (h : v.configure enabled ips = .ok v') : Owns v' := by
  unfold configure at h
  split_ifs at h
  · exact setReady_owns hv h
  · refine setReady_owns ?_ h
    exact hv.kept ⟨rfl, rfl, rfl, rfl⟩ rfl rfl

theorem setPriority_owns (h : v.setPriority priority = .ok v') : Owns v' := by
  unfold setPriority at h
  split_ifs at h
  refine Owns.setupIntervals ?_ h
  exact hv.kept ⟨rfl, rfl, rfl, rfl⟩ rfl rfl

theorem setInterval_owns {interval : Nat} (h : v.setInterval interval = .ok v') : Owns v' := by
  refine Owns.setupIntervals ?_ h
  exact hv.kept ⟨rfl, rfl, rfl, rfl⟩ rfl rfl

theorem setDisable_owns {disable : Bool} (h : v.setDisable disable = .ok v') : Owns v' := by
  have hv' : Owns { v with disable } := hv.kept ⟨rfl, rfl, rfl, rfl⟩ rfl rfl
  unfold setDisable at h
  split_ifs at h
  · exact stop_owns hv' h
  · exact start_owns hv' h

/-! ### Edits of the configured addresses -/

/-- The vif still has what is configured, when the configured addresses are others: in a master the
addresses have to be the same. -/
theorem Owns.edit_iff (ips : List IPv4) :
    Owns { v with ips } ↔ (v.state = .master → ∀ ip, ip ∈ ips ↔ ip ∈ v.ips) := by
  constructor
  · intro hw hmaster ip
    have hnew : (v.vif.added ip).isSome = true ↔ v.state = .master ∧ ip ∈ ips := hw.addresses ip
    rw [hv.addresses ip] at hnew
    simpa [hmaster] using hnew.symm
  · intro hkept
    refine ⟨fun ip => ?_, hv.mac, hv.timed.same rfl rfl rfl⟩
    rw [hv.addresses ip]
    exact and_congr_right fun hmaster => (hkept hmaster ip).symm

end

theorem insert_same_iff : (∀ a, a ∈ insert BitVec.toNat ip l ↔ a ∈ l) ↔ ip ∈ l := by
  have hmem : ∀ a, a ∈ insert BitVec.toNat ip l ↔ a = ip ∨ a ∈ l :=
    fun a => mem_insert fun _ _ h => BitVec.eq_of_toNat_eq h
  constructor
  · intro h
    exact (h ip).mp ((hmem ip).mpr (.inl rfl))
  · intro hip a
    rw [hmem]
    exact ⟨fun h => h.elim (fun h => h ▸ hip) id, .inr⟩

theorem erase_same_iff : (∀ a, a ∈ erase ip l ↔ a ∈ l) ↔ ip ∉ l := by
  constructor
  · intro h hip
    exact (mem_erase.mp ((h ip).mpr hip)).2 rfl
  · intro hip a
    rw [mem_erase]
    exact ⟨And.left, fun ha => ⟨ha, fun h => hip (h ▸ ha)⟩⟩

section
variable (hv : Owns v) (ip : IPv4)
include hv

theorem addIp_owns_iff : Owns (v.addIp ip) ↔ (v.state = .master → ip ∈ v.ips) := by
  unfold addIp
  rw [hv.edit_iff, insert_same_iff]

theorem deleteIp_owns_iff : Owns (v.deleteIp ip) ↔ (v.state = .master → ip ∉ v.ips) := by
  unfold deleteIp
  rw [hv.edit_iff, erase_same_iff]

theorem setPrefix_owns_iff (len : Nat) :
    Owns (v.setPrefix ip len) ↔ (v.state = .master → ip ∈ v.ips) := by
  have hv' : Owns { v with prefixes := fun a => if a = ip then some len else v.prefixes a } :=
    hv.kept ⟨rfl, rfl, rfl, rfl⟩ rfl rfl
  unfold setPrefix
  dsimp only
  split_ifs with hip
  · exact iff_of_true hv' fun _ => hip
  · exact addIp_owns_iff hv' ip

end

/-! ### Runs -/

/-- What can happen to a virtual router. -/
inductive Op
  | addIp (ip : IPv4)
  | setPrefix (ip : IPv4) (len : Nat)
  | deleteIp (ip : IPv4)
  | setPriority (priority : Nat)
  | setInterval (interval : Nat)
  | setPreempt (preempt : Bool)
  | setDisable (disable : Bool)
  | receive (source : IPv4) (vh : Header)
  | masterDown
  | adver
  | configure (enabled : Bool) (ips : List IPv4)

/-- The callers catch `VrrpException`, which is thrown before anything is changed. -/
def caught (v : Vrrp) : Except Stop Vrrp → Except Stop Vrrp
  | .error (.exception _) => .ok v
  | r => r

/-- One event.  A timer that expires is no longer scheduled when its callback runs, and is not put
back since the callback returns false; a packet for another virtual router goes there. -/
def step (v : Vrrp) : Op → Except Stop Vrrp
  | .addIp ip => .ok (v.addIp ip)
  | .setPrefix ip len => .ok (v.setPrefix ip len)
  | .deleteIp ip => .ok (v.deleteIp ip)
  | .setPriority priority => caught v (v.setPriority priority)
  | .setInterval interval => v.setInterval interval
  | .setPreempt preempt => .ok (v.setPreempt preempt)
  | .setDisable disable => v.setDisable disable
  | .receive source vh => if vh.vrid = v.vrid then caught v (v.recv source vh) else .ok v
  | .masterDown => masterDownExpiry { v with masterDownTimer := none }
  | .adver => adverExpiry { v with adverTimer := none }
  | .configure enabled ips => v.configure enabled ips

/-- Only a timer that is scheduled expires. -/
def Legal (v : Vrrp) : Op → Prop
  | .masterDown => v.masterDownTimer.isSome = true
  | .adver => v.adverTimer.isSome = true
  | _ => True

/-- The configured addresses of a master stay the same. -/
def KeepsAddresses (v : Vrrp) : Op → Prop
  | .addIp ip => v.state = .master → ip ∈ v.ips
  | .setPrefix ip _ => v.state = .master → ip ∈ v.ips
  | .deleteIp ip => v.state = .master → ip ∉ v.ips
  | _ => True

/-- The virtual routers that come out of `create` on a vif with nothing on it, by events that
satisfy `ok`. -/
inductive Reach (ok : Vrrp → Op → Prop) : Vrrp → Prop
  | create {vif : Vif} (vrid : Nat) {v : Vrrp} (hvif : Clear vif) (h : create vif vrid = .ok v) :
      Reach ok v
  | step {v v' : Vrrp} (hv : Reach ok v) (op : Op) (hlegal : Legal v op) (hok : ok v op)
      (h : step v op = .ok v') : Reach ok v'

theorem caught_owns (hv : Owns v) {r : Except Stop Vrrp} (hr : ∀ w, r = .ok w → Owns w)
    (h : caught v r = .ok v') : Owns v' := by
  unfold caught at h
  split at h
  · cases h
    exact hv
  · exact hr v' h

theorem adverExpiry_owns (hv : Owns v) (h : adverExpiry { v with adverTimer := none } = .ok v') :
    Owns v' := by
  obtain ⟨_, hverify, h⟩ := bind_eq_ok.mp h
  have hstate : v.state = .master := by
    unfold verify at hverify
    split_ifs at hverify with hstate
    exact hstate
  refine advertise_owns hv ?_ hstate h
  exact ⟨rfl, rfl, rfl, rfl⟩

/-- One event keeps the vif and the timers as the state says, exactly when it does not change the
configured addresses of a master. -/
theorem step_owns_iff {op : Op} (hv : Owns v) (hlegal : Legal v op) (h : step v op = .ok v') :
    Owns v' ↔ KeepsAddresses v op := by
  cases op with
  | addIp ip =>
    cases h
    exact addIp_owns_iff hv ip
  | setPrefix ip len =>
    cases h
    exact setPrefix_owns_iff hv ip len
  | deleteIp ip =>
    cases h
    exact deleteIp_owns_iff hv ip
  | setPriority priority =>
    exact iff_of_true (caught_owns hv (fun w hw => setPriority_owns hv hw) h) trivial
  | setInterval interval => exact iff_of_true (setInterval_owns hv h) trivial
  | setPreempt preempt =>
    cases h
    exact iff_of_true (hv.kept ⟨rfl, rfl, rfl, rfl⟩ rfl rfl) trivial
  | setDisable disable => exact iff_of_true (setDisable_owns hv h) trivial
  | receive source vh =>
    refine iff_of_true ?_ trivial
    simp only [step] at h
    split_ifs at h
    · exact caught_owns hv (fun w hw => recv_owns hv hw) h
    · cases h
      exact hv
  | masterDown =>
    have hstate : v.state = .backup := hv.timed.masterDown.mp hlegal
    have hclear := hv.clear (by rw [hstate]; simp)
    exact iff_of_true (masterDownExpiry_owns (by exact hclear) h) trivial
  | adver => exact iff_of_true (adverExpiry_owns hv h) trivial
  | configure enabled ips => exact iff_of_true (configure_owns hv h) trivial

theorem Reach.owns {ok : Vrrp → Op → Prop} (hok : ∀ v op, ok v op → KeepsAddresses v op)
    (h : Reach ok v) : Owns v := by
  induction h with
  | create _ hvif h => exact create_owns hvif h
  | step _ _ hlegal hop h ih => exact (step_owns_iff ih hlegal h).mpr (hok _ _ hop)

/-- In every run in which no address is added or deleted while the virtual router is the master, the
vif has exactly the configured addresses and the MAC of a master and nothing otherwise, and exactly
the timer of the state is scheduled; and the first event that edits the addresses of a master is
where this ends. -/
theorem owns_addresses_as_master {ok : Vrrp → Op → Prop}
    (hok : ∀ v op, ok v op → KeepsAddresses v op) {v : Vrrp} (hv : Reach ok v) :
    Owns v ∧ ∀ op v', Legal v op → step v op = .ok v' → (Owns v' ↔ KeepsAddresses v op) :=
  ⟨hv.owns hok, fun _ _ hlegal h => step_owns_iff (hv.owns hok) hlegal h⟩

/-- A vif with one address, ready, and with nothing of the virtual router on it. -/
def freshVif : Vif :=
  { sameName := true, ready := true, ips := [0x0a000001#32], join := 0, added := fun _ => none,
    mac := false }

theorem freshVif_clear : Clear freshVif := ⟨fun _ => rfl, rfl⟩

theorem owns_addresses_after_start : ∃ v, Reach KeepsAddresses v ∧ v.state = .master ∧
    v.ips = [0x0a000064#32] ∧ Owns v := by
  have h₀ : Reach KeepsAddresses _ := .create 1 freshVif_clear rfl
  have h₁ := h₀.step (.addIp 0x0a000064#32) trivial nofun rfl
  have h₂ := h₁.step (.setDisable false) trivial trivial rfl
  have h₃ := h₂.step .masterDown rfl trivial rfl
  exact ⟨_, h₃, rfl, rfl, (owns_addresses_as_master (fun _ _ h => h) h₃).1⟩

/-- An address that is added to a master is not put on the vif, and one that is deleted from a
master stays on the vif when the virtual router has stopped. -/
theorem addresses_edited_in_master :
    (∃ v, Reach (fun _ _ => True) v ∧ v.state = .master ∧ 0x0a000065#32 ∈ v.ips ∧
      v.vif.added 0x0a000065#32 = none) ∧
    ∃ v, Reach (fun _ _ => True) v ∧ v.state = .initial ∧ v.ips = [] ∧
      v.vif.added 0x0a000064#32 = some 24 := by
  have h₀ : Reach (fun _ _ => True) _ := .create 1 freshVif_clear rfl
  have h₁ := h₀.step (.addIp 0x0a000064#32) trivial trivial rfl
  have h₂ := h₁.step (.setDisable false) trivial trivial rfl
  have h₃ := h₂.step .masterDown rfl trivial rfl
  constructor
  · have h₄ := h₃.step (.addIp 0x0a000065#32) trivial trivial rfl
    exact ⟨_, h₄, rfl, by decide, rfl⟩
  · have h₄ := h₃.step (.deleteIp 0x0a000064#32) trivial trivial rfl
    have h₅ := h₄.step (.setDisable true) trivial trivial rfl
    exact ⟨_, h₅, rfl, rfl, rfl⟩

end Xorp.Vrrp

/-
Which UPDATE messages are decoded safely.

The lists of prefixes are read inside the lengths that were compared with the length of the message,
and so are the attributes, apart from those of `ValueInside`.  What is left of `load_raw_data` are
three places.  The vector of attributes is not resized for a type that is equal to its size, and is
then indexed with it.  The log message about a nexthop of this router reads the lengths of
attributes that are not there, and that table is not resized at all.  And the first AS number of a
path from an external peer is taken from the first segment after only the length of the path was
compared with zero, to which a set counts one and a segment after the first counts too.
-/
import Xorp.Bgp.AttributeBounds
import Xorp.Bgp.Update

namespace Xorp.Bgp

namespace Wire

open Bytes AttType PathAttribute AttList List

variable {d : Buffer} {p len : Nat} {main : Option Main} {peer : PeerData} {doChecks : Bool}
  {l : AttList} {a : PathAttribute} {haveNlri : Bool} {β : Type}

/-! ### Lists of prefixes -/

section Nets

variable {c c' : NetCursor}

theorem safe_netStep (hpos : 0 < c.left) (hc : c.pos + c.left ≤ d.size) : Safe (netStep d c) := by
  unfold netStep
  rw [safe_byte, safe_check]
  refine ⟨by omega, fun hlen => ?_⟩
  rw [safe_check]
  intro hleft
  rw [safe_slice]
  refine ⟨Or.inr (by omega), ?_⟩
  rw [(reads_ipNet _ hlen).safe_bind]
  exact ⟨trivial, safe_ok _⟩

theorem netStep_eq (hstep : netStep d c = .ok c') :
    prefixBytes (d.u8 c.pos) + 1 ≤ c.left ∧ c'.pos = c.pos + (prefixBytes (d.u8 c.pos) + 1) ∧
      c'.left = c.left - (prefixBytes (d.u8 c.pos) + 1) := by
  have hens : Ensures (netStep d c) fun c' => prefixBytes (d.u8 c.pos) + 1 ≤ c.left ∧
      c'.pos = c.pos + (prefixBytes (d.u8 c.pos) + 1) ∧
      c'.left = c.left - (prefixBytes (d.u8 c.pos) + 1) := by
    refine (reads_byte d c.pos).ensures.bind ?_
    rintro n ⟨-, rfl⟩
    refine ensures_check fun _ => ensures_check fun hleft => ?_
    exact ensures_bind fun bytes => ensures_bind fun net => ensures_ok ⟨hleft, rfl, rfl⟩
  exact hens c' hstep

theorem safe_decodeNets (hp : p + len ≤ d.size) : Safe (decodeNets d p len) := by
  unfold decodeNets
  rw [safe_bind, safe_loop NetCursor.left (fun u v _ hu huv => ?_) (Nat.lt_succ_self len)]
  · refine ⟨fun c hc hmore => safe_netStep (of_decide_eq_true hmore) ?_, fun c _ => safe_ok _⟩
    refine hc.induct (P := fun c => c.pos + c.left ≤ d.size) hp fun u v hu _ huv => ?_
    obtain ⟨hle, hpos, hleft⟩ := netStep_eq huv
    omega
  · obtain ⟨hle, hpos, hleft⟩ := netStep_eq huv
    omega

end Nets

/-! ### The loop over the attributes -/

variable {f : Unit → Read Rejection β} {nlri : List (IPNet 32)} {nexthop : BitVec 32} {safi : Safi}
  {path : ASPath}

section Load

variable {c c' : LoadCursor} {size : Nat}

theorem safe_refuseWellKnown (hf : Safe (f ())) : Safe (refuseWellKnown a >>= f) := by
  unfold refuseWellKnown
  split
  · rw [safe_check]
    exact fun _ => hf
  · exact hf

/-- An attribute has a place in the vector unless its type is the size of the vector. -/
theorem safe_add (htype : a.type ≤ 255) : Safe (l.add a) ↔ a.type ≠ l.size := by
  unfold add inRange grow
  rw [safe_verify, and_iff_right htype]
  dsimp only
  by_cases hlt : l.size < a.type
  · rw [if_pos hlt, if_pos (Nat.lt_succ_self _)]
    refine iff_of_true ?_ (by omega)
    rw [safe_ok_bind, safe_check]
    exact fun _ => safe_refuseWellKnown (safe_ok _)
  · rw [if_neg hlt]
    by_cases heq : a.type = l.size
    · rw [if_neg (by omega)]
      exact iff_of_false (fun h => not_safe_outOfBounds (safe_bind.mp h).1) (fun h => h heq)
    · rw [if_pos (by omega), safe_ok_bind, safe_check]
      exact iff_of_true (fun _ => safe_refuseWellKnown (safe_ok _)) heq

theorem type_le_of_hasType {i : Nat} (htype : a.value.HasType (d.u8 i)) : a.type ≤ 255 := by
  have heq : a.type = d.u8 i := htype.type_eq
  have hlt := d.u8_lt i
  omega

/-- The attribute at the cursor is decoded inside the message and gets a place in the vector. -/
def StepInside (peer : PeerData) (d : Buffer) (c : LoadCursor) : Prop :=
  AttributeInside peer.use4byteAsnums d c.pos c.left ∧
    ((∃ r, PathAttribute.create peer.use4byteAsnums d c.pos c.left = .ok r) →
      d.u8 (c.pos + 1) ≠ c.list.size)

theorem safe_loadStep (hc : c.pos + c.left ≤ d.size) (hleft : c.left < 4096) :
    Safe (loadStep peer d c) ↔ StepInside peer d c := by
  unfold loadStep StepInside
  rw [safe_bind, safe_create hc hleft]
  refine and_congr_right fun _ => ?_
  constructor
  · rintro h ⟨⟨a, used⟩, hcreate⟩
    obtain ⟨hused, -, -, htype⟩ := create_eq hcreate
    have hadd := h (a, used) hcreate
    rw [safe_check] at hadd
    have h3 := (Header.ofBuffer d c.pos).three_le_total
    have hsafe := (safe_bind.mp (hadd (by omega))).1
    rw [safe_add (type_le_of_hasType htype)] at hsafe
    rw [← htype.type_eq]
    exact hsafe
  · rintro h ⟨a, used⟩ hcreate
    obtain ⟨-, -, -, htype⟩ := create_eq hcreate
    rw [safe_check]
    intro _
    rw [safe_bind, safe_add (type_le_of_hasType htype)]
    refine ⟨?_, fun list _ => safe_ok _⟩
    have hne := h ⟨(a, used), hcreate⟩
    rw [← htype.type_eq] at hne
    exact hne

/-- A step uses up the attribute and stores it. -/
theorem loadStep_eq (hstep : loadStep peer d c = .ok c') :
    ∃ a used list, create peer.use4byteAsnums d c.pos c.left = .ok (a, used) ∧
      c.list.add a = .ok list ∧ c' = ⟨c.pos + used, c.left - used, c.count + 1, list⟩ := by
  obtain ⟨⟨a, used⟩, hcreate, hstep⟩ := Linked.bind_eq_ok.mp hstep
  obtain ⟨-, -, hstep⟩ := Linked.bind_eq_ok.mp hstep
  obtain ⟨list, hlist, hstep⟩ := Linked.bind_eq_ok.mp hstep
  cases hstep
  exact ⟨a, used, list, hcreate, hlist, rfl⟩

theorem loadStep_left (hstep : loadStep peer d c = .ok c') :
    ∃ used, 3 ≤ used ∧ used ≤ c.left ∧ c'.pos = c.pos + used ∧ c'.left = c.left - used := by
  obtain ⟨a, used, list, hcreate, -, rfl⟩ := loadStep_eq hstep
  obtain ⟨hused, hle, -, -⟩ := create_eq hcreate
  have h3 := (Header.ofBuffer d c.pos).three_le_total
  exact ⟨used, by omega, hle, rfl, rfl⟩

/-- Every attribute that the loop comes to (`pos_of_reached` says where). -/
def LoadInside (peer : PeerData) (d : Buffer) (p size : Nat) : Prop :=
  ∀ c, Reached LoadCursor.more (loadStep peer d) ⟨p, size, 0, .empty⟩ c → 0 < c.left →
    StepInside peer d c

/-- An attribute starts where the lengths of those before it say. -/
theorem pos_of_reached (hc : Reached LoadCursor.more (loadStep peer d) ⟨p, size, 0, .empty⟩ c) :
    c.pos = (fun q => q + (Header.ofBuffer d q).total)^[c.count] p := by
  refine hc.induct (P := fun c => c.pos = _^[c.count] p) rfl fun u v hu _ huv => ?_
  obtain ⟨a, used, list, hcreate, -, rfl⟩ := loadStep_eq huv
  rw [Function.iterate_succ_apply', ← hu, (create_eq hcreate).1]

theorem safe_loadAttributes (hp : p + size ≤ d.size) (hsize : size < 4096) :
    Safe (loadAttributes peer d p size) ↔ LoadInside peer d p size := by
  have hin : ∀ c, Reached LoadCursor.more (loadStep peer d) ⟨p, size, 0, .empty⟩ c →
      c.pos + c.left ≤ d.size ∧ c.left < 4096 := by
    intro c hc
    refine hc.induct (P := fun c => c.pos + c.left ≤ d.size ∧ c.left < 4096) ⟨hp, hsize⟩ ?_
    intro u v hu _ huv
    obtain ⟨used, h3, hle, hpos, hleft⟩ := loadStep_left huv
    omega
  unfold loadAttributes LoadInside
  rw [safe_loop LoadCursor.left (fun u v _ hu huv => ?_) (Nat.lt_succ_self size)]
  · refine forall_congr' fun c => imp_congr_right fun hc => ?_
    rw [safe_loadStep (hin c hc).1 (hin c hc).2]
    exact ⟨fun h hleft => h (decide_eq_true hleft), fun h hmore => h (of_decide_eq_true hmore)⟩
  · obtain ⟨used, h3, hle, hpos, hleft⟩ := loadStep_left huv
    omega

end Load

/-! ### The multiprotocol attributes -/

/-- The vector has an attribute of every type for which there is no length. -/
def StrInside (l : AttList) : Prop :=
  ∀ t, maxAttribute < t → t < l.size → (l.find t).isSome = true

theorem safe_str : Safe l.str ↔ StrInside l := by
  have hall : ((range' (maxAttribute + 1) (l.size - (maxAttribute + 1))).all
      fun t => (l.find t).isSome) = true ↔ StrInside l := by
    rw [all_eq_true]
    refine forall_congr' fun t => ?_
    rw [mem_range'_1]
    exact ⟨fun h hlt hsize => h (by omega), fun h hmem => h (by omega) (by omega)⟩
  unfold str
  split
  · rename_i h
    exact iff_of_true (safe_ok ()) (hall.mp h)
  · rename_i h
    exact iff_of_false not_safe_outOfBounds fun hin => h (hall.mpr hin)

theorem safe_refuseOwn {own : Bool} {v : Nat} (hf : Safe (f ())) :
    Safe (l.refuseOwn own v >>= f) ↔ (own = true → StrInside l) := by
  unfold refuseOwn
  cases own with
  | true =>
    rw [if_pos rfl, bind_assoc, safe_bind, safe_str]
    exact ⟨fun h _ => h.1, fun h => ⟨h rfl, fun _ _ => safe_invalid _⟩⟩
  | false =>
    exact iff_of_true hf fun h => absurd h Bool.false_ne_true

/-- An `MP_REACH_NLRI` of an announced family whose nexthop is refused as one of this router. -/
def OwnReach (main : Option Main) (peer : PeerData) (doChecks : Bool) (l : AttList) : Prop :=
  match (l.find AttType.mpReachNlri).map PathAttribute.value with
  | some (.mpReach4 safi nexthop _) =>
      peer.multiprotocol4 safi = true ∧ ¬ (doChecks = true ∧ nexthop = 0) ∧
        (main.any fun m => m.interfaceAddress4 nexthop) = true
  | some (.mpReach6 safi nexthop _ _) =>
      peer.multiprotocol6 safi = true ∧ ¬ (doChecks = true ∧ nexthop = 0) ∧
        (doChecks && main.any fun m => m.interfaceAddress6 nexthop) = true
  | _ => False

theorem find_erase_self (t : Nat) : (l.erase t).find t = none := by
  unfold find erase
  rw [find?_eq_none]
  intro a ha
  have := (mem_filter.mp ha).2
  simpa using this

theorem checkReach4_of_ne (hne : ∀ safi nexthop nlri,
    (l.find mpReachNlri).map value ≠ some (.mpReach4 safi nexthop nlri)) :
    checkReach4 main peer doChecks l haveNlri = .ok (l, haveNlri) := by
  unfold checkReach4
  split
  · rename_i heq
    exact absurd heq (hne _ _ _)
  · rfl

theorem checkReach6_of_ne (hne : ∀ safi nexthop linkLocal nlri,
    (l.find mpReachNlri).map value ≠ some (.mpReach6 safi nexthop linkLocal nlri)) :
    checkReach6 main peer doChecks l haveNlri = .ok (l, haveNlri) := by
  unfold checkReach6
  split
  · rename_i heq
    exact absurd heq (hne _ _ _ _)
  · rfl

section
variable (hvalue : (l.find mpReachNlri).map value = some (.mpReach4 safi nexthop nlri))
include hvalue

/-- What is kept of an `MP_REACH_NLRI` of IPv4 is not one of IPv6. -/
theorem checkReach4_kept :
    Ensures (checkReach4 main peer doChecks l haveNlri) fun r => ∀ safi nexthop linkLocal nlri,
      (r.1.find mpReachNlri).map value ≠ some (.mpReach6 safi nexthop linkLocal nlri) := by
  have hl : ∀ s n k ns, (l.find mpReachNlri).map value ≠ some (.mpReach6 s n k ns) := by
    intro s n k ns heq
    rw [hvalue] at heq
    cases heq
  unfold checkReach4
  split
  · split
    · exact ensures_bind fun _ => ensures_bind fun _ => ensures_ok hl
    · refine ensures_ok fun s n k ns heq => ?_
      rw [find_erase_self] at heq
      cases heq
  · exact ensures_ok hl

theorem safe_checkReach4 : Safe (checkReach4 main peer doChecks l haveNlri) ↔
      (OwnReach main peer doChecks l → StrInside l) := by
  unfold checkReach4 OwnReach
  rw [hvalue]
  dsimp only
  by_cases hann : peer.multiprotocol4 safi = true
  · rw [if_pos hann, safe_check, safe_refuseOwn (f := fun _ => .ok (l, true)) (safe_ok _)]
    exact ⟨fun h hown => h hown.2.1 hown.2.2, fun h hnz hown => h ⟨hann, hnz, hown⟩⟩
  · rw [if_neg hann]
    exact iff_of_true (safe_ok _) fun hown => absurd hown.1 hann

end

theorem safe_checkReach6 {nexthop linkLocal : BitVec 128} {nlri : List (IPNet 128)}
    (hvalue : (l.find mpReachNlri).map value = some (.mpReach6 safi nexthop linkLocal nlri)) :
    Safe (checkReach6 main peer doChecks l haveNlri) ↔
      (OwnReach main peer doChecks l → StrInside l) := by
  unfold checkReach6 OwnReach
  rw [hvalue]
  dsimp only
  by_cases hann : peer.multiprotocol6 safi = true
  · rw [if_pos hann, safe_check, safe_refuseOwn (f := fun _ => .ok (l, true)) (safe_ok _)]
    exact ⟨fun h hown => h hown.2.1 hown.2.2, fun h hnz hown => h ⟨hann, hnz, hown⟩⟩
  · rw [if_neg hann]
    exact iff_of_true (safe_ok _) fun hown => absurd hown.1 hann

theorem safe_checkMultiprotocol : Safe (checkMultiprotocol main peer doChecks l haveNlri) ↔
      (OwnReach main peer doChecks l → StrInside l) := by
  unfold checkMultiprotocol
  by_cases hsome : (l.find mpReachNlri).isSome = true
  · rw [if_pos hsome]
    by_cases h4 : ∃ safi nexthop nlri, (l.find mpReachNlri).map value =
        some (.mpReach4 safi nexthop nlri)
    · -- IPv4: what the first check leaves passes the second one as it is
      obtain ⟨safi, nexthop, nlri, hvalue⟩ := h4
      rw [safe_bind, safe_checkReach4 hvalue]
      refine and_iff_left fun r hr => ?_
      show Safe (checkReach6 main peer doChecks r.1 r.2 >>= _)
      rw [checkReach6_of_ne (checkReach4_kept hvalue r hr)]
      exact safe_ok _
    · have hne : ∀ safi nexthop nlri, (l.find mpReachNlri).map value ≠
          some (.mpReach4 safi nexthop nlri) := fun s n ns heq => h4 ⟨s, n, ns, heq⟩
      rw [checkReach4_of_ne hne, safe_ok_bind]
      show Safe (checkReach6 main peer doChecks l haveNlri >>= _) ↔ _
      by_cases h6 : ∃ safi nexthop linkLocal nlri, (l.find mpReachNlri).map value =
            some (.mpReach6 safi nexthop linkLocal nlri)
      · obtain ⟨safi, nexthop, linkLocal, nlri, hvalue⟩ := h6
        rw [safe_bind, safe_checkReach6 hvalue]
        exact and_iff_left fun r _ => safe_ok _
      · rw [checkReach6_of_ne fun s n k ns heq => h6 ⟨s, n, k, ns, heq⟩, safe_ok_bind]
        refine iff_of_true (safe_ok _) fun hown => ?_
        unfold OwnReach at hown
        split at hown
        · rename_i heq
          exact absurd heq (hne _ _ _)
        · rename_i heq
          exact absurd ⟨_, _, _, _, heq⟩ h6
        · exact hown.elim
  · rw [if_neg hsome]
    refine iff_of_true (safe_ok _) fun hown => ?_
    have hnone : l.find mpReachNlri = none := by simpa using hsome
    unfold OwnReach at hown
    rw [hnone] at hown
    exact hown.elim

/-! ### The checks -/

theorem safe_checkMandatory : Safe (checkMandatory l haveNlri) := by
  unfold checkMandatory
  rw [safe_check]
  intro _
  rw [safe_check]
  exact fun _ => safe_check_last

/-- The path of an external peer has a number where it is looked for. -/
def FirstInside (peer : PeerData) (l : AttList) : Prop :=
  peer.ibgp = false → ∀ path, (l.find AttType.asPath).map PathAttribute.value =
    some (.asPath path) → path.pathLength ≠ 0 → ∃ first, path.firstAsnum = .ok first

theorem safe_firstAsnum : Safe (firstAsnum path) ↔ ∃ first, path.firstAsnum = .ok first := by
  unfold firstAsnum
  cases path.firstAsnum with
  | ok a => exact iff_of_true (safe_ok a) ⟨a, rfl⟩
  | error fault => exact iff_of_false not_safe_assertion nofun

theorem safe_checkExternal : Safe (checkExternal peer l path) ↔
    (path.pathLength ≠ 0 → ∃ first, path.firstAsnum = .ok first) := by
  unfold checkExternal
  rw [safe_check]
  refine imp_congr_right fun _ => ?_
  rw [safe_bind, safe_firstAsnum]
  refine and_iff_left fun first _ => ?_
  rw [safe_check]
  exact fun _ => safe_check_last

theorem safe_checkAsPath : Safe (checkAsPath peer l) ↔ FirstInside peer l := by
  unfold checkAsPath FirstInside
  split
  · rename_i path hpath
    rw [safe_bind]
    cases peer.ibgp with
    | true => exact iff_of_true ⟨safe_ok (), fun _ _ => safe_check_last⟩ nofun
    | false =>
      rw [show (bif false then .ok () else checkExternal peer l path) =
        checkExternal peer l path from rfl, safe_checkExternal]
      constructor
      · intro h _ q hq
        rw [hpath] at hq
        cases hq
        exact h.1
      · intro h
        exact ⟨h rfl path hpath, fun _ _ => safe_check_last⟩
  · rename_i hne
    exact iff_of_true (safe_ok ()) fun _ path hpath => absurd hpath (hne path)

theorem safe_checkNextHop : Safe (checkNextHop main l) := by
  unfold checkNextHop
  split
  · split
    · exact safe_invalid _
    · exact safe_ok ()
  · exact safe_ok ()

/-- After the loop: the log message stays in its table, and if the checks that come before that of
the AS path are passed, there is a first number to compare. -/
def ListInside (main : Option Main) (peer : PeerData) (doChecks haveNlri : Bool)
    (c : LoadCursor) : Prop :=
  (OwnReach main peer doChecks c.list → StrInside c.list) ∧
    ∀ l announced, checkMultiprotocol main peer doChecks c.list haveNlri = .ok (l, announced) →
      ¬ (c.count = 0 ∧ announced = true) →
      ((doChecks && announced) = true → checkMandatory l haveNlri = .ok ()) → FirstInside peer l

theorem safe_loadRawData {size : Nat} (hp : p + size ≤ d.size) (hsize : size < 4096) :
    Safe (loadRawData main peer doChecks d p size haveNlri) ↔ LoadInside peer d p size ∧
      ∀ c, loadAttributes peer d p size = .ok c → ListInside main peer doChecks haveNlri c := by
  unfold loadRawData
  rw [safe_bind, safe_loadAttributes hp hsize]
  refine and_congr_right fun _ => forall_congr' fun c => imp_congr_right fun _ => ?_
  rw [safe_bind, safe_checkMultiprotocol]
  rw [Prod.forall]
  refine and_congr_right fun _ => forall_congr' fun l => forall_congr' fun announced =>
    imp_congr_right fun _ => ?_
  rw [safe_check]
  refine imp_congr_right fun _ => ?_
  have htail : Safe (checkAsPath peer l >>= fun _ => checkNextHop main l >>= fun _ =>
      (.ok l : Read Rejection AttList)) ↔ FirstInside peer l := by
    rw [safe_bind, safe_checkAsPath]
    refine and_iff_left fun _ _ => ?_
    rw [safe_bind]
    exact ⟨safe_checkNextHop, fun _ _ => safe_ok l⟩
  rw [safe_bind, htail]
  cases doChecks && announced with
  | true =>
    exact ⟨fun h hok => h.2 () (hok rfl), fun h => ⟨safe_checkMandatory, fun _ hu => h fun _ => hu⟩⟩
  | false =>
    exact ⟨fun h _ => h.2 () rfl, fun h => ⟨safe_ok (), fun _ _ => h nofun⟩⟩

/-! ### The message -/

/-- The withdrawn prefixes of the message. -/
def wrLen (d : Buffer) : Nat := d.u16 19

/-- The length of the path attributes. -/
def paLen (d : Buffer) : Nat := d.u16 (21 + wrLen d)

/-- Whether prefixes are left after the attributes. -/
def hasNlri (d : Buffer) : Bool := 0 < d.size - 23 - paLen d - wrLen d

/-- A message whose lengths fit and whose withdrawn prefixes are accepted, and then its attributes. -/
def UpdateInside (main : Option Main) (peer : PeerData) (doChecks : Bool) (d : Buffer) : Prop :=
  23 ≤ d.size → 23 + wrLen d ≤ d.size → 23 + paLen d + wrLen d ≤ d.size →
    (∃ nets, decodeNets d 21 (wrLen d) = .ok nets) →
      LoadInside peer d (23 + wrLen d) (paLen d) ∧
        ∀ c, loadAttributes peer d (23 + wrLen d) (paLen d) = .ok c →
          ListInside main peer doChecks (hasNlri d) c

theorem safe_decodeUpdate (d : Message) : Safe (UpdatePacket.decode main peer doChecks d.toBuffer) ↔
    UpdateInside main peer doChecks d.toBuffer := by
  have hmin := d.header_le
  have hmax := d.size_le
  unfold UpdatePacket.decode UpdateInside
  rw [safe_checkWith (by omega) (by omega)]
  refine imp_congr_right fun h23 => ?_
  rw [safe_extract16, and_iff_right (by omega), safe_check]
  refine imp_congr_right fun hwr => ?_
  rw [safe_extract16, and_iff_right (by omega), safe_check]
  refine imp_congr_right fun hpa => ?_
  rw [safe_bind, and_iff_right (safe_decodeNets (by omega))]
  rw [exists_imp]
  refine forall_congr' fun withdrawn => imp_congr_right fun _ => ?_
  rw [safe_bind, safe_loadRawData (by omega) (by omega)]
  refine and_iff_left fun attributes _ => ?_
  rw [safe_bind]
  exact ⟨safe_decodeNets (by omega), fun nlri _ => safe_ok _⟩

/-- **Decoding an UPDATE is total and in bounds.**  A packet comes out or an exception is thrown,
exactly when the attributes that the decoder comes to do not lead it out of the message or out of its
tables, and the path of an external peer starts with a number. -/
theorem update_in_bounds_iff (main : Option Main) (peer : PeerData) (doChecks : Bool)
    (d : Message) :
    ((∃ packet, UpdatePacket.decode main peer doChecks d.toBuffer = .ok packet) ∨
      ∃ reason, UpdatePacket.decode main peer doChecks d.toBuffer = .error (.invalid reason)) ↔
      UpdateInside main peer doChecks d.toBuffer := by
  rw [← safe_decodeUpdate]
  exact safe_iff_cases.symm

/-- A message with nothing but path attributes. -/
def attributesOnly (pa : List UInt8) (hpa : pa.length ≤ 4073) : Message where
  data := List.replicate 16 255 ++ [UInt8.ofNat ((23 + pa.length) / 256),
    UInt8.ofNat (23 + pa.length), 2, 0, 0, UInt8.ofNat (pa.length / 256), UInt8.ofNat pa.length] ++ pa
  fits := by
    simp only [length_append, length_replicate, length_cons, length_nil]
    omega
  header_le := by
    simp only [Buffer.size, length_append, length_replicate, length_cons, length_nil]
    omega
  size_le := by
    simp only [Buffer.size, length_append, length_replicate, length_cons, length_nil]
    omega

/-- An external peer. -/
def externalPeer (use4byteAsnums : Bool) : PeerData where
  peerType := .ebgp
  as := 65000
  use4byteAsnums := use4byteAsnums
  weUse4byteAsnums := use4byteAsnums
  confederation := false
  multiprotocol4 := fun _ => false
  multiprotocol6 := fun _ => false

/-- An attribute of type 21; an `MP_REACH_NLRI` without a payload; an AS path of one byte; an AS path
whose one segment is cut off, from a peer with numbers of four bytes; an AS path that is an empty
set. -/
theorem update_out_of_bounds : UpdatePacket.decode none (externalPeer false) true
      (attributesOnly [0x80, 21, 0] (by decide)).toBuffer = .error .outOfBounds ∧
    UpdatePacket.decode none (externalPeer false) true
      (attributesOnly [0x80, 14, 0] (by decide)).toBuffer = .error .outOfBounds ∧
    UpdatePacket.decode none (externalPeer false) true
      (attributesOnly [0x40, 2, 1, 2] (by decide)).toBuffer = .error .outOfBounds ∧
    UpdatePacket.decode none (externalPeer true) true
      (attributesOnly [0x40, 2, 2, 2, 1] (by decide)).toBuffer = .error .assertion ∧
    UpdatePacket.decode none (externalPeer false) true
      (attributesOnly [0x40, 2, 2, 1, 0] (by decide)).toBuffer = .error .assertion :=
  ⟨eq_of_readsOutside (by decide +kernel), eq_of_readsOutside (by decide +kernel),
    eq_of_readsOutside (by decide +kernel), eq_of_failsAssertion (by decide +kernel),
    eq_of_failsAssertion (by decide +kernel)⟩

end Wire

end Xorp.Bgp

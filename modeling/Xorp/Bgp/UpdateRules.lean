/-
What an accepted list of path attributes satisfies.

The rules are checked in different places: some in the loop that decodes the attributes, some while
attributes of families that were not announced are dropped, and the rest in a row of conditions at
the end.  Each rule is proved from the place that enforces it.  Three are enforced less often than
they should be.  An `MP_UNREACH_NLRI` is only looked at if there is an `MP_REACH_NLRI`; the route
reflector attributes of an external peer are only looked for if there is an AS path; and the segments
of an `AS4_PATH` are not looked at.  `Unnoticed` is what comes through.
-/
import Xorp.Bgp.UpdateBounds

namespace Xorp.Bgp

namespace Wire

open Bytes AttType AttList Linked List PathAttribute Option

variable {d : Buffer} {p size : Nat} {main : Option Main} {peer : PeerData} {l l' : AttList}
  {a : PathAttribute} {haveNlri announced : Bool} {t : Nat}

/-! ### Looking up attributes -/

theorem AttList.mem_of_find (h : l.find t = some a) : a ∈ l.atts ∧ a.type = t := by
  exact ⟨mem_of_find?_eq_some h, by simpa using List.find?_some h⟩

theorem AttList.find_eq_none : l.find t = none ↔ ∀ a ∈ l.atts, a.type ≠ t := by
  unfold AttList.find
  simp

/-- The attributes of a list that the decoder made: no type twice, no unknown attribute that is well
known, and every attribute of the class of its type. -/
structure Decoded (l : AttList) : Prop where
  nodup : (l.atts.map PathAttribute.type).Nodup
  optional : ∀ a ∈ l.atts, ∀ t data, a.value = .unknown t data → a.flags.optional = true
  hasType : ∀ a ∈ l.atts, a.value.HasType a.type

theorem Decoded.find_of_mem (h : Decoded l) (ha : a ∈ l.atts) : l.find a.type = some a := by
  have hfind : ∃ b, l.find a.type = some b := by
    rw [← isSome_iff_exists, isSome_iff_ne_none]
    exact fun hnone => find_eq_none.mp hnone a ha rfl
  obtain ⟨b, hb⟩ := hfind
  obtain ⟨hmem, htype⟩ := mem_of_find hb
  rw [hb, inj_on_of_nodup_map h.nodup hmem ha htype]

/-- The attribute of a known type is of the class of that type. -/
theorem Decoded.value_of_mem (h : Decoded l) (ha : a ∈ l.atts) (hknown : a.type ∈ knownTypes) :
    ∀ t data, a.value ≠ .unknown t data := by
  intro t data hvalue
  have htype : a.type = t := by
    unfold type
    rw [hvalue]
    rfl
  exact (h.hasType a ha).proper t data hvalue (htype ▸ hknown)

theorem Decoded.sublist (h : Decoded l) (hsub : l'.atts.Sublist l.atts) : Decoded l' :=
  ⟨h.nodup.sublist (hsub.map _), fun a ha => h.optional a (hsub.subset ha),
    fun a ha => h.hasType a (hsub.subset ha)⟩

/-! ### The loop over the attributes -/

/-- What is stored has a type that was not there, and is not both unknown and well known. -/
theorem add_eq (hadd : l.add a = .ok l') : l'.atts = l.atts ++ [a] ∧ (∀ b ∈ l.atts, b.type ≠ a.type) ∧
    ∀ t data, a.value = .unknown t data → a.flags.optional = true := by
  have hens : Ensures (l.add a) fun l' => l'.atts = l.atts ++ [a] ∧
      (∀ b ∈ l.atts, b.type ≠ a.type) ∧
      ∀ t data, a.value = .unknown t data → a.flags.optional = true := by
    refine ensures_bind fun _ => ensures_bind fun _ => ensures_check fun hnone => ?_
    have hwell : Ensures (AttList.refuseWellKnown a)
        fun _ => ∀ t data, a.value = .unknown t data → a.flags.optional = true := by
      unfold AttList.refuseWellKnown
      split
      · intro u hu t data _
        unfold check at hu
        split_ifs at hu with hopt
        exact hopt
      · rename_i hne
        exact ensures_ok fun t data hvalue => absurd hvalue (hne t data)
    exact hwell.bind fun _ hopt => ensures_ok ⟨rfl, find_eq_none.mp hnone, hopt⟩
  exact hens l' hadd

theorem Decoded.add (h : Decoded l) (hadd : l.add a = .ok l') (ha : a.value.HasType a.type) :
    Decoded l' := by
  obtain ⟨hatts, hnew, hopt⟩ := add_eq hadd
  constructor
  · rw [hatts, map_append, nodup_append]
    refine ⟨h.nodup, nodup_singleton _, fun x hx y hy => ?_⟩
    obtain ⟨b, hb, rfl⟩ := mem_map.mp hx
    rw [map_singleton, mem_singleton] at hy
    subst hy
    exact hnew b hb
  · intro b hb
    rw [hatts, mem_append, mem_singleton] at hb
    rcases hb with hb | rfl
    · exact h.optional b hb
    · exact hopt
  · intro b hb
    rw [hatts, mem_append, mem_singleton] at hb
    rcases hb with hb | rfl
    · exact h.hasType b hb
    · exact ha

theorem decoded_loadAttributes :
    Ensures (loadAttributes peer d p size) fun c => Decoded c.list := by
  intro c hc
  obtain ⟨hr, -⟩ := ensures_loop _ c hc
  refine hr.induct (P := fun c => Decoded c.list) (by constructor <;> simp [AttList.empty]) ?_
  intro u v hu _ hstep
  obtain ⟨a, used, list, hcreate, hadd, rfl⟩ := loadStep_eq hstep
  obtain ⟨-, -, -, htype⟩ := create_eq hcreate
  have ha : a.value.HasType a.type := by
    have heq : a.type = d.u8 (u.pos + 1) := htype.type_eq
    rw [heq]
    exact htype
  exact hu.add hadd ha

/-! ### Families that were not announced -/

/-- A multiprotocol attribute is of a family that this router announced. -/
def Announced (peer : PeerData) (a : PathAttribute) : Prop :=
  match a.value with
  | .mpReach4 safi _ _ | .mpUnreach4 safi _ => peer.multiprotocol4 safi = true
  | .mpReach6 safi _ _ _ | .mpUnreach6 safi _ => peer.multiprotocol6 safi = true
  | _ => True

/-- The nexthop of an `MP_REACH_NLRI` is not zero. -/
def NexthopNonzero (a : PathAttribute) : Prop :=
  match a.value with
  | .mpReach4 _ nexthop _ => nexthop ≠ 0
  | .mpReach6 _ nexthop _ _ => nexthop ≠ 0
  | _ => True

theorem announced_of_type (h14 : a.type ≠ mpReachNlri) (h15 : a.type ≠ mpUnreachNlri) :
    Announced peer a := by
  unfold type at h14 h15
  unfold Announced
  split
  all_goals first | trivial | (rename_i heq; rw [heq] at h14 h15; contradiction)

theorem nexthopNonzero_of_type (h14 : a.type ≠ mpReachNlri) : NexthopNonzero a := by
  unfold type at h14
  unfold NexthopNonzero
  split
  all_goals first | trivial | (rename_i heq; rw [heq] at h14; contradiction)

theorem AttList.mem_erase {b : PathAttribute} : b ∈ (l.erase t).atts ↔ b ∈ l.atts ∧ b.type ≠ t := by
  unfold AttList.erase
  simp

theorem AttList.erase_sublist (l : AttList) : (l.erase t).atts.Sublist l.atts :=
  filter_sublist

/-- The list after an `MP_REACH_NLRI` was looked at. -/
structure ReachKept (peer : PeerData) (l : AttList) (haveNlri : Bool) (l' : AttList)
    (announced : Bool) : Prop where
  sublist : l'.atts.Sublist l.atts
  others : ∀ a ∈ l.atts, a.type ≠ AttType.mpReachNlri → a ∈ l'.atts
  reach : ∀ a ∈ l'.atts, a.type = AttType.mpReachNlri → Announced peer a ∧ NexthopNonzero a
  announced_eq : announced = true ↔ haveNlri = true ∨ ∃ a ∈ l'.atts, a.type = AttType.mpReachNlri

theorem ReachKept.erased (l : AttList) (haveNlri : Bool) :
    ReachKept peer l haveNlri (l.erase mpReachNlri) haveNlri where
  sublist := l.erase_sublist
  others _ ha hne := mem_erase.mpr ⟨ha, hne⟩
  reach _ ha heq := absurd heq (mem_erase.mp ha).2
  announced_eq := by
    refine ⟨.inl, fun h => h.resolve_right ?_⟩
    rintro ⟨a, ha, heq⟩
    exact (mem_erase.mp ha).2 heq

section
variable (hl : Decoded l) (ha : a ∈ l.atts)
include hl ha

theorem ReachKept.kept (htype : a.type = mpReachNlri)
    (hann : Announced peer a) (hnz : NexthopNonzero a) : ReachKept peer l haveNlri l true where
  sublist := List.Sublist.refl _
  others b hb _ := hb
  reach b hb heq := by
    obtain rfl : b = a := inj_on_of_nodup_map hl.nodup hb ha (heq.trans htype.symm)
    exact ⟨hann, hnz⟩
  announced_eq := iff_of_true rfl (.inr ⟨a, ha, htype⟩)

theorem Decoded.reach_cases (htype : a.type = mpReachNlri) :
    (∃ safi nexthop nlri, a.value = .mpReach4 safi nexthop nlri) ∨
      ∃ safi nexthop linkLocal nlri, a.value = .mpReach6 safi nexthop linkLocal nlri := by
  have hne := hl.value_of_mem ha (htype ▸ by decide)
  unfold type mpReachNlri at htype
  rw [Value.type_eq] at htype
  cases hvalue : a.value <;> simp_all

theorem Decoded.unreach_cases (htype : a.type = mpUnreachNlri) :
    (∃ safi nlri, a.value = .mpUnreach4 safi nlri) ∨
      ∃ safi nlri, a.value = .mpUnreach6 safi nlri := by
  have hne := hl.value_of_mem ha (htype ▸ by decide)
  unfold type mpUnreachNlri at htype
  rw [Value.type_eq] at htype
  cases hvalue : a.value <;> simp_all

theorem Decoded.asPath_cases (htype : a.type = asPath) : ∃ path, a.value = .asPath path := by
  have hne := hl.value_of_mem ha (htype ▸ by decide)
  unfold type asPath at htype
  rw [Value.type_eq] at htype
  cases hvalue : a.value <;> simp_all

/-- The two checks of an `MP_REACH_NLRI`, of which one applies. -/
theorem reachKept (htype : a.type = mpReachNlri) :
    Ensures (checkReach4 main peer true l haveNlri >>= fun r =>
      checkReach6 main peer true r.1 r.2) fun r => ReachKept peer l haveNlri r.1 r.2 := by
  have hfind : l.find mpReachNlri = some a := htype ▸ hl.find_of_mem ha
  rcases hl.reach_cases ha htype with ⟨safi, nexthop, nlri, hvalue⟩ |
    ⟨safi, nexthop, linkLocal, nlri, hvalue⟩
  · have hmap : (l.find mpReachNlri).map value =
        some (.mpReach4 safi nexthop nlri) := by rw [hfind, map_some, hvalue]
    have h4 : Ensures (checkReach4 main peer true l haveNlri) fun r =>
        ReachKept peer l haveNlri r.1 r.2 := by
      unfold checkReach4
      rw [hmap]
      dsimp only
      split
      · rename_i hann
        refine ensures_check fun hnz => ensures_bind fun _ => ensures_ok ?_
        refine .kept hl ha htype ?_ ?_
        · unfold Announced
          rw [hvalue]
          exact hann
        · unfold NexthopNonzero
          rw [hvalue]
          exact fun h0 => hnz ⟨rfl, h0⟩
      · exact ensures_ok (.erased l haveNlri)
    intro r hr
    obtain ⟨r₁, hr₁, hr⟩ := bind_eq_ok.mp hr
    rw [checkReach6_of_ne (checkReach4_kept hmap r₁ hr₁)] at hr
    cases hr
    exact h4 r₁ hr₁
  · have hmap : (l.find mpReachNlri).map value =
        some (.mpReach6 safi nexthop linkLocal nlri) := by rw [hfind, map_some, hvalue]
    rw [checkReach4_of_ne (by rw [hmap]; exact fun _ _ _ h => by cases h)]
    show Ensures (checkReach6 main peer true l haveNlri) _
    unfold checkReach6
    rw [hmap]
    dsimp only
    split
    · rename_i hann
      refine ensures_check fun hnz => ensures_bind fun _ => ensures_ok ?_
      refine .kept hl ha htype ?_ ?_
      · unfold Announced
        rw [hvalue]
        exact hann
      · unfold NexthopNonzero
        rw [hvalue]
        exact fun h0 => hnz ⟨rfl, h0⟩
    · exact ensures_ok (.erased l haveNlri)

end

/-- The list after an `MP_UNREACH_NLRI` was looked at. -/
structure UnreachKept (peer : PeerData) (l l' : AttList) : Prop where
  sublist : l'.atts.Sublist l.atts
  others : ∀ a ∈ l.atts, a.type ≠ AttType.mpUnreachNlri → a ∈ l'.atts
  unreach : ∀ a ∈ l'.atts, a.type = AttType.mpUnreachNlri → Announced peer a

theorem UnreachKept.erased (l : AttList) : UnreachKept peer l (l.erase mpUnreachNlri) where
  sublist := l.erase_sublist
  others _ ha hne := mem_erase.mpr ⟨ha, hne⟩
  unreach _ ha heq := absurd heq (mem_erase.mp ha).2

theorem UnreachKept.kept (hl : Decoded l) (ha : a ∈ l.atts)
    (htype : a.type = mpUnreachNlri) (hann : Announced peer a) : UnreachKept peer l l where
  sublist := List.Sublist.refl _
  others b hb _ := hb
  unreach b hb heq := by
    obtain rfl : b = a := inj_on_of_nodup_map hl.nodup hb ha (heq.trans htype.symm)
    exact hann

theorem unreachKept (hl : Decoded l) : UnreachKept peer l (dropUnreach peer l) := by
  unfold dropUnreach
  cases hfind : l.find mpUnreachNlri with
  | none =>
    exact ⟨List.Sublist.refl _, fun a ha _ => ha,
      fun a ha heq => absurd heq (find_eq_none.mp hfind a ha)⟩
  | some a =>
    obtain ⟨ha, htype⟩ := mem_of_find hfind
    rw [map_some]
    rcases hl.unreach_cases ha htype with ⟨safi, nlri, hvalue⟩ | ⟨safi, nlri, hvalue⟩
    all_goals
      rw [hvalue]
      dsimp only
      split
      · rename_i hann
        refine .kept hl ha htype ?_
        unfold Announced
        rw [hvalue]
        exact hann
      · exact .erased l

/-- The list after the multiprotocol attributes were looked at. -/
structure Stripped (peer : PeerData) (l : AttList) (haveNlri : Bool) (l' : AttList)
    (announced : Bool) : Prop where
  sublist : l'.atts.Sublist l.atts
  others : ∀ a ∈ l.atts, a.type ≠ AttType.mpReachNlri → a.type ≠ AttType.mpUnreachNlri → a ∈ l'.atts
  same : (∀ a ∈ l.atts, a.type ≠ AttType.mpReachNlri) → l' = l
  families : (∃ a ∈ l.atts, a.type = AttType.mpReachNlri) → ∀ a ∈ l'.atts, Announced peer a
  nonzero : ∀ a ∈ l'.atts, NexthopNonzero a
  announced_eq : announced = true ↔ haveNlri = true ∨ ∃ a ∈ l'.atts, a.type = AttType.mpReachNlri

theorem stripped (hl : Decoded l) (h : checkMultiprotocol main peer true l haveNlri =
    .ok (l', announced)) : Stripped peer l haveNlri l' announced := by
  unfold checkMultiprotocol at h
  cases hfind : l.find mpReachNlri with
  | none =>
    -- nothing is looked at
    have hnone := find_eq_none.mp hfind
    rw [hfind, if_neg (by simp)] at h
    cases h
    refine ⟨List.Sublist.refl _, fun a ha _ _ => ha, fun _ => rfl, ?_, ?_, ?_⟩
    · rintro ⟨a, ha, heq⟩
      exact absurd heq (hnone a ha)
    · exact fun a ha => nexthopNonzero_of_type (hnone a ha)
    · refine ⟨.inl, fun hor => hor.resolve_right ?_⟩
      rintro ⟨a, ha, heq⟩
      exact hnone a ha heq
  | some a =>
    obtain ⟨ha, htype⟩ := mem_of_find hfind
    rw [hfind, if_pos (by simp)] at h
    obtain ⟨⟨l₁, n₁⟩, h₁, h⟩ := bind_eq_ok.mp h
    obtain ⟨⟨l₂, n₂⟩, h₂, h⟩ := bind_eq_ok.mp h
    cases h
    have hreach := reachKept hl ha htype (l₂, announced)
      (bind_eq_ok.mpr ⟨(l₁, n₁), h₁, h₂⟩)
    have hun : UnreachKept peer l₂ (dropUnreach peer l₂) :=
      unreachKept (hl.sublist hreach.sublist)
    have hkeep : ∀ b ∈ l₂.atts, b.type = mpReachNlri → b ∈ (dropUnreach peer l₂).atts :=
      fun b hb heq => hun.others b hb (by rw [heq]; decide)
    refine ⟨hun.sublist.trans hreach.sublist,
      fun b hb h14 h15 => hun.others b (hreach.others b hb h14) h15,
      fun hno => absurd htype (hno a ha), fun _ b hb => ?_, fun b hb => ?_, ?_⟩
    · by_cases h14 : b.type = mpReachNlri
      · exact (hreach.reach b (hun.sublist.subset hb) h14).1
      · by_cases h15 : b.type = mpUnreachNlri
        · exact hun.unreach b hb h15
        · exact announced_of_type h14 h15
    · by_cases h14 : b.type = mpReachNlri
      · exact (hreach.reach b (hun.sublist.subset hb) h14).2
      · exact nexthopNonzero_of_type h14
    · rw [hreach.announced_eq]
      refine or_congr_right ⟨?_, ?_⟩
      · rintro ⟨b, hb, heq⟩
        exact ⟨b, hkeep b hb heq, heq⟩
      · rintro ⟨b, hb, heq⟩
        exact ⟨b, hun.sublist.subset hb, heq⟩

/-! ### The rules -/

/-- What the protocol asks of the attributes of a message, with the prefixes announced in the message
itself as `haveNlri`. -/
structure Rules (peer : PeerData) (haveNlri : Bool) (l : AttList) : Prop where
  nodup : (l.atts.map PathAttribute.type).Nodup
  recognised : ∀ a ∈ l.atts, ∀ t data, a.value = .unknown t data → a.flags.optional = true
  origin : haveNlri = true ∨ (∃ a ∈ l.atts, a.type = AttType.mpReachNlri) →
    ∃ a ∈ l.atts, a.type = AttType.origin
  asPath : haveNlri = true ∨ (∃ a ∈ l.atts, a.type = AttType.mpReachNlri) →
    ∃ a ∈ l.atts, a.type = AttType.asPath
  nextHop : haveNlri = true → ∃ a ∈ l.atts, a.type = AttType.nextHop
  nonzero : ∀ a ∈ l.atts, NexthopNonzero a
  external : peer.ibgp = false → ∀ a ∈ l.atts, ∀ path, a.value = .asPath path →
    path.pathLength ≠ 0 ∧ path.firstAsnum = .ok peer.as
  reflector : peer.ibgp = false → ∀ a ∈ l.atts,
    a.type ≠ AttType.clusterList ∧ a.type ≠ AttType.originatorId
  confederation : peer.confederation = false → ∀ a ∈ l.atts, ∀ path,
    a.value = .asPath path ∨ a.value = .as4Path path → path.containsConfedSegments = false
  announced : ∀ a ∈ l.atts, Announced peer a

/-- The attributes that came satisfy the rules in the three cases in which nobody looks: without an
`MP_REACH_NLRI`, without an AS path, and in an `AS4_PATH`. -/
structure Unnoticed (peer : PeerData) (l : AttList) : Prop where
  unreach : (∀ a ∈ l.atts, a.type ≠ AttType.mpReachNlri) → ∀ a ∈ l.atts, Announced peer a
  reflector : peer.ibgp = false → (∀ a ∈ l.atts, a.type ≠ AttType.asPath) → ∀ a ∈ l.atts,
    a.type ≠ AttType.clusterList ∧ a.type ≠ AttType.originatorId
  as4Path : peer.confederation = false → ∀ a ∈ l.atts, ∀ path, a.value = .as4Path path →
    path.containsConfedSegments = false

theorem check_eq_ok {ok : Prop} [Decidable ok] {reason : Rejection} {u : Unit}
    (h : check ok reason = .ok u) : ok := by
  unfold check at h
  split_ifs at h with hok
  exact hok

theorem exists_of_find_ne_none (h : l.find t ≠ none) : ∃ a ∈ l.atts, a.type = t := by
  by_contra hno
  exact h (find_eq_none.mpr fun a ha heq => hno ⟨a, ha, heq⟩)

theorem checkMandatory_eq (h : checkMandatory l haveNlri = .ok ()) :
    (∃ a ∈ l.atts, a.type = origin) ∧ (∃ a ∈ l.atts, a.type = asPath) ∧
      (haveNlri = true → ∃ a ∈ l.atts, a.type = nextHop) := by
  obtain ⟨_, h1, h⟩ := bind_eq_ok.mp h
  obtain ⟨_, h2, h⟩ := bind_eq_ok.mp h
  refine ⟨exists_of_find_ne_none (check_eq_ok h1), exists_of_find_ne_none (check_eq_ok h2), ?_⟩
  exact fun hn => exists_of_find_ne_none fun hnone => check_eq_ok h ⟨hn, hnone⟩

theorem checkExternal_eq {path : ASPath} {u : Unit} (h : checkExternal peer l path = .ok u) :
    path.pathLength ≠ 0 ∧ path.firstAsnum = .ok peer.as ∧
      ∀ a ∈ l.atts, a.type ≠ clusterList ∧ a.type ≠ originatorId := by
  obtain ⟨_, h1, h⟩ := bind_eq_ok.mp h
  obtain ⟨first, h2, h⟩ := bind_eq_ok.mp h
  obtain ⟨_, h3, h⟩ := bind_eq_ok.mp h
  have hreflector := check_eq_ok h
  refine ⟨check_eq_ok h1, ?_, fun a ha => ⟨?_, ?_⟩⟩
  · unfold firstAsnum at h2
    split at h2
    · rename_i x hx
      cases h2
      rw [hx, check_eq_ok h3]
    · cases h2
  · exact find_eq_none.mp hreflector.1 a ha
  · exact find_eq_none.mp hreflector.2 a ha

theorem checkAsPath_eq (hl : Decoded l) (h : checkAsPath peer l = .ok ()) (ha : a ∈ l.atts)
    {path : ASPath} (hvalue : a.value = .asPath path) :
    (peer.ibgp = false → path.pathLength ≠ 0 ∧ path.firstAsnum = .ok peer.as ∧
      ∀ a ∈ l.atts, a.type ≠ clusterList ∧ a.type ≠ originatorId) ∧
    (peer.confederation = false → path.containsConfedSegments = false) := by
  have htype : a.type = asPath := by
    unfold type
    rw [hvalue]
    rfl
  have hfind : (l.find asPath).map value = some (.asPath path) := by
    rw [← htype, hl.find_of_mem ha, map_some, hvalue]
  unfold checkAsPath at h
  rw [hfind] at h
  obtain ⟨u, hexternal, hconfed⟩ := bind_eq_ok.mp h
  refine ⟨fun hib => ?_, fun hc => ?_⟩
  · rw [hib] at hexternal
    exact checkExternal_eq hexternal
  · rcases check_eq_ok hconfed with hc' | hno
    · rw [hc] at hc'
      cases hc'
    · exact hno

/-- What it takes for `load_raw_data` to return. -/
theorem loadRawData_eq (h : loadRawData main peer true d p size haveNlri = .ok l) :
    ∃ c announced, loadAttributes peer d p size = .ok c ∧
      checkMultiprotocol main peer true c.list haveNlri = .ok (l, announced) ∧
      (announced = true → checkMandatory l haveNlri = .ok ()) ∧ checkAsPath peer l = .ok () := by
  obtain ⟨c, hc, h⟩ := bind_eq_ok.mp h
  obtain ⟨⟨l', announced⟩, hmp, h⟩ := bind_eq_ok.mp h
  obtain ⟨_, -, h⟩ := bind_eq_ok.mp h
  obtain ⟨_, hmand, h⟩ := bind_eq_ok.mp h
  obtain ⟨_, hpath, h⟩ := bind_eq_ok.mp h
  obtain ⟨_, -, h⟩ := bind_eq_ok.mp h
  cases h
  refine ⟨c, announced, hc, hmp, fun hann => ?_, hpath⟩
  rw [hann] at hmand
  exact hmand

/-- **An accepted UPDATE satisfies the protocol's attribute rules**, exactly when the attributes that
came satisfy them in the cases in which `load_raw_data` does not look. -/
theorem accepted_rules_iff (main : Option Main) (peer : PeerData) (d : Buffer) (p size : Nat)
    (haveNlri : Bool) (l : AttList)
    (h : loadRawData main peer true d p size haveNlri = .ok l) :
    Rules peer haveNlri l ↔ ∀ c, loadAttributes peer d p size = .ok c → Unnoticed peer c.list := by
  obtain ⟨c, announced, hc, hmp, hmand, hpath⟩ := loadRawData_eq h
  have hdec := decoded_loadAttributes c hc
  have hst := stripped hdec hmp
  have hl := hdec.sublist hst.sublist
  constructor
  · intro hr c' hc'
    rw [hc] at hc'
    cases hc'
    refine ⟨fun hno a ha => ?_, fun hib hno a ha => ?_, fun hconf a ha path hvalue => ?_⟩
    · rw [← hst.same hno] at ha
      exact hr.announced a ha
    · by_cases hmem : a ∈ l.atts
      · exact hr.reflector hib a hmem
      · -- only the multiprotocol attributes are dropped
        constructor <;> intro htype <;>
          exact hmem (hst.others a ha (by rw [htype]; decide) (by rw [htype]; decide))
    · have htype : a.type = as4Path := by
        unfold type
        rw [hvalue]
        rfl
      exact hr.confederation hconf a
        (hst.others a ha (by rw [htype]; decide) (by rw [htype]; decide)) path (.inr hvalue)
  · intro hun
    obtain ⟨hunreach, hreflector, has4⟩ := hun c hc
    refine ⟨hl.nodup, hl.optional, fun hn => ?_, fun hn => ?_, fun hn => ?_, hst.nonzero, ?_, ?_, ?_, ?_⟩
    · exact (checkMandatory_eq (hmand (hst.announced_eq.mpr hn))).1
    · exact (checkMandatory_eq (hmand (hst.announced_eq.mpr hn))).2.1
    · exact (checkMandatory_eq (hmand (hst.announced_eq.mpr (.inl hn)))).2.2 hn
    · intro hib a ha path hvalue
      obtain ⟨hlen, hfirst, -⟩ := (checkAsPath_eq hl hpath ha hvalue).1 hib
      exact ⟨hlen, hfirst⟩
    · intro hib a ha
      by_cases hex : ∃ b ∈ c.list.atts, b.type = asPath
      · obtain ⟨b, hb, htype⟩ := hex
        have hb' := hst.others b hb (by rw [htype]; decide) (by rw [htype]; decide)
        obtain ⟨path, hvalue⟩ := hl.asPath_cases hb' htype
        exact ((checkAsPath_eq hl hpath hb' hvalue).1 hib).2.2 a ha
      · exact hreflector hib (fun b hb heq => hex ⟨b, hb, heq⟩) a (hst.sublist.subset ha)
    · rintro hconf a ha path (hvalue | hvalue)
      · exact (checkAsPath_eq hl hpath ha hvalue).2 hconf
      · exact has4 hconf a (hst.sublist.subset ha) path hvalue
    · intro a ha
      by_cases hex : ∃ b ∈ c.list.atts, b.type = mpReachNlri
      · exact hst.families hex a ha
      · exact hunreach (fun b hb heq => hex ⟨b, hb, heq⟩) a (hst.sublist.subset ha)

/-- An origin, an AS path with the peer in it and a nexthop. -/
def announcement : Message :=
  attributesOnly [0x40, 1, 1, 0, 0x40, 2, 4, 2, 1, 0xfd, 0xe8, 0x40, 3, 4, 10, 0, 0, 1] (by decide)

/-- The list that is decoded from it. -/
def announcementList : AttList := ⟨21, [⟨⟨false, true, false, false⟩, .origin .igp⟩,
  ⟨⟨false, true, false, false⟩, .asPath [⟨.sequence, [65000]⟩]⟩,
  ⟨⟨false, true, false, false⟩, .nextHop 0x0a000001⟩]⟩

theorem accepted_rules_announcement : Rules (externalPeer false) true announcementList := by
  have hload : loadAttributes (externalPeer false) announcement.toBuffer 23 18 =
      .ok ⟨41, 0, 3, announcementList⟩ := rfl
  have h : loadRawData none (externalPeer false) true announcement.toBuffer 23 18 true =
      .ok announcementList := rfl
  refine (accepted_rules_iff none _ _ _ _ _ _ h).mpr fun c hc => ?_
  rw [hload] at hc
  cases hc
  refine ⟨fun _ a ha => ?_, fun _ _ a ha => ?_, fun _ a ha path hvalue => ?_⟩
  all_goals
    simp only [announcementList, mem_cons, not_mem_nil, or_false] at ha
    rcases ha with rfl | rfl | rfl
  all_goals trivial

/-- From an external peer without multiprotocol families and without confederations: an
`MP_UNREACH_NLRI` of IPv6, a `CLUSTER_LIST`, and an `AS4_PATH` with a confederation segment, each on
its own. -/
theorem accepted_against_rules :
    (∃ l, loadRawData none (externalPeer false) true
      (attributesOnly [0x80, 15, 3, 0, 2, 1] (by decide)).toBuffer 23 6 false = .ok l ∧
      ¬ Rules (externalPeer false) false l) ∧
    (∃ l, loadRawData none (externalPeer false) true
      (attributesOnly [0x80, 10, 4, 1, 2, 3, 4] (by decide)).toBuffer 23 7 false = .ok l ∧
      ¬ Rules (externalPeer false) false l) ∧
    (∃ l, loadRawData none (externalPeer false) true
      (attributesOnly [0xc0, 17, 6, 3, 1, 0, 0, 0, 1] (by decide)).toBuffer 23 9 false = .ok l ∧
      ¬ Rules (externalPeer false) false l) := by
  refine ⟨⟨_, rfl, fun hr => ?_⟩, ⟨_, rfl, fun hr => ?_⟩, ⟨_, rfl, fun hr => ?_⟩⟩
  · exact Bool.false_ne_true (hr.announced _ (mem_singleton_self _))
  · exact (hr.reflector rfl _ (mem_singleton_self _)).1 rfl
  · exact Bool.false_ne_true
      (hr.confederation rfl _ (mem_singleton_self _) _ (.inr rfl)).symm

end Wire

end Xorp.Bgp

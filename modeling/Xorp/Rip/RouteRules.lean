/-
The rules of RIP's route table.

With filters that accept every route as it is, `update_route` follows the rules of a distance-vector
protocol, with one exception: where the origin still has an entry for the net that is not in the
table, an update that has to be taken is not.  It is lost when the table has no entry, since the old
entry comes back with its infinite cost, and it ends the process when the table has the entry of
another origin, since the origin cannot have two.
-/
import Xorp.Rip.Owned

namespace Xorp.Rip

open Linked Function Option RouteDB RouteEntry

variable {w : Nat} {ω π : Type} {C : Config w ω π}

/-! ### Filters that accept everything -/

/-- Filters that accept every route as it is. -/
def Config.AcceptsAll (C : Config w ω π) : Prop := ∀ kind r, C.runFilter kind r = (r, true)

/-- With them only a cost above infinity is not accepted. -/
theorem Config.AcceptsAll.doFiltering (h : C.AcceptsAll) (r : RouteEntry w ω π) :
    doFiltering C r = if r.cost > ripInfinity then ({ r with cost := ripInfinity }, false)
      else (r, true) := by
  have hall : ∀ kind r, C.runFilter kind r = (r, true) := h
  simp only [Rip.doFiltering, hall, if_true]

theorem Config.AcceptsAll.doFiltering_of_le (h : C.AcceptsAll)
    {r : RouteEntry w ω π} (hr : r.cost ≤ ripInfinity) : Rip.doFiltering C r = (r, true) := by
  rw [h.doFiltering, if_neg (by omega)]

/-- The values of a call pass the filters as they are. -/
theorem Config.AcceptsAll.newRoute (hC : C.AcceptsAll) {c : Call w ω π} (hcost : c.cost ≤ ripInfinity)
    (htag : c.tag ≤ 0xffff) (net : IPNet w) :
    let n := Rip.doFiltering C { ofCall c c.cost none with net := net }
    n.2 = true ∧ n.1.nexthop = c.nexthop ∧ n.1.tag = c.tag ∧ n.1.cost = c.cost := by
  intro n
  unfold ripInfinity at hcost
  have hmod : c.cost % 2 ^ 16 = c.cost := by omega
  have hn : n = _ := hC.doFiltering_of_le (show c.cost % 2 ^ 16 ≤ 16 by omega)
  rw [hn]
  refine ⟨rfl, rfl, ?_, hmod⟩
  show c.tag % 2 ^ 16 = c.tag
  omega

/-! ### Updates where the table has no entry -/

namespace RouteDB

variable {S T : RouteDB w ω π} {net : IPNet w} {ref : Nat} {r r' e : RouteEntry w ω π}
  {c : Call w ω π} [DecidableEq π] [DecidableEq ω]

omit [DecidableEq π] in
theorem createRoute_spec (hC : C.AcceptsAll) (hcost : c.cost ≤ ripInfinity) (htag : c.tag ≤ 0xffff)
    (hstore : S.store c.origin c.net = none) :
    ∃ T b r, S.createRoute C c = .ok (T, b) ∧ T.routes c.net = some S.next ∧
      T.heap S.next = some r ∧ (r.nexthop = c.nexthop ∧ r.tag = c.tag ∧
        r.cost = c.cost ∧ r.origin = some c.origin) ∧
      (r.cost < ripInfinity → T.pushed = S.pushed ++ [S.next]) := by
  have hmod : c.cost % 2 ^ 16 = c.cost := by
    unfold ripInfinity at hcost
    omega
  have hcreate := createRoute_eq (C := C) hstore
  rw [hC.doFiltering_of_le (show c.cost % 2 ^ 16 ≤ ripInfinity from hmod.symm ▸ hcost)] at hcreate
  refine ⟨_, _, _, hcreate, ?_, heap_settle _, ⟨rfl, ?_, hmod, rfl⟩, fun hlt => ?_⟩
  · exact (congrFun (routes_settle _) _).trans (update_self _ _ _)
  · show c.tag % 2 ^ 16 = c.tag
    omega
  · rw [decide_eq_true]
    · rfl
    · rintro (hno | hinf)
      · exact hno rfl
      · exact absurd hinf (Nat.ne_of_lt hlt)

/-- The entry that its origin still has comes back as it is. -/
theorem resurrect_spec (hC : C.AcceptsAll) (h : Owned S) (hnone : S.routes c.net = none)
    (hstore : S.store c.origin c.net = some ref) :
    ∃ T r, S.resurrect C ref c = .ok (T, false) ∧ T.routes c.net = some ref ∧
      T.heap ref = some r ∧ r.cost = ripInfinity := by
  obtain ⟨r, hr, -, hnet⟩ := h.stored.mp hstore
  have hinf : r.cost = ripInfinity := h.left hr (by rw [hnet, hnone]; exact nofun)
  rw [resurrect, hr]
  dsimp only
  rw [hC.doFiltering_of_le hinf.le, if_pos hinf]
  exact ⟨_, { r with filtered := false }, rfl, update_self _ _ _, update_self _ _ _, hinf⟩

/-! ### The rules -/

/-- Less than half of the entry's expiry time is left. -/
def HalfGone (S : RouteDB w ω π) (e : RouteEntry w ω π) : Prop :=
  ∃ o t, e.origin = some o ∧ e.timer = some t ∧ 2 * (t.due - S.now) < microseconds (S.expirySecs o)

/-- The call has a better route than the entry. -/
def Better (S : RouteDB w ω π) (e : RouteEntry w ω π) (c : Call w ω π) : Prop :=
  c.cost < e.cost ∨ (c.cost = e.cost ∧ c.cost < ripInfinity ∧ S.HalfGone e)

/-- The table has the values of the call. -/
def HasValues (T : RouteDB w ω π) (c : Call w ω π) : Prop :=
  ∃ e, T.entry c.net = some e ∧ e.nexthop = c.nexthop ∧ e.cost = c.cost ∧ e.tag = c.tag ∧
    e.origin = some c.origin

/-- The entry is another than before, and was or is of finite cost. -/
def Changed (S : RouteDB w ω π) (net : IPNet w) (e' : RouteEntry w ω π) : Prop :=
  match S.entry net with
  | none => e'.cost < ripInfinity
  | some e => (e.nexthop ≠ e'.nexthop ∨ e.cost ≠ e'.cost ∨ e.tag ≠ e'.tag) ∧
      (e.cost < ripInfinity ∨ e'.cost < ripInfinity)

/-- The rules of a distance-vector protocol, for a call and the table after it. -/
structure Follows (S : RouteDB w ω π) (c : Call w ω π) (T : RouteDB w ω π) : Prop where
  absent : S.entry c.net = none → c.cost < ripInfinity → T.HasValues c
  same : ∀ e, S.entry c.net = some e → e.origin = some c.origin → T.HasValues c
  better : ∀ e, S.entry c.net = some e → e.origin ≠ some c.origin → S.Better e c → T.HasValues c
  kept : ∀ e, S.entry c.net = some e → e.origin ≠ some c.origin → ¬ S.Better e c →
    T.entry c.net = some e
  pushed : ∀ ref e, T.routes c.net = some ref → T.heap ref = some e → S.Changed c.net e →
    T.pushed = S.pushed ++ [ref]

/-- The origin has an entry for the net that is not in the table. -/
def Leftover (S : RouteDB w ω π) (c : Call w ω π) : Prop :=
  ∃ ref, S.store c.origin c.net = some ref ∧ S.routes c.net ≠ some ref

/-- The rules take the values of the call. -/
def Takes (S : RouteDB w ω π) (c : Call w ω π) : Prop :=
  (S.entry c.net = none ∧ c.cost < ripInfinity) ∨
    ∃ e, S.entry c.net = some e ∧ (e.origin = some c.origin ∨ S.Better e c)

theorem lt_half_iff (n secs : Nat) : n < microseconds secs / 2 ↔ 2 * n < microseconds secs := by
  unfold microseconds
  omega

section
omit [DecidableEq π] [DecidableEq ω]

theorem showsTimeout_iff : S.showsTimeout e = true ↔ S.HalfGone e := by
  have hremain : ∀ t : Timer, (if t.due ≤ S.now then 0 else t.due - S.now) = t.due - S.now := by
    intro t
    split <;> omega
  unfold showsTimeout HalfGone
  cases ho : e.origin with
  | none => simp [microseconds]
  | some o =>
    cases ht : e.timer with
    | none =>
      show (if microseconds (S.expirySecs o) = 0 then false else false) = true ↔ _
      simp
    | some t =>
      show (if microseconds (S.expirySecs o) = 0 then false
        else decide ((if t.due ≤ S.now then 0 else t.due - S.now) <
          microseconds (S.expirySecs o) / 2)) = true ↔ _
      rw [hremain]
      by_cases hzero : microseconds (S.expirySecs o) = 0
      · simp [hzero]
      · rw [if_neg hzero, decide_eq_true_iff, lt_half_iff]
        simp

theorem shouldReplace_iff (hcost : c.cost ≤ ripInfinity) :
    S.shouldReplace e c.cost = true ↔ S.Better e c := by
  unfold shouldReplace Better
  by_cases h1 : e.cost > c.cost
  · simp [h1]
  · rw [if_neg h1]
    by_cases h2 : e.cost < c.cost
    · simp
      omega
    · rw [if_neg h2]
      have heq : c.cost = e.cost := by omega
      by_cases h3 : c.cost = ripInfinity
      · simp
        omega
      · rw [if_neg h3, showsTimeout_iff]
        simp [heq]
        omega

theorem entry_eq_some (htable : S.routes net = some ref) (hr : S.heap ref = some r) :
    S.entry net = some r := by
  rw [entry, htable]
  exact hr

theorem Owned.entry_eq_none (h : Owned S) : S.entry net = none ↔ S.routes net = none := by
  rw [entry]
  cases hroutes : S.routes net with
  | none => simp
  | some ref =>
    obtain ⟨e, he, -⟩ := h.table hroutes
    simp [he]

theorem Follows.of_entry (hentry : S.entry c.net = some r) (htable : T.routes c.net = some ref)
    (hheap : T.heap ref = some r')
    (hnew : r.origin = some c.origin ∨ S.Better r c → T.HasValues c)
    (hold : r.origin ≠ some c.origin → ¬ S.Better r c → r' = r)
    (hpush : r.nexthop ≠ r'.nexthop ∨ r.cost ≠ r'.cost ∨ r.tag ≠ r'.tag →
      T.pushed = S.pushed ++ [ref]) : S.Follows c T := by
  have heq : ∀ {e}, S.entry c.net = some e → r = e := fun he => some.inj (hentry.symm.trans he)
  refine ⟨fun hnone => ?_, fun e he hsame => ?_, fun e he _ hb => ?_, fun e he ho hb => ?_, ?_⟩
  · rw [hentry] at hnone
    cases hnone
  · exact hnew (.inl (heq he ▸ hsame))
  · exact hnew (.inr (heq he ▸ hb))
  · obtain rfl := heq he
    exact hold ho hb ▸ entry_eq_some htable hheap
  · intro k e hk he hch
    cases htable.symm.trans hk
    cases hheap.symm.trans he
    rw [Changed, hentry] at hch
    exact hpush hch.1

theorem Follows.of_none (hnone : S.entry c.net = none) (htable : T.routes c.net = some ref)
    (hheap : T.heap ref = some r) (hnew : c.cost < ripInfinity → T.HasValues c)
    (hpush : r.cost < ripInfinity → T.pushed = S.pushed ++ [ref]) : S.Follows c T := by
  have hno : ∀ {e}, S.entry c.net ≠ some e := by
    intro e he
    rw [hnone] at he
    cases he
  refine ⟨fun _ => hnew, fun e he => (hno he).elim, fun e he => (hno he).elim,
    fun e he => (hno he).elim, ?_⟩
  intro k e hk he hch
  cases htable.symm.trans hk
  cases hheap.symm.trans he
  rw [Changed, hnone] at hch
  exact hpush hch

end

section
variable (hC : C.AcceptsAll) (hcost : c.cost ≤ ripInfinity) (htag : c.tag ≤ 0xffff)
  (hr : S.heap ref = some r)
include hC hcost htag hr

/-- The entry is compared with the values of the call. -/
theorem applyUpdate_eq : ∃ n : RouteEntry w ω π, n.nexthop = c.nexthop ∧ n.tag = c.tag ∧
    n.cost = c.cost ∧ S.applyUpdate C ref c c.cost false = if r.origin = some c.origin then
      .ok (updateSame C S ref r n c.isPolicyPush true false)
    else updateOther C S ref r n c.origin true false := by
  obtain ⟨haccept, hnh, htg, hct⟩ := hC.newRoute hcost htag r.net
  refine ⟨_, hnh, htg, hct, ?_⟩
  rw [applyUpdate, hr]
  dsimp only
  rw [haccept]

variable (htable : S.routes c.net = some ref)
include htable

/-- **An update of the entry's own origin** follows the rules. -/
theorem follows_same (horigin : r.origin = some c.origin) :
    ∃ T b, S.applyUpdate C ref c c.cost false = .ok (T, b) ∧ S.Follows c T := by
  have hentry : S.entry c.net = some r := entry_eq_some htable hr
  obtain ⟨n, hnh, htg, hct, happly⟩ := applyUpdate_eq hC hcost htag hr
  obtain ⟨-, hxo, hxn, hxt, hxc⟩ := updatedEntry_spec C S r n c.isPolicyPush true false
  obtain ⟨x, p, hp, hx, -, -, -, -, hpush⟩ := updateSame_settles ref r n c.isPolicyPush true false
  rw [← hx.resolve_right fun hc => Bool.noConfusion hc.1] at hxo hxn hxt hxc
  rw [if_pos horigin, hp] at happly
  set T := S.settle ref x p with hT
  have hroutes : T.routes = S.routes := routes_settle p
  have hheap : T.heap ref = some x := heap_settle p
  have hhas : T.HasValues c :=
    ⟨x, entry_eq_some (hroutes ▸ htable) hheap, hxn.trans hnh, hxc.trans hct, hxt.trans htg,
      hxo.trans horigin⟩
  refine ⟨T, p, happly, .of_entry hentry (hroutes ▸ htable) hheap (fun _ => hhas)
    (fun hother => absurd horigin hother) fun hch => ?_⟩
  -- One of the setters reported a new value.
  have hflag : (r.take C n).2 = true := by
    by_contra hno
    obtain ⟨h1, h2, h3⟩ := (take_spec C r n).2 (by simpa using hno)
    rcases hch with hne | hne | hne
    · exact hne (hxn.trans h1).symm
    · exact hne (hxc.trans h3).symm
    · exact hne (hxt.trans h2).symm
  rw [hT, hpush rfl hflag]
  rfl

/-- **A better route of another origin** replaces the entry, unless the origin has an entry left
over. -/
theorem follows_better (h : Owned S) (hother : r.origin ≠ some c.origin) (hbetter : S.Better r c) :
    if (S.store c.origin c.net).isSome = true then
      S.applyUpdate C ref c c.cost false = .error .abort
    else ∃ T b, S.applyUpdate C ref c c.cost false = .ok (T, b) ∧ S.Follows c T := by
  have hentry : S.entry c.net = some r := entry_eq_some htable hr
  have hnet : r.net = c.net := h.toTied.table_of htable hr
  obtain ⟨n, hnh, htg, hct, happly⟩ := applyUpdate_eq hC hcost htag hr
  have hreplace : S.shouldReplace r n.cost = true := by
    rw [hct]
    exact (shouldReplace_iff hcost).mpr hbetter
  obtain ⟨o', ho'⟩ := h.origin hr
  have hne : c.origin ≠ o' := by
    rintro rfl
    exact hother ho'
  have htake := (take_spec C r n).1
  rw [happly, if_neg hother, updateOther_eq h.toTied hr ho' hne hreplace, hnet]
  by_cases hsome : (S.store c.origin c.net).isSome = true
  · rw [if_pos hsome, if_pos hsome]
  · rw [if_neg hsome, if_neg hsome]
    refine ⟨_, true, rfl, .of_entry hentry htable (update_self _ _ _) (fun _ => ?_)
      (fun _ hnot => absurd hbetter hnot) fun _ => rfl⟩
    refine ⟨_, entry_eq_some htable (update_self _ _ _), ?_, ?_, ?_, rfl⟩
    · exact (congrArg nexthop htake).trans hnh
    · exact (congrArg cost htake).trans hct
    · exact (congrArg tag htake).trans htg

/-- **A route of another origin that is not better** changes nothing. -/
theorem follows_kept (hother : r.origin ≠ some c.origin) (hworse : ¬ S.Better r c) :
    ∃ T b, S.applyUpdate C ref c c.cost false = .ok (T, b) ∧ S.Follows c T := by
  have hentry : S.entry c.net = some r := entry_eq_some htable hr
  obtain ⟨n, -, -, hct, happly⟩ := applyUpdate_eq hC hcost htag hr
  have hreplace : ¬ S.shouldReplace r n.cost = true := by
    rw [hct, shouldReplace_iff hcost]
    exact hworse
  rw [if_neg hother, updateOther, if_neg (not_not_intro rfl), if_neg hreplace,
    if_neg Bool.false_ne_true] at happly
  refine ⟨S, false, happly, .of_entry hentry htable hr ?_ (fun _ _ => rfl) (by simp)⟩
  rintro (hsame | hbetter)
  · contradiction
  · contradiction

end

section
variable (hC : C.AcceptsAll) (h : Owned S) (hcost : c.cost ≤ ripInfinity) (htag : c.tag ≤ 0xffff)
include hC h hcost htag

/-- The table has no entry: a new one is made, or the one that is left over comes back. -/
theorem follows_absent_iff (hroutes : S.routes c.net = none) :
    (∃ T b, S.updateRoute C c = .ok (T, b) ∧ S.Follows c T) ↔ ¬ (S.Leftover c ∧ S.Takes c) := by
  have hnone : S.entry c.net = none := h.entry_eq_none.mpr hroutes
  simp only [updateRoute, if_neg (Nat.not_lt.mpr htag), hroutes]
  cases hstore : S.store c.origin c.net with
  | none =>
    refine ⟨fun _ => ?_, fun _ => ?_⟩
    · rintro ⟨⟨ref, hs, -⟩, -⟩
      rw [hstore] at hs
      cases hs
    · obtain ⟨T, b, r, heq, hTroutes, hTheap, ⟨hnh, htg, hct, ho⟩, hpush⟩ :=
        createRoute_spec hC hcost htag hstore
      exact ⟨T, b, heq, .of_none hnone hTroutes hTheap
        (fun _ => ⟨r, entry_eq_some hTroutes hTheap, hnh, hct, htg, ho⟩) hpush⟩
  | some ref =>
    -- The entry left over comes back with infinite cost.
    obtain ⟨T, r, heq, hTroutes, hTheap, hinf⟩ := resurrect_spec hC h hroutes hstore
    have hleft : S.Leftover c := ⟨ref, hstore, by simp [hroutes]⟩
    have hTentry : T.entry c.net = some r := entry_eq_some hTroutes hTheap
    constructor
    · rintro ⟨T', b, heq', hfollows⟩ ⟨-, htakes⟩
      rw [show S.resurrect C ref c = .ok (T', b) from heq'] at heq
      cases heq
      rcases htakes with ⟨-, hlt⟩ | ⟨e, he, -⟩
      · obtain ⟨e, he, -, hc, -⟩ := hfollows.absent hnone hlt
        cases hTentry.symm.trans he
        omega
      · rw [hnone] at he
        cases he
    · intro hnot
      have hge : ¬ c.cost < ripInfinity := fun hlt => hnot ⟨hleft, .inl ⟨hnone, hlt⟩⟩
      exact ⟨T, false, heq, .of_none hnone hTroutes hTheap (fun hlt => absurd hlt hge)
        fun hlt => absurd hinf (Nat.ne_of_lt hlt)⟩

/-- The table has the entry of another origin, which is worse. -/
theorem follows_better_iff (hroutes : S.routes c.net = some ref) (hr : S.heap ref = some r)
    (hother : r.origin ≠ some c.origin) (hbetter : S.Better r c) :
    (∃ T b, S.applyUpdate C ref c c.cost false = .ok (T, b) ∧ S.Follows c T) ↔
      ¬ (S.Leftover c ∧ S.Takes c) := by
  have hspec := follows_better hC hcost htag hr hroutes h hother hbetter
  by_cases hsome : (S.store c.origin c.net).isSome = true
  · rw [if_pos hsome] at hspec
    obtain ⟨k, hk⟩ := isSome_iff_exists.mp hsome
    have hleft : S.Leftover c := by
      refine ⟨k, hk, fun heq => ?_⟩
      cases hroutes.symm.trans heq
      obtain ⟨e, he, heo, -⟩ := h.stored.mp hk
      cases hr.symm.trans he
      exact hother heo
    constructor
    · rintro ⟨T, b, heq, -⟩
      rw [heq] at hspec
      cases hspec
    · intro hnot
      exact absurd ⟨hleft, .inr ⟨r, entry_eq_some hroutes hr, .inr hbetter⟩⟩ hnot
  · rw [if_neg hsome] at hspec
    refine ⟨fun _ => ?_, fun _ => hspec⟩
    rintro ⟨⟨k, hk, -⟩, -⟩
    rw [hk] at hsome
    exact hsome rfl

/-- The table has an entry. -/
theorem follows_present_iff (hroutes : S.routes c.net = some ref) :
    (∃ T b, S.updateRoute C c = .ok (T, b) ∧ S.Follows c T) ↔ ¬ (S.Leftover c ∧ S.Takes c) := by
  obtain ⟨r, hr, hnet⟩ := h.table hroutes
  have hentry : S.entry c.net = some r := entry_eq_some hroutes hr
  obtain ⟨o', ho', hs'⟩ := h.exists_store hr
  simp only [updateRoute, if_neg (Nat.not_lt.mpr htag), hroutes]
  by_cases horigin : r.origin = some c.origin
  · -- Its own origin: nothing is left over.
    refine ⟨fun _ => ?_, fun _ => follows_same hC hcost htag hr hroutes horigin⟩
    rintro ⟨⟨k, hk, hne⟩, -⟩
    cases horigin.symm.trans ho'
    rw [hnet, hk] at hs'
    exact hne (hroutes.trans hs'.symm)
  · by_cases hbetter : S.Better r c
    · exact follows_better_iff hC h hcost htag hroutes hr horigin hbetter
    · refine ⟨fun _ => ?_, fun _ => follows_kept hC hcost htag hr hroutes horigin hbetter⟩
      rintro ⟨-, ⟨hnone, -⟩ | ⟨e, he, htakes⟩⟩
      · rw [hentry] at hnone
        cases hnone
      · cases hentry.symm.trans he
        exact htakes.elim horigin hbetter

end

/-- **An update follows the distance-vector rules** exactly where the tag is one and there is no entry
left over, from the origin of the call, in the way of values that the rules take. -/
theorem Owned.follows_iff (hC : C.AcceptsAll) (h : Owned S) (hcost : c.cost ≤ ripInfinity) :
    (∃ T b, S.updateRoute C c = .ok (T, b) ∧ S.Follows c T) ↔
      c.tag ≤ 0xffff ∧ ¬ (S.Leftover c ∧ S.Takes c) := by
  by_cases htag : c.tag ≤ 0xffff
  · rw [and_iff_right htag]
    cases hroutes : S.routes c.net with
    | none => exact follows_absent_iff hC h hcost htag hroutes
    | some ref => exact follows_present_iff hC h hcost htag hroutes
  · constructor
    · rintro ⟨T, b, heq, -⟩
      rw [RouteDB.updateRoute, if_pos (by omega)] at heq
      cases heq
    · rintro ⟨ht, -⟩
      contradiction

end RouteDB

end Xorp.Rip

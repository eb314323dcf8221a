/-
What RIP's `update_route` does to an entry.

The entries, the table and the stores of the origins refer to each other (`Tied`).  An update of the
same origin sets the values of the entry and its timer.  One of another origin moves the entry to the
store of that origin, which must not have an entry for the net yet.  Where the table has no entry the
update makes one, or takes the one that the origin still has.
-/
import Xorp.Rip.RouteDB
import Xorp.Lib.Outcome

namespace Xorp.Rip

open Linked Function Option RouteDB RouteEntry

variable {w : Nat} {ω π : Type}

/-! ### Setting an entry -/

variable {C : Config w ω π}

namespace RouteEntry

variable {r n : RouteEntry w ω π}

theorem setNexthop_eq (C : Config w ω π) (r : RouteEntry w ω π) (nexthop : BitVec w) :
    ∃ ifname vifname, r.setNexthop C nexthop =
      ({ r with nexthop := nexthop, ifname := ifname, vifname := vifname },
        decide (nexthop ≠ r.nexthop)) := by
  unfold setNexthop
  by_cases h : nexthop = r.nexthop
  · exact ⟨r.ifname, r.vifname, by rw [if_neg (not_not_intro h)]; simp [h]⟩
  · by_cases hl : C.linkLocalOrZero nexthop = true
    · exact ⟨r.ifname, r.vifname, by rw [if_pos hl]; simp [h]⟩
    · exact ⟨"", "", by rw [if_neg hl]; simp [h]⟩

/-- A setter that reports whether the value is new. -/
theorem ite_ne_eq {α β : Type} [DecidableEq α] {v x : α} {a b : β} (h : v = x → a = b) :
    (if v ≠ x then (a, true) else (b, false)) = (a, decide (v ≠ x)) := by
  by_cases hv : v = x
  · rw [if_neg (not_not_intro hv), h hv]
    simp [hv]
  · simp [hv]

section
variable (r : RouteEntry w ω π)

theorem setIfname_eq (ifname : String) :
    r.setIfname ifname = ({ r with ifname := ifname }, decide (ifname ≠ r.ifname)) :=
  ite_ne_eq fun h => by rw [h]

theorem setVifname_eq (vifname : String) :
    r.setVifname vifname = ({ r with vifname := vifname }, decide (vifname ≠ r.vifname)) :=
  ite_ne_eq fun h => by rw [h]

theorem setTag_eq (tag : Nat) :
    r.setTag tag = ({ r with tag := tag }, decide (tag ≠ r.tag)) :=
  ite_ne_eq fun h => by rw [h]

theorem setCost_eq (cost : Nat) :
    r.setCost cost = ({ r with cost := cost }, decide (cost ≠ r.cost)) :=
  ite_ne_eq fun h => by rw [h]

theorem setPolicytags_eq [DecidableEq π] (policytags : π) : r.setPolicytags policytags =
      ({ r with policytags := policytags }, decide (policytags ≠ r.policytags)) :=
  ite_ne_eq fun h => by rw [h]

end

/-- What the setters do together: the entry takes the values, and the flag is set if one of them
is new. -/
theorem take_spec [DecidableEq π] (C : Config w ω π) (r n : RouteEntry w ω π) :
    (r.take C n).1 = { r with
      nexthop := n.nexthop
      ifname := n.ifname
      vifname := n.vifname
      tag := n.tag
      cost := n.cost
      policytags := n.policytags } ∧
    ((r.take C n).2 = false → n.nexthop = r.nexthop ∧ n.tag = r.tag ∧ n.cost = r.cost) := by
  obtain ⟨ifname, vifname, hnh⟩ := setNexthop_eq C r n.nexthop
  unfold take
  simp only [hnh, setIfname_eq, setVifname_eq, setTag_eq, setCost_eq, setPolicytags_eq, true_and]
  simp only [Bool.or_eq_false_iff, decide_eq_false_iff_not, ne_eq, not_not]
  tauto

end RouteEntry

/-! ### The table, the stores and the entries -/

namespace RouteDB

variable {S T : RouteDB w ω π} {net : IPNet w} {o o' : ω} {ref : Nat} {r r' n e : RouteEntry w ω π}
  {c : Call w ω π}

/-- A timer that deletes is for an entry of infinite cost. -/
def DeletesInfinite (e : RouteEntry w ω π) : Prop :=
  ∀ t, e.timer = some t → t.scheduled = true → t.action = .deleteRoute → e.cost = ripInfinity

/-- Entries, table and stores refer to each other. -/
structure Tied (S : RouteDB w ω π) : Prop where
  fresh : ∀ k, S.next ≤ k → S.heap k = none
  table : ∀ {net k}, S.routes net = some k → ∃ r, S.heap k = some r ∧ r.net = net
  stored : ∀ {o net k}, S.store o net = some k ↔
    ∃ r, S.heap k = some r ∧ r.origin = some o ∧ r.net = net
  origin : ∀ {k r}, S.heap k = some r → ∃ o, r.origin = some o

namespace Tied

variable (h : Tied S)
include h

theorem lt_next (hr : S.heap ref = some r) : ref < S.next := by
  by_contra hle
  rw [h.fresh ref (Nat.not_lt.mp hle)] at hr
  cases hr

theorem table_of (ht : S.routes net = some ref) (hr : S.heap ref = some r) : r.net = net := by
  obtain ⟨y, hy, hnet⟩ := h.table ht
  cases hr.symm.trans hy
  exact hnet

/-- An entry is in the store of its origin, under its net, and nowhere else. -/
theorem store_iff (hr : S.heap ref = some r) (horigin : r.origin = some o') :
    S.store o net = some ref ↔ o = o' ∧ net = r.net := by
  rw [h.stored]
  constructor
  · rintro ⟨y, hy, hoy, hny⟩
    cases hr.symm.trans hy
    exact ⟨some.inj (hoy.symm.trans horigin), hny.symm⟩
  · rintro ⟨rfl, rfl⟩
    exact ⟨r, hr, horigin, rfl⟩

theorem exists_store (hr : S.heap ref = some r) :
    ∃ o, r.origin = some o ∧ S.store o r.net = some ref := by
  obtain ⟨o, ho⟩ := h.origin hr
  exact ⟨o, ho, h.stored.mpr ⟨r, hr, ho, rfl⟩⟩

end Tied

section
variable [DecidableEq ω]

/-- The stores when an entry belongs to this origin, and to no other. -/
def owning (store : ω → IPNet w → Option Nat) (o : ω) (net : IPNet w) (k : Nat) :
    ω → IPNet w → Option Nat :=
  fun a m => if m = net then
    (if a = o then some k else if store a m = some k then none else store a m) else store a m

theorem owning_self (h : Tied S) (hx : S.heap k = some x) (ho : x.origin = some o) :
    owning S.store o x.net k = S.store := by
  funext a m
  unfold owning
  split_ifs with hm ha hk
  · exact ((h.store_iff hx ho).mpr ⟨ha, hm⟩).symm
  · exact absurd ((h.store_iff hx ho).mp hk).1 ha
  · rfl
  · rfl

theorem owning_next (h : Tied S) : owning S.store o net S.next =
    update S.store o (update (S.store o) net (some S.next)) := by
  have hnew : ∀ a m, S.store a m ≠ some S.next := by
    intro a m hs
    obtain ⟨x, hx, -⟩ := h.stored.mp hs
    exact absurd (h.lt_next hx) (Nat.lt_irrefl _)
  funext a m
  unfold owning
  by_cases ha : a = o
  · subst ha
    rw [update_self, update_apply, if_pos rfl]
  · rw [update_of_ne ha, if_neg ha, if_neg (hnew a m), ite_self]

end

theorem update_of_table (h : S.routes net = some ref) :
    update S.routes net (some ref) = S.routes := by
  rw [← h]
  exact update_eq_self net S.routes

/-! ### An update of the same origin -/

/-- The entry that an update of the same origin leaves. -/
def updatedEntry [DecidableEq π] (C : Config w ω π) (S : RouteDB w ω π) (r n : RouteEntry w ω π)
    (isPolicyPush accepted updated : Bool) : RouteEntry w ω π :=
  { S.retime isPolicyPush r.cost n.cost (updated || (r.take C n).2) (r.take C n).1 with
    filtered := !accepted }

theorem retime_eq (isPolicyPush : Bool) (origCost cost : Nat) (updated : Bool) :
    ∃ timer, S.retime isPolicyPush origCost cost updated r = { r with timer := timer } := by
  unfold retime
  split
  · split
    · exact ⟨r.timer, rfl⟩
    · exact ⟨_, rfl⟩
  · split
    · exact ⟨r.timer, rfl⟩
    · exact ⟨_, rfl⟩

/-- The entry is set, and pushed if `b` says so. -/
def settle (S : RouteDB w ω π) (k : Nat) (r : RouteEntry w ω π) (b : Bool) : RouteDB w ω π :=
  bif b then (S.setEntry k r).pushBack k else S.setEntry k r

theorem setEntry_self (hr : S.heap ref = some r) : S.setEntry ref r = S := by
  have heap : update S.heap ref (some r) = S.heap := by
    rw [← hr]
    exact update_eq_self ref S.heap
  unfold setEntry
  rw [heap]

theorem routes_settle (b : Bool) : (S.settle ref r b).routes = S.routes := by
  cases b <;> rfl

theorem heap_settle (b : Bool) : (S.settle ref r b).heap ref = some r := by
  cases b <;> exact update_self _ _ _

theorem ok_settle (b : Bool) : (if b = true then ((S.setEntry ref r).pushBack ref, true)
    else (S.setEntry ref r, false)) = (S.settle ref r b, b) := by
  cases b <;> rfl

theorem deletesInfinite_of_expiryTimer (he : e.timer = (S.setExpiryTimer r).timer) :
    DeletesInfinite e := by
  intro t ht _ ha
  rw [he, setExpiryTimer] at ht
  split at ht
  · cases ht
    cases ha
  · cases ht

variable [DecidableEq π]

theorem updatedEntry_spec (C : Config w ω π) (S : RouteDB w ω π) (r n : RouteEntry w ω π)
    (isPolicyPush accepted updated : Bool) :
    let x := updatedEntry C S r n isPolicyPush accepted updated
    x.net = r.net ∧ x.origin = r.origin ∧ x.nexthop = n.nexthop ∧ x.tag = n.tag ∧
      x.cost = n.cost := by
  obtain ⟨timer, htimer⟩ := retime_eq isPolicyPush r.cost n.cost (updated || (r.take C n).2)
  unfold updatedEntry
  rw [htimer, (take_spec C r n).1]
  exact ⟨rfl, rfl, rfl, rfl, rfl⟩

/-- Its timer deletes it only at infinite cost. -/
theorem deletesInfinite_updatedEntry (h : DeletesInfinite r) (isPolicyPush accepted updated : Bool) :
    DeletesInfinite (updatedEntry C S r n isPolicyPush accepted updated) := by
  have hcost := (updatedEntry_spec C S r n isPolicyPush accepted updated).2.2.2.2
  intro t ht hs ha
  rw [hcost]
  by_cases hinf : n.cost = ripInfinity
  · exact hinf
  · have ht : (S.retime isPolicyPush r.cost n.cost (updated || (r.take C n).2)
        (r.take C n).1).timer = some t := ht
    rw [retime, if_neg hinf] at ht
    split at ht
    · -- Nothing is new, so the timer is that of the entry, and so is the cost.
      rename_i hsame
      simp only [Bool.or_eq_true, not_or, Bool.not_eq_true] at hsame
      obtain ⟨heq, hval⟩ := take_spec C r n
      rw [heq] at ht
      rw [(hval hsame.2.2).2.2]
      exact h t ht hs ha
    · simp only [setExpiryTimer] at ht
      split at ht
      · cases ht
        cases ha
      · cases ht

/-- The entry is set, and pushed if it has other values. -/
theorem updateSame_settles (k : Nat)
    (r n : RouteEntry w ω π) (isPolicyPush accepted updated : Bool) :
    ∃ r' b, updateSame C S k r n isPolicyPush accepted updated = (S.settle k r' b, b) ∧
      (r' = updatedEntry C S r n isPolicyPush accepted updated ∨
        accepted = false ∧ n.cost ≠ ripInfinity) ∧
      r'.net = r.net ∧ r'.origin = r.origin ∧ r'.tag = n.tag ∧
      (DeletesInfinite r → DeletesInfinite r') ∧
      (accepted = true → (r.take C n).2 = true → b = true) := by
  obtain ⟨hnet, horigin, -, htag, -⟩ := updatedEntry_spec C S r n isPolicyPush accepted updated
  have htimer : DeletesInfinite r → DeletesInfinite _ := fun h =>
    deletesInfinite_updatedEntry (C := C) (S := S) (n := n) h isPolicyPush accepted updated
  set y := updatedEntry C S r n isPolicyPush accepted updated with hy
  rw [updatedEntry] at hy
  unfold updateSame
  simp only [← hy]
  cases accepted with
  | true =>
    exact ⟨y, _, ok_settle _, .inl rfl, hnet, horigin, htag, htimer, fun _ hch => by simp [hch]⟩
  | false =>
    rw [if_neg Bool.false_ne_true]
    split_ifs with _ hcost
    · exact ⟨y, false, rfl, .inl rfl, hnet, horigin, htag, htimer, nofun⟩
    · exact ⟨_, true, rfl, .inr ⟨rfl, hcost⟩, hnet, horigin, htag, fun _ _ _ _ _ => rfl, nofun⟩
    · exact ⟨y, true, rfl, .inl rfl, hnet, horigin, htag, htimer, nofun⟩
    · exact ⟨y, false, rfl, .inl rfl, hnet, horigin, htag, htimer, nofun⟩

/-! ### An update of another origin -/

variable [DecidableEq ω]

omit [DecidableEq π] in
/-- `set_origin` moves the entry from one store to the other, unless there is one already. -/
theorem setOrigin_eq (hstore : ∀ a m, S.store a m = some ref ↔ a = o' ∧ m = r.net)
    (horigin : r.origin = some o') (hne : o ≠ o') :
    S.setOrigin ref r o = if (S.store o r.net).isSome = true then .error .abort
      else .ok { S with store := owning S.store o r.net ref } := by
  set rest := update S.store o' (update (S.store o') r.net none) with hrest
  have hdis : S.dissociate o' r.net = .ok { S with store := rest } := by
    rw [dissociate, if_neg (by simp [(hstore o' r.net).mpr])]
  have hcalc : S.setOrigin ref r o = associate { S with store := rest } o r.net ref := by
    rw [setOrigin, horigin]
    dsimp only
    rw [hdis]
    rfl
  have hat : rest o = S.store o := update_of_ne hne _ _
  rw [hcalc, associate]
  simp only [hat]
  congr 3
  funext a m
  simp only [owning, hstore, hrest]
  by_cases ha : a = o
  · subst ha
    rw [update_self, update_apply, if_pos rfl]
  · rw [update_of_ne ha, if_neg ha]
    by_cases ha' : a = o'
    · subst ha'
      by_cases hm : m = r.net
      · simp [hm]
      · simp [hm]
    · simp [ha']

/-- A route that replaces the entry of another origin. -/
theorem updateOther_eq (h : Tied S) (hr : S.heap ref = some r) (horigin : r.origin = some o')
    (hne : o ≠ o') (hreplace : S.shouldReplace r n.cost = true) (updated : Bool) :
    updateOther C S ref r n o true updated = if (S.store o r.net).isSome = true then .error .abort
      else
        let U : RouteDB w ω π := { S with store := owning S.store o r.net ref }
        .ok ((U.setEntry ref (U.setExpiryTimer { (r.take C n).1 with origin := some o })).pushBack ref,
          true) := by
  obtain ⟨htake, -⟩ := take_spec C r n
  have hnet : (r.take C n).1.net = r.net := by rw [htake]
  have ho : (r.take C n).1.origin = some o' := by
    rw [htake]
    exact horigin
  have hset := setOrigin_eq (fun a m => hnet ▸ h.store_iff hr horigin) ho hne
  rw [hnet] at hset
  rw [updateOther, if_neg (not_not_intro rfl), if_pos hreplace]
  dsimp only
  rw [hset]
  split_ifs <;> rfl

/-! ### A new entry -/

omit [DecidableEq π] in
theorem createRoute_eq (hstore : S.store c.origin c.net = none) :
    let f := Rip.doFiltering C (S.setExpiryTimer (.ofCall c c.cost (some c.origin)))
    let r : RouteEntry w ω π := { f.1 with filtered := !f.2 }
    let V : RouteDB w ω π := { S with
      heap := update S.heap S.next (some r)
      next := S.next + 1
      routes := update S.routes c.net (some S.next)
      store := update S.store c.origin (update (S.store c.origin) c.net (some S.next)) }
    let b := decide ¬ (¬ f.2 = true ∨ f.1.cost = ripInfinity)
    S.createRoute C c = .ok (V.settle S.next r b, b) := by
  intro f r V b
  have hset : V.setEntry S.next r = V := setEntry_self (update_self _ _ _)
  rw [createRoute, associate, if_neg (by simp [hstore]), ok_bind, settle, hset]
  show (if ¬ f.2 = true ∨ f.1.cost = ripInfinity then Except.ok (V, false)
    else .ok (V.pushBack S.next, true)) = _
  by_cases hc : ¬ f.2 = true ∨ f.1.cost = ripInfinity
  · rw [if_pos hc, show b = false from decide_eq_false (not_not_intro hc)]
    rfl
  · rw [if_neg hc, show b = true from decide_eq_true hc]
    rfl

/-! ### The end of an entry -/

section
omit [DecidableEq π]

theorem store_free {a : ω} :
    update S.store o (update (S.store o) net none) a m = some j ↔
      ¬ (a = o ∧ m = net) ∧ S.store a m = some j := by
  by_cases ha : a = o
  · subst ha
    rw [update_self, update_none_iff]
    simp
  · simp [ha]

/-- The last reference to an entry that is not in the table goes. -/
theorem Tied.free (h : Tied S) (hr : S.heap ref = some r) (hout : S.routes r.net ≠ some ref)
    (horigin : r.origin = some o) :
    Tied { S with
      heap := update S.heap ref none
      store := update S.store o (update (S.store o) r.net none) } where
  fresh j hj := eq_none_iff_forall_ne_some.mpr fun x hx => by
    rw [update_none_iff, h.fresh j hj] at hx
    cases hx.2
  table := by
    intro net j hj
    obtain ⟨y, hy, hnet⟩ := h.table hj
    refine ⟨y, update_none_iff.mpr ⟨?_, hy⟩, hnet⟩
    rintro rfl
    exact hout (h.table_of hj hr ▸ hj)
  stored := by
    intro a net j
    rw [store_free]
    constructor
    · rintro ⟨hne, hs⟩
      obtain ⟨y, hy, ha, hnet⟩ := h.stored.mp hs
      refine ⟨y, update_none_iff.mpr ⟨?_, hy⟩, ha, hnet⟩
      rintro rfl
      exact hne ((h.store_iff hr horigin).mp hs)
    · rintro ⟨y, hy, ha, hnet⟩
      obtain ⟨hj, hy⟩ := update_none_iff.mp hy
      have hs := h.stored.mpr ⟨y, hy, ha, hnet⟩
      refine ⟨?_, hs⟩
      rintro ⟨rfl, rfl⟩
      exact hj (some.inj (hs.symm.trans ((h.store_iff hr horigin).mpr ⟨rfl, rfl⟩)))
  origin hy := h.origin (update_none_iff.mp hy).2

end

end RouteDB

end Xorp.Rip

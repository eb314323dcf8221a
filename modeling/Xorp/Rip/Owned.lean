/-
Who owns RIP's routes.

`Owned` says how the entries, the table, the stores of the origins and the update queue belong
together, with any filters.  An update does one thing to them: one entry, which may be a new one, gets
other values, the table refers to it, and it is in the store of the origin that made the call and in no
other (`Puts`).  The one update that cannot do this is `Clash`: the entry of the table goes over to an
origin that has another entry for the net, which left the table and waits in the update queue.
-/
import Xorp.Rip.UpdateRoute

namespace Xorp.Rip

open Linked Function Option RouteEntry

variable {w : Nat} {ω π : Type}

/-- Filters change neither the net nor the origin nor the timer of a route, and write tags of 16
bits. -/
structure Config.KeepsOwner (C : Config w ω π) : Prop where
  net : ∀ kind r, (C.runFilter kind r).1.net = r.net
  origin : ∀ kind r, (C.runFilter kind r).1.origin = r.origin
  timer : ∀ kind r, (C.runFilter kind r).1.timer = r.timer
  tag : ∀ kind r, r.tag ≤ 0xffff → (C.runFilter kind r).1.tag ≤ 0xffff

/-- What is the same of two values of an entry. -/
structure RouteEntry.SameOwner (r r' : RouteEntry w ω π) : Prop where
  net : r'.net = r.net
  origin : r'.origin = r.origin
  timer : r'.timer = r.timer
  tag : r.tag ≤ 0xffff → r'.tag ≤ 0xffff

namespace RouteEntry.SameOwner

theorem refl (r : RouteEntry w ω π) : r.SameOwner r := ⟨rfl, rfl, rfl, id⟩

theorem trans {a b c : RouteEntry w ω π} (h : a.SameOwner b) (h' : b.SameOwner c) : a.SameOwner c :=
  ⟨h'.net.trans h.net, h'.origin.trans h.origin, h'.timer.trans h.timer, fun ht => h'.tag (h.tag ht)⟩

end RouteEntry.SameOwner

theorem Config.KeepsOwner.doFiltering {C : Config w ω π} (hC : C.KeepsOwner)
    (r : RouteEntry w ω π) : r.SameOwner (doFiltering C r).1 := by
  have hrun : ∀ kind (x : RouteEntry w ω π), x.SameOwner (C.runFilter kind x).1 :=
    fun kind x => ⟨hC.net kind x, hC.origin kind x, hC.timer kind x, hC.tag kind x⟩
  have hstep : ∀ kind (x : RouteEntry w ω π × Bool),
      x.1.SameOwner (if x.2 then C.runFilter kind x.1 else x).1 := by
    intro kind x
    by_cases hx : x.2 = true
    · rw [if_pos hx]
      exact hrun kind x.1
    · rw [if_neg hx]
      exact .refl x.1
  have hcap : ∀ x : RouteEntry w ω π × Bool, x.1.SameOwner
      (if x.1.cost > ripInfinity then ({ x.1 with cost := ripInfinity }, false)
        else (x.1, x.2)).1 := by
    intro x
    by_cases hx : x.1.cost > ripInfinity
    · rw [if_pos hx]
      exact ⟨rfl, rfl, rfl, id⟩
    · rw [if_neg hx]
      exact .refl x.1
  exact (((hrun .importFilter r).trans (hstep .exportSourcematch _)).trans
    (hstep .exportFilter _)).trans (hcap _)

namespace RouteDB

variable {S T : RouteDB w ω π} {C : Config w ω π} {net : IPNet w} {o : ω} {k : Nat}
  {r n x : RouteEntry w ω π} {c : Call w ω π} {b : Bool}

/-! ### Owners -/

/-- Entries, table, stores and queue belong together.  What is not in the table has infinite cost and
no timer that runs, and an entry that waits for its deletion has infinite cost. -/
structure Owned (S : RouteDB w ω π) : Prop extends Tied S where
  queued : ∀ {k}, k ∈ S.held → ∃ r, S.heap k = some r
  scheduled : ∀ {k r}, S.heap k = some r → r.scheduled = true → S.routes r.net = some k
  tag : ∀ {k r}, S.heap k = some r → r.tag ≤ 0xffff
  timer : ∀ {k r}, S.heap k = some r → DeletesInfinite r
  left : ∀ {k r}, S.heap k = some r → S.routes r.net ≠ some k → r.cost = ripInfinity
  rib : ∀ {net r}, S.ribRoutes net = some r → r.net = net ∧ r.tag ≤ 0xffff

variable [DecidableEq ω]

/-- What an update that returned has done: an entry has these values and this origin, and `b` says
if it was pushed. -/
structure Puts (S T : RouteDB w ω π) (net : IPNet w) (k : Nat) (o : ω) (r : RouteEntry w ω π)
    (b : Bool) : Prop where
  known : (∃ x, S.heap k = some x ∧ x.net = net) ∨ k = S.next
  free : S.routes net = none ∨ S.routes net = some k
  mine : S.store o net = none ∨ S.store o net = some k
  net_eq : r.net = net
  origin : r.origin = some o
  tag : r.tag ≤ 0xffff
  timer : DeletesInfinite r
  heap : T.heap = Function.update S.heap k (some r)
  next : T.next = max S.next (k + 1)
  routes : T.routes = Function.update S.routes net (some k)
  store : T.store = owning S.store o net k
  held : T.held = if b = true ∧ S.readers ≠ 0 then S.held ++ [k] else S.held
  readers : T.readers = S.readers
  ribRoutes : T.ribRoutes = S.ribRoutes

/-- What is nothing or this is no other. -/
theorem ne_other {x : Option Nat} (h : x = none ∨ x = some k) (hj : j ≠ k) : x ≠ some j := by
  rintro rfl
  rcases h with h | h
  · cases h
  · exact hj (some.inj h)

namespace Puts

variable (p : Puts S T net k o r b)
include p

theorem heap_self : T.heap k = some r := by
  rw [p.heap, update_self]

variable {j : Nat}

theorem heap_of_ne (hj : j ≠ k) : T.heap j = S.heap j := by
  rw [p.heap, update_of_ne hj]

theorem heap_cases (hx : T.heap j = some x) :
    (j = k ∧ x = r) ∨ (j ≠ k ∧ S.heap j = some x) := by
  by_cases hj : j = k
  · rw [hj, p.heap_self] at hx
    exact .inl ⟨hj, (some.inj hx).symm⟩
  · exact .inr ⟨hj, (p.heap_of_ne hj).symm.trans hx⟩

theorem routes_self : T.routes net = some k := by
  rw [p.routes, update_self]

variable {m : IPNet w}

theorem routes_of_ne (hm : m ≠ net) : T.routes m = S.routes m := by
  rw [p.routes, update_of_ne hm]

/-- The table refers to the same other entries as before. -/
theorem routes_eq_iff (hj : j ≠ k) : T.routes m = some j ↔ S.routes m = some j := by
  by_cases hn : m = net
  · rw [hn, p.routes_self]
    exact iff_of_false (ne_other (.inr rfl) hj) (ne_other p.free hj)
  · rw [p.routes_of_ne hn]

/-- No other entry belongs to the origin, and the entry belongs to no other origin. -/
theorem stored (h : Tied S) {a : ω} :
    T.store a m = some j ↔ ∃ x, T.heap j = some x ∧ x.origin = some a ∧ x.net = m := by
  -- Where the entry was known it was one of the net.
  have hnet : ∀ {a m}, S.store a m = some k → m = net := by
    intro a m hs
    obtain ⟨y, hy, -, hym⟩ := h.stored.mp hs
    rcases p.known with ⟨x, hx, hxn⟩ | hk
    · rw [hx] at hy
      cases hy
      exact hym.symm.trans hxn
    · rw [h.fresh k (Nat.le_of_eq hk.symm)] at hy
      cases hy
  rw [p.store, owning]
  by_cases hj : j = k
  · subst hj
    constructor
    · intro hs
      split_ifs at hs with hm ha hk
      · exact ⟨r, p.heap_self, ha ▸ p.origin, p.net_eq.trans hm.symm⟩
      · contradiction
      · exact absurd (hnet hs) hm
    · rintro ⟨y, hy, ha, hm⟩
      rw [p.heap_self] at hy
      cases hy
      rw [p.origin] at ha
      rw [if_pos (hm.symm.trans p.net_eq), if_pos (some.inj ha).symm]
  · rw [p.heap_of_ne hj, ← h.stored]
    by_cases hm : m = net
    · rw [if_pos hm]
      by_cases ha : a = o
      · rw [if_pos ha, ha, hm]
        exact iff_of_false (ne_other (.inr rfl) hj) (ne_other p.mine hj)
      · split_ifs with hk
        · rw [hk]
          exact iff_of_false (by simp) (ne_other (.inr rfl) hj)
        · exact Iff.rfl
    · rw [if_neg hm]

theorem tied (h : Tied S) : Tied T where
  fresh j hj := by
    rw [p.next] at hj
    rw [p.heap_of_ne (by omega)]
    exact h.fresh j (by omega)
  table := by
    intro m j hm
    by_cases hn : m = net
    · rw [hn, p.routes_self] at hm
      cases hm
      exact ⟨r, p.heap_self, p.net_eq.trans hn.symm⟩
    · rw [p.routes_of_ne hn] at hm
      obtain ⟨y, hy, hym⟩ := h.table hm
      have hj : j ≠ k := by
        rintro rfl
        rcases p.known with ⟨x, hx, hxn⟩ | hk
        · exact hn ((h.table_of hm hx).symm.trans hxn)
        · exact absurd (h.lt_next hy) (by omega)
      exact ⟨y, (p.heap_of_ne hj).trans hy, hym⟩
  stored := p.stored h
  origin := by
    intro j y hy
    obtain ⟨-, rfl⟩ | ⟨-, hy⟩ := p.heap_cases hy
    · exact ⟨o, p.origin⟩
    · exact h.origin hy

theorem mem_held {j : Nat} (hj : j ∈ T.held) : j ∈ S.held ∨ j = k := by
  rw [p.held] at hj
  split at hj
  · simpa using hj
  · exact .inl hj

theorem owned (h : Owned S) : Owned T where
  toTied := p.tied h.toTied
  queued := by
    intro j hj
    by_cases hjk : j = k
    · exact ⟨r, hjk ▸ p.heap_self⟩
    · rw [p.heap_of_ne hjk]
      exact h.queued ((p.mem_held hj).resolve_right hjk)
  scheduled := by
    intro j y hy hs
    obtain ⟨rfl, rfl⟩ | ⟨hj, hy⟩ := p.heap_cases hy
    · rw [p.net_eq]
      exact p.routes_self
    · exact (p.routes_eq_iff hj).mpr (h.scheduled hy hs)
  tag := by
    intro j y hy
    obtain ⟨-, rfl⟩ | ⟨-, hy⟩ := p.heap_cases hy
    · exact p.tag
    · exact h.tag hy
  timer := by
    intro j y hy
    obtain ⟨-, rfl⟩ | ⟨-, hy⟩ := p.heap_cases hy
    · exact p.timer
    · exact h.timer hy
  left := by
    intro j y hy hout
    obtain ⟨rfl, rfl⟩ | ⟨hj, hy⟩ := p.heap_cases hy
    · exact absurd (p.net_eq ▸ p.routes_self) hout
    · exact h.left hy ((p.routes_eq_iff hj).not.mp hout)
  rib := by
    rw [p.ribRoutes]
    exact h.rib

end Puts

/-! ### What an update puts -/

/-- Setting the entry of a table and of stores that know it already is all that is left to do. -/
theorem Puts.of_settle {S₁ : RouteDB w ω π}
    (known : (∃ x, S.heap k = some x ∧ x.net = net) ∨ k = S.next)
    (free : S.routes net = none ∨ S.routes net = some k)
    (mine : S.store o net = none ∨ S.store o net = some k)
    (hnet : r.net = net) (origin : r.origin = some o) (tag : r.tag ≤ 0xffff)
    (timer : DeletesInfinite r) (heap : update S₁.heap k (some r) = update S.heap k (some r))
    (next : S₁.next = max S.next (k + 1))
    (routes : S₁.routes = update S.routes net (some k))
    (store : S₁.store = owning S.store o net k)
    (held : S₁.held = S.held) (readers : S₁.readers = S.readers)
    (ribRoutes : S₁.ribRoutes = S.ribRoutes) : Puts S (S₁.settle k r b) net k o r b := by
  cases b <;>
    refine ⟨known, free, mine, hnet, origin, tag, timer, heap, next, routes, store, ?_, readers,
      ribRoutes⟩
  · exact held
  · show (if S₁.readers = 0 then S₁.held else S₁.held ++ [k]) = _
    rw [held, readers]
    by_cases hzero : S.readers = 0
    · rw [if_pos hzero, if_neg (by simp [hzero])]
    · rw [if_neg hzero, if_pos ⟨rfl, hzero⟩]

variable [DecidableEq π]

/-- The values that an update brings, filtered. -/
def brought (C : Config w ω π) (c : Call w ω π) : RouteEntry w ω π × Bool :=
  doFiltering C (.ofCall c c.cost none)

omit [DecidableEq ω] [DecidableEq π] in
theorem tag_filtered (hC : C.KeepsOwner) (cost : Nat) :
    (doFiltering C { ofCall c cost none with net := net }).1.tag ≤ 0xffff := by
  refine (hC.doFiltering _).tag ?_
  show c.tag % 2 ^ 16 ≤ 0xffff
  omega

/-- The entry of the table would go over to an origin that has another entry for the net. -/
def Clash (C : Config w ω π) (S : RouteDB w ω π) (c : Call w ω π) : Prop :=
  ∃ k r, S.routes c.net = some k ∧ S.heap k = some r ∧ r.origin ≠ some c.origin ∧
    (brought C c).2 = true ∧ S.shouldReplace r (brought C c).1.cost = true ∧
    (S.store c.origin c.net).isSome = true

/-- The entry that an update is about. -/
def entryFor (S : RouteDB w ω π) (c : Call w ω π) : Nat :=
  (S.routes c.net).getD ((S.store c.origin c.net).getD S.next)

theorem applyUpdate_same (hC : C.KeepsOwner) (hx : S.heap k = some x)
    (ho : x.origin = some c.origin) (cost : Nat) (updated : Bool) :
    ∃ r b, S.applyUpdate C k c cost updated = .ok (S.settle k r b, b) ∧
      r.net = x.net ∧ r.origin = x.origin ∧ r.tag ≤ 0xffff ∧
      (DeletesInfinite x → DeletesInfinite r) := by
  unfold applyUpdate
  rw [hx]
  dsimp only
  rw [if_pos ho]
  obtain ⟨r, b, heq, -, hnet, horigin, htag, htimer, -⟩ := updateSame_settles k x
    (doFiltering C { ofCall c cost none with net := x.net }).1 c.isPolicyPush
    (doFiltering C { ofCall c cost none with net := x.net }).2 updated
  exact ⟨r, b, congrArg Except.ok heq, hnet, horigin, htag ▸ tag_filtered hC cost, htimer⟩

/-- An update of another origin: the entry stays as it is, or it goes over. -/
theorem updateOther_spec (h : Owned S) (hx : S.heap k = some x)
    (htable : S.routes x.net = some k) (hne : x.origin ≠ some o) (accepted : Bool)
    (htag : n.tag ≤ 0xffff) :
    if accepted = true ∧ S.shouldReplace x n.cost = true ∧ (S.store o x.net).isSome = true then
      updateOther C S k x n o accepted false = .error .abort
    else ∃ T b a r, updateOther C S k x n o accepted false = .ok (T, b) ∧
      Puts S T x.net k a r b := by
  obtain ⟨o', ho'⟩ := h.origin hx
  have hs' : S.store o' x.net = some k := h.stored.mpr ⟨x, hx, ho', rfl⟩
  have hlt := h.toTied.lt_next hx
  have hkept : Puts S S x.net k o' x false := by
    have hput : Puts S (S.settle k x false) x.net k o' x false :=
      .of_settle (.inl ⟨x, hx, rfl⟩) (.inr htable) (.inr hs') rfl ho' (h.tag hx)
        (h.timer hx) rfl (by omega) (update_of_table htable).symm (owning_self h.toTied hx ho').symm rfl rfl rfl
    rwa [show S.settle k x false = S from setEntry_self hx] at hput
  cases accepted with
  | false =>
    exact ⟨S, false, o', x, rfl, hkept⟩
  | true =>
    by_cases hrep : S.shouldReplace x n.cost = true
    · rw [updateOther_eq h.toTied hx ho' (show o ≠ o' from fun heq => hne (heq ▸ ho')) hrep]
      by_cases hsome : (S.store o x.net).isSome = true
      · rw [if_pos ⟨rfl, hrep, hsome⟩, if_pos hsome]
      · rw [if_neg (fun hall => hsome hall.2.2), if_neg hsome]
        have htake := (take_spec C x n).1
        refine ⟨_, true, o, _, rfl, .of_settle (b := true) (.inl ⟨x, hx, rfl⟩) (.inr htable)
          (.inl (Option.not_isSome_iff_eq_none.mp hsome)) ?_ rfl ?_
          (deletesInfinite_of_expiryTimer rfl) rfl (show S.next = _ by omega) (update_of_table htable).symm rfl rfl rfl rfl⟩
        · rw [htake]
          rfl
        · rw [htake]
          exact htag
    · rw [if_neg (fun hall => hrep hall.2.1), updateOther, if_neg (not_not_intro rfl), if_neg hrep,
        if_neg Bool.false_ne_true]
      exact ⟨S, false, o', x, rfl, hkept⟩

section
variable (hC : C.KeepsOwner) (h : Owned S)
include hC h

theorem applyUpdate_spec (htable : S.routes c.net = some k) :
    (Clash C S c → S.applyUpdate C k c c.cost false = .error .abort) ∧
    (¬ Clash C S c → ∃ T b o r, S.applyUpdate C k c c.cost false = .ok (T, b) ∧
      Puts S T c.net k o r b) := by
  obtain ⟨x, hx, hnet⟩ := h.table htable
  have hclash : Clash C S c ↔ x.origin ≠ some c.origin ∧ (brought C c).2 = true ∧
      S.shouldReplace x (brought C c).1.cost = true ∧ (S.store c.origin c.net).isSome = true := by
    constructor
    · rintro ⟨j, y, hj, hy, hall⟩
      rw [htable] at hj
      cases hj
      rw [hx] at hy
      cases hy
      exact hall
    · intro hall
      exact ⟨k, x, htable, hx, hall⟩
  by_cases ho : x.origin = some c.origin
  · refine ⟨fun hc => absurd ho (hclash.mp hc).1, fun _ => ?_⟩
    obtain ⟨r, b, heq, hrn, hro, hrt, htimer⟩ := applyUpdate_same hC hx ho c.cost false
    have hlt := h.toTied.lt_next hx
    refine ⟨_, b, c.origin, r, heq, ?_⟩
    exact .of_settle (.inl ⟨x, hx, hnet⟩) (.inr htable)
      (.inr (h.stored.mpr ⟨x, hx, ho, hnet⟩)) (hrn.trans hnet) (hro.trans ho) hrt (htimer (h.timer hx)) rfl
      (by omega) (update_of_table htable).symm (hnet ▸ (owning_self h.toTied hx ho).symm)
      rfl rfl rfl
  · have hspec := updateOther_spec (C := C) h hx (hnet ▸ htable) ho (brought C c).2
      (show (brought C c).1.tag ≤ 0xffff from tag_filtered hC c.cost)
    have heq : S.applyUpdate C k c c.cost false =
        updateOther C S k x (brought C c).1 c.origin (brought C c).2 false := by
      unfold applyUpdate
      rw [hx]
      dsimp only
      rw [if_neg ho, hnet]
      rfl
    rw [heq, hclash, ← hnet]
    constructor
    · rintro ⟨-, hall⟩
      rwa [if_pos hall] at hspec
    · intro hnot
      rwa [if_neg (fun hall => hnot ⟨ho, hall⟩)] at hspec

omit [DecidableEq π] in
theorem createRoute_puts (hnone : S.routes c.net = none) (hstore : S.store c.origin c.net = none) :
    ∃ T b o r, S.createRoute C c = .ok (T, b) ∧ Puts S T c.net S.next o r b := by
  have hsame := hC.doFiltering (S.setExpiryTimer (.ofCall c c.cost (some c.origin)))
  refine ⟨_, _, c.origin, _, createRoute_eq hstore, .of_settle (.inr rfl) (.inl hnone) (.inl hstore)
    hsame.net hsame.origin (hsame.tag ?_) (deletesInfinite_of_expiryTimer hsame.timer) (update_idem _ _ _) (show S.next + 1 = _ by omega) rfl
    (owning_next h.toTied).symm rfl rfl rfl⟩
  show c.tag % 2 ^ 16 ≤ 0xffff
  omega

/-- The entry that the origin has comes back into the table. -/
theorem resurrect_puts (hnone : S.routes c.net = none) (hstore : S.store c.origin c.net = some k) :
    ∃ T b o r, S.resurrect C k c = .ok (T, b) ∧ Puts S T c.net k o r b := by
  obtain ⟨x, hx, ho, hnet⟩ := h.stored.mp hstore
  have hsame := hC.doFiltering x
  have hlt := h.toTied.lt_next hx
  let r₁ : RouteEntry w ω π := { (doFiltering C x).1 with filtered := !(doFiltering C x).2 }
  let S₁ : RouteDB w ω π := { S with
    heap := update S.heap k (some r₁)
    routes := update S.routes c.net (some k) }
  have hput : ∀ r b, r.net = r₁.net → r.origin = r₁.origin → r.tag ≤ 0xffff →
      DeletesInfinite r → Puts S (S₁.settle k r b) c.net k c.origin r b := fun r b hrn hro hrt hrd =>
    .of_settle (.inl ⟨x, hx, hnet⟩) (.inl hnone) (.inr hstore) ((hrn.trans hsame.net).trans hnet)
      ((hro.trans hsame.origin).trans ho) hrt hrd (update_idem _ _ _)
      (show S.next = _ by omega) rfl (hnet ▸ (owning_self h.toTied hx ho).symm) rfl rfl rfl
  have heq : S.resurrect C k c = if (doFiltering C x).1.cost = ripInfinity then .ok (S₁, false)
      else S₁.applyUpdate C k c (doFiltering C x).1.cost (doFiltering C x).2 := by
    unfold resurrect
    rw [hx]
  have hx₁ : S₁.heap k = some r₁ := update_self _ _ _
  -- No timer runs for an entry that is not in the table.
  have hoff : DeletesInfinite r₁ := by
    intro t ht hs
    have hrun : x.scheduled = true := by
      rw [scheduled, show x.timer = some t from hsame.timer.symm.trans ht]
      exact hs
    have htable := h.scheduled hx hrun
    rw [hnet, hnone] at htable
    cases htable
  rw [heq]
  split
  · refine ⟨_, false, c.origin, r₁, rfl, ?_⟩
    have hsettle : S₁.settle k r₁ false = S₁ := setEntry_self hx₁
    rw [← hsettle]
    exact hput r₁ false rfl rfl (hsame.tag (h.tag hx)) hoff
  · obtain ⟨r, b, happly, hrn, hro, hrt, htimer⟩ :=
      applyUpdate_same hC hx₁ (hsame.origin.trans ho) (doFiltering C x).1.cost (doFiltering C x).2
    exact ⟨_, b, c.origin, r, happly, hput r b hrn hro hrt (htimer hoff)⟩

end

omit [DecidableEq ω] [DecidableEq π] in
theorem not_clash_of_new (hnew : S.store c.origin c.net = none) : ¬ Clash C S c := by
  rintro ⟨-, -, -, -, -, -, -, hs⟩
  rw [hnew] at hs
  cases hs

omit [DecidableEq ω] [DecidableEq π] in
theorem not_clash_of_none (hnone : S.routes c.net = none) : ¬ Clash C S c := by
  rintro ⟨k, r, hk, -⟩
  rw [hnone] at hk
  cases hk

/-- Every update that does not clash puts one entry. -/
theorem updateRoute_spec (hC : C.KeepsOwner) (h : Owned S) (htag : c.tag ≤ 0xffff) :
    (Clash C S c → S.updateRoute C c = .error .abort) ∧
    (¬ Clash C S c → ∃ T b o r, S.updateRoute C c = .ok (T, b) ∧
      Puts S T c.net (S.entryFor c) o r b) := by
  unfold updateRoute entryFor
  rw [if_neg (Nat.not_lt.mpr htag)]
  cases htable : S.routes c.net with
  | some k => exact applyUpdate_spec hC h htable
  | none =>
    refine ⟨fun hclash => absurd hclash (not_clash_of_none htable), fun _ => ?_⟩
    cases hstore : S.store c.origin c.net with
    | none => exact createRoute_puts hC h htable hstore
    | some k => exact resurrect_puts hC h htable hstore

/-- Filters that accept everything, and no address that is link-local. -/
def acceptAll : Config w ω π := ⟨fun _ r => (r, true), fun _ => false⟩

/-- The default route with this cost, from this origin. -/
def announce (o cost : Nat) : Call 8 Nat Unit where
  net := IPNet.any 8
  nexthop := 1
  ifname := ""
  vifname := ""
  cost := cost
  tag := 0
  origin := o
  policytags := ()
  isPolicyPush := false

end RouteDB

end Xorp.Rip

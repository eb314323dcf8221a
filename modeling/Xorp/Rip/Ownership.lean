/-
The reference counts keep RIP's routes alive.

In a sound state every count is the number of references to its entry, from the table and from the
update queue, and that number is below 2^16.  Giving up a reference keeps this, and destroys the entry
exactly with the last one.  An update makes up to two references.  It keeps the state sound unless it
clashes, or unless it makes the 65536th reference: then the count comes back to zero, and the entry is
destroyed while the table and the queue refer to it.
-/
import Xorp.Rip.RefCount
import Xorp.Rip.Owned

namespace Xorp.Rip

open Linked Function RouteDB List Option Except Nat BitVec

variable {w : Nat} {ω π : Type}

/-! ### Counting references -/

variable {j : Nat}

variable {net : IPNet w} {o : ω} {r x : RouteEntry w ω π} {b : Bool}

namespace RouteDB

variable {S T : RouteDB w ω π} {k : Nat}

/-- The references of the table to an entry. -/
def tableRefs (S : RouteDB w ω π) (k : Nat) : Nat :=
  match S.heap k with
  | none => 0
  | some r => if S.routes r.net = some k then 1 else 0

/-- All references to an entry. -/
def refs (S : RouteDB w ω π) (k : Nat) : Nat := S.tableRefs k + S.held.count k

theorem tableRefs_of_table (hx : S.heap k = some x) (ht : S.routes x.net = some k) :
    S.tableRefs k = 1 := by
  unfold tableRefs
  rw [hx]
  exact if_pos ht

theorem tableRefs_of_left (hx : S.heap k = some x) (ht : S.routes x.net ≠ some k) :
    S.tableRefs k = 0 := by
  unfold tableRefs
  rw [hx]
  exact if_neg ht

theorem tableRefs_of_none (hx : S.heap k = none) : S.tableRefs k = 0 := by
  unfold tableRefs
  rw [hx]

theorem tableRefs_congr (hheap : T.heap j = S.heap j)
    (hroutes : ∀ m, T.routes m = some j ↔ S.routes m = some j) : T.tableRefs j = S.tableRefs j := by
  unfold tableRefs
  rw [hheap]
  cases S.heap j with
  | none => rfl
  | some r => simp only [hroutes]

theorem Owned.refs_of_none (h : Owned S) (hx : S.heap k = none) : S.refs k = 0 := by
  have hheld : k ∉ S.held := by
    intro hk
    obtain ⟨r, hr⟩ := h.queued hk
    rw [hx] at hr
    cases hr
  rw [refs, tableRefs_of_none hx, count_eq_zero_of_not_mem hheld]

theorem Owned.refs_pos_iff (h : Owned S) :
    0 < S.refs k ↔ (∃ net, S.routes net = some k) ∨ k ∈ S.held := by
  constructor
  · intro hpos
    by_cases hheld : k ∈ S.held
    · exact .inr hheld
    · left
      by_contra hnot
      have hzero : S.tableRefs k = 0 := by
        cases hx : S.heap k with
        | none => exact tableRefs_of_none hx
        | some x => exact tableRefs_of_left hx fun ht => hnot ⟨_, ht⟩
      rw [refs, hzero, count_eq_zero_of_not_mem hheld] at hpos
      exact lt_irrefl 0 hpos
  · rintro (⟨net, ht⟩ | hheld)
    · obtain ⟨x, hx, rfl⟩ := h.table ht
      rw [refs, tableRefs_of_table hx ht]
      omega
    · have := count_pos_iff.mpr hheld
      rw [refs]
      omega

section Puts

variable [DecidableEq ω]

/-- The references that an update makes to its entry. -/
def newRefs (S : RouteDB w ω π) (net : IPNet w) (b : Bool) : Nat :=
  (if S.routes net = none then 1 else 0) + (if b = true ∧ S.readers ≠ 0 then 1 else 0)

theorem Puts.refs_of_ne (p : Puts S T net k o r b) (hj : j ≠ k) : T.refs j = S.refs j := by
  have hcount : T.held.count j = S.held.count j := by
    rw [p.held]
    split
    · have hnew : [k].count j = 0 := count_eq_zero_of_not_mem (by simpa using hj)
      rw [count_append, hnew, add_zero]
    · rfl
  rw [refs, refs, tableRefs_congr (p.heap_of_ne hj) fun _ => p.routes_eq_iff hj, hcount]

theorem Puts.tableRefs_self (p : Puts S T net k o r b) : T.tableRefs k = 1 :=
  tableRefs_of_table p.heap_self (p.net_eq ▸ p.routes_self)

theorem Puts.refs_self (h : Owned S) (p : Puts S T net k o r b) :
    T.refs k = S.refs k + S.newRefs net b := by
  have hcount : T.held.count k = S.held.count k + (if b = true ∧ S.readers ≠ 0 then 1 else 0) := by
    rw [p.held]
    split
    · rw [count_append, count_singleton_self]
    · rfl
  have htable : S.tableRefs k + (if S.routes net = none then 1 else 0) = 1 := by
    rcases p.known with ⟨x, hx, hnet⟩ | hk
    · rcases p.free with hf | hf
      · rw [if_pos hf, tableRefs_of_left hx (by rw [hnet, hf]; exact nofun)]
      · rw [if_neg (by rw [hf]; exact nofun), tableRefs_of_table hx (hnet ▸ hf)]
    · have hnone := h.fresh k (le_of_eq hk.symm)
      have hf : S.routes net = none := by
        refine p.free.resolve_right fun ht => ?_
        obtain ⟨x, hx, -⟩ := h.table ht
        rw [hnone] at hx
        cases hx
      rw [if_pos hf, tableRefs_of_none hnone]
  rw [refs, refs, p.tableRefs_self, hcount, newRefs]
  omega

end Puts

end RouteDB

namespace Counted

variable {S S' : Counted w ω π} {T : RouteDB w ω π} {C : Config w ω π} {k m : Nat} {c : Call w ω π}

/-- Every count is the number of references, and only what has one is alive. -/
structure Sound (S : Counted w ω π) : Prop where
  owned : S.db.Owned
  live : ∀ {k r}, S.db.heap k = some r → 0 < S.db.refs k
  count : ∀ k, S.refCnt k = BitVec.ofNat 16 (S.db.refs k)
  room : ∀ k, S.db.refs k < 2 ^ 16

/-- Only other parts of the state change. -/
theorem Sound.congr (h : Sound S) (hheap : T.heap = S.db.heap) (hnext : T.next = S.db.next)
    (hroutes : T.routes = S.db.routes) (hstore : T.store = S.db.store) (hheld : T.held = S.db.held)
    (hrib : ∀ {net r}, T.ribRoutes net = some r → r.net = net ∧ r.tag ≤ 0xffff) :
    Sound ⟨T, S.refCnt⟩ := by
  obtain ⟨db, refCnt⟩ := S
  cases T
  cases db
  subst hheap hnext hroutes hstore hheld
  exact ⟨{ h.owned with rib := hrib }, h.live, h.count, h.room⟩

theorem sound_create (expirySecs deletionSecs : ω → Nat) :
    Sound (create expirySecs deletionSecs : Counted w ω π) where
  owned := by
    refine ⟨⟨fun _ _ => rfl, nofun, ?_, nofun⟩, nofun, nofun, nofun, nofun, nofun, nofun⟩
    intro o net k
    exact ⟨nofun, fun ⟨_, hr, _⟩ => nomatch hr⟩
  live := nofun
  count _ := rfl
  room _ := Nat.two_pow_pos 16

/-- The stores have the live routes of their origins, a route is alive exactly when the table or the
queue refers to it, and the route whose deletion timer is scheduled is the one in the table. -/
structure Consistent (S : Counted w ω π) : Prop where
  stored : ∀ o net k, S.db.store o net = some k ↔
    ∃ r, S.db.heap k = some r ∧ r.origin = some o ∧ r.net = net
  freed : ∀ k, S.db.heap k = none ↔ ¬ ((∃ net, S.db.routes net = some k) ∨ k ∈ S.db.held)
  deletes : ∀ k r t, S.db.heap k = some r → r.timer = some t → t.scheduled = true →
    t.action = .deleteRoute → S.db.routes r.net = some k

theorem Sound.scheduled (h : Sound S) {t : Timer} (hr : S.db.heap k = some r)
    (ht : r.timer = some t) (hs : t.scheduled = true) : S.db.routes r.net = some k := by
  refine h.owned.scheduled hr ?_
  rw [RouteEntry.scheduled, ht]
  exact hs

theorem Sound.consistent (h : Sound S) : Consistent S where
  stored _ _ _ := h.owned.stored
  freed k := by
    rw [← h.owned.refs_pos_iff]
    constructor
    · intro hnone
      rw [h.owned.refs_of_none hnone]
      exact lt_irrefl 0
    · intro hzero
      by_contra hsome
      obtain ⟨r, hr⟩ := ne_none_iff_exists'.mp hsome
      exact hzero (h.live hr)
  deletes _ _ _ hr ht hs _ := h.scheduled hr ht hs

/-- The table with one count set to this number. -/
def counting (S : Counted w ω π) (T : RouteDB w ω π) (k m : Nat) : Counted w ω π :=
  ⟨T, Function.update S.refCnt k (BitVec.ofNat 16 m)⟩

theorem Sound.counting_self (h : Sound S) : S.counting T k (S.db.refs k) = ⟨T, S.refCnt⟩ := by
  unfold counting
  rw [← h.count k, update_eq_self]

theorem ref_counting : (S.counting T k m).ref k = S.counting T k (m + 1) := by
  unfold counting ref
  dsimp only
  rw [update_self, update_idem, ofNat_add]
  rfl

theorem ofNat_eq_zero_iff (m : Nat) (hm : m ≤ 2 ^ 16) :
    BitVec.ofNat 16 m = 0 ↔ m = 0 ∨ m = 2 ^ 16 := by
  rw [← toNat_inj]
  show m % 2 ^ 16 = 0 ↔ _
  omega

section Update

variable [DecidableEq ω]

/-- An entry is put, and its count is the number of its references. -/
theorem Sound.puts (h : Sound S) (p : RouteDB.Puts S.db T net k o r b) (hroom : T.refs k < 2 ^ 16) :
    Sound ⟨T, update S.refCnt k (BitVec.ofNat 16 (T.refs k))⟩ where
  owned := p.owned h.owned
  live := by
    intro j y hy
    by_cases hj : j = k
    · subst hj
      rw [refs, p.tableRefs_self]
      omega
    · rw [p.heap_of_ne hj] at hy
      rw [p.refs_of_ne hj]
      exact h.live hy
  count := (forall_update_iff S.refCnt fun j c => c = BitVec.ofNat 16 (T.refs j)).mpr
    ⟨rfl, fun j hj => p.refs_of_ne hj ▸ h.count j⟩
  room j := by
    by_cases hj : j = k
    · exact hj ▸ hroom
    · rw [p.refs_of_ne hj]
      exact h.room j

/-- A reference more than one is given up: the entry stays unless the count wraps around. -/
theorem release_counting (hx : T.heap k = some x) : (S.counting T k (m + 1)).release k =
      if BitVec.ofNat 16 m = 0 then (S.counting T k m).destroy k x else .ok (S.counting T k m) := by
  have hcnt : (S.counting T k (m + 1)).refCnt k - 1 = BitVec.ofNat 16 m := by
    show update S.refCnt k _ k - 1 = _
    rw [update_self, ofNat_add]
    exact add_sub_cancel _ _
  have hdrop : (⟨T, update (S.counting T k (m + 1)).refCnt k (BitVec.ofNat 16 m)⟩ :
      Counted w ω π) = S.counting T k m := by
    unfold counting
    rw [update_idem]
  unfold release
  rw [show (S.counting T k (m + 1)).db.heap k = some x from hx]
  rw [hcnt]
  exact hdrop ▸ rfl

/-- What `~RouteEntry` leaves is not in the heap. -/
theorem destroy_frame (hd : S.destroy k x = .ok S') :
    S'.db.heap k = none ∧ S'.db.routes = S.db.routes := by
  obtain ⟨db, hdb, hS'⟩ := bind_eq_ok.mp hd
  cases hS'
  refine ⟨update_self _ _ _, ?_⟩
  unfold leaveStore at hdb
  cases ho : x.origin with
  | none =>
    rw [ho] at hdb
    cases hdb
    rfl
  | some o =>
    rw [ho] at hdb
    simp only [dissociate] at hdb
    split_ifs at hdb
    cases hdb
    rfl

theorem countInsert_counting (hx : T.heap k = some x) (hm : m < 2 ^ 16) :
    if m + 1 < 2 ^ 16 then (S.counting T k m).countInsert k = .ok (S.counting T k (m + 1))
    else ∀ S', (S.counting T k m).countInsert k ≠ .ok S' := by
  unfold countInsert
  rw [ref_counting, ref_counting, release_counting hx]
  have hzero := ofNat_eq_zero_iff (m + 1) hm
  by_cases hlt : m + 1 < 2 ^ 16
  · rw [if_pos hlt, if_neg (by rw [hzero]; omega)]
    show (if (T.heap k).isSome = true then _ else _) = _
    rw [hx]
    rfl
  · rw [if_neg hlt, if_pos (by rw [hzero]; omega)]
    intro S' hS'
    obtain ⟨S₁, hd, hS₁⟩ := bind_eq_ok.mp hS'
    rw [(destroy_frame hd).1] at hS₁
    cases hS₁

theorem countPush_counting (hx : T.heap k = some x) (hpos : 0 < m) (hm : m < 2 ^ 16) :
    if m + (if T.readers ≠ 0 then 1 else 0) < 2 ^ 16 then
      (S.counting T k m).countPush k = .ok (S.counting T k (m + (if T.readers ≠ 0 then 1 else 0)))
    else ∀ S', (S.counting T k m).countPush k = .ok S' →
      S'.db.heap k = none ∧ S'.db.routes = T.routes := by
  unfold countPush
  rw [show (S.counting T k m).db.readers = T.readers from rfl]
  by_cases hr : T.readers = 0
  · have hzero := ofNat_eq_zero_iff m (by omega)
    simp only [hr, ne_eq, not_true_eq_false, if_false, if_true, add_zero]
    rw [if_pos hm, ref_counting, release_counting hx, if_neg (by rw [hzero]; omega)]
  · have hzero := ofNat_eq_zero_iff (m + 1) hm
    simp only [hr, ne_eq, not_false_eq_true, if_true, if_false]
    rw [ref_counting, ref_counting, release_counting hx]
    by_cases hlt : m + 1 < 2 ^ 16
    · rw [if_pos hlt, if_neg (by rw [hzero]; omega)]
    · rw [if_neg hlt, if_pos (by rw [hzero]; omega)]
      exact fun S' hS' => destroy_frame hS'

variable [DecidableEq π]

/-- Does the update push its entry? -/
def pushes (C : Config w ω π) (db : RouteDB w ω π) (c : Call w ω π) : Bool :=
  match db.updateRoute C c with
  | .ok (_, b) => b
  | .error _ => false

/-- The update does not clash, and leaves less than 2^16 references to its entry. -/
def Admits (C : Config w ω π) (S : Counted w ω π) (c : Call w ω π) : Prop :=
  ¬ S.db.Clash C c ∧
    S.db.refs (S.db.entryFor c) + S.db.newRefs c.net (pushes C S.db c) < 2 ^ 16

omit [DecidableEq π] in
/-- The reference of the table, where the table has no entry. -/
theorem table_counting (h : Sound S) (p : RouteDB.Puts S.db T net k o r b)
    (hm : m = S.db.refs k + (if S.db.routes net = none then 1 else 0)) :
    if m < 2 ^ 16 then (bif (S.db.routes net).isNone then
        countInsert ⟨T, S.refCnt⟩ k else .ok ⟨T, S.refCnt⟩) = .ok (S.counting T k m)
    else ∀ S', (bif (S.db.routes net).isNone then
        countInsert ⟨T, S.refCnt⟩ k else .ok ⟨T, S.refCnt⟩) ≠ .ok S' := by
  rw [← h.counting_self]
  cases ht : S.db.routes net with
  | none =>
    rw [ht, if_pos rfl] at hm
    rw [hm]
    exact countInsert_counting p.heap_self (h.room k)
  | some j =>
    rw [ht, if_neg (by simp), add_zero] at hm
    rw [hm, if_pos (h.room k)]
    rfl

/-- The references that an update makes are counted one after the other. -/
theorem updateRoute_eq (h : Sound S) (p : RouteDB.Puts S.db T c.net k o r b)
    (hupd : S.db.updateRoute C c = .ok (T, b)) :
    if T.refs k < 2 ^ 16 then S.updateRoute C c = .ok (S.counting T k (T.refs k), b)
    else ∀ S' b', S.updateRoute C c = .ok (S', b') →
      S'.db.heap k = none ∧ S'.db.routes = T.routes := by
  have hrefs := p.refs_self h.owned
  rw [newRefs, ← add_assoc] at hrefs
  set m := S.db.refs k + (if S.db.routes c.net = none then 1 else 0) with hm
  have htable := table_counting h p hm
  have hcalc : S.updateRoute C c = (do
      let S' ← bif (S.db.routes c.net).isNone then countInsert ⟨T, S.refCnt⟩ k
        else .ok ⟨T, S.refCnt⟩
      let S' ← bif b then S'.countPush k else .ok S'
      .ok (S', b)) := by
    unfold Counted.updateRoute
    rw [hupd]
    dsimp only [bind, Except.bind]
    rw [p.routes_self]
  rw [hcalc]
  by_cases hlt : m < 2 ^ 16
  · rw [if_pos hlt] at htable
    rw [htable, ok_bind]
    cases b with
    | false =>
      have heq : T.refs k = m := by
        rw [hrefs]
        simp
      rw [heq, if_pos hlt]
      rfl
    | true =>
      have hpos : 0 < m := by
        rcases p.free with hf | hf
        · rw [hm, if_pos hf]
          omega
        · have := h.owned.refs_pos_iff.mpr (.inl ⟨_, hf⟩)
          omega
      have hpush := countPush_counting (S := S) p.heap_self hpos hlt
      have heq : T.refs k = m + (if T.readers ≠ 0 then 1 else 0) := by
        rw [hrefs, p.readers]
        simp
      rw [← heq] at hpush
      by_cases hfit : T.refs k < 2 ^ 16
      · rw [if_pos hfit] at hpush ⊢
        rw [hpush]
        rfl
      · rw [if_neg hfit] at hpush ⊢
        intro S' b' hS'
        obtain ⟨S₁, hS₁, heq₁⟩ := bind_eq_ok.mp hS'
        obtain ⟨rfl, -⟩ := Prod.mk.inj (Except.ok.inj heq₁)
        exact hpush S₁ hS₁
  · rw [if_neg hlt] at htable
    rw [if_neg (by omega)]
    intro S' b' hS'
    obtain ⟨S₁, hS₁, -⟩ := bind_eq_ok.mp hS'
    exact absurd hS₁ (htable S₁)

theorem pushes_eq (hupd : S.db.updateRoute C c = .ok (T, b)) : pushes C S.db c = b := by
  unfold pushes
  rw [hupd]

section
variable (hC : C.KeepsOwner) (h : Sound S) (htag : c.tag ≤ 0xffff)
include hC h htag

theorem Sound.updateRoute
    (hadm : S.Admits C c) : ∃ S' b, S.updateRoute C c = .ok (S', b) ∧ Sound S' := by
  obtain ⟨T, b, o, r, hupd, p⟩ := (updateRoute_spec hC h.owned htag).2 hadm.1
  have hroom := hadm.2
  rw [pushes_eq hupd, ← p.refs_self h.owned] at hroom
  have heq := updateRoute_eq h p hupd
  rw [if_pos hroom] at heq
  exact ⟨_, b, heq, h.puts p hroom⟩

/-- One that is not does not return, or leaves the table with an entry that is destroyed. -/
theorem Sound.updateRoute_of_not (hnot : ¬ S.Admits C c) (hstep : S.updateRoute C c = .ok (S', b)) :
    ∃ net k, S'.db.routes net = some k ∧ S'.db.heap k = none := by
  have hspec := updateRoute_spec hC h.owned htag
  by_cases hclash : S.db.Clash C c
  · unfold Counted.updateRoute at hstep
    rw [hspec.1 hclash] at hstep
    cases hstep
  · obtain ⟨T, b', o, r, hupd, p⟩ := hspec.2 hclash
    have hfull : ¬ T.refs (S.db.entryFor c) < 2 ^ 16 := by
      intro hroom
      rw [p.refs_self h.owned, ← pushes_eq hupd] at hroom
      exact hnot ⟨hclash, hroom⟩
    have heq := updateRoute_eq h p hupd
    rw [if_neg hfull] at heq
    obtain ⟨hheap, hroutes⟩ := heq S' b hstep
    exact ⟨c.net, _, hroutes ▸ p.routes_self, hheap⟩

end

end Update

/-! ### Giving up a reference -/

/-- One reference to an entry less. -/
structure Drops (S T : RouteDB w ω π) (k : Nat) : Prop where
  heap : T.heap = S.heap
  next : T.next = S.next
  store : T.store = S.store
  ribRoutes : T.ribRoutes = S.ribRoutes
  routes : ∀ {net j}, T.routes net = some j → S.routes net = some j
  held : ∀ {j}, j ∈ T.held → j ∈ S.held
  scheduled : ∀ {j r}, S.heap j = some r → r.scheduled = true → T.routes r.net = some j
  left : ∀ {j r}, S.heap j = some r → T.routes r.net ≠ some j → r.cost = ripInfinity
  self : T.refs k + 1 = S.refs k
  other : ∀ j, j ≠ k → T.refs j = S.refs j

namespace Drops

theorem owned {S : RouteDB w ω π} (h : S.Owned) (d : Drops S T k) : T.Owned := by
  obtain ⟨hheap, hnext, hstore, hrib, hroutes, hheld, hscheduled, hleft, -, -⟩ := d
  cases T
  cases S
  subst hheap hnext hstore hrib
  exact { h with
    table := fun hj => h.table (hroutes hj)
    queued := fun hj => h.queued (hheld hj)
    scheduled := hscheduled
    left := hleft }

end Drops

variable [DecidableEq ω]

/-- The table without an entry that nothing refers to. -/
def freeing (T : RouteDB w ω π) (k : Nat) (net : IPNet w) (o : ω) : RouteDB w ω π :=
  { T with
    heap := Function.update T.heap k none
    store := Function.update T.store o (Function.update (T.store o) net none) }

theorem heap_freeing :
    (freeing T k net o).heap j = some r ↔ j ≠ k ∧ T.heap j = some r :=
  update_none_iff

theorem refs_freeing (hj : j ≠ k) : (freeing T k net o).refs j = T.refs j := by
  have hheap : (freeing T k net o).heap j = T.heap j := update_of_ne hj _ _
  have htable : (freeing T k net o).tableRefs j = T.tableRefs j :=
    tableRefs_congr hheap fun _ => Iff.rfl
  rw [refs, refs, htable]
  rfl

section
variable (h : T.Owned) (hx : T.heap k = some x) (ho : x.origin = some o)
include h hx ho

/-- An entry that nothing refers to can go. -/
theorem owned_freeing (hzero : T.refs k = 0) : (freeing T k x.net o).Owned := by
  have hnone : ¬ ((∃ net, T.routes net = some k) ∨ k ∈ T.held) := by
    rw [← h.refs_pos_iff]
    omega
  have ht := h.toTied.free hx (fun hr => hnone (.inl ⟨_, hr⟩)) ho
  refine ⟨ht, fun {j} hj => ?_, fun hy => h.scheduled (heap_freeing.mp hy).2,
    fun hy => h.tag (heap_freeing.mp hy).2, fun hy => h.timer (heap_freeing.mp hy).2,
    fun hy => h.left (heap_freeing.mp hy).2, h.rib⟩
  obtain ⟨y, hy⟩ := h.queued hj
  refine ⟨y, heap_freeing.mpr ⟨?_, hy⟩⟩
  rintro rfl
  exact hnone (.inr hj)

theorem destroy_eq
    (cnt : Nat → BitVec 16) : destroy ⟨T, cnt⟩ k x = .ok ⟨freeing T k x.net o, cnt⟩ := by
  have hstore : T.store o x.net = some k := h.stored.mpr ⟨x, hx, ho, rfl⟩
  have hleave : leaveStore T x = .ok { T with
      store := update T.store o (update (T.store o) x.net none) } := by
    unfold leaveStore dissociate
    rw [ho]
    dsimp only
    rw [hstore]
    exact if_neg Bool.false_ne_true
  unfold destroy
  rw [hleave]
  rfl

end

/-- The last reference that is given up destroys the entry, and no other does. -/
theorem Sound.release (h : Sound S) (d : Drops S.db T k) :
    ∃ S', release ⟨T, S.refCnt⟩ k = .ok S' ∧ Sound S' := by
  have hself := d.self
  have hroom := h.room k
  obtain ⟨x, hx⟩ : ∃ x, S.db.heap k = some x := by
    refine ne_none_iff_exists'.mp fun hnone => ?_
    rw [h.owned.refs_of_none hnone] at hself
    omega
  have howned := d.owned h.owned
  have hxT : T.heap k = some x := d.heap ▸ hx
  have hrel : Counted.release ⟨T, S.refCnt⟩ k =
      if BitVec.ofNat 16 (T.refs k) = 0 then (S.counting T k (T.refs k)).destroy k x
      else .ok (S.counting T k (T.refs k)) := by
    rw [← h.counting_self, ← hself]
    exact release_counting hxT
  have hzero := ofNat_eq_zero_iff (T.refs k) (by omega)
  have hcount : ∀ j, update S.refCnt k (BitVec.ofNat 16 (T.refs k)) j =
      BitVec.ofNat 16 (T.refs j) :=
    (forall_update_iff S.refCnt fun j c => c = BitVec.ofNat 16 (T.refs j)).mpr
      ⟨rfl, fun j hj => d.other j hj ▸ h.count j⟩
  have hlt : ∀ j, T.refs j < 2 ^ 16 := by
    intro j
    by_cases hj : j = k
    · rw [hj]
      omega
    · rw [d.other j hj]
      exact h.room j
  by_cases hlast : T.refs k = 0
  · obtain ⟨o, ho⟩ := h.owned.origin hx
    rw [if_pos (hzero.mpr (.inl hlast))] at hrel
    have hfree := owned_freeing howned hxT ho hlast
    -- The entry is gone, and the others have the references they had.
    have hrefs : ∀ j, (freeing T k x.net o).refs j = T.refs j := by
      intro j
      by_cases hj : j = k
      · rw [hj, hlast]
        exact hfree.refs_of_none (update_self _ _ _)
      · exact refs_freeing hj
    refine ⟨_, hrel.trans (destroy_eq howned hxT ho _), ⟨hfree, ?_, ?_, ?_⟩⟩
    · intro j y hy
      obtain ⟨hj, hy⟩ := heap_freeing.mp hy
      rw [hrefs, d.other j hj]
      exact h.live (d.heap ▸ hy)
    · intro j
      rw [hrefs]
      exact hcount j
    · intro j
      rw [hrefs]
      exact hlt j
  · rw [if_neg (by rw [hzero]; omega)] at hrel
    refine ⟨_, hrel, howned, ?_, hcount, hlt⟩
    intro j y hy
    show 0 < T.refs j
    by_cases hj : j = k
    · rw [hj]
      omega
    · rw [d.other j hj]
      exact h.live (d.heap ▸ hy)

theorem Sound.giveUp (h : Sound S) (n : Nat) :
    ∃ S', S.giveUp n = .ok S' ∧ Sound S' := by
  induction n generalizing S with
  | zero => exact ⟨S, rfl, h⟩
  | succ n ih =>
    unfold Counted.giveUp
    cases hheld : S.db.held with
    | nil => exact ⟨S, rfl, h⟩
    | cons k held =>
      have hdrop : Drops S.db { S.db with held } k := by
        refine ⟨rfl, rfl, rfl, rfl, id, fun hj => ?_, h.owned.scheduled, h.owned.left, ?_,
          fun j hj => ?_⟩
        · rw [hheld]
          exact mem_cons_of_mem k hj
        · rw [refs, refs, hheld, count_cons_self]
          rfl
        · rw [refs, refs, hheld, count_cons_of_ne (Ne.symm hj)]
          rfl
      obtain ⟨S₁, hrel, hS₁⟩ := h.release hdrop
      obtain ⟨S', hgive, hS'⟩ := ih hS₁
      refine ⟨S', ?_, hS'⟩
      show (do let S₁ ← Counted.release _ k; _) = _
      rw [hrel]
      exact hgive

section
variable (h : Sound S) (hx : S.db.heap k = some x) (ht : S.db.routes x.net = some k)
include h hx ht

/-- The table gives up an entry of infinite cost whose timer is not scheduled. -/
theorem Sound.erase (hoff : x.scheduled = false) (hinf : x.cost = ripInfinity) :
    ∃ S', S.erase x.net k = .ok S' ∧ Sound S' := by
  have hroutes : ∀ {m : IPNet w} {j : Nat}, j ≠ k →
      (update S.db.routes x.net none m = some j ↔ S.db.routes m = some j) := by
    intro m j hj
    rw [update_none_iff, and_iff_right_iff_imp]
    rintro hm rfl
    exact hj (some.inj (hm.symm.trans ht))
  set T := { S.db with routes := update S.db.routes x.net none }
  have hdrop : Drops S.db T k := by
    refine ⟨rfl, rfl, rfl, rfl, ?_, id, ?_, ?_, ?_, ?_⟩
    · exact fun hj => (update_none_iff.mp hj).2
    · intro j y hy hs
      refine (hroutes ?_).mpr (h.owned.scheduled hy hs)
      rintro rfl
      rw [hx] at hy
      cases hy
      rw [hoff] at hs
      cases hs
    · intro j y hy hout
      by_cases hj : j = k
      · cases hx.symm.trans (hj ▸ hy)
        exact hinf
      · exact h.owned.left hy ((hroutes hj).not.mp hout)
    · have hgone : tableRefs T k = 0 :=
        tableRefs_of_left hx fun hk => (update_none_iff.mp hk).1 rfl
      rw [refs, refs, hgone, tableRefs_of_table hx ht]
      show 0 + S.db.held.count k + 1 = _
      omega
    · intro j hj
      have htable : tableRefs T j = S.db.tableRefs j := tableRefs_congr rfl fun m => hroutes hj
      rw [refs, refs, htable]
  exact h.release hdrop

theorem Sound.disarm (t : Timer) : Sound (S.disarm k x t) := by
  obtain ⟨o, ho⟩ := h.owned.origin hx
  have hlt := h.owned.toTied.lt_next hx
  let y : RouteEntry w ω π := { x with timer := some { t with scheduled := false } }
  have hoff : DeletesInfinite y := by
    rintro u ⟨⟩ ⟨⟩
  have hput : RouteDB.Puts S.db (S.db.settle k y false) x.net k o y false :=
    .of_settle (.inl ⟨x, hx, rfl⟩) (.inr ht) (.inr (h.owned.stored.mpr ⟨x, hx, ho, rfl⟩)) rfl ho
      (show x.tag ≤ 0xffff from h.owned.tag hx) hoff rfl (by omega) (update_of_table ht).symm
      (owning_self h.owned.toTied hx ho).symm rfl rfl rfl
  have hrefs : (S.db.settle k y false).refs k = S.db.refs k := by
    rw [hput.refs_self h.owned, newRefs, ht]
    simp
  have hsound := h.puts hput (hrefs ▸ h.room k)
  rw [hrefs, ← h.count k, update_eq_self] at hsound
  exact hsound

end

/-! ### Every step -/

variable [DecidableEq π]

/-- Updates that are admitted, and only they, leave a consistent state. -/
theorem Sound.update_iff (hC : C.KeepsOwner) (h : Sound S) (htag : c.tag ≤ 0xffff) :
    (∃ S' b, S.updateRoute C c = .ok (S', b) ∧ Consistent S') ↔ S.Admits C c := by
  constructor
  · rintro ⟨S', b, hstep, hcons⟩
    by_contra hnot
    obtain ⟨net, k, ht, hnone⟩ := h.updateRoute_of_not hC htag hnot hstep
    exact (hcons.freed k).mp hnone (.inl ⟨net, ht⟩)
  · intro hadm
    obtain ⟨S', b, hstep, hS'⟩ := h.updateRoute hC htag hadm
    exact ⟨S', b, hstep, hS'.consistent⟩

/-- The update that a step makes, with the state in which it is called. -/
def updateOf (S : Counted w ω π) : Op w ω π → Option (Counted w ω π × Call w ω π)
  | .updateRoute c => some (S, c)
  | .fireTimer k => do
      let r ← S.db.heap k
      let t ← r.timer
      let o ← r.origin
      match t.action with
      | .expireRoute => some (S.disarm k r t, r.call ripInfinity o)
      | .deleteRoute =>
          let S' ← ((S.disarm k r t).erase r.net k).toOption
          let rib ← S'.db.ribRoutes r.net
          let o' ← S'.db.ribOrigin
          some (S', rib.call rib.cost o')
  | _ => none

/-- The update of the step is admitted. -/
def Fits (C : Config w ω π) (S : Counted w ω π) (op : Op w ω π) : Prop :=
  ∀ S' c, S.updateOf op = some (S', c) → S'.Admits C c

theorem fits_updateRoute (hadm : S.Admits C c) : S.Fits C (.updateRoute c) := by
  intro S' c' hof
  obtain ⟨rfl, rfl⟩ := Prod.mk.inj (some.inj hof)
  exact hadm

/-- The step is an update in a sound state. -/
structure Calls (C : Config w ω π) (S : Counted w ω π) (op : Op w ω π) (X : Counted w ω π)
    (c : Call w ω π) : Prop where
  update : S.updateOf op = some (X, c)
  sound : Sound X
  tag : c.tag ≤ 0xffff
  step : S.step C op = (do
    let (S', _) ← X.updateRoute C c
    .ok S')

/-- A timer that runs makes an update, except for a deletion without a route of the RIB. -/
theorem Sound.fireTimer (h : Sound S) (hlegal : S.Legal (.fireTimer k)) :
    (S.updateOf (.fireTimer k) = none ∧ ∃ S', S.fireTimer C k = .ok S' ∧ Sound S') ∨
      ∃ X c, S.Calls C (.fireTimer k) X c := by
  obtain ⟨r, t, hr, ht, hs, -⟩ := hlegal
  obtain ⟨o, ho⟩ := h.owned.origin hr
  have htable := h.scheduled hr ht hs
  have hdis := h.disarm hr htable t
  cases ha : t.action with
  | expireRoute =>
    have hof : S.updateOf (.fireTimer k) = some (S.disarm k r t, r.call ripInfinity o) := by
      simp only [updateOf, hr, ht, ho, ha, bind_eq_bind, bind_some]
    have hfire : S.fireTimer C k = (do
        let (S', _) ← (S.disarm k r t).updateRoute C (r.call ripInfinity o)
        .ok S') := by
      simp only [Counted.fireTimer, hr, ht, ho, ha]
    exact .inr ⟨_, _, hof, hdis, h.owned.tag hr, hfire⟩
  | deleteRoute =>
    have hheap : (S.disarm k r t).db.heap k =
        some { r with timer := some { t with scheduled := false } } := update_self _ _ _
    obtain ⟨X, herase, hX⟩ := hdis.erase hheap htable rfl
      (show r.cost = ripInfinity from h.owned.timer hr t ht hs ha)
    have herase : (S.disarm k r t).erase r.net k = .ok X := herase
    have hof : S.updateOf (.fireTimer k) = (do
        let rib ← X.db.ribRoutes r.net
        let o' ← X.db.ribOrigin
        some (X, rib.call rib.cost o')) := by
      simp only [updateOf, hr, ht, ho, ha, herase, Except.toOption, bind_eq_bind, bind_some]
    have hroutes : (S.disarm k r t).db.routes r.net = some k := htable
    have hfire : S.fireTimer C k = (S.disarm k r t).deleteRoute C r.net := by
      simp only [Counted.fireTimer, hr, ht, ho, ha]
    rw [Counted.deleteRoute, hroutes] at hfire
    simp only [herase, ok_bind] at hfire
    cases hrib : X.db.ribRoutes r.net with
    | none =>
      rw [hrib] at hof hfire
      exact .inl ⟨hof, X, hfire, hX⟩
    | some rib =>
      rw [hrib] at hof hfire
      cases horig : X.db.ribOrigin with
      | none =>
        rw [horig] at hof hfire
        exact .inl ⟨hof, X, hfire, hX⟩
      | some o' =>
        rw [horig] at hof hfire
        exact .inr ⟨X, _, hof, hX, (hX.owned.rib hrib).2, hfire⟩

variable {op : Op w ω π}

/-- Every other step keeps the state sound. -/
theorem Sound.step_cases (h : Sound S) (hlegal : S.Legal op) :
    (S.updateOf op = none ∧ ∃ S', S.step C op = .ok S' ∧ Sound S') ∨
      ∃ X c, S.Calls C op X c := by
  cases op with
  | updateRoute c => exact .inr ⟨S, c, rfl, h, hlegal, rfl⟩
  | fireTimer k => exact h.fireTimer hlegal
  | wait _ | setTimers _ _ | addReader =>
    exact .inl ⟨rfl, _, rfl, h.congr rfl rfl rfl rfl rfl h.owned.rib⟩
  | removeReader =>
    refine .inl ⟨rfl, ?_⟩
    show ∃ S', (if S.db.readers ≤ 1 then _ else _) = ok S' ∧ _
    split
    · have hnone : Sound ⟨{ S.db with readers := 0 }, S.refCnt⟩ :=
        h.congr rfl rfl rfl rfl rfl h.owned.rib
      exact hnone.giveUp S.db.held.length
    · exact ⟨_, rfl, h.congr rfl rfl rfl rfl rfl h.owned.rib⟩
  | collect n => exact .inl ⟨rfl, h.giveUp n⟩
  | flushRoutes =>
    refine .inl ⟨rfl, _, rfl, ⟨⟨fun _ _ => rfl, nofun, ?_, nofun⟩, nofun, nofun, nofun, nofun, nofun,
      h.owned.rib⟩, nofun, fun _ => rfl, fun _ => Nat.two_pow_pos 16⟩
    exact ⟨nofun, fun ⟨_, hr, _⟩ => nomatch hr⟩
  | addRibRoute c =>
    refine .inl ⟨rfl, _, rfl, h.congr rfl rfl rfl rfl rfl ?_⟩
    intro net r hr
    dsimp only at hr
    rw [update_apply] at hr
    split at hr
    · rename_i hnet
      cases hr
      refine ⟨hnet.symm, ?_⟩
      show c.tag % 2 ^ 16 ≤ 0xffff
      omega
    · exact h.owned.rib hr
  | deleteRibRoute net =>
    refine .inl ⟨rfl, _, rfl, h.congr rfl rfl rfl rfl rfl ?_⟩
    exact fun hr => h.owned.rib (update_none_iff.mp hr).2

theorem Sound.step (hC : C.KeepsOwner) (h : Sound S) (hlegal : S.Legal op) (hfits : S.Fits C op) :
    ∃ S', S.step C op = .ok S' ∧ Sound S' := by
  rcases h.step_cases (C := C) hlegal with ⟨-, S', hstep, hS'⟩ | ⟨X, c, hcall⟩
  · exact ⟨S', hstep, hS'⟩
  · obtain ⟨S', b, hupd, hS'⟩ := hcall.sound.updateRoute hC hcall.tag (hfits X c hcall.update)
    refine ⟨S', ?_, hS'⟩
    rw [hcall.step, hupd]
    rfl

theorem Sound.step_iff (hC : C.KeepsOwner) (h : Sound S) (hlegal : S.Legal op) :
    (∃ S', S.step C op = .ok S' ∧ Consistent S') ↔ S.Fits C op := by
  constructor
  · rintro ⟨S', hstep, hcons⟩ X c hof
    rcases h.step_cases (C := C) hlegal with ⟨hnone, -⟩ | ⟨X', c', hcall⟩
    · rw [hnone] at hof
      cases hof
    · rw [hcall.update] at hof
      obtain ⟨rfl, rfl⟩ := Prod.mk.inj (some.inj hof)
      rw [hcall.step] at hstep
      obtain ⟨⟨S₁, b⟩, hupd, heq⟩ := bind_eq_ok.mp hstep
      obtain rfl := ok.inj heq
      exact (hcall.sound.update_iff hC hcall.tag).mp ⟨S₁, b, hupd, hcons⟩
  · intro hfits
    obtain ⟨S', hstep, hS'⟩ := h.step hC hlegal hfits
    exact ⟨S', hstep, hS'.consistent⟩

/-- The states that steps with `ok` come to. -/
inductive Reach (C : Config w ω π) (ok : Counted w ω π → Op w ω π → Prop) :
    Counted w ω π → Prop
  | init (expirySecs deletionSecs : ω → Nat) : Reach C ok (create expirySecs deletionSecs)
  | step {S S' : Counted w ω π} (op : Op w ω π) : Reach C ok S → S.Legal op → ok S op →
      S.step C op = .ok S' → Reach C ok S'

theorem Reach.sound {ok : Counted w ω π → Op w ω π → Prop} (hC : C.KeepsOwner)
    (hok : ∀ S op, ok S op → S.Fits C op) (h : Reach C ok S) : Sound S := by
  induction h with
  | init expirySecs deletionSecs => exact sound_create expirySecs deletionSecs
  | step op _ hlegal hop hstep ih =>
    obtain ⟨S', heq, hS'⟩ := ih.step hC hlegal (hok _ op hop)
    rw [heq] at hstep
    exact Except.ok.inj hstep ▸ hS'

/-- In every run whose updates are admitted the routes are consistent, and one more step keeps them so
exactly when its update is admitted. -/
theorem route_ownership_consistent {ok : Counted w ω π → Op w ω π → Prop} (hC : C.KeepsOwner)
    (hok : ∀ S op, ok S op → S.Fits C op) (h : Reach C ok S) :
    Consistent S ∧ ∀ op, S.Legal op →
      ((∃ S', S.step C op = .ok S' ∧ Consistent S') ↔ S.Fits C op) :=
  ⟨(h.sound hC hok).consistent, fun _ hlegal => (h.sound hC hok).step_iff hC hlegal⟩

/-- A route is announced by two origins while the queue has a reader. -/
theorem route_ownership_announced : ∃ S : Counted 8 Nat Unit,
    Reach RouteDB.acceptAll (fun S op => S.Fits RouteDB.acceptAll op) S ∧
      S.db.held = [0, 0] ∧ Consistent S ∧ ∀ op, S.Legal op →
        ((∃ S', S.step RouteDB.acceptAll op = .ok S' ∧ Consistent S') ↔
          S.Fits RouteDB.acceptAll op) := by
  have h0 : Reach acceptAll (fun S op => S.Fits acceptAll op)
    (create (fun _ => 180) fun _ => 120 : Counted 8 Nat Unit) := .init _ _
  have h1 := h0.step .addReader trivial nofun rfl
  have h2 := h1.step (.updateRoute (announce 1 5)) (zero_le _)
    (fits_updateRoute ⟨not_clash_of_new rfl, by decide⟩) rfl
  have h3 := h2.step (.updateRoute (announce 2 3)) (zero_le _)
    (fits_updateRoute ⟨not_clash_of_new rfl, by decide⟩) rfl
  exact ⟨_, h3, rfl, route_ownership_consistent ⟨fun _ _ => rfl, fun _ _ => rfl, fun _ _ => rfl,
    fun _ _ => id⟩ (fun _ _ hop => hop) h3⟩

/-- The route of an origin leaves the table while a reader of the queue has not come to it.  Another
origin announces the net, and then the first one with a lower cost: its store has the old route, and
`associate` ends the process. -/
theorem associate_finds_entry : ∃ S : Counted 8 Nat Unit,
    Reach RouteDB.acceptAll (fun _ _ => True) S ∧ S.Legal (.updateRoute (RouteDB.announce 1 3)) ∧
      S.step RouteDB.acceptAll (.updateRoute (RouteDB.announce 1 3)) = .error .abort := by
  have h0 : Reach acceptAll (fun _ _ => True)
    (create (fun _ => 180) fun _ => 120 : Counted 8 Nat Unit) := .init _ _
  have h1 := h0.step .addReader trivial trivial rfl
  have h2 := h1.step (.updateRoute (announce 1 5)) (zero_le _) trivial rfl
  have h3 := h2.step (.updateRoute (announce 1 16)) (zero_le _) trivial rfl
  have h4 := h3.step (.wait 120000000) trivial trivial rfl
  have h5 := h4.step (.fireTimer 0) ⟨_, _, rfl, rfl, rfl, by decide⟩ trivial rfl
  have h6 := h5.step (.updateRoute (announce 2 7)) (zero_le _) trivial rfl
  exact ⟨_, h6, zero_le _, rfl⟩

end Counted

end Xorp.Rip

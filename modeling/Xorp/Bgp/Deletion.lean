/-
Background deletion.

When a peering goes down, `RibInTable` hands its routes to a new `DeletionTable`, plumbed in
right after it, which withdraws them one chain at a time.  The peer may come back and announce
routes before that is done, and may go down again, so that several deletion tables stand in a
row.  An announcement that passes one of them takes the old route of its net out from under
the sweep and turns into a replacement.

What has to be shown is that the sweep is never left on a chain that is gone, and that every
route handed over is withdrawn once: by the sweep, or by a replacement.  Both rest on the
routes of the tables being for different nets.
-/
import Xorp.Bgp.BgpTrie
import Xorp.Lib.Layers
import Xorp.Lib.Stream

namespace Xorp.Bgp

open Linked Ring Stream Function BgpTrie Layers List OrderedSet IPNet Option

variable {w : Nat} {α ρ : Type}

/-- What a message says about a route. -/
structure PeerMsg (ρ : Type) where
  route : ρ
  genid : BitVec 32
  /-- whether the route is one of a peering that went down -/
  fromPrevious : Bool

/-- The routes of a table as they are seen from downstream. -/
def heldAs (genid : BitVec 32) (content : IPNet w → Option ρ) (n : IPNet w) :
    Option (PeerMsg ρ) :=
  (content n).map fun r => ⟨r, genid, false⟩

structure DeletionTable (w : Nat) (α ρ : Type) where
  table : BgpTrie w α ρ
  /-- the key the sweep is at, or the end -/
  delSweep : Option α
  genid : BitVec 32

section
variable [LinearOrder α] (net : ρ → IPNet w) (attributes : ρ → α)

namespace DeletionTable

def replaceRoute : List (DeletionTable w α ρ) → PeerMsg ρ → PeerMsg ρ →
    Except Fault (Update (PeerMsg ρ))
  | [], old, new => .ok (.replace old new)
  | D :: Ds, old, new =>
      if net old.route ≠ net new.route then .error .assertion
      else if (D.table.trie.get (net old.route)).isSome then .error .assertion
      else replaceRoute Ds old new

def deleteRoute : List (DeletionTable w α ρ) → PeerMsg ρ → Except Fault (Update (PeerMsg ρ))
  | [], m => .ok (.delete m)
  | D :: Ds, m =>
      if (D.table.trie.get (net m.route)).isSome then .error .assertion
      else deleteRoute Ds m

/-- The sweep moves on if it is at a chain with no other route than that of `n`. -/
def stepAside (D : DeletionTable w α ρ) (n : IPNet w) : Except Fault (Option α) :=
  match D.delSweep with
  | none => .error .badPointer
  | some a =>
      match D.table.find a with
      | none => .error .badPointer
      | some first => do
          let r ← D.table.deref first
          if net r = n ∧ D.table.links.prev first = first then
            pure (OrderedSet.next a D.table.keys)
          else pure (some a)

/-- The old route of a net that is announced again leaves the table.  The reference to it is
held until the message is made. -/
def takeOut (D : DeletionTable w α ρ) (existing : Nat) (n : IPNet w) :
    Except Fault (DeletionTable w α ρ × PeerMsg ρ) := do
  let r ← D.table.deref existing
  if net r ≠ n then .error .assertion
  else
    let delSweep ← D.stepAside net n
    let table ← D.table.erase net attributes n
    let old ← table.deref existing
    pure ({ D with table := table.unref existing, delSweep }, ⟨old, D.genid, true⟩)

def addRoute : List (DeletionTable w α ρ) → PeerMsg ρ →
    Except Fault (List (DeletionTable w α ρ) × Update (PeerMsg ρ))
  | [], m => .ok ([], .add m)
  | D :: Ds, m =>
      match D.table.trie.get (net m.route) with
      | none => do
          let (Ds', u) ← addRoute Ds m
          pure (D :: Ds', u)
      | some existing => do
          let (D', old) ← D.takeOut net attributes existing (net m.route)
          let u ← replaceRoute net Ds old m
          pure (D' :: Ds, u)

/-- The loop of `delete_next_chain`, from `chained` to `first`. -/
def deleteChain (older : List (DeletionTable w α ρ)) (genid : BitVec 32) (first : Nat) :
    Nat → BgpTrie w α ρ → Nat → List (Update (PeerMsg ρ)) →
      Except Fault (BgpTrie w α ρ × List (Update (PeerMsg ρ)))
  | 0, _, _, _ => .error .outOfFuel
  | fuel + 1, table, chained, out => do
      let r ← table.deref chained
      let next := table.links.next chained
      let table ← table.erase net attributes (net r)
      let r ← table.deref chained
      let u ← deleteRoute net older ⟨r, genid, true⟩
      let table := table.unref chained
      if chained = first then pure (table, out ++ [u])
      else deleteChain older genid first fuel table next (out ++ [u])

/-- Without a table left, it has unplumbed itself. -/
def deleteNextChain (older : List (DeletionTable w α ρ)) (D : DeletionTable w α ρ)
    (out : List (Update (PeerMsg ρ))) :
    Except Fault (Option (DeletionTable w α ρ) × List (Update (PeerMsg ρ))) :=
  match D.delSweep with
  | none => if D.table.trie.routeCount = 0 then .ok (none, out) else .error .assertion
  | some a =>
      match D.table.find a with
      | none => .error .badPointer
      | some first => do
          let _ ← D.table.deref first
          let delSweep := OrderedSet.next a D.table.keys
          let (table, out) ← deleteChain net attributes older D.genid first (D.table.fresh + 1)
            D.table (D.table.links.next first) out
          pure (some { D with table, delSweep }, out)

end DeletionTable

/-- A `RibInTable`, and the deletion tables plumbed in after it, the newest first. -/
structure RibIn (w : Nat) (α ρ : Type) where
  table : BgpTrie w α ρ
  peerIsUp : Bool
  genid : BitVec 32
  deletions : List (DeletionTable w α ρ)
  /-- the messages to the table after them -/
  out : List (Update (PeerMsg ρ))

namespace RibIn

def init : RibIn w α ρ := ⟨.empty, true, 1, [], []⟩

variable (S : RibIn w α ρ)

def addRoute (r : ρ) : Except Fault (RibIn w α ρ) :=
  if ¬ S.peerIsUp then .error .assertion
  else
    match S.table.trie.get (net r) with
    | some existing => do
        let old ← S.table.deref existing
        if net old ≠ net r then .error .assertion
        else
          let table ← S.table.erase net attributes (net r)
          let table ← table.insert net attributes r
          let old ← table.deref existing
          let u ← DeletionTable.replaceRoute net S.deletions ⟨old, S.genid, false⟩
            ⟨r, S.genid, false⟩
          pure { S with table := table.unref existing, out := S.out ++ [u] }
    | none => do
        let table ← S.table.insert net attributes r
        let (deletions, u) ← DeletionTable.addRoute net attributes S.deletions
          ⟨r, S.genid, false⟩
        pure { S with table, deletions, out := S.out ++ [u] }

/-- A net without a route is only logged. -/
def deleteRoute (n : IPNet w) : Except Fault (RibIn w α ρ) :=
  if ¬ S.peerIsUp then .error .assertion
  else
    match S.table.trie.get n with
    | some existing => do
        let table ← S.table.erase net attributes n
        let old ← table.deref existing
        let u ← DeletionTable.deleteRoute net S.deletions ⟨old, S.genid, false⟩
        pure { S with table := table.unref existing, out := S.out ++ [u] }
    | none => pure S

/-- `ribin_peering_went_down`. -/
def peeringWentDown : RibIn w α ρ :=
  if 0 < S.table.trie.routeCount then
    { S with
      peerIsUp := false
      table := .empty
      deletions := ⟨S.table, S.table.keys.head?, S.genid⟩ :: S.deletions }
  else { S with peerIsUp := false }

/-- `ribin_peering_came_up`.  Generation 0 is reserved. -/
def peeringCameUp : RibIn w α ρ :=
  { S with peerIsUp := true, genid := if S.genid + 1 = 0 then 1 else S.genid + 1 }

/-- The deletion table at position `i` does a turn. -/
def deleteNextChain (i : Nat) : Except Fault (RibIn w α ρ) :=
  match S.deletions[i]? with
  | none => pure S
  | some D => do
      let older := S.deletions.drop (i + 1)
      let (D', out) ← DeletionTable.deleteNextChain net attributes older D S.out
      pure { S with deletions := S.deletions.take i ++ D'.toList ++ older, out }

/-- `lookup_route` of the table after them: the oldest deletion table is asked first. -/
def lookupRoute (n : IPNet w) : Option (PeerMsg ρ) :=
  S.deletions.foldl (fun parent D => (heldAs D.genid D.table.content n).or parent)
    (if S.peerIsUp then heldAs S.genid S.table.content n else none)

/-! ### Runs -/

inductive Op (w : Nat) (ρ : Type) where
  | addRoute (r : ρ)
  | deleteRoute (n : IPNet w)
  | peeringWentDown
  | peeringCameUp
  | deleteNextChain (i : Nat)

def step : Op w ρ → Except Fault (RibIn w α ρ)
  | .addRoute r => S.addRoute net attributes r
  | .deleteRoute n => S.deleteRoute net attributes n
  | .peeringWentDown => .ok S.peeringWentDown
  | .peeringCameUp => .ok S.peeringCameUp
  | .deleteNextChain i => S.deleteNextChain net attributes i

end RibIn

end

/-! ### One deletion table -/

variable {post pre : List (DeletionTable w α ρ)} {c : IPNet w → Option ρ} {n : IPNet w}

variable {out : List (Update (PeerMsg ρ))} {B : BgpTrie w α ρ} {genid : BitVec 32} {x : Nat}

variable {net : ρ → IPNet w}

section
variable [LinearOrder α] {attributes : ρ → α}

namespace DeletionTable

/-- The sweep is at the first chain that is left. -/
structure Ready (net : ρ → IPNet w) (attributes : ρ → α) (D : DeletionTable w α ρ) : Prop where
  valid : ∃ chains, D.table.Valid net attributes chains
  sweep : D.delSweep = D.table.keys.head?

variable {D : DeletionTable w α ρ} {Ds : List (DeletionTable w α ρ)} {r : ρ} {old new : PeerMsg ρ}

theorem Ready.content_eq_none (hD : D.Ready net attributes) :
    D.table.content n = none ↔ D.table.trie.get n = none := by
  obtain ⟨chains, hv⟩ := hD.valid
  exact hv.content_eq_none

omit [LinearOrder α] in
theorem replaceRoute_eq (hnet : net old.route = net new.route)
    (h : ∀ D ∈ Ds, D.table.trie.get (net old.route) = none) :
    replaceRoute net Ds old new = .ok (.replace old new) := by
  induction Ds with
  | nil => rfl
  | cons D Ds ih =>
    have hD := h D mem_cons_self
    rw [replaceRoute, if_neg (not_not.mpr hnet), if_neg (by simp [hD])]
    exact ih fun E hE => h E (mem_cons_of_mem D hE)

omit [LinearOrder α] in
theorem deleteRoute_eq (h : ∀ D ∈ Ds, D.table.trie.get (net old.route) = none) :
    deleteRoute net Ds old = .ok (.delete old) := by
  induction Ds with
  | nil => rfl
  | cons D Ds ih =>
    have hD := h D mem_cons_self
    rw [deleteRoute, if_neg (by simp [hD])]
    exact ih fun E hE => h E (mem_cons_of_mem D hE)

variable {P : (IPNet w → Option ρ) → List (Update (PeerMsg ρ)) → Prop}
  {older : List (DeletionTable w α ρ)} {chains : α → List Nat} {h : Nat} {a : α}

/-- **The sweep steps aside** exactly if its chain is about to go. -/
theorem stepAside_eq {B' : BgpTrie w α ρ} (hv : D.table.Valid net attributes chains)
    (hsweep : D.delSweep = D.table.keys.head?) (hx : D.table.trie.get n = some x)
    (hr : D.table.objects x = some r)
    (he : BgpTrie.Valid.Erased net attributes D.table chains n x r B') :
    D.stepAside net n = .ok B'.keys.head? := by
  obtain ⟨r', hr', hnet, hmem⟩ := hv.stored n x hx
  obtain rfl : r' = r := some.inj (hr'.symm.trans hr)
  have hkey : attributes r' ∈ D.table.keys := (hv.rings.mem_keys _).mpr (ne_nil_of_mem hmem)
  have hsorted := hv.sorted
  have hkeys' := he.keys
  rw [stepAside, hsweep]
  cases hkeys : D.table.keys with
  | nil => exact absurd (hkeys ▸ hkey) not_mem_nil
  | cons a ks =>
    rw [hkeys] at hkeys' hsorted
    have ha : a ∈ D.table.keys := by rw [hkeys]; exact mem_cons_self
    obtain ⟨h, t, hat⟩ := exists_cons_of_ne_nil ((hv.rings.mem_keys a).mp ha)
    obtain ⟨-, hring⟩ := hv.rings.ring a h t hat
    obtain ⟨rh, hrh, hrha, hget⟩ := hv.chained a h (hat ▸ mem_cons_self)
    dsimp only [List.head?_cons]
    rw [hv.find_cons hat]
    dsimp only
    rw [deref_eq hrh, ok_bind, hkeys']
    by_cases hc : net rh = n ∧ D.table.links.prev h = h
    · -- the chain at the sweep has no other route
      obtain rfl : h = x := some.inj ((hc.1 ▸ hget).symm.trans hx)
      obtain rfl : t = [] := hring.prev_eq_self.mp hc.2
      obtain rfl : rh = r' := some.inj (hrh.symm.trans hr)
      rw [if_pos hc, hrha, if_pos hat, hsorted.erase_head, OrderedSet.next, if_pos rfl]
      rfl
    · rw [if_neg hc]
      by_cases hone : chains (attributes r') = [x]
      · -- another chain goes
        have hne : a ≠ attributes r' := by
          intro hra
          rw [← hra, hat] at hone
          obtain ⟨rfl, rfl⟩ := List.cons.inj hone
          obtain rfl : rh = r' := some.inj (hrh.symm.trans hr)
          exact hc ⟨hnet, hring.prev_eq_self.mpr rfl⟩
        rw [if_pos hone, head?_erase_of_ne hne]
        rfl
      · rw [if_neg hone]
        rfl

/-- What is left of a table when the old route of `n` has left it. -/
structure Without (net : ρ → IPNet w) (attributes : ρ → α) (D : DeletionTable w α ρ) (n : IPNet w)
    (D' : DeletionTable w α ρ) : Prop where
  ready : D'.Ready net attributes
  genid : D'.genid = D.genid
  content : D'.table.content = Function.update D.table.content n none
  /-- no chain is new -/
  keys : D'.table.keys.length ≤ D.table.keys.length

theorem takeOut_eq (hD : D.Ready net attributes) (hc : D.table.content n = some r) :
    ∃ x D', D.table.trie.get n = some x ∧
      D.takeOut net attributes x n = .ok (D', ⟨r, D.genid, true⟩) ∧
      D.Without net attributes n D' := by
  obtain ⟨chains, hv⟩ := hD.valid
  obtain ⟨x, hx, hobj, hnet, -⟩ := hv.get_of_content hc
  obtain ⟨B', herase, he⟩ := hv.erase hx hobj
  have hgone := he.gone hv hx
  have hobj' : B'.objects x = some r := he.objects ▸ hobj
  refine ⟨x, ⟨B'.unref x, B'.keys.head?, D.genid⟩, hx, ?_, ⟨⟨_, he.valid.unref hgone⟩, rfl⟩, rfl,
    ?_, ?_⟩
  · rw [takeOut, deref_eq hobj, ok_bind, if_neg (not_not.mpr hnet),
      stepAside_eq hv hD.sweep hx hobj he, ok_bind, herase, ok_bind, deref_eq hobj', ok_bind]
    rfl
  · exact (content_unref hgone).trans (he.content hx)
  · show B'.keys.length ≤ _
    rw [he.keys]
    split_ifs
    · exact length_filter_le ..
    · omega

/-- An announcement of a net that no table has an old route for. -/
theorem addRoute_pass (h : ∀ D ∈ Ds, D.table.trie.get (net new.route) = none) :
    addRoute net attributes Ds new = .ok (Ds, .add new) := by
  induction Ds with
  | nil => rfl
  | cons D Ds ih =>
    rw [addRoute, h D mem_cons_self]
    rw [ih fun E hE => h E (mem_cons_of_mem D hE), ok_bind]
    rfl

/-- An announcement of a net that one of the tables has an old route for. -/
theorem addRoute_take (hpre : ∀ E ∈ pre, E.table.trie.get (net new.route) = none)
    (hpost : ∀ E ∈ post, E.table.trie.get (net new.route) = none) (hD : D.Ready net attributes)
    (hc : D.table.content (net new.route) = some r) :
    ∃ D', addRoute net attributes (pre ++ D :: post) new =
        .ok (pre ++ D' :: post, .replace ⟨r, D.genid, true⟩ new) ∧
      D.Without net attributes (net new.route) D' := by
  induction pre with
  | nil =>
    obtain ⟨x, D', hx, htake, hout⟩ := takeOut_eq hD hc
    obtain ⟨chains, hv⟩ := hD.valid
    obtain ⟨-, -, -, hnet, -⟩ := hv.get_of_content hc
    refine ⟨D', ?_, hout⟩
    rw [nil_append, addRoute, hx]
    dsimp only
    rw [htake, ok_bind]
    rw [replaceRoute_eq hnet (by rw [hnet]; exact hpost), ok_bind]
    rfl
  | cons E pre ih =>
    obtain ⟨D', hadd, hout⟩ := ih fun F hF => hpre F (mem_cons_of_mem E hF)
    refine ⟨D', ?_, hout⟩
    rw [cons_append, addRoute, hpre E mem_cons_self]
    rw [hadd, ok_bind]
    rfl

section
variable (hstep : ∀ c out r, P c out → c (net r) = some r →
  (∀ D ∈ older, D.table.trie.get (net r) = none) ∧
    P (update c (net r) none) (out ++ [.delete ⟨r, genid, true⟩]))
include hstep

/-- One turn of the loop over a chain takes the route out.  `P` is what a withdrawal
preserves. -/
theorem deleteChain_turn {y : Nat} (hv : B.Valid net attributes chains) (hy : y ∈ chains a)
    (hP : P B.content out) :
    ∃ B' out', (∀ fuel, deleteChain net attributes older genid h (fuel + 1) B y out =
        if y = h then .ok (B', out')
        else deleteChain net attributes older genid h fuel B' (B.links.next y) out') ∧
      B'.Valid net attributes (update chains a ((chains a).erase y)) ∧
      B'.keys = (if chains a = [y] then erase a B.keys else B.keys) ∧ P B'.content out' := by
  obtain ⟨r, hr, rfl, hx⟩ := hv.chained a y hy
  obtain ⟨B', herase, he⟩ := hv.erase hx hr
  have hgone := he.gone hv hx
  have hc : B.content (net r) = some r := by
    rw [BgpTrie.content, hx]
    exact hr
  obtain ⟨habsent, hP'⟩ := hstep _ _ _ hP hc
  have hr' : B'.objects y = some r := he.objects ▸ hr
  refine ⟨B'.unref y, out ++ [.delete ⟨r, genid, true⟩], ?_, he.valid.unref hgone, he.keys, ?_⟩
  · intro fuel
    rw [deleteChain, deref_eq hr, ok_bind, herase, ok_bind, deref_eq hr', ok_bind,
      deleteRoute_eq habsent, ok_bind]
    rfl
  · rw [content_unref hgone, he.content hx]
    exact hP'

/-- **The loop over a chain**, from the route after the head to the head. -/
theorem deleteChain_eq (t : List Nat)
    (B : BgpTrie w α ρ) (chains : α → List Nat) (out : List (Update (PeerMsg ρ))) (fuel : Nat)
    (hv : B.Valid net attributes chains) (ha : chains a = h :: t) (hfuel : t.length < fuel)
    (hP : P B.content out) :
    ∃ B' out', deleteChain net attributes older genid h fuel B (B.links.next h) out =
        .ok (B', out') ∧
      (∃ chains', B'.Valid net attributes chains') ∧ B'.keys = erase a B.keys ∧
      P B'.content out' := by
  induction t generalizing B chains out fuel with
  | nil =>
    obtain ⟨fuel, rfl⟩ := exists_fuel hfuel
    obtain ⟨-, hring⟩ := hv.rings.ring a h [] ha
    obtain ⟨B', out', hturn, hv', hkeys, hP'⟩ :=
      deleteChain_turn hstep hv (h := h) (ha ▸ mem_cons_self) hP
    refine ⟨B', out', ?_, ⟨_, hv'⟩, ?_, hP'⟩
    · rw [hring.next_eq_self.mpr rfl, hturn, if_pos rfl]
    · rw [hkeys, if_pos ha]
  | cons y t ih =>
    obtain ⟨fuel, rfl⟩ := exists_fuel hfuel
    obtain ⟨-, hring⟩ := hv.rings.ring a h (y :: t) ha
    obtain ⟨B', out', hturn, hv', hkeys, hP'⟩ :=
      deleteChain_turn hstep hv (h := h) (ha ▸ mem_cons_of_mem h mem_cons_self) hP
    have hyh : h ≠ y := fun hhy => (nodup_cons.mp hring.nodup).1 (hhy ▸ mem_cons_self)
    have ha' : update chains a ((chains a).erase y) a = h :: t := by
      rw [update_self, ha, erase_cons_tail (by simpa using hyh), erase_cons_head]
    -- the route after `y` is the one the head points to now
    have hnext : B.links.next y = B'.links.next h := by
      have hhead : IsRing B.links h ([] ++ y :: t) := hring
      rw [(hv'.rings.ring a h t ha').2.next_head, hhead.rotate.next_head]
      cases t with
      | nil => rfl
      | cons z t => rfl
    obtain ⟨B'', out'', hrun, hvalid, hkeys', hfin⟩ := ih B' _ out' fuel hv' ha'
      (by simp only [length_cons] at hfuel; omega) hP'
    refine ⟨B'', out'', ?_, hvalid, ?_, hfin⟩
    · rw [show B.links.next h = y from hring.next_head, hturn, if_neg hyh.symm, hnext]
      exact hrun
    · rw [hkeys', hkeys, ha, if_neg (by simp)]

end

/-- A chain is not longer than the addresses that were given out. -/
theorem length_lt_fresh {t : List Nat} (hv : B.Valid net attributes chains)
    (ha : chains a = h :: t) :
    t.length < B.fresh := by
  obtain ⟨-, hring⟩ := hv.rings.ring a h t ha
  have hsub : h :: t ⊆ List.range B.fresh := by
    intro z hz
    exact mem_range.mpr (hv.lt_fresh (ha ▸ hz))
  have hle := (subperm_of_subset hring.nodup hsub).length_le
  rw [length_range] at hle
  exact hle

theorem Ready.content_eq_none_of_end (hD : D.Ready net attributes) (hend : D.delSweep = none)
    (n : IPNet w) : D.table.content n = none := by
  obtain ⟨chains, hv⟩ := hD.valid
  have hkeys : D.table.keys = [] := List.head?_eq_none_iff.mp (hD.sweep.symm.trans hend)
  rw [eq_none_iff_forall_ne_some]
  intro r hr
  obtain ⟨x, -, -, -, hmem⟩ := hv.get_of_content hr
  have hkey := (hv.rings.mem_keys (attributes r)).mpr (ne_nil_of_mem hmem)
  rw [hkeys] at hkey
  exact not_mem_nil hkey

/-- **A turn of the background task.**  At the end the table is empty and unplumbs itself;
otherwise a chain goes. -/
theorem deleteNextChain_eq (hD : D.Ready net attributes)
    (hstep : ∀ c out r, P c out → c (net r) = some r →
      (∀ D ∈ older, D.table.trie.get (net r) = none) ∧
        P (update c (net r) none) (out ++ [.delete ⟨r, D.genid, true⟩]))
    (hP : P D.table.content out) :
    (deleteNextChain net attributes older D out = .ok (none, out) ∧ D.table.keys = [] ∧
        ∀ n, D.table.content n = none) ∨
      ∃ D' out', deleteNextChain net attributes older D out = .ok (some D', out') ∧
        D'.Ready net attributes ∧ D'.genid = D.genid ∧ P D'.table.content out' ∧
        D'.table.keys.length + 1 = D.table.keys.length := by
  have hsweep := hD.sweep
  cases hkeys : D.table.keys with
  | nil =>
    rw [hkeys] at hsweep
    have hnone := hD.content_eq_none_of_end hsweep
    have hcount : D.table.trie.routeCount = 0 :=
      PrefixMap.routeCount_eq_zero.mpr fun n => hD.content_eq_none.mp (hnone n)
    refine .inl ⟨?_, rfl, hnone⟩
    rw [deleteNextChain, hsweep]
    exact if_pos hcount
  | cons a ks =>
    obtain ⟨chains, hv⟩ := hD.valid
    have ha : a ∈ D.table.keys := by rw [hkeys]; exact mem_cons_self
    obtain ⟨h, t, hat⟩ := exists_cons_of_ne_nil ((hv.rings.mem_keys a).mp ha)
    obtain ⟨r, hr⟩ := hv.live (hat ▸ mem_cons_self : h ∈ chains a)
    have hfuel : t.length < D.table.fresh + 1 := Nat.lt_succ_of_lt (length_lt_fresh hv hat)
    obtain ⟨B', out', hrun, hvalid, hkeys', hP'⟩ :=
      deleteChain_eq hstep t D.table chains out _ hv hat hfuel hP
    have hsorted := hv.sorted
    rw [hkeys] at hsweep hkeys' hsorted
    rw [hsorted.erase_head] at hkeys'
    refine .inr ⟨⟨B', ks.head?, D.genid⟩, out', ?_, ⟨hvalid, hkeys' ▸ rfl⟩, rfl, hP', ?_⟩
    · rw [deleteNextChain, hsweep]
      dsimp only [List.head?_cons]
      rw [hv.find_cons hat]
      dsimp only
      rw [deref_eq hr, ok_bind, hrun, ok_bind, hkeys, OrderedSet.next, if_pos rfl]
      rfl
    · rw [hkeys', length_cons]

end DeletionTable

end

/-! ### What has been withdrawn -/

section
variable [DecidableEq ρ]

/-- Two messages about the same route of the same peering. -/
def sameRoute (d m : PeerMsg ρ) : Bool := decide (d.route = m.route ∧ d.genid = m.genid)

/-- How often the route `r` of the former peering `g` was withdrawn. -/
def retired (out : List (Update (PeerMsg ρ))) (r : ρ) (g : BitVec 32) : Nat :=
  out.countP fun u => u.takenBack.any fun d => d.fromPrevious && sameRoute d ⟨r, g, false⟩

/-- How many of the tables have yet to withdraw it. -/
def waiting (net : ρ → IPNet w) (Ds : List (DeletionTable w α ρ)) (r : ρ) (g : BitVec 32) : Nat :=
  Ds.countP fun D => decide (D.genid = g ∧ D.table.content (net r) = some r)

variable {r : ρ} {g : BitVec 32}

variable {u : Update (PeerMsg ρ)}

/-- A route of the present peering that is withdrawn does not count. -/
theorem retired_concat (hu : ∀ d, u.takenBack = some d → d.fromPrevious = false) :
    retired (out ++ [u]) r g = retired out r g := by
  have hnone : (u.takenBack.any fun d => d.fromPrevious && sameRoute d ⟨r, g, false⟩) = false := by
    cases hd : u.takenBack with
    | none => rfl
    | some d => simp [hu d hd]
  rw [retired, countP_append, countP_singleton, hnone]
  rfl

theorem retired_concat_old (hu : u.takenBack = some ⟨r, g, true⟩) (r' : ρ) (g' : BitVec 32) :
    retired (out ++ [u]) r' g' = retired out r' g' + if r = r' ∧ g = g' then 1 else 0 := by
  rw [retired, countP_append, countP_singleton, hu]
  simp [sameRoute, retired]

theorem waiting_split (net : ρ → IPNet w) (pre post : List (DeletionTable w α ρ))
    (D : DeletionTable w α ρ) (r : ρ) (g : BitVec 32) :
    waiting net (pre ++ D :: post) r g = waiting net pre r g +
      (if D.genid = g ∧ D.table.content (net r) = some r then 1 else 0) + waiting net post r g := by
  rw [waiting, countP_append, countP_cons]
  simp only [waiting, decide_eq_true_eq]
  omega

/-- A route that leaves its table waits no longer. -/
theorem waits_take (hc : c (net r) = some r) (g : BitVec 32) (r' : ρ) (g' : BitVec 32) :
    (if g = g' ∧ c (net r') = some r' then 1 else 0) = (if r = r' ∧ g = g' then 1 else 0) +
        if g = g' ∧ update c (net r) none (net r') = some r' then 1 else 0 := by
  by_cases hn : net r' = net r
  · rw [hn, update_self, hc]
    simp [and_comm]
  · have hne : r ≠ r' := fun he => hn (congrArg net he.symm)
    simp [update_of_ne hn, hne]

end

theorem heldAs_update (g : BitVec 32) (o : Option ρ) :
    heldAs g (update c n o) = update (heldAs g c) n (o.map fun r => ⟨r, g, false⟩) := by
  funext n'
  by_cases hn : n' = n
  · rw [hn, heldAs, update_self, update_self]
  · rw [heldAs, update_of_ne hn, update_of_ne hn]
    rfl

variable {g : BitVec 32}

theorem heldAs_eq_none : heldAs g c n = none ↔ c n = none := map_eq_none_iff

theorem heldAs_of_content {r : ρ} (g : BitVec 32) (hr : c n = some r) :
    heldAs g c n = some ⟨r, g, false⟩ := by
  rw [heldAs, hr]
  rfl

/-- The withdrawal of the route that downstream holds. -/
theorem follow_delete [DecidableEq ρ] {r : ρ} {b : Bool}
    {held : IPNet w → Option (PeerMsg ρ)}
    (hstream : follow sameRoute (fun m => net m.route) out = some held)
    (hfind : held (net r) = some ⟨r, g, false⟩) :
    follow sameRoute (fun m => net m.route) (out ++ [.delete ⟨r, g, b⟩]) =
      some (update held (net r) none) := by
  refine (follow_concat hstream ?_).trans rfl
  show (held (net r)).any _ = true
  rw [hfind]
  simp [sameRoute]

/-! ### The whole row -/

section
variable [LinearOrder α] [DecidableEq ρ] (net : ρ → IPNet w) (attributes : ρ → α)

/-- What a deletion table has yet to withdraw. -/
abbrev DeletionTable.held (D : DeletionTable w α ρ) := heldAs D.genid D.table.content

abbrev RibIn.held (S : RibIn w α ρ) := heldAs S.genid S.table.content

namespace RibIn

/-- The tables a lookup goes through. -/
def layers (S : RibIn w α ρ) : List (IPNet w → Option (PeerMsg ρ)) :=
  heldAs S.genid S.table.content :: S.deletions.map fun D => heldAs D.genid D.table.content

/-- How many turns of the background tasks are left. -/
def pending (S : RibIn w α ρ) : Nat := (S.deletions.map fun D => D.table.keys.length + 1).sum

/-- What the peering can do: routes come while it is up. -/
def Allows (S : RibIn w α ρ) : Op w ρ → Prop
  | .addRoute _ | .deleteRoute _ | .peeringWentDown => S.peerIsUp = true
  | .peeringCameUp => S.peerIsUp = false
  | .deleteNextChain _ => True

/-- How often a route of a peering was handed to a deletion table. -/
def handedAfter (S : RibIn w α ρ) (handed : ρ → BitVec 32 → Nat) :
    Op w ρ → ρ → BitVec 32 → Nat
  | .peeringWentDown, r, g =>
      handed r g + if S.genid = g ∧ S.table.content (net r) = some r then 1 else 0
  | _, r, g => handed r g

inductive Reach : RibIn w α ρ → (ρ → BitVec 32 → Nat) → Prop
  | init : Reach init fun _ _ => 0
  | step {S S' : RibIn w α ρ} {handed : ρ → BitVec 32 → Nat} (op : Op w ρ) :
      Reach S handed → S.Allows op → S.step net attributes op = .ok S' →
        Reach S' (S.handedAfter net handed op)

structure Inv (S : RibIn w α ρ) (handed : ρ → BitVec 32 → Nat) : Prop where
  table : ∃ chains, S.table.Valid net attributes chains
  /-- between two peerings there are no routes -/
  down : S.peerIsUp = false → ∀ n, S.table.content n = none
  deletions : ∀ D ∈ S.deletions, D.Ready net attributes
  /-- no net is in two of the tables -/
  disjoint : Layers.Disjoint S.layers
  /-- downstream holds what a lookup finds -/
  stream : follow sameRoute (fun m => net m.route) S.out = some (Layers.find S.layers)
  /-- a route that was handed over is withdrawn, or waits -/
  once : ∀ r g, handed r g = retired S.out r g + waiting net S.deletions r g

variable {net attributes} {S : RibIn w α ρ} {handed : ρ → BitVec 32 → Nat}

theorem init_inv : Inv net attributes (init : RibIn w α ρ) fun _ _ => 0 where
  table := ⟨_, empty_valid⟩
  down h := absurd h (by simp [init])
  deletions D hD := absurd hD not_mem_nil
  disjoint := pairwise_singleton ..
  stream := rfl
  once r g := rfl

namespace Inv

variable {D : DeletionTable w α ρ} {r : ρ}

section
variable (h : Inv net attributes S handed)
include h

/-- The deletion tables have no old route for a net of the peering. -/
theorem absent_of_held (hr : S.table.content n = some r) :
    ∀ D ∈ S.deletions, D.table.trie.get n = none := by
  intro D hD
  have hdisj : Layers.Disjoint ([] ++ S.layers) := h.disjoint
  have hnone := hdisj.others (heldAs_of_content S.genid hr) _ (mem_map_of_mem hD)
  exact (h.deletions D hD).content_eq_none.mp (heldAs_eq_none.mp hnone)

/-- A deletion table is the only one with a route for a net of its own. -/
theorem absent_of_waiting (hsplit : S.deletions = pre ++ D :: post)
    (hr : D.table.content n = some r) :
    S.table.content n = none ∧ ∀ E ∈ pre ++ post, E.table.trie.get n = none := by
  have hdisj := h.disjoint
  rw [layers, hsplit, map_append, map_cons, ← cons_append] at hdisj
  have hothers := hdisj.others (heldAs_of_content D.genid hr)
  refine ⟨heldAs_eq_none.mp (hothers _ mem_cons_self), ?_⟩
  intro E hE
  have hmem : E.held ∈ (S.held :: pre.map (·.held)) ++ post.map (·.held) := by
    rw [cons_append, ← map_append]
    exact mem_cons_of_mem _ (mem_map_of_mem hE)
  have hin : E ∈ S.deletions := by
    rw [hsplit, mem_append, mem_cons]
    exact (mem_append.mp hE).imp_right .inr
  exact (h.deletions E hin).content_eq_none.mp (heldAs_eq_none.mp (hothers _ hmem))

theorem peeringWentDown :
    Inv net attributes S.peeringWentDown (S.handedAfter net handed .peeringWentDown) := by
  obtain ⟨chains, hv⟩ := h.table
  unfold RibIn.peeringWentDown
  by_cases hcount : 0 < S.table.trie.routeCount
  · rw [if_pos hcount]
    have hdisj : Layers.Disjoint ([] ++ (fun _ => none) :: S.layers) := by
      refine pairwise_cons.mpr ⟨?_, h.disjoint⟩
      intro g _ n
      exact .inl rfl
    refine ⟨⟨_, empty_valid⟩, fun _ _ => rfl, ?_, hdisj, ?_, ?_⟩
    · exact forall_mem_cons.mpr ⟨⟨h.table, rfl⟩, h.deletions⟩
    · rw [h.stream]
      exact congrArg some (find_remove hdisj fun _ => rfl)
    · intro r g
      rw [handedAfter, h.once r g]
      have hsplit := waiting_split net [] S.deletions ⟨S.table, S.table.keys.head?, S.genid⟩ r g
      have hnil : waiting net ([] : List (DeletionTable w α ρ)) r g = 0 := rfl
      rw [nil_append] at hsplit
      dsimp only at hsplit ⊢
      omega
  · rw [if_neg hcount]
    have hnone : ∀ n, S.table.content n = none := fun n =>
      hv.content_eq_none.mpr (PrefixMap.routeCount_eq_zero.mp (Nat.eq_zero_of_not_pos hcount) n)
    refine ⟨h.table, fun _ => hnone, h.deletions, h.disjoint, h.stream, ?_⟩
    intro r g
    rw [handedAfter, hnone, if_neg (by simp)]
    exact h.once r g

theorem peeringCameUp (hdown : S.peerIsUp = false) : Inv net attributes S.peeringCameUp handed := by
  have hnone := h.down hdown
  have hlayers : S.peeringCameUp.layers = S.layers := by
    have hheld : ∀ g, heldAs g S.table.content = fun _ => none := by
      intro g
      funext n
      exact heldAs_eq_none.mpr (hnone n)
    rw [layers, layers, hheld]
    exact congrArg (· :: _) (hheld _)
  refine ⟨h.table, fun hd => absurd hd (by simp [RibIn.peeringCameUp]), h.deletions, ?_, ?_, h.once⟩
  · rw [hlayers]
    exact h.disjoint
  · rw [hlayers]
    exact h.stream

theorem deleteRoute (hup : S.peerIsUp = true) (n : IPNet w) :
    ∃ S', S.deleteRoute net attributes n = .ok S' ∧ Inv net attributes S' handed ∧
      S'.deletions = S.deletions := by
  obtain ⟨chains, hv⟩ := h.table
  rw [RibIn.deleteRoute, if_neg (not_not.mpr hup)]
  cases hx : S.table.trie.get n with
  | none => exact ⟨S, rfl, h, rfl⟩
  | some x =>
    obtain ⟨r, hr, hobj, rfl, -⟩ := hv.content_of_get hx
    obtain ⟨B', herase, he⟩ := hv.erase hx hobj
    have hgone := he.gone hv hx
    have hobj' : B'.objects x = some r := he.objects ▸ hobj
    have habsent := h.absent_of_held hr
    have hcontent : (B'.unref x).content = update S.table.content (net r) none :=
      (content_unref hgone).trans (he.content hx)
    have hheld := heldAs_of_content S.genid hr
    have hdisj : Layers.Disjoint ([] ++ S.layers) := h.disjoint
    have hfind : Layers.find S.layers (net r) = some ⟨r, S.genid, false⟩ :=
      (find_eq_some h.disjoint).mpr ⟨_, mem_cons_self, hheld⟩
    have hlayers : ∀ out, layers { S with table := B'.unref x, out } =
        [] ++ update S.held (net r) none :: S.deletions.map (·.held) := by
      intro out
      rw [layers, hcontent, heldAs_update]
      rfl
    refine ⟨{ S with
      table := B'.unref x, out := S.out ++ [.delete ⟨r, S.genid, false⟩] }, ?_, ?_, rfl⟩
    · dsimp only
      rw [herase, ok_bind, deref_eq hobj', ok_bind, DeletionTable.deleteRoute_eq habsent, ok_bind]
      rfl
    · refine ⟨⟨_, he.valid.unref hgone⟩, fun hd => absurd (hup.symm.trans hd) (by simp),
        h.deletions, ?_, ?_, ?_⟩
      · rw [hlayers]
        exact hdisj.take (net r)
      · rw [hlayers, find_take hdisj hheld]
        exact follow_delete h.stream hfind
      · intro r' g'
        rw [h.once r' g', retired_concat]
        rintro d ⟨⟩
        rfl

end

omit [LinearOrder α] [DecidableEq ρ] in
/-- The layers after a route has been stored, and the deletion tables have changed to `Ds`. -/
theorem layers_put (hB : B.content = update S.table.content (net r) (some r))
    (Ds : List (DeletionTable w α ρ)) : layers { S with table := B, deletions := Ds, out } =
      update S.held (net r) (some ⟨r, S.genid, false⟩) :: Ds.map (·.held) := by
  rw [layers, hB, heldAs_update]
  rfl

omit [LinearOrder α] [DecidableEq ρ] in
theorem layers_split (hsplit : S.deletions = pre ++ D :: post) : S.layers =
    (S.held :: pre.map (·.held)) ++ D.held :: post.map (·.held) := by
  rw [layers, hsplit, map_append, map_cons, cons_append]

section
variable (h : Inv net attributes S handed)
include h

theorem deletions_eq_none (habsent : ∀ D ∈ S.deletions, D.table.trie.get n = none) :
    ∀ g ∈ S.deletions.map (·.held), g n = none := by
  intro g hg
  obtain ⟨D, hD, rfl⟩ := mem_map.mp hg
  exact heldAs_eq_none.mpr ((h.deletions D hD).content_eq_none.mpr (habsent D hD))

/-- The replacement of the route that downstream holds. -/
theorem follow_replace {old : ρ} {b : Bool} (hnet : net old = net r)
    (hfind : Layers.find S.layers (net r) = some ⟨old, g, false⟩) :
    follow sameRoute (fun m => net m.route) (S.out ++ [.replace ⟨old, g, b⟩ ⟨r, S.genid, false⟩]) =
      some (update (Layers.find S.layers) (net r) (some ⟨r, S.genid, false⟩)) := by
  refine (follow_concat h.stream ?_).trans ?_
  · refine ⟨hnet.symm, ?_⟩
    show (Layers.find S.layers (net old)).any _ = true
    rw [hnet, hfind]
    simp [sameRoute]
  · show some (update _ (net old) _) = _
    rw [hnet]
    rfl

section
variable (hup : S.peerIsUp = true)
include hup

/-- An announcement of a net that has a route already. -/
theorem addRoute_existing (hx : S.table.trie.get (net r) = some x) :
    ∃ S', S.addRoute net attributes r = .ok S' ∧ Inv net attributes S' handed ∧
      S'.pending ≤ S.pending := by
  obtain ⟨chains, hv⟩ := h.table
  obtain ⟨old, hold, hobj, hnet, -⟩ := hv.content_of_get hx
  obtain ⟨B₁, herase, he⟩ := hv.erase hx hobj
  have hn₁ : B₁.trie.get (net r) = none := by
    rw [he.trie, PrefixMap.get_erase hx, if_pos rfl]
  obtain ⟨B₂, chains₂, hinsert, hv₂, hcontent₂, htrie₂, hobjects₂⟩ := he.valid.insert hn₁
  have hfresh : x < B₁.fresh := he.fresh ▸ hv.fresh x old hobj
  have hobj₂ : B₂.objects x = some old := by
    rw [hobjects₂, update_of_ne (by omega), he.objects]
    exact hobj
  have hgone : ∀ n, B₂.trie.get n ≠ some x := by
    intro n
    rw [htrie₂, PrefixMap.get_insert]
    split_ifs with hn
    · intro hfx
      have := some.inj hfx
      omega
    · exact he.gone hv hx n
  have hcontent : (B₂.unref x).content = update S.table.content (net r) (some r) := by
    rw [content_unref hgone, hcontent₂, he.content hx, update_idem]
  have habsent := h.absent_of_held hold
  have hnone := h.deletions_eq_none habsent
  have hfind : Layers.find S.layers (net r) = some ⟨old, S.genid, false⟩ :=
    (find_eq_some h.disjoint).mpr ⟨_, mem_cons_self, heldAs_of_content S.genid hold⟩
  refine ⟨{ S with
    table := B₂.unref x
    out := S.out ++ [.replace ⟨old, S.genid, false⟩ ⟨r, S.genid, false⟩] }, ?_, ?_,
    Nat.le_refl _⟩
  · rw [RibIn.addRoute, if_neg (not_not.mpr hup), hx]
    dsimp only
    rw [deref_eq hobj, ok_bind, if_neg (not_not.mpr hnet), herase, ok_bind, hinsert, ok_bind,
      deref_eq hobj₂, ok_bind,
      DeletionTable.replaceRoute_eq hnet (by rw [hnet]; exact habsent), ok_bind]
    rfl
  · refine ⟨⟨_, hv₂.unref hgone⟩, fun hd => absurd (hup.symm.trans hd) (by simp), h.deletions,
      ?_, ?_, ?_⟩
    · rw [layers_put hcontent]
      exact Layers.Disjoint.put h.disjoint hnone _
    · rw [layers_put hcontent, find_put h.disjoint hnone]
      exact h.follow_replace hnet hfind
    · intro r' g'
      rw [h.once r' g', retired_concat]
      rintro d ⟨⟩
      rfl

/-- An announcement of a net that has no route at all. -/
theorem addRoute_new (hx : S.table.trie.get (net r) = none)
    (habsent : ∀ D ∈ S.deletions, D.table.trie.get (net r) = none) :
    ∃ S', S.addRoute net attributes r = .ok S' ∧ Inv net attributes S' handed ∧
      S'.pending ≤ S.pending := by
  obtain ⟨chains, hv⟩ := h.table
  obtain ⟨B, chains', hinsert, hv', hcontent, -, -⟩ := hv.insert hx
  have hnone := h.deletions_eq_none habsent
  have hfind : Layers.find S.layers (net r) = none := by
    rw [find_eq_none h.disjoint]
    exact forall_mem_cons.mpr ⟨heldAs_eq_none.mpr (hv.content_eq_none.mpr hx), hnone⟩
  refine ⟨{ S with table := B, out := S.out ++ [.add ⟨r, S.genid, false⟩] }, ?_, ?_, Nat.le_refl _⟩
  · rw [RibIn.addRoute, if_neg (not_not.mpr hup), hx]
    rw [hinsert, ok_bind, DeletionTable.addRoute_pass habsent, ok_bind]
    rfl
  · refine ⟨⟨_, hv'⟩, fun hd => absurd (hup.symm.trans hd) (by simp), h.deletions, ?_, ?_, ?_⟩
    · rw [layers_put hcontent]
      exact Layers.Disjoint.put h.disjoint hnone _
    · rw [layers_put hcontent, find_put h.disjoint hnone]
      exact follow_concat h.stream hfind
    · intro r' g'
      rw [h.once r' g', retired_concat]
      rintro d ⟨⟩

/-- An announcement of a net with an old route that one of the deletion tables has yet to
withdraw. -/
theorem addRoute_waiting (hsplit : S.deletions = pre ++ D :: post)
    {old : ρ} (hold : D.table.content (net r) = some old) :
    ∃ S', S.addRoute net attributes r = .ok S' ∧ Inv net attributes S' handed ∧
      S'.pending ≤ S.pending := by
  obtain ⟨chains, hv⟩ := h.table
  obtain ⟨hnone, habsent⟩ := h.absent_of_waiting hsplit hold
  have hall := h.deletions
  rw [hsplit, forall_mem_append, forall_mem_cons] at hall
  obtain ⟨hpre, hready, hpost⟩ := hall
  have hnet : net old = net r := by
    obtain ⟨chainsD, hvD⟩ := hready.valid
    obtain ⟨-, -, -, hnet, -⟩ := hvD.get_of_content hold
    exact hnet
  obtain ⟨B, chains', hinsert, hv', hcontent, -, -⟩ := hv.insert (hv.content_eq_none.mp hnone)
  have htaken : ∃ D', DeletionTable.addRoute net attributes (pre ++ D :: post) ⟨r, S.genid, false⟩ =
          .ok (pre ++ D' :: post, .replace ⟨old, D.genid, true⟩ ⟨r, S.genid, false⟩) ∧
      D.Without net attributes (net r) D' :=
    DeletionTable.addRoute_take (fun E hE => habsent E (mem_append_left post hE))
      (fun E hE => habsent E (mem_append_right pre hE)) hready hold
  obtain ⟨D', hadd, hout⟩ := htaken
  have hlayers := layers_split hsplit
  have hheld := heldAs_of_content D.genid hold
  have hheld' : D'.held = update D.held (net r) none := by
    rw [DeletionTable.held, hout.genid, hout.content, heldAs_update]
    rfl
  have hdisj := hlayers ▸ h.disjoint
  have hfind : Layers.find S.layers (net r) = some ⟨old, D.genid, false⟩ := by
    rw [find_eq_some h.disjoint, hlayers]
    exact ⟨_, mem_append_cons_self, hheld⟩
  -- first the old route leaves, then the new one enters
  have htake := hdisj.take (net r)
  have hafter := find_take hdisj hheld
  rw [cons_append] at htake hafter
  have hput : ∀ g ∈ (pre.map (·.held)) ++ update D.held (net r) none :: post.map (·.held),
      g (net r) = none := by
    refine forall_mem_append.mpr ⟨fun g hg => ?_, forall_mem_cons.mpr ⟨update_self .., fun g hg => ?_⟩⟩
    · exact hdisj.others hheld g (mem_append_left _ (mem_cons_of_mem _ hg))
    · exact hdisj.others hheld g (mem_append_right _ hg)
  refine ⟨{ S with
    table := B
    deletions := pre ++ D' :: post
    out := S.out ++ [.replace ⟨old, D.genid, true⟩ ⟨r, S.genid, false⟩] }, ?_, ?_, ?_⟩
  · rw [RibIn.addRoute, if_neg (not_not.mpr hup), hv.content_eq_none.mp hnone]
    rw [hinsert, ok_bind, hsplit, hadd, ok_bind]
    rfl
  · refine ⟨⟨_, hv'⟩, fun hd => absurd (hup.symm.trans hd) (by simp), ?_, ?_, ?_, ?_⟩
    · exact forall_mem_append.mpr ⟨hpre, forall_mem_cons.mpr ⟨hout.ready, hpost⟩⟩
    · rw [layers_put hcontent, map_append, map_cons, hheld']
      exact htake.put hput _
    · rw [layers_put hcontent, map_append, map_cons, hheld', find_put htake hput,
        hafter, update_idem, ← hlayers]
      exact h.follow_replace hnet hfind
    · intro r' g'
      have hwaits := waits_take (hnet.symm ▸ hold) D.genid r' g'
      rw [hnet] at hwaits
      rw [h.once r' g', hsplit, waiting_split, waiting_split, retired_concat_old rfl, hout.genid,
        hout.content, hwaits]
      omega
  · have hkeys := hout.keys
    simp only [pending, hsplit, map_append, map_cons, sum_append, sum_cons]
    omega

theorem addRoute (r : ρ) :
    ∃ S', S.addRoute net attributes r = .ok S' ∧ Inv net attributes S' handed ∧
      S'.pending ≤ S.pending := by
  cases hx : S.table.trie.get (net r) with
  | some x => exact h.addRoute_existing hup hx
  | none =>
    by_cases habsent : ∀ D ∈ S.deletions, D.table.trie.get (net r) = none
    · exact h.addRoute_new hup hx habsent
    · push Not at habsent
      obtain ⟨D, hD, hne⟩ := habsent
      obtain ⟨pre, post, hsplit⟩ := append_of_mem hD
      have hc : D.table.content (net r) ≠ none := fun hnone =>
        hne ((h.deletions D hD).content_eq_none.mp hnone)
      obtain ⟨old, hold⟩ := ne_none_iff_exists'.mp hc
      exact h.addRoute_waiting hup hsplit hold

end

end

/-- The row while the deletion table between `pre` and `post` has the routes `c` left. -/
def During (net : ρ → IPNet w) (S : RibIn w α ρ) (handed : ρ → BitVec 32 → Nat)
    (pre post : List (DeletionTable w α ρ)) (genid : BitVec 32) (c : IPNet w → Option ρ)
    (out : List (Update (PeerMsg ρ))) : Prop :=
  let row := (heldAs S.genid S.table.content ::
      pre.map fun D => heldAs D.genid D.table.content) ++
    heldAs genid c :: post.map fun D => heldAs D.genid D.table.content
  Layers.Disjoint row ∧ follow sameRoute (fun m => net m.route) out = some (Layers.find row) ∧
    ∀ r g, handed r g = retired out r g +
      (waiting net pre r g + (if genid = g ∧ c (net r) = some r then 1 else 0) +
        waiting net post r g)

/-- One withdrawal of the sweep. -/
theorem During.withdraw (hready : ∀ E ∈ post, E.Ready net attributes)
    (h : During net S handed pre post genid c out) (hc : c (net r) = some r) :
    (∀ E ∈ post, E.table.trie.get (net r) = none) ∧
      During net S handed pre post genid (update c (net r) none)
        (out ++ [.delete ⟨r, genid, true⟩]) := by
  obtain ⟨hdisj, hstream, honce⟩ := h
  have hheld := heldAs_of_content genid hc
  have hheld' : heldAs genid (update c (net r) none) =
      update (heldAs genid c) (net r) none := heldAs_update ..
  refine ⟨?_, ?_, ?_, ?_⟩
  · intro E hE
    have hnone := hdisj.others hheld _ (mem_append_right _ (mem_map_of_mem hE))
    exact (hready E hE).content_eq_none.mp (heldAs_eq_none.mp hnone)
  · rw [hheld']
    exact hdisj.take (net r)
  · rw [hheld', find_take hdisj hheld]
    exact follow_delete hstream ((find_eq_some hdisj).mpr ⟨_, mem_append_cons_self, hheld⟩)
  · intro r' g'
    rw [honce r' g', retired_concat_old rfl, waits_take hc genid r' g']
    omega

section
variable (h : Inv net attributes S handed)
include h

theorem deleteNextChain (hsplit : S.deletions = pre ++ D :: post) :
    ∃ S', S.deleteNextChain net attributes pre.length = .ok S' ∧ Inv net attributes S' handed ∧
      S'.pending + 1 = S.pending ∧
      (S'.deletions = pre ++ post ∧ (∀ n, D.table.content n = none) ∨
        ∃ D', S'.deletions = pre ++ D' :: post) := by
  have hall := h.deletions
  rw [hsplit, forall_mem_append, forall_mem_cons] at hall
  obtain ⟨hpre, hready, hpost⟩ := hall
  have hlayers := layers_split hsplit
  have hduring : During net S handed pre post D.genid D.table.content S.out := by
    refine ⟨hlayers ▸ h.disjoint, hlayers ▸ h.stream, ?_⟩
    intro r g
    rw [h.once r g, hsplit, waiting_split]
  have hget : S.deletions[pre.length]? = some D := by
    rw [hsplit, List.getElem?_append_right (Nat.le_refl _), Nat.sub_self]
    rfl
  have htake : S.deletions.take pre.length = pre := by rw [hsplit, take_left]
  have hdrop : S.deletions.drop (pre.length + 1) = post := by
    rw [hsplit, drop_append]
    simp
  rw [RibIn.deleteNextChain, hget]
  dsimp only
  rw [htake, hdrop]
  rcases DeletionTable.deleteNextChain_eq hready
      (fun c out r hP hc => During.withdraw hpost hP hc) hduring with
    ⟨hrun, hkeys, hnone⟩ | ⟨D', out', hrun, hready', hgenid, hP, hkeys⟩
  · refine ⟨_, by rw [hrun, ok_bind]; rfl, ?_, by simp [pending, hsplit, hkeys]; omega,
      .inl ⟨by simp, hnone⟩⟩
    obtain ⟨hdisj, hstream, honce⟩ := hduring
    have hempty : ∀ n, D.held n = none := fun n =>
      heldAs_eq_none.mpr (hnone n)
    have hrest : layers { S with deletions := pre ++ (none : Option (DeletionTable w α ρ)).toList ++
        post } = (S.held ::
          pre.map (·.held)) ++ post.map (·.held) := by
      simp [layers]
    refine ⟨h.table, h.down, ?_, ?_, ?_, ?_⟩
    · simpa using forall_mem_append.mpr ⟨hpre, hpost⟩
    · rw [hrest]
      exact hdisj.remove
    · rw [hrest, find_remove hdisj hempty]
      exact hstream
    · intro r g
      have hsum : waiting net (pre ++ (none : Option (DeletionTable w α ρ)).toList ++ post) r g =
          waiting net pre r g + waiting net post r g := by
        simp [waiting]
      rw [honce r g, hnone]
      dsimp only
      rw [hsum, if_neg (by simp)]
      omega
  · obtain ⟨hdisj, hstream, honce⟩ := hP
    refine ⟨_, by rw [hrun, ok_bind]; rfl, ?_, by simp [pending, hsplit]; omega, .inr ⟨D', by simp⟩⟩
    have hrow : ∀ out, layers { S with deletions := pre ++ (some D').toList ++ post, out } =
        (S.held :: pre.map (·.held)) ++
          heldAs D.genid D'.table.content :: post.map (·.held) := by
      intro out
      simp [layers, hgenid]
    refine ⟨h.table, h.down, ?_, ?_, ?_, ?_⟩
    · simpa using forall_mem_append.mpr ⟨hpre, forall_mem_cons.mpr ⟨hready', hpost⟩⟩
    · rw [hrow]
      exact hdisj
    · rw [hrow]
      exact hstream
    · intro r g
      have hlist : pre ++ (some D').toList ++ post = pre ++ D' :: post := by simp
      rw [honce r g, hlist, waiting_split, hgenid]

/-- **One operation.** -/
theorem step (op : Op w ρ) (hallow : S.Allows op) :
    ∃ S', S.step net attributes op = .ok S' ∧ Inv net attributes S' (S.handedAfter net handed op) ∧
      (op ≠ .peeringWentDown → S'.pending ≤ S.pending) := by
  cases op with
  | addRoute r =>
    obtain ⟨S', hrun, hinv, hle⟩ := h.addRoute hallow r
    exact ⟨S', hrun, hinv, fun _ => hle⟩
  | deleteRoute n =>
    obtain ⟨S', hrun, hinv, hsame⟩ := h.deleteRoute hallow n
    refine ⟨S', hrun, hinv, fun _ => ?_⟩
    rw [pending, pending, hsame]
  | peeringWentDown => exact ⟨_, rfl, h.peeringWentDown, fun hne => absurd rfl hne⟩
  | peeringCameUp => exact ⟨_, rfl, h.peeringCameUp hallow, fun _ => Nat.le_refl _⟩
  | deleteNextChain i =>
    by_cases hi : i < S.deletions.length
    · have hsplit : S.deletions =
          S.deletions.take i ++ S.deletions[i] :: S.deletions.drop (i + 1) := by
        rw [getElem_cons_drop, take_append_drop]
      have hlen : (S.deletions.take i).length = i := length_take_of_le (Nat.le_of_lt hi)
      obtain ⟨S', hrun, hinv, hless, -⟩ := h.deleteNextChain hsplit
      rw [hlen] at hrun
      exact ⟨S', hrun, hinv, fun _ => Nat.le_of_succ_le (Nat.le_of_eq hless)⟩
    · refine ⟨S, ?_, h, fun _ => Nat.le_refl _⟩
      show S.deleteNextChain net attributes i = _
      rw [RibIn.deleteNextChain, List.getElem?_eq_none (Nat.le_of_not_lt hi)]
      rfl

theorem lookupRoute : S.lookupRoute = Layers.find S.layers := by
  funext n
  have hfirst : (if S.peerIsUp then S.held n else none) = S.held n := by
    cases hup : S.peerIsUp with
    | true => rfl
    | false => exact (heldAs_eq_none.mpr (h.down hup n)).symm
  rw [RibIn.lookupRoute, hfirst, Layers.find, layers, foldl_cons, foldl_map, or_none]

end

end Inv

theorem Reach.inv (h : Reach net attributes S handed) : Inv net attributes S handed := by
  induction h with
  | init => exact init_inv
  | step op _ hallow hstep ih =>
    obtain ⟨S'', hrun, hinv, -⟩ := ih.step op hallow
    rw [hstep] at hrun
    exact Except.ok.inj hrun ▸ hinv

end RibIn

end

end Xorp.Bgp

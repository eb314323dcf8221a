/-
The decision table.

`DecisionTable` looks a net up in all of its parents, lets `find_winner` choose among what they
hold, and passes the route that won on to the next table.  It keeps nothing itself: which route won
is a flag on the route, and the next operation for the net finds the last winner by that flag.

`find_winner` takes the first of several routes that it cannot tell apart, and the routes of the
other parents come before the one that was just added.  So the winner of a tie depends on the order
in which the routes came.  What `find_winner` compares includes the metric of the nexthop, which can
change while the route is held; only an operation for the net makes the table look at it again.
-/
import Xorp.Bgp.FindWinner
import Xorp.Lib.Stream
import Xorp.Net.IPNet

namespace Xorp.Bgp

open Linked Stream Function List Except

variable {w : Nat} {ν : Type}

/-- A `SubnetRoute` that a parent holds.  `route` is its address. -/
structure StoredRoute (ν : Type) where
  route : Nat
  attributes : PathAttributes ν
  nexthopResolved : Bool
  genid : Nat
deriving DecidableEq

/-- `RouteData`, with the route itself. -/
structure Candidate (ν : Type) extends RouteData ν where
  route : Nat
deriving DecidableEq

/-- What is asked of the next table. -/
inductive DecisionCall (w : Nat) (ν : Type) where
  | update (u : Update (IPNet w × Candidate ν)) (push : Bool)
  | push

def DecisionCall.update? : DecisionCall w ν → Option (Update (IPNet w × Candidate ν))
  | .update u _ => some u
  | .push => none

structure DecisionTable (w : Nat) (ν : Type) where
  /-- `_parents`, in the order of the map -/
  parents : List Nat
  peerHandler : Nat → PeerHandler
  /-- what the parents hold -/
  routes : Nat → IPNet w → Option (StoredRoute ν)
  /-- the flag of a route -/
  isWinner : Nat → Bool
  out : List (DecisionCall w ν)

namespace DecisionTable

def empty (parents : List Nat) (peerHandler : Nat → PeerHandler) : DecisionTable w ν :=
  ⟨parents, peerHandler, fun _ _ => none, fun _ => false, []⟩

section
variable (S : DecisionTable w ν)

def candidate (t : Nat) (r : StoredRoute ν) : Candidate ν where
  attributes := r.attributes
  nexthopResolved := r.nexthopResolved
  parentTable := t
  peerHandler := S.peerHandler t
  genid := r.genid
  route := r.route

def send (u : Update (IPNet w × Candidate ν)) (push : Bool) : DecisionTable w ν :=
  { S with out := S.out ++ [.update u push] }

def push : DecisionTable w ν := { S with out := S.out ++ [.push] }

def setIsWinner (route : Nat) : DecisionTable w ν :=
  { S with isWinner := Function.update S.isWinner route true }

def setIsNotWinner (route : Nat) : DecisionTable w ν :=
  { S with isWinner := Function.update S.isWinner route false }

/-- The loop of `find_alternative_routes`, with the alternatives so far and the winner among
them. -/
def alternativesLoop (caller : Nat) (net : IPNet w) : List Nat → List (Candidate ν) →
    Option (Candidate ν) → Except Fault (List (Candidate ν) × Option (Candidate ν))
  | [], alternatives, winner => .ok (alternatives, winner)
  | t :: ts, alternatives, winner =>
      if t = caller then alternativesLoop caller net ts alternatives winner
      else
        match S.routes t net with
        | none => alternativesLoop caller net ts alternatives winner
        | some r =>
            let c := S.candidate t r
            if S.isWinner r.route then
              if winner.isSome then .error .assertion
              else alternativesLoop caller net ts (alternatives ++ [c]) (some c)
            else alternativesLoop caller net ts (alternatives ++ [c]) winner

def findAlternativeRoutes (caller : Nat) (net : IPNet w) :
    Except Fault (List (Candidate ν) × Option (Candidate ν)) :=
  S.alternativesLoop caller net S.parents [] none

end

section
variable [DecidableEq ν] (lookup : Resolver ν)

/-- The answer of the resolver, which has to know the nexthop. -/
def resolvable (nexthop : ν) : Except Fault Bool :=
  match lookup nexthop with
  | none => .error .abort
  | some (resolvable, _) => .ok resolvable

/-- The alternative that `find_winner` leaves. -/
def findWinnerAmong (alternatives : List (Candidate ν)) : Except Fault (Option (Candidate ν)) := do
  match ← findWinner lookup (alternatives.map Candidate.toRouteData) with
  | none => pure none
  | some r => pure (alternatives.find? fun c => c.toRouteData = r)

/-- A new route wins by default. -/
def addedWinner (alternatives : List (Candidate ν)) (new : Candidate ν) :
    Except Fault (Option (Candidate ν)) :=
  if alternatives ≠ [] then findWinnerAmong lookup (alternatives ++ [new]) else pure (some new)

/-- A route that takes the place of another one wins by default if it is resolvable. -/
def replacedWinner (alternatives : List (Candidate ν)) (new : Candidate ν) :
    Except Fault (Option (Candidate ν)) :=
  if alternatives ≠ [] then findWinnerAmong lookup (alternatives ++ [new])
  else do
    let known ← resolvable lookup new.attributes.nexthop
    pure (if known then some new else none)

def remainingWinner (alternatives : List (Candidate ν)) : Except Fault (Option (Candidate ν)) :=
  if alternatives ≠ [] then findWinnerAmong lookup alternatives else pure none

variable (S : DecisionTable w ν)

/-- The last winner, which can be the route that leaves. -/
def lastWinner (found : Option (Candidate ν)) (old : Candidate ν) : Option (Candidate ν) :=
  match found with
  | some o => some o
  | none => if S.isWinner old.route then some old else none

/-- `set_is_winner`, with the metric of the nexthop. -/
def wins (c : Candidate ν) : Except Fault (DecisionTable w ν) := do
  let _ ← igpDistance lookup c.attributes.nexthop
  pure (S.setIsWinner c.route)

def addRoute (net : IPNet w) (new : Candidate ν) (push : Bool) (caller : Nat) :
    Except Fault (DecisionTable w ν) := do
  let known ← resolvable lookup new.attributes.nexthop
  if new.nexthopResolved ≠ known then .error .assertion
  else if known = false then pure S
  else
    let (alternatives, oldWinner) ← S.findAlternativeRoutes caller net
    let newWinner ← addedWinner lookup alternatives new
    match newWinner with
    | none => .error .assertion
    | some n =>
        match oldWinner with
        | some o =>
            if o.route = n.route then pure S
            else
              let S := (S.send (.delete (net, o)) false).setIsNotWinner o.route
              let S ← S.wins lookup n
              pure (S.send (.add (net, n)) push)
        | none =>
            let S ← S.wins lookup n
            pure (S.send (.add (net, n)) push)

def deleteRoute (net : IPNet w) (old : Candidate ν) (push : Bool) (caller : Nat) :
    Except Fault (DecisionTable w ν) := do
  let (alternatives, found) ← S.findAlternativeRoutes caller net
  let newWinner ← remainingWinner lookup alternatives
  match S.lastWinner found old, newWinner with
  | none, none => pure S
  | some o, none =>
      if o.route ≠ old.route then
        pure ((S.send (.delete (net, o)) push).setIsNotWinner o.route)
      else pure ((S.send (.delete (net, old)) push).setIsNotWinner old.route)
  | none, some n =>
      let S ← S.wins lookup n
      let S := S.send (.add (net, n)) false
      pure (if push then S.push else S)
  | some o, some n =>
      if o.route = n.route then pure S
      else
        let S :=
          if o.route ≠ old.route then (S.send (.delete (net, o)) false).setIsNotWinner o.route
          else (S.send (.delete (net, old)) false).setIsNotWinner old.route
        let S ← S.wins lookup n
        let S := S.send (.add (net, n)) false
        pure (if push then S.push else S)

/-- The two messages go out as one if they come from the same peer.  A parent stands for its
peer. -/
def passOn (net : IPNet w) (o n : Candidate ν) (push : Bool) : Except Fault (DecisionTable w ν) := do
  let S ← S.wins lookup n
  if o.parentTable = n.parentTable then pure (S.send (.replace (net, o) (net, n)) push)
  else pure ((S.send (.delete (net, o)) false).send (.add (net, n)) push)

/-- The flag of the route that is replaced stays. -/
def replaceRoute (net : IPNet w) (old new : Candidate ν) (oldPush newPush : Bool) (caller : Nat) :
    Except Fault (DecisionTable w ν) := do
  let (alternatives, found) ← S.findAlternativeRoutes caller net
  match S.lastWinner found old with
  | none => S.addRoute lookup net new newPush caller
  | some o =>
      let newWinner ← replacedWinner lookup alternatives new
      match newWinner with
      | none =>
          let S ← S.deleteRoute lookup net old oldPush caller
          pure (if newPush && !oldPush then S.push else S)
      | some n =>
          if n.route = o.route then pure S
          else
            let S := if o.route = old.route then S else S.setIsNotWinner o.route
            S.passOn lookup net o n newPush

/-! ### Runs -/

/-- The operations of the parents. -/
inductive Op (w : Nat) (ν : Type) where
  | addRoute (t : Nat) (net : IPNet w) (r : StoredRoute ν) (push : Bool)
  | replaceRoute (t : Nat) (net : IPNet w) (r : StoredRoute ν) (oldPush newPush : Bool)
  | deleteRoute (t : Nat) (net : IPNet w) (push : Bool)

/-- The parent holds a route.  A new route has no flag. -/
def hold (t : Nat) (net : IPNet w) (r : StoredRoute ν) : DecisionTable w ν :=
  { S with
    routes := Function.update S.routes t (Function.update (S.routes t) net (some r))
    isWinner := Function.update S.isWinner r.route false }

def release (t : Nat) (net : IPNet w) : DecisionTable w ν :=
  { S with routes := Function.update S.routes t (Function.update (S.routes t) net none) }

/-- The parent stores the change, and passes it on. -/
def step : Op w ν → Except Fault (DecisionTable w ν)
  | .addRoute t net r push => (S.hold t net r).addRoute lookup net (S.candidate t r) push t
  | .replaceRoute t net r oldPush newPush =>
      match S.routes t net with
      | none => .error .assertion
      | some old =>
          (S.hold t net r).replaceRoute lookup net (S.candidate t old) (S.candidate t r) oldPush
            newPush t
  | .deleteRoute t net push =>
      match S.routes t net with
      | none => .error .assertion
      | some old => (S.release t net).deleteRoute lookup net (S.candidate t old) push t

end

/-! ### The alternatives and the flags -/

section
variable (S : DecisionTable w ν)

def candidateOf (net : IPNet w) (t : Nat) : Option (Candidate ν) :=
  (S.routes t net).map (S.candidate t)

/-- All that the parents hold for a net. -/
def alternatives (net : IPNet w) : List (Candidate ν) := S.parents.filterMap (S.candidateOf net)

/-- What the other parents hold. -/
def others (caller : Nat) (net : IPNet w) : List (Candidate ν) :=
  (S.parents.filter fun t => t ≠ caller).filterMap (S.candidateOf net)

def isFlagged (c : Candidate ν) : Bool := S.isWinner c.route

/-- The alternative that is flagged. -/
def flagged (net : IPNet w) : Option (Candidate ν) := (S.alternatives net).find? S.isFlagged

/-- The flags for a net mark `o` and nothing else. -/
def Marks (net : IPNet w) (o : Option (Candidate ν)) : Prop :=
  ∀ t ∈ S.parents, ∀ r, S.routes t net = some r →
    (S.isWinner r.route = true ↔ o = some (S.candidate t r))

/-- No two routes that are held are the same object. -/
def Distinct : Prop :=
  ∀ t net r t' net' r', S.routes t net = some r → S.routes t' net' = some r' →
    r.route = r'.route → t = t' ∧ net = net'

/-- The changes that were passed on. -/
def updates : List (Update (IPNet w × Candidate ν)) := S.out.filterMap DecisionCall.update?

end

section
variable {S S' : DecisionTable w ν} {net m : IPNet w} {o x : Option (Candidate ν)}
  {c n : Candidate ν} {t caller route : Nat}

theorem mem_alternatives : c ∈ S.alternatives net ↔
    ∃ t ∈ S.parents, ∃ r, S.routes t net = some r ∧ S.candidate t r = c := by
  simp only [alternatives, candidateOf, mem_filterMap, Option.map_eq_some_iff]

theorem mem_others : c ∈ S.others caller net ↔
    ∃ t ∈ S.parents, t ≠ caller ∧ ∃ r, S.routes t net = some r ∧ S.candidate t r = c := by
  simp only [others, candidateOf, mem_filterMap, mem_filter, Option.map_eq_some_iff,
    decide_eq_true_eq, and_assoc]

theorem others_subset : S.others caller net ⊆ S.alternatives net := by
  intro c hc
  obtain ⟨t, ht, -, r, hr, rfl⟩ := mem_others.mp hc
  exact mem_alternatives.mpr ⟨t, ht, r, hr, rfl⟩

theorem Marks.iff (h : S.Marks net o) (hc : c ∈ S.alternatives net) :
    S.isFlagged c = true ↔ o = some c := by
  obtain ⟨t, ht, r, hr, rfl⟩ := mem_alternatives.mp hc
  exact h t ht r hr

/-- The flag leads to what is marked, in any part that it may be in. -/
theorem Marks.find_eq {l : List (Candidate ν)} (h : S.Marks net o)
    (hl : ∀ c ∈ l, c ∈ S.alternatives net) (ho : ∀ c, o = some c → c ∈ l) :
    l.find? S.isFlagged = o := by
  cases hfind : l.find? S.isFlagged with
  | some c =>
    have hc := hl c (mem_of_find?_eq_some hfind)
    exact ((h.iff hc).mp (find?_some hfind)).symm
  | none =>
    cases o with
    | none => rfl
    | some c =>
      have hc := ho c rfl
      have hno := find?_eq_none.mp hfind c hc
      exact absurd ((h.iff (hl c hc)).mpr rfl) hno

theorem Marks.flagged_eq (h : S.Marks net o) (ho : ∀ c, o = some c → c ∈ S.alternatives net) :
    S.flagged net = o := h.find_eq (fun _ hc => hc) ho

theorem Distinct.eq (h : S.Distinct) (hc : c ∈ S.alternatives net) (hn : n ∈ S.alternatives net)
    (he : c.route = n.route) : c = n := by
  obtain ⟨t, -, r, hr, rfl⟩ := mem_alternatives.mp hc
  obtain ⟨t', -, r', hr', rfl⟩ := mem_alternatives.mp hn
  obtain ⟨rfl, -⟩ := h t net r t' net r' hr hr' he
  rw [Option.some.inj (hr.symm.trans hr')]

variable {r : StoredRoute ν}

/-- The route of a candidate is not one that is held for another net. -/
def Apart (S : DecisionTable w ν) (net : IPNet w) (c : Candidate ν) : Prop :=
  ∀ m, m ≠ net → ∀ t r, S.routes t m = some r → r.route ≠ c.route

theorem Distinct.apart (h : S.Distinct) (hc : c ∈ S.alternatives net) : S.Apart net c := by
  intro m hne t r hr he
  obtain ⟨t', -, r', hr', rfl⟩ := mem_alternatives.mp hc
  exact hne (h t m r t' net r' hr hr' he).2

/-! ### One parent changes -/

theorem others_congr (hroutes : ∀ t, t ≠ caller → S'.routes t net = S.routes t net)
    (hparents : S'.parents = S.parents) (hpeer : S'.peerHandler = S.peerHandler) :
    S'.others caller net = S.others caller net := by
  unfold others
  rw [hparents]
  refine filterMap_congr fun t ht => ?_
  have hne : t ≠ caller := by simpa using (mem_filter.mp ht).2
  unfold candidateOf candidate
  rw [hroutes t hne, hpeer]

theorem alternatives_congr (hroutes : ∀ t, S'.routes t net = S.routes t net)
    (hparents : S'.parents = S.parents) (hpeer : S'.peerHandler = S.peerHandler) :
    S'.alternatives net = S.alternatives net := by
  unfold alternatives candidateOf candidate
  simp only [hroutes, hparents, hpeer]

/-- The alternatives are those of the others and that of the caller, up to the order. -/
theorem alternatives_perm (hnodup : S.parents.Nodup) (ht : t ∈ S.parents) :
    (S.alternatives net).Perm (S.others t net ++ (S.candidateOf net t).toList) := by
  have hparents : S.parents.Perm ((S.parents.filter fun u => u ≠ t) ++ [t]) := by
    have herase : S.parents.erase t = S.parents.filter fun u => u ≠ t := by
      rw [hnodup.erase_eq_filter]
      congr 1
      funext u
      grind
    rw [← herase]
    exact (perm_cons_erase ht).trans (perm_append_singleton ..).symm
  have hmap := hparents.filterMap (S.candidateOf net)
  rw [filterMap_append] at hmap
  have hone : [t].filterMap (S.candidateOf net) = (S.candidateOf net t).toList := by
    cases hc : S.candidateOf net t with
    | none => rw [filterMap_cons_none hc]; rfl
    | some c => rw [filterMap_cons_some hc]; rfl
  exact hmap

/-- Without a route of its own the parent has no part in the order. -/
theorem alternatives_eq_others (hnone : S.routes t net = none) :
    S.alternatives net = S.others t net := by
  unfold alternatives others
  induction S.parents with
  | nil => rfl
  | cons u us ih =>
    by_cases hu : u = t
    · subst hu
      rw [filterMap_cons_none (by rw [candidateOf, hnone]; rfl), filter_cons_of_neg (by simp), ih]
    · rw [filter_cons_of_pos (by simp [hu]), filterMap_cons, filterMap_cons, ih]

/-! ### Flags -/

theorem Marks.clear (h : S.Marks net o) (ho : ∀ c, o = some c → c.route = route) :
    (S.setIsNotWinner route).Marks net none := by
  intro t ht r hr
  refine iff_of_false ?_ (by simp)
  show ¬ update S.isWinner route false r.route = true
  by_cases he : r.route = route
  · rw [he, update_self]
    exact Bool.false_ne_true
  · rw [update_of_ne he, h t ht r hr]
    intro hsome
    exact he (ho _ hsome)

theorem Marks.off (h : S.Marks m o) (hc : S.Apart net c) (hne : m ≠ net) (b : Bool) :
    Marks { S with isWinner := update S.isWinner c.route b } m o := by
  intro t ht r hr
  show update S.isWinner c.route b r.route = true ↔ _
  rw [update_of_ne (hc m hne t r hr)]
  exact h t ht r hr

theorem Marks.set (h : S.Marks net none) (hd : S.Distinct) (hn : n ∈ S.alternatives net) :
    (S.setIsWinner n.route).Marks net (some n) := by
  intro t ht r hr
  have hmem : S.candidate t r ∈ S.alternatives net := mem_alternatives.mpr ⟨t, ht, r, hr, rfl⟩
  show update S.isWinner n.route true r.route = true ↔ some n = some (S.candidate t r)
  by_cases he : r.route = n.route
  · rw [he, update_self]
    exact iff_of_true rfl (congrArg some (hd.eq hn hmem he.symm))
  · rw [update_of_ne he, h t ht r hr]
    refine iff_of_false (by simp) ?_
    intro hsame
    exact he (congrArg Candidate.route (Option.some.inj hsame)).symm

/-- The loop collects what the others hold, and the marked one if it is there. -/
theorem alternativesLoop_eq (ts : List Nat) (alts : List (Candidate ν))
    (winner : Option (Candidate ν))
    (hone : (((ts.filter fun t => t ≠ caller).filterMap (S.candidateOf net)).filter
      S.isFlagged).length + (if winner.isSome then 1 else 0) ≤ 1) :
    S.alternativesLoop caller net ts alts winner =
      .ok (alts ++ (ts.filter fun t => t ≠ caller).filterMap (S.candidateOf net),
        winner.or (((ts.filter fun t => t ≠ caller).filterMap (S.candidateOf net)).find?
          S.isFlagged)) := by
  induction ts generalizing alts winner with
  | nil =>
    rw [alternativesLoop, filter_nil, filterMap_nil, append_nil, find?_nil, Option.or_none]
  | cons t ts ih =>
    rw [alternativesLoop]
    by_cases ht : t = caller
    · rw [if_pos ht, filter_cons_of_neg (by simp [ht])]
      rw [filter_cons_of_neg (by simp [ht])] at hone
      exact ih alts winner hone
    · rw [if_neg ht, filter_cons_of_pos (by simp [ht])]
      rw [filter_cons_of_pos (by simp [ht])] at hone
      cases hr : S.routes t net with
      | none =>
        have hnone : S.candidateOf net t = none := by rw [candidateOf, hr]; rfl
        rw [filterMap_cons_none hnone] at hone ⊢
        exact ih alts winner hone
      | some r =>
        have hsome : S.candidateOf net t = some (S.candidate t r) := by rw [candidateOf, hr]; rfl
        have happ : ∀ l : List (Candidate ν), alts ++ S.candidate t r :: l =
            alts ++ [S.candidate t r] ++ l := by
          intro l
          rw [append_assoc, singleton_append]
        rw [filterMap_cons_some hsome] at hone ⊢
        rw [happ]
        by_cases hflag : S.isWinner r.route = true
        · have hflag' : S.isFlagged (S.candidate t r) = true := hflag
          rw [filter_cons_of_pos hflag', length_cons] at hone
          have hno : winner = none := by
            cases winner with
            | none => rfl
            | some c => simp at hone
          subst hno
          have hrest := ih (alts ++ [S.candidate t r]) (some (S.candidate t r)) (by simpa using hone)
          show (if S.isWinner r.route = true then _ else _) = _
          rw [if_pos hflag, if_neg (by simp), hrest, find?_cons_of_pos hflag']
          rfl
        · have hflag' : ¬ S.isFlagged (S.candidate t r) = true := hflag
          rw [filter_cons_of_neg hflag'] at hone
          show (if S.isWinner r.route = true then _ else _) = _
          rw [if_neg hflag, ih _ winner hone, find?_cons_of_neg hflag']

theorem nodup_others (caller : Nat) (net : IPNet w) (h : S.parents.Nodup) : (S.others caller net).Nodup := by
  refine (h.filter _).filterMap fun t t' c hc hc' => ?_
  obtain ⟨r, -, rfl⟩ := Option.map_eq_some_iff.mp hc
  obtain ⟨r', -, he⟩ := Option.map_eq_some_iff.mp hc'
  exact (congrArg (fun c => c.toRouteData.parentTable) he).symm

/-- **The last winner is found by its flag.** -/
theorem findAlternativeRoutes_eq (hnodup : S.parents.Nodup) (h : S.Marks net o) :
    S.findAlternativeRoutes caller net =
      .ok (S.others caller net, (S.others caller net).find? S.isFlagged) := by
  have hall : ∀ c ∈ (S.others caller net).filter S.isFlagged, o = some c := by
    intro c hc
    obtain ⟨hmem, hflag⟩ := mem_filter.mp hc
    exact (h.iff (others_subset hmem)).mp hflag
  have hone : ((S.others caller net).filter S.isFlagged).length ≤ 1 := by
    have hnd := (nodup_others caller net hnodup).filter S.isFlagged
    match hl : (S.others caller net).filter S.isFlagged with
    | [] => exact Nat.zero_le _
    | [c] => exact Nat.le_refl _
    | c :: d :: l =>
      rw [hl] at hall hnd
      have hc := hall c mem_cons_self
      have hd := hall d (mem_cons_of_mem c mem_cons_self)
      have hne := (nodup_cons.mp hnd).1
      rw [Option.some.inj (hc.symm.trans hd)] at hne
      exact absurd mem_cons_self hne
  have hloop := alternativesLoop_eq S.parents [] none hone
  exact hloop

theorem find_flagged (h : S.Marks net o) (ho : ∀ c, o = some c → c ∈ S.others caller net) :
    (S.others caller net).find? S.isFlagged = o := h.find_eq (fun _ hc => others_subset hc) ho

/-! ### Choosing -/

section
variable [DecidableEq ν] {lookup : Resolver ν} {l : List (Candidate ν)}

theorem mem_of_findWinnerAmong (h : findWinnerAmong lookup l = .ok (some n)) :
    n ∈ l ∧ n.nexthopResolved = true := by
  obtain ⟨x, hx, hlast⟩ := bind_eq_ok.mp h
  cases x with
  | none => cases hlast
  | some r =>
    have hfind := ok.inj hlast
    refine ⟨mem_of_find?_eq_some hfind, ?_⟩
    have hr : n.toRouteData = r := by simpa using find?_some hfind
    rw [hr]
    exact (mem_of_findWinner hx).2

theorem findWinnerAmong_eq_none :
    findWinnerAmong lookup l = .ok none ↔ ∀ c ∈ l, c.nexthopResolved = false := by
  have hmap : findWinner lookup (l.map Candidate.toRouteData) = .ok none ↔
      ∀ c ∈ l, c.nexthopResolved = false := by
    rw [findWinner_eq_none]
    exact forall_mem_map
  rw [← hmap]
  constructor
  · intro h
    obtain ⟨x, hx, hlast⟩ := bind_eq_ok.mp h
    cases x with
    | none => exact hx
    | some r =>
      obtain ⟨c, hc, rfl⟩ := mem_map.mp (mem_of_findWinner hx).1
      have hfind := find?_eq_none.mp (ok.inj hlast) c hc
      exact absurd (decide_eq_true rfl) hfind
  · intro h
    rw [findWinnerAmong, h]
    rfl

/-- A route that is not resolved does not count. -/
theorem findWinnerAmong_append (hc : c.nexthopResolved = false) :
    findWinnerAmong lookup (l ++ [c]) = findWinnerAmong lookup l := by
  have hsame : findWinner lookup ((l ++ [c]).map Candidate.toRouteData) =
      findWinner lookup (l.map Candidate.toRouteData) := by
    have hfilter : ((l ++ [c]).map Candidate.toRouteData).filter RouteData.nexthopResolved =
        (l.map Candidate.toRouteData).filter RouteData.nexthopResolved := by
      rw [map_append, filter_append, map_cons, map_nil,
        filter_cons_of_neg (by simp [hc]), filter_nil, append_nil]
    unfold findWinner
    rw [hfilter]
  unfold findWinnerAmong
  rw [hsame]
  cases hx : findWinner lookup (l.map Candidate.toRouteData) with
  | error e => rfl
  | ok x =>
    cases x with
    | none => rfl
    | some r =>
      have hne : ¬ c.toRouteData = r := by
        intro he
        have hres := (mem_of_findWinner hx).2
        rw [← he, hc] at hres
        cases hres
      show ok _ = ok _
      rw [find?_append, find?_cons_of_neg (by simpa using hne), find?_nil, Option.or_none]

/-- The only one that is resolved wins. -/
theorem findWinnerAmong_only (hl : ∀ c ∈ l, c.nexthopResolved = false)
    (hn : n.nexthopResolved = true) : findWinnerAmong lookup (l ++ [n]) = .ok (some n) := by
  have hnone : (l.map Candidate.toRouteData).filter RouteData.nexthopResolved = [] := by
    rw [filter_eq_nil_iff, forall_mem_map]
    intro c hc
    simp [hl c hc]
  have hsingle : findWinner lookup ((l ++ [n]).map Candidate.toRouteData) =
      .ok (some n.toRouteData) := by
    refine findWinner_single ?_
    rw [map_append, filter_append, hnone, map_cons, map_nil, filter_cons_of_pos hn]
    rfl
  have hfirst : l.find? (fun c => c.toRouteData = n.toRouteData) = none := by
    rw [find?_eq_none]
    intro c hc he
    have hres := hl c hc
    rw [of_decide_eq_true he, hn] at hres
    cases hres
  rw [findWinnerAmong, hsingle, ok_bind]
  show ok _ = ok _
  rw [find?_append, hfirst, find?_cons_of_pos (by simp)]
  rfl

end

/-! ### What is passed on -/

/-- The messages that turn one winner for a net into another. -/
inductive Turns (net : IPNet w) : Option (Candidate ν) → Option (Candidate ν) →
    List (Update (IPNet w × Candidate ν)) → Prop
  | keep (o : Option (Candidate ν)) : Turns net o o []
  | first (n : Candidate ν) : Turns net none (some n) [.add (net, n)]
  | last (o : Candidate ν) : Turns net (some o) none [.delete (net, o)]
  | replace (o n : Candidate ν) : Turns net (some o) (some n) [.replace (net, o) (net, n)]
  | change (o n : Candidate ν) : Turns net (some o) (some n) [.delete (net, o), .add (net, n)]

/-- The receiver holds the new winner afterwards. -/
theorem Turns.follow [DecidableEq ν] {us ms : List (Update (IPNet w × Candidate ν))} (h : Turns net o x us)
    {held : IPNet w → Option (IPNet w × Candidate ν)}
    (hms : Stream.follow Stream.exact Prod.fst ms = some held)
    (hheld : held net = o.map fun c => (net, c)) :
    Stream.follow Stream.exact Prod.fst (ms ++ us) =
      some (update held net (x.map fun c => (net, c))) := by
  cases h with
  | keep o =>
    rw [append_nil, ← hheld, update_eq_self]
    exact hms
  | first n => exact follow_concat hms hheld
  | last o =>
    refine follow_concat hms ?_
    exact any_exact.mpr hheld
  | replace o n =>
    refine follow_concat hms ?_
    exact ⟨rfl, any_exact.mpr hheld⟩
  | change o n =>
    have hdel := follow_concat (u := .delete (net, o)) hms (any_exact.mpr hheld)
    rw [show ms ++ [.delete (net, o), .add (net, n)] =
      (ms ++ [.delete (net, o)]) ++ [.add (net, n)] by simp]
    have hnone : update held net (none : Option (IPNet w × Candidate ν)) net = none :=
      update_self ..
    have hadd := follow_concat (u := .add (net, n)) hdel hnone
    rw [hadd]
    exact congrArg some (update_idem ..)

/-- A net was decided: `x` is marked after it, and the messages say so to a receiver that holds
`o`. -/
structure Decided (S S' : DecisionTable w ν) (net : IPNet w) (o x : Option (Candidate ν)) :
    Prop where
  parents : S'.parents = S.parents
  peers : S'.peerHandler = S.peerHandler
  routes : S'.routes = S.routes
  marks : S'.Marks net x
  frame : ∀ m, m ≠ net → ∀ c, S.Marks m c → S'.Marks m c
  sent : ∃ us, S'.updates = S.updates ++ us ∧ Turns net o x us

theorem Decided.keep (h : S.Marks net o) : Decided S S net o o :=
  ⟨rfl, rfl, rfl, h, fun _ _ _ hm => hm, [], (append_nil _).symm, .keep o⟩

theorem updates_send (u : Update (IPNet w × Candidate ν)) (push : Bool) :
    (S.send u push).updates = S.updates ++ [u] := by
  unfold updates send
  rw [filterMap_append]
  rfl

theorem updates_push : S.push.updates = S.updates := by
  unfold updates DecisionTable.push
  simp [DecisionCall.update?]

/-- A push changes nothing else. -/
theorem Decided.push (h : Decided S S' net o x) (b : Bool) :
    Decided S (if b then S'.push else S') net o x := by
  cases b with
  | false => exact h
  | true =>
    obtain ⟨us, hus, hturns⟩ := h.sent
    exact ⟨h.parents, h.peers, h.routes, h.marks, h.frame, us, updates_push.trans hus, hturns⟩

theorem wins_eq [DecidableEq ν] {lookup : Resolver ν}
    (h : (lookup n.attributes.nexthop).isSome = true) :
    S.wins lookup n = .ok (S.setIsWinner n.route) := by
  obtain ⟨a, ha⟩ := Option.isSome_iff_exists.mp h
  rw [wins, igpDistance, ha]
  rfl

/-! ### One operation -/

/-- What a net needs to be decided. -/
structure Ready (S : DecisionTable w ν) (lookup : Resolver ν) (net : IPNet w) :
    Prop where
  nodup : S.parents.Nodup
  distinct : S.Distinct
  /-- the resolver knows the nexthops -/
  known : ∀ c ∈ S.alternatives net, (lookup c.attributes.nexthop).isSome = true

variable {lookup : Resolver ν} {old new : Candidate ν} {push : Bool}

/-- A winner where there was none. -/
theorem Decided.first (h : S.Ready lookup net) (hm : S.Marks net none)
    (hn : n ∈ S.alternatives net) (push : Bool) :
    Decided S ((S.setIsWinner n.route).send (.add (net, n)) push) net none (some n) := by
  refine ⟨rfl, rfl, rfl, hm.set h.distinct hn, ?_, [.add (net, n)], updates_send .., .first n⟩
  intro m hne c hc
  exact hc.off (h.distinct.apart hn) hne true

/-- No winner where there was one.  `c` may have left already. -/
theorem Decided.last (hm : S.Marks net o) (ho : ∀ d, o = some d → d.route = c.route)
    (hc : S.Apart net c) (push : Bool) :
    Decided S ((S.send (.delete (net, c)) push).setIsNotWinner c.route) net (some c) none := by
  refine ⟨rfl, rfl, rfl, hm.clear ho, ?_, [.delete (net, c)], updates_send .., .last c⟩
  intro m hne d hd
  exact hd.off hc hne false

/-- One winner is taken back and another one is passed on. -/
theorem Decided.change (h : S.Ready lookup net) (hm : S.Marks net o)
    (ho : ∀ d, o = some d → d.route = c.route) (hc : S.Apart net c)
    (hn : n ∈ S.alternatives net) (push push' : Bool) :
    Decided S ((((S.send (.delete (net, c)) push).setIsNotWinner c.route).setIsWinner
      n.route).send (.add (net, n)) push') net (some c) (some n) := by
  have hclear : (S.setIsNotWinner c.route).Marks net none := hm.clear ho
  refine ⟨rfl, rfl, rfl, ?_, ?_, [.delete (net, c), .add (net, n)], ?_, .change c n⟩
  · exact Marks.set (S := S.setIsNotWinner c.route) hclear h.distinct hn
  · intro m hne d hd
    exact (hd.off hc hne false).off (h.distinct.apart hn) hne true
  · rw [updates_send]
    show (S.send (.delete (net, c)) push).updates ++ _ = _
    rw [updates_send, append_assoc]
    rfl

/-- What leaves is not held any more, neither for this net nor for another one. -/
def Gone (S : DecisionTable w ν) (old : Candidate ν) : Prop :=
  ∀ t m r, S.routes t m = some r → r.route ≠ old.route

variable {found : Option (Candidate ν)}

/-- The last winner is marked, or it is the route that leaves. -/
theorem lastWinner_cases (h : S.lastWinner found old = some c) :
    found = some c ∨ found = none ∧ c = old := by
  cases found with
  | some d => exact .inl h
  | none =>
    refine .inr ⟨rfl, ?_⟩
    change (if S.isWinner old.route = true then some old else none) = some c at h
    by_cases hflag : S.isWinner old.route = true
    · rw [if_pos hflag] at h
      exact (Option.some.inj h).symm
    · rw [if_neg hflag] at h
      cases h

theorem lastWinner_eq_none (h : S.lastWinner found old = none) : found = none := by
  cases found with
  | some d => cases h
  | none => rfl

theorem Gone.ne (h : S.Gone old) (hc : c ∈ S.alternatives net) : c.route ≠ old.route := by
  obtain ⟨t, -, r, hr, rfl⟩ := mem_alternatives.mp hc
  exact h t net r hr

section
variable [DecidableEq ν]

/-- **A route that is added** competes with the routes of the other parents, if it is resolved. -/
theorem addRoute_decided (push : Bool) (h : S.Ready lookup net) (hm : S.Marks net o)
    (ho : ∀ c, o = some c → c ∈ S.others caller net)
    (hnew : new ∈ S.alternatives net) (hres : resolvable lookup new.attributes.nexthop =
      .ok new.nexthopResolved)
    (hwin : new.nexthopResolved = true →
      findWinnerAmong lookup (S.others caller net ++ [new]) = .ok x) :
    ∃ S', S.addRoute lookup net new push caller = .ok S' ∧
      Decided S S' net o (if new.nexthopResolved then x else o) := by
  unfold addRoute
  rw [hres, ok_bind, if_neg (by simp)]
  by_cases hresolved : new.nexthopResolved = true
  · have hwin := hwin hresolved
    have hmem : ∀ c ∈ S.others caller net ++ [new], c ∈ S.alternatives net := by
      rw [forall_mem_append, forall_mem_singleton]
      exact ⟨fun _ hc => others_subset hc, hnew⟩
    obtain ⟨n, rfl⟩ : ∃ n, x = some n := by
      cases x with
      | some n => exact ⟨n, rfl⟩
      | none =>
        have hno := findWinnerAmong_eq_none.mp hwin new (mem_append_right _ (by simp))
        rw [hresolved] at hno
        cases hno
    have hn := hmem n (mem_of_findWinnerAmong hwin).1
    have hchoose : addedWinner lookup (S.others caller net) new = .ok (some n) := by
      refine Eq.trans (ite_eq_left_iff.mpr fun hempty => ?_) hwin
      rw [not_not.mp hempty, findWinnerAmong_only (by simp) hresolved]
      rfl
    rw [if_neg (by simp [hresolved]), findAlternativeRoutes_eq h.nodup hm, ok_bind,
      find_flagged hm ho]
    dsimp only
    rw [hchoose, ok_bind, if_pos hresolved]
    cases o with
    | none =>
      refine ⟨_, ?_, Decided.first h hm hn push⟩
      dsimp only
      rw [wins_eq (h.known n hn), ok_bind]
      rfl
    | some c =>
      have hc := others_subset (ho c rfl)
      by_cases he : c.route = n.route
      · refine ⟨S, ?_, ?_⟩
        · dsimp only
          rw [if_pos he]
          rfl
        · rw [h.distinct.eq hc hn he] at hm ⊢
          exact .keep hm
      · refine ⟨_, ?_, Decided.change h hm (fun d hd => by rw [Option.some.inj hd])
          (h.distinct.apart hc) hn false push⟩
        dsimp only
        rw [if_neg he, wins_eq (h.known n hn), ok_bind]
        rfl
  · rw [if_pos (by simpa using hresolved), if_neg hresolved]
    exact ⟨S, rfl, .keep hm⟩

/-- **A route that is deleted** leaves the others to compete. -/
theorem deleteRoute_decided (h : S.Ready lookup net) (hm : S.Marks net found)
    (hfound : ∀ c, found = some c → c ∈ S.others caller net) (hgone : S.Gone old)
    (hlast : S.lastWinner found old = o)
    (hwin : findWinnerAmong lookup (S.others caller net) = .ok x) :
    ∃ S', S.deleteRoute lookup net old push caller = .ok S' ∧ Decided S S' net o x := by
  have hchoose : remainingWinner lookup (S.others caller net) = .ok x := by
    refine Eq.trans (ite_eq_left_iff.mpr fun hempty => ?_) hwin
    rw [not_not.mp hempty]
    exact (findWinnerAmong_eq_none.mpr (by simp)).symm
  unfold deleteRoute
  rw [findAlternativeRoutes_eq h.nodup hm, ok_bind, find_flagged hm hfound]
  dsimp only
  rw [hchoose, ok_bind, hlast]
  cases o with
  | none =>
    rw [lastWinner_eq_none hlast] at hm
    cases x with
    | none => exact ⟨S, rfl, .keep hm⟩
    | some n =>
      have hn := others_subset (mem_of_findWinnerAmong hwin).1
      refine ⟨_, ?_, (Decided.first h hm hn false).push push⟩
      dsimp only
      rw [wins_eq (h.known n hn), ok_bind]
      rfl
  | some c =>
    obtain ⟨hoff, hmarked, hold⟩ : S.Apart net c ∧ (∀ d, found = some d → d.route = c.route) ∧
        (c.route = old.route → c = old) := by
      rcases lastWinner_cases hlast with rfl | ⟨rfl, rfl⟩
      · have hc := others_subset (hfound c rfl)
        exact ⟨h.distinct.apart hc, fun d hd => by rw [Option.some.inj hd],
          fun he => absurd he (hgone.ne hc)⟩
      · exact ⟨fun m _ t r hr => hgone t m r hr, nofun, fun _ => rfl⟩
    cases x with
    | none =>
      refine ⟨_, ?_, Decided.last hm hmarked hoff push⟩
      dsimp only
      by_cases he : c.route = old.route
      · rw [if_neg (not_not_intro he), hold he]
        rfl
      · rw [if_pos he]
        rfl
    | some n =>
      have hn := others_subset (mem_of_findWinnerAmong hwin).1
      by_cases he : c.route = n.route
      · rcases lastWinner_cases hlast with hf | ⟨-, hc⟩
        · refine ⟨S, ?_, ?_⟩
          · dsimp only
            rw [if_pos he]
            rfl
          · rw [hf, h.distinct.eq (others_subset (hfound c hf)) hn he] at hm
            rw [h.distinct.eq (others_subset (hfound c hf)) hn he]
            exact .keep hm
        · rw [hc] at he
          exact absurd he.symm (hgone.ne hn)
      · refine ⟨_, ?_, (Decided.change h hm hmarked hoff hn false false).push push⟩
        dsimp only
        rw [if_neg he]
        by_cases hsame : c.route = old.route
        · rw [if_neg (not_not_intro hsame), hold hsame, wins_eq (h.known n hn), ok_bind]
          rfl
        · rw [if_pos hsame, wins_eq (h.known n hn), ok_bind]
          rfl

/-- The flags are as they should be but for the new winner. -/
theorem passOn_decided {T : DecisionTable w ν} (h : S.Ready lookup net)
    (hparents : T.parents = S.parents) (hpeers : T.peerHandler = S.peerHandler)
    (hroutes : T.routes = S.routes) (hout : T.out = S.out) (hm : T.Marks net none)
    (hframe : ∀ m, m ≠ net → ∀ d, S.Marks m d → T.Marks m d) (hn : n ∈ S.alternatives net) :
    ∃ S', T.passOn lookup net c n push = .ok S' ∧ Decided S S' net (some c) (some n) := by
  have halts : T.alternatives net = S.alternatives net :=
    alternatives_congr (fun t => by rw [hroutes]) hparents hpeers
  have hnT : n ∈ T.alternatives net := halts ▸ hn
  have hdistinct : T.Distinct := by
    unfold Distinct
    rw [hroutes]
    exact h.distinct
  have hupdates : (T.setIsWinner n.route).updates = S.updates := by
    show T.out.filterMap _ = S.out.filterMap _
    rw [hout]
  have hmarks := hm.set hdistinct hnT
  have hframe' : ∀ m, m ≠ net → ∀ d, S.Marks m d → (T.setIsWinner n.route).Marks m d :=
    fun m hne d hd => (hframe m hne d hd).off (hdistinct.apart hnT) hne true
  unfold passOn
  rw [wins_eq (h.known n hn), ok_bind]
  by_cases hpeer : c.parentTable = n.parentTable
  · rw [if_pos hpeer]
    refine ⟨_, rfl, hparents, hpeers, hroutes, hmarks, hframe', _, ?_, .replace c n⟩
    rw [updates_send, hupdates]
  · rw [if_neg hpeer]
    refine ⟨_, rfl, hparents, hpeers, hroutes, hmarks, hframe', _, ?_, .change c n⟩
    rw [updates_send, updates_send, hupdates, append_assoc]
    rfl

/-- **A route that takes the place of another one** competes with the others. -/
theorem replaceRoute_decided (oldPush newPush : Bool) (h : S.Ready lookup net)
    (hm : S.Marks net found) (hfound : ∀ c, found = some c → c ∈ S.others caller net)
    (hgone : S.Gone old) (hlast : S.lastWinner found old = o) (hnew : new ∈ S.alternatives net)
    (hres : resolvable lookup new.attributes.nexthop = .ok new.nexthopResolved)
    (hnone : o = none → ∀ c ∈ S.others caller net, c.nexthopResolved = false)
    (hwin : findWinnerAmong lookup (S.others caller net ++ [new]) = .ok x) :
    ∃ S', S.replaceRoute lookup net old new oldPush newPush caller = .ok S' ∧
      Decided S S' net o x := by
  have hchoose : replacedWinner lookup (S.others caller net) new = .ok x := by
    refine Eq.trans (ite_eq_left_iff.mpr fun hempty => ?_) hwin
    rw [hres, ok_bind, not_not.mp hempty]
    by_cases hresolved : new.nexthopResolved = true
    · rw [if_pos hresolved, findWinnerAmong_only (by simp) hresolved]
      rfl
    · rw [if_neg hresolved, findWinnerAmong_append (by simpa using hresolved)]
      exact (findWinnerAmong_eq_none.mpr (by simp)).symm
  unfold replaceRoute
  rw [findAlternativeRoutes_eq h.nodup hm, ok_bind, find_flagged hm hfound]
  dsimp only
  rw [hlast]
  cases o with
  | none =>
    obtain rfl := lastWinner_eq_none hlast
    obtain ⟨S', hrun, hdec⟩ := addRoute_decided newPush h hm hfound hnew hres fun _ => hwin
    refine ⟨S', hrun, ?_⟩
    by_cases hresolved : new.nexthopResolved = true
    · rw [if_pos hresolved] at hdec
      exact hdec
    · rw [if_neg hresolved] at hdec
      have hall : findWinnerAmong lookup (S.others caller net ++ [new]) = .ok none := by
        rw [findWinnerAmong_append (by simpa using hresolved)]
        exact findWinnerAmong_eq_none.mpr (hnone rfl)
      rw [ok.inj (hwin.symm.trans hall)]
      exact hdec
  | some c =>
    dsimp only
    rw [hchoose, ok_bind]
    cases x with
    | none =>
      have hothers : findWinnerAmong lookup (S.others caller net) = .ok none := by
        refine findWinnerAmong_eq_none.mpr fun d hd => ?_
        exact findWinnerAmong_eq_none.mp hwin d (mem_append_left _ hd)
      obtain ⟨S', hrun, hdec⟩ := deleteRoute_decided h hm hfound hgone hlast hothers
      refine ⟨_, ?_, hdec.push (newPush && !oldPush)⟩
      rw [hrun, ok_bind]
      rfl
    | some n =>
      have hn : n ∈ S.alternatives net := by
        rcases mem_append.mp (mem_of_findWinnerAmong hwin).1 with hn | hn
        · exact others_subset hn
        · rw [mem_singleton.mp hn]
          exact hnew
      dsimp only
      rcases lastWinner_cases hlast with rfl | ⟨rfl, rfl⟩
      · -- the last winner is of another parent
        have hc := others_subset (hfound c rfl)
        by_cases he : n.route = c.route
        · rw [if_pos he, h.distinct.eq hn hc he]
          exact ⟨S, rfl, .keep hm⟩
        · rw [if_neg he, if_neg (hgone.ne hc)]
          refine passOn_decided h rfl rfl rfl rfl ?_ ?_ hn
          · exact hm.clear fun d hd => by rw [Option.some.inj hd]
          · exact fun m hne d hd => hd.off (h.distinct.apart hc) hne false
      · -- the route that leaves was the winner
        rw [if_neg (hgone.ne hn), if_pos rfl]
        exact passOn_decided h rfl rfl rfl rfl hm (fun _ _ _ hd => hd) hn

end

/-! ### What a parent does before it passes a change on -/

/-- No route that is held is this one. -/
def Fresh (S : DecisionTable w ν) (r : StoredRoute ν) : Prop :=
  ∀ t m r', S.routes t m = some r' → r'.route ≠ r.route

/-- The parent `t` holds `now` for a net, and nothing else has changed. -/
structure Changed (S S' : DecisionTable w ν) (t : Nat) (net : IPNet w)
    (now : Option (StoredRoute ν)) : Prop where
  parents : S'.parents = S.parents
  peers : S'.peerHandler = S.peerHandler
  out : S'.out = S.out
  routes : S'.routes t net = now
  off : ∀ u m, u ≠ t ∨ m ≠ net → S'.routes u m = S.routes u m
  flags : ∀ u m r, S.routes u m = some r → S'.isWinner r.route = S.isWinner r.route
  unflagged : ∀ r, now = some r → S'.isWinner r.route = false
  fresh : ∀ r, now = some r → S.Fresh r

theorem update_off {routes : Nat → IPNet w → Option (StoredRoute ν)}
    {now : Option (StoredRoute ν)} {u : Nat} (h : u ≠ t ∨ m ≠ net) :
    update routes t (update (routes t) net now) u m = routes u m := by
  by_cases hu : u = t
  · subst hu
    have hm : m ≠ net := h.resolve_left (fun hne => hne rfl)
    rw [update_self, update_of_ne hm]
  · rw [update_of_ne hu]

theorem Changed.hold (hfresh : S.Fresh r) : Changed S (S.hold t net r) t net (some r) := by
  refine ⟨rfl, rfl, rfl, ?_, fun u m => update_off, ?_, ?_, ?_⟩
  · show update S.routes t _ t net = _
    rw [update_self, update_self]
  · intro u m r' hr'
    exact update_of_ne (hfresh u m r' hr') ..
  · rintro _ ⟨⟩
    exact update_self ..
  · rintro _ ⟨⟩
    exact hfresh

theorem Changed.release : Changed S (S.release t net) t net none := by
  refine ⟨rfl, rfl, rfl, ?_, fun u m => update_off, fun _ _ _ _ => rfl, ?_, ?_⟩
  · show update S.routes t _ t net = _
    rw [update_self, update_self]
  · rintro _ ⟨⟩
  · rintro _ ⟨⟩

namespace Changed

variable {now : Option (StoredRoute ν)}

section
variable (h : Changed S S' t net now)
include h

theorem candidate (u : Nat) (r : StoredRoute ν) : S'.candidate u r = S.candidate u r := by
  unfold DecisionTable.candidate
  rw [h.peers]

theorem others : S'.others t net = S.others t net :=
  others_congr (fun u hu => h.off u net (.inl hu)) h.parents h.peers

theorem alternatives_off (hm : m ≠ net) : S'.alternatives m = S.alternatives m :=
  alternatives_congr (fun u => h.off u m (.inr hm)) h.parents h.peers

/-- A route that is held now was held before, or is the new one. -/
theorem held {u : Nat} (hr : S'.routes u m = some r) :
    S.routes u m = some r ∨ u = t ∧ m = net ∧ now = some r := by
  by_cases hplace : u = t ∧ m = net
  · obtain ⟨rfl, rfl⟩ := hplace
    exact .inr ⟨rfl, rfl, h.routes.symm.trans hr⟩
  · refine .inl ?_
    rw [← h.off u m (not_and_or.mp hplace)]
    exact hr

theorem distinct (hd : S.Distinct) : S'.Distinct := by
  intro u m r u' m' r' hr hr' he
  rcases h.held hr with hr | ⟨rfl, rfl, hnow⟩
  · rcases h.held hr' with hr' | ⟨-, -, hnow'⟩
    · exact hd u m r u' m' r' hr hr' he
    · exact absurd he (h.fresh r' hnow' u m r hr)
  · rcases h.held hr' with hr' | ⟨rfl, rfl, -⟩
    · exact absurd he.symm (h.fresh r hnow u' m' r' hr')
    · exact ⟨rfl, rfl⟩

theorem marks_off (hm : m ≠ net) (hmarks : S.Marks m o) : S'.Marks m o := by
  intro u hu r hr
  rw [h.off u m (.inr hm)] at hr
  rw [h.flags u m r hr, h.candidate]
  exact hmarks u (h.parents ▸ hu) r hr

/-- The winner of another parent keeps its flag. -/
theorem marks (hmarks : S.Marks net o) : S'.Marks net (o.filter fun c => c.parentTable ≠ t) := by
  intro u hu r hr
  rw [h.candidate, Option.filter_eq_some_iff]
  have htable : (S.candidate u r).parentTable = u := rfl
  by_cases hut : u = t
  · subst hut
    refine iff_of_false ?_ (by simp [htable])
    rw [h.unflagged r (h.routes.symm.trans hr)]
    exact Bool.false_ne_true
  · rw [h.off u net (.inl hut)] at hr
    rw [h.flags u net r hr, hmarks u (h.parents ▸ hu) r hr]
    simp [htable, hut]

theorem gone (hd : S.Distinct) (hr : S.routes t net = some r) : S'.Gone (S.candidate t r) := by
  intro u m r' hr'
  by_cases hplace : u = t ∧ m = net
  · obtain ⟨rfl, rfl⟩ := hplace
    exact (h.fresh r' (h.routes.symm.trans hr') u m r hr).symm
  · rw [h.off u m (not_and_or.mp hplace)] at hr'
    exact fun he => hplace (hd u m r' t net r hr' hr he)

end

end Changed

end

end DecisionTable

end Xorp.Bgp

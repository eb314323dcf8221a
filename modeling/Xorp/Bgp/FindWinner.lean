/-
Route selection.

`find_winner` narrows the alternatives for a net down in eight rounds.  The attributes it
compares are unsigned 32-bit values, but most rounds hold them in a signed `int`, so a value
from 2^31 on is compared as a negative number, or stops the program where the code asserts
that it is not one.  The last round compares what `neighbour_address` returns, which is the
BGP identifier again and not the address of the peer.

`codeRounds` are the rounds as they are.  The winner is one of the alternatives, and there is none
exactly if no nexthop is resolved.
-/
import Xorp.Bgp.AsPath
import Xorp.Lib.Rounds

namespace Xorp.Bgp

open Linked Rounds List Except Nat Option Int

variable {ν : Type}

inductive OriginType where
  | igp
  | egp
  | incomplete
deriving DecidableEq, Repr

namespace OriginType

def value : OriginType → Int
  | .igp => 0
  | .egp => 1
  | .incomplete => 2

end OriginType

/-- The attributes that selection looks at. -/
structure PathAttributes (ν : Type) where
  localPref : Option (BitVec 32)
  asPath : ASPath
  origin : OriginType
  med : Option (BitVec 32)
  nexthop : ν
deriving DecidableEq

/-- What selection asks of a peer. -/
structure PeerHandler where
  ibgp : Bool
  id : BitVec 32
deriving DecidableEq

namespace PeerHandler

/-- `IPv4::addr`: the address as it is in memory, in network byte order. -/
def networkOrder (a : BitVec 32) : BitVec 32 :=
  a.extractLsb' 0 8 ++ a.extractLsb' 8 8 ++ a.extractLsb' 16 8 ++ a.extractLsb' 24 8

def neighbourAddress (p : PeerHandler) : BitVec 32 := networkOrder p.id

end PeerHandler

structure RouteData (ν : Type) where
  attributes : PathAttributes ν
  nexthopResolved : Bool
  parentTable : Nat
  peerHandler : PeerHandler
  genid : Nat
deriving DecidableEq

namespace RouteData

variable (r : RouteData ν)

def localPref : BitVec 32 := r.attributes.localPref.getD 0

def med : BitVec 32 := r.attributes.med.getD 0

def pathLength : Nat := r.attributes.asPath.pathLength

/-- The length in an `int`. -/
def pathInt : Int := (BitVec.ofNat 32 r.pathLength).toInt

/-- The AS the route was learned from. -/
def neighbourAs : Except Fault AsNum :=
  if r.pathLength = 0 then .ok AsNum.invalid else r.attributes.asPath.firstAsnum

end RouteData

/-! ### The rounds of the code -/

/-- What `NextHopResolver::lookup` answers: is the nexthop resolvable, and with which metric? -/
abbrev Resolver (ν : Type) := ν → Option (Bool × BitVec 32)

section
variable (lookup : Resolver ν)

/-- The metric the resolver has for a nexthop. -/
def igpDistance (nexthop : ν) : Except Fault (BitVec 32) :=
  match lookup nexthop with
  | none => .error .abort
  | some (_, metric) => .ok metric

/-- A round that keeps the alternatives with the best value. -/
def bestRound {β : Type} (value : RouteData ν → Except Fault β) (prefer : β → β → Bool) :
    List (RouteData ν) → Except Fault (List (RouteData ν))
  | [] => .error .badPointer
  | front :: rest => do scan value prefer [front] (← value front) rest

/-- The highest local preference.  That of the first alternative is not checked. -/
def localPrefRound : List (RouteData ν) → Except Fault (List (RouteData ν))
  | [] => .error .badPointer
  | front :: rest =>
      scan (fun r => if 0 ≤ r.localPref.toInt then .ok r.localPref.toInt else .error .assertion)
        (fun test lp => decide (lp < test)) [front] front.localPref.toInt rest

/-- The loop of the AS path round, which looks at an alternative again when it is better than
those before it. -/
def pathLoop : Nat → List (RouteData ν) → Int → List (RouteData ν) →
    Except Fault (List (RouteData ν))
  | 0, _, _, _ => .error .outOfFuel
  | _ + 1, kept, _, [] => .ok kept
  | fuel + 1, kept, test, r :: rest =>
      let len := r.pathInt
      if len < 0 then .error .assertion
      else if test < len then pathLoop fuel kept test rest
      else if len < test then pathLoop fuel [] len (r :: rest)
      else pathLoop fuel (kept ++ [r]) test rest

def pathRound : List (RouteData ν) → Except Fault (List (RouteData ν))
  | [] => .error .badPointer
  | front :: rest => pathLoop (2 * rest.length + 1) [front] front.pathInt rest

def originRound : List (RouteData ν) → Except Fault (List (RouteData ν)) :=
  bestRound (fun r => .ok r.attributes.origin.value) fun test origin => decide (test < origin)

/-- The inner loop of the MED round, over the alternatives on one side of `i`.  The answer
says whether `i` is out, and what is left of the others. -/
def medScan (asnum1 : AsNum) (med1 : Int) :
    List (RouteData ν) → Except Fault (Bool × List (RouteData ν))
  | [] => .ok (false, [])
  | j :: rest => do
      let asnum2 ← j.neighbourAs
      let med2 := j.med.toInt
      if asnum1 = asnum2 ∧ med2 < med1 then pure (true, j :: rest)
      else if asnum1 = asnum2 ∧ med1 < med2 then medScan asnum1 med1 rest
      else do
        let (out, left) ← medScan asnum1 med1 rest
        pure (out, j :: left)

/-- The outer loop, at the first of the alternatives after `before`. -/
def medLoop : Nat → List (RouteData ν) → List (RouteData ν) →
    Except Fault (List (RouteData ν))
  | 0, _, _ => .error .outOfFuel
  | _ + 1, before, [] => .ok before
  | fuel + 1, before, i :: after => do
      let asnum1 ← i.neighbourAs
      let (out, before) ← medScan asnum1 i.med.toInt before
      if out then medLoop fuel before after
      else
        let (out, after) ← medScan asnum1 i.med.toInt after
        if out then medLoop fuel before after else medLoop fuel (before ++ [i]) after

def medRound (l : List (RouteData ν)) : Except Fault (List (RouteData ν)) :=
  medLoop (l.length + 1) [] l

def ibgpRound : List (RouteData ν) → Except Fault (List (RouteData ν)) :=
  bestRound (fun r => .ok r.peerHandler.ibgp) fun test ibgp => !test && ibgp

def igpRound : List (RouteData ν) → Except Fault (List (RouteData ν)) :=
  bestRound (fun r => BitVec.toInt <$> igpDistance lookup r.attributes.nexthop)
    fun test dist => decide (test < dist)

def idRound : List (RouteData ν) → Except Fault (List (RouteData ν)) :=
  bestRound (fun r => .ok r.peerHandler.id.toNat) fun test id => decide (test < id)

def addressRound : List (RouteData ν) → Except Fault (List (RouteData ν)) :=
  bestRound (fun r => .ok r.peerHandler.neighbourAddress.toInt)
    fun test address => decide (test < address)

/-- The rounds, in their order. -/
def codeRounds : List (List (RouteData ν) → Except Fault (List (RouteData ν))) :=
  [localPrefRound, pathRound, originRound, medRound, ibgpRound, igpRound lookup, idRound,
    addressRound]

def findWinner (alternatives : List (RouteData ν)) : Except Fault (Option (RouteData ν)) :=
  match alternatives.filter RouteData.nexthopResolved with
  | [] => .ok none
  | l => do pure (some (← decideBy .abort (codeRounds lookup) l))

end

/-! ### No round makes a route up -/

variable {before rest : List (RouteData ν)} {fuel : Nat}

/-- The loop of the AS path round is the loop of the others. -/
theorem pathLoop_eq {kept : List (RouteData ν)} {test : Int} (hfuel : 2 * rest.length < fuel) :
    pathLoop fuel kept test rest
      = scan (fun r => if 0 ≤ r.pathInt then .ok r.pathInt else .error .assertion)
          (fun test len => decide (test < len)) kept test rest := by
  induction rest generalizing fuel kept test with
  | nil =>
    obtain ⟨fuel, rfl⟩ := Nat.exists_eq_add_one_of_ne_zero (Nat.ne_zero_of_lt hfuel)
    rfl
  | cons r rest ih =>
    rw [length_cons] at hfuel
    obtain ⟨fuel, rfl⟩ := Nat.exists_eq_add_of_lt hfuel
    have hrest : 2 * rest.length < 2 * (rest.length + 1) + fuel := by omega
    rw [show 2 * (rest.length + 1) + fuel + 1 = (2 * (rest.length + 1) + fuel) + 1 from rfl,
      pathLoop, scan]
    by_cases hneg : r.pathInt < 0
    · rw [if_pos hneg, if_neg (not_le.mpr hneg)]
      rfl
    · rw [if_neg hneg, if_pos (not_lt.mp hneg), ok_bind]
      by_cases hworse : test < r.pathInt
      · simp only [hworse, decide_true, if_true]
        exact ih hrest
      · by_cases hbetter : r.pathInt < test
        · -- the alternative is looked at once more, and kept
          simp only [hworse, hbetter, decide_true, decide_false, if_true, if_false,
            Bool.false_eq_true]
          rw [show 2 * (rest.length + 1) + fuel = (2 * rest.length + fuel + 1) + 1 by omega,
            pathLoop, if_neg hneg, if_neg (lt_irrefl _), if_neg (lt_irrefl _)]
          exact ih (by omega)
        · simp only [hworse, hbetter, decide_false, if_false, Bool.false_eq_true]
          exact ih hrest

theorem medScan_sublist {asnum : AsNum} {med : Int} {out : Bool} {js left : List (RouteData ν)}
    (h : medScan asnum med js = .ok (out, left)) : left.Sublist js := by
  induction js generalizing out left with
  | nil =>
    obtain ⟨-, rfl⟩ := Prod.mk.inj (ok.inj h)
    exact .refl _
  | cons j js ih =>
    obtain ⟨asnum2, hj, hstep⟩ := bind_eq_ok.mp h
    dsimp only at hstep
    split_ifs at hstep
    · obtain ⟨-, rfl⟩ := Prod.mk.inj (ok.inj hstep)
      exact .refl _
    · exact (ih hstep).cons j
    · obtain ⟨⟨out', left'⟩, hrest, hlast⟩ := bind_eq_ok.mp hstep
      obtain ⟨-, rfl⟩ := Prod.mk.inj (ok.inj hlast)
      exact (ih hrest).cons_cons j

theorem subset_of_bestRound {β : Type} {value : RouteData ν → Except Fault β}
    {prefer : β → β → Bool} {l l' : List (RouteData ν)}
    (h : bestRound value prefer l = .ok l') : l' ⊆ l := by
  cases l with
  | nil => cases h
  | cons front rest =>
    obtain ⟨test, -, hscan⟩ := bind_eq_ok.mp h
    exact subset_of_scan hscan

theorem subset_of_medLoop {after l : List (RouteData ν)} (h : medLoop fuel before after = .ok l) :
    l ⊆ before ++ after := by
  induction fuel generalizing before after with
  | zero => cases h
  | succ fuel ih =>
    cases after with
    | nil =>
      rw [append_nil]
      exact ok.inj h ▸ List.Subset.refl _
    | cons i after =>
      obtain ⟨asnum1, -, h⟩ := bind_eq_ok.mp h
      obtain ⟨⟨out, before'⟩, hbefore, h⟩ := bind_eq_ok.mp h
      have hb := (medScan_sublist hbefore).subset
      dsimp only at h
      split_ifs at h
      · exact List.Subset.trans (ih h) (append_subset.mpr ⟨subset_append_of_subset_left _ hb,
            subset_append_of_subset_right _ (subset_cons_self i after)⟩)
      · obtain ⟨⟨out', after'⟩, hafter, h⟩ := bind_eq_ok.mp h
        have ha := subset_cons_of_subset i (medScan_sublist hafter).subset
        split_ifs at h
        · exact List.Subset.trans (ih h) (append_subset.mpr ⟨subset_append_of_subset_left _ hb,
              subset_append_of_subset_right _ ha⟩)
        · refine List.Subset.trans (ih h) (append_subset.mpr
            ⟨append_subset.mpr ⟨subset_append_of_subset_left _ hb, ?_⟩,
              subset_append_of_subset_right _ ha⟩)
          intro a hmem
          rw [mem_singleton.mp hmem]
          exact mem_append_right _ mem_cons_self

variable {lookup : Resolver ν} {l : List (RouteData ν)} {r : RouteData ν}

theorem subset_of_codeRounds : ∀ R ∈ codeRounds lookup, ∀ l l', R l = .ok l' → l' ⊆ l := by
  intro R hR l l' h
  simp only [codeRounds, mem_cons, not_mem_nil, or_false] at hR
  rcases hR with rfl | rfl | rfl | rfl | rfl | rfl | rfl | rfl
  · cases l with
    | nil => cases h
    | cons front rest => exact subset_of_scan h
  · cases l with
    | nil => cases h
    | cons front rest =>
      change pathLoop _ _ _ _ = _ at h
      rw [pathLoop_eq (lt_succ_self _)] at h
      exact subset_of_scan h
  · exact subset_of_bestRound h
  · exact subset_of_medLoop h
  · exact subset_of_bestRound h
  · exact subset_of_bestRound h
  · exact subset_of_bestRound h
  · exact subset_of_bestRound h

/-! ### The winner -/

/-- **The winner is one of the alternatives**, and its nexthop is resolved. -/
theorem mem_of_findWinner (h : findWinner lookup l = .ok (some r)) :
    r ∈ l ∧ r.nexthopResolved = true := by
  unfold findWinner at h
  cases hf : l.filter RouteData.nexthopResolved with
  | nil =>
    rw [hf] at h
    cases h
  | cons a rest =>
    rw [hf] at h
    obtain ⟨x, hx, hlast⟩ := bind_eq_ok.mp h
    cases ok.inj hlast
    have hmem := mem_of_decideBy subset_of_codeRounds hx
    rw [← hf] at hmem
    exact mem_filter.mp hmem

/-- There is no winner exactly if no nexthop is resolved. -/
theorem findWinner_eq_none :
    findWinner lookup l = .ok none ↔ ∀ r ∈ l, r.nexthopResolved = false := by
  unfold findWinner
  cases hf : l.filter RouteData.nexthopResolved with
  | nil =>
    refine iff_of_true rfl fun r hr => ?_
    simpa using filter_eq_nil_iff.mp hf r hr
  | cons a rest =>
    refine iff_of_false ?_ fun hall => ?_
    · intro h
      obtain ⟨x, -, hlast⟩ := bind_eq_ok.mp h
      cases hlast
    · have ha : a ∈ l.filter RouteData.nexthopResolved := hf ▸ mem_cons_self
      have hres := (mem_filter.mp ha).2
      rw [hall a (mem_filter.mp ha).1] at hres
      cases hres

/-- A single one that is resolved wins. -/
theorem findWinner_single (h : l.filter RouteData.nexthopResolved = [r]) :
    findWinner lookup l = .ok (some r) := by
  unfold findWinner
  rw [h]
  rfl

end Xorp.Bgp

/-
Runs of the decision table.

In every run in which `find_winner` gets through, and in which a change of the resolver's answers
does not change who should win for a net that is not looked at, the route that is flagged for a net
is the winner among all that the parents hold, in some order of them, and the next table holds it.
-/
import Xorp.Bgp.Decision

namespace Xorp.Bgp

open Linked Stream Function IPNet Option List

variable {w : Nat} {ν : Type}

namespace DecisionTable

def Op.net : Op w ν → IPNet w
  | .addRoute _ net _ _ | .replaceRoute _ net _ _ _ | .deleteRoute _ net _ => net

/-- A route that is not resolved is not even considered. -/
def Op.decides : Op w ν → Bool
  | .addRoute _ _ r _ => r.nexthopResolved
  | _ => true

/-- The alternatives in the order in which `find_winner` gets them. -/
def asked (S : DecisionTable w ν) : Op w ν → List (Candidate ν)
  | .addRoute t net r _ | .replaceRoute t net r _ _ => S.others t net ++ [S.candidate t r]
  | .deleteRoute t net _ => S.others t net

/-! ### What the runs assume -/

section
variable [DecidableEq ν]

/-- The flag of a route says what the resolver answers. -/
def Answers (lookup : Resolver ν) (r : StoredRoute ν) : Prop :=
  ∃ metric, lookup r.attributes.nexthop = some (r.nexthopResolved, metric)

/-- What the parents see to: they add what they do not hold, and replace and delete what they hold;
a route that is new is a new object, with the resolver's answer in it; and the resolver knows the
nexthops of what is held. -/
def Legal (S : DecisionTable w ν) (lookup : Resolver ν) (op : Op w ν) : Prop :=
  (∀ t m r, S.routes t m = some r → (lookup r.attributes.nexthop).isSome = true) ∧
  match op with
  | .addRoute t net r _ =>
      t ∈ S.parents ∧ S.routes t net = none ∧ S.Fresh r ∧ Answers lookup r
  | .replaceRoute t net r _ _ =>
      t ∈ S.parents ∧ S.routes t net ≠ none ∧ S.Fresh r ∧ Answers lookup r
  | .deleteRoute t net _ => t ∈ S.parents ∧ S.routes t net ≠ none

/-- The flagged route is the winner of all alternatives, in some order of them. -/
def Settled (S : DecisionTable w ν) (lookup : Resolver ν) (net : IPNet w) :
    Prop :=
  ∃ l, l.Perm (S.alternatives net) ∧ findWinnerAmong lookup l = .ok (S.flagged net)

/-- `find_winner` gets through the alternatives it is asked about, and the resolver's answers leave
the winners of all other nets what they are. -/
def Steady (S : DecisionTable w ν) (lookup : Resolver ν) (op : Op w ν) : Prop :=
  (∀ m, m ≠ op.net ∨ op.decides = false → S.Settled lookup m) ∧
  (op.decides = true → ∃ x, findWinnerAmong lookup (S.asked op) = .ok x)

/-- The states of a run whose steps all satisfy `ok`, with the resolver's answers at the last
one. -/
inductive Reach (ok : DecisionTable w ν → Resolver ν → Op w ν → Prop) :
    DecisionTable w ν → Resolver ν → Prop
  | init (parents : List Nat) (peerHandler : Nat → PeerHandler)
      (lookup : Resolver ν) (h : parents.Nodup) :
      Reach ok (.empty parents peerHandler) lookup
  | step {S S' : DecisionTable w ν} {before : Resolver ν}
      (lookup : Resolver ν) (op : Op w ν) (h : Reach ok S before)
      (hlegal : S.Legal lookup op) (hok : ok S lookup op) (hstep : S.step lookup op = .ok S') :
      Reach ok S' lookup

/-- The flags, the alternatives and what was passed on agree. -/
structure Inv (S : DecisionTable w ν) (lookup : Resolver ν) : Prop where
  nodup : S.parents.Nodup
  distinct : S.Distinct
  marks : ∀ net, S.Marks net (S.flagged net)
  settled : ∀ net, S.Settled lookup net
  follows : follow exact Prod.fst S.updates = some fun net => (S.flagged net).map fun c => (net, c)

/-! ### What a change leaves -/

variable {S S' : DecisionTable w ν} {lookup before : Resolver ν}
  {op : Op w ν} {net : IPNet w} {t : Nat} {x : Option (Candidate ν)}
  {now : Option (StoredRoute ν)}

omit [DecidableEq ν] in
theorem mem_of_flagged {c : Candidate ν} (h : S.flagged net = some c) : c ∈ S.alternatives net :=
  mem_of_find?_eq_some h

/-- What was announced, with what is decided now. -/
theorem Inv.decided {S₁ : DecisionTable w ν} (h : Inv S before) (hch : Changed S S₁ t net now)
    (hdec : Decided S₁ S' net (S.flagged net) x)
    (hsettled : ∃ l, l.Perm (S₁.alternatives net) ∧ findWinnerAmong lookup l = .ok x)
    (hstable : ∀ m, m ≠ net → S.Settled lookup m) : Inv S' lookup := by
  have halts : ∀ m, S'.alternatives m = S₁.alternatives m :=
    fun m => alternatives_congr (fun u => by rw [hdec.routes]) hdec.parents hdec.peers
  have hnet : S'.flagged net = x := by
    refine hdec.marks.flagged_eq fun c hc => ?_
    obtain ⟨l, hperm, hwin⟩ := hsettled
    rw [hc] at hwin
    rw [halts]
    exact hperm.mem_iff.mp (mem_of_findWinnerAmong hwin).1
  have hmarks : ∀ m, m ≠ net → S'.Marks m (S.flagged m) :=
    fun m hm => hdec.frame m hm _ (hch.marks_off hm (h.marks m))
  have hoff : ∀ m, m ≠ net → S'.flagged m = S.flagged m := by
    intro m hm
    refine (hmarks m hm).flagged_eq fun c hc => ?_
    rw [halts, hch.alternatives_off hm]
    exact mem_of_flagged hc
  refine ⟨?_, ?_, ?_, ?_, ?_⟩
  · rw [hdec.parents, hch.parents]
    exact h.nodup
  · unfold Distinct
    rw [hdec.routes]
    exact hch.distinct h.distinct
  · intro m
    by_cases hm : m = net
    · subst hm
      rw [hnet]
      exact hdec.marks
    · rw [hoff m hm]
      exact hmarks m hm
  · intro m
    unfold Settled
    by_cases hm : m = net
    · subst hm
      rw [hnet, halts]
      exact hsettled
    · rw [hoff m hm, halts, hch.alternatives_off hm]
      exact hstable m hm
  · obtain ⟨us, hus, hturns⟩ := hdec.sent
    have hbefore : S₁.updates = S.updates := by
      unfold updates
      rw [hch.out]
    rw [hus, hbefore, hturns.follow h.follows rfl]
    refine congrArg some (funext fun m => ?_)
    by_cases hm : m = net
    · subst hm
      rw [update_self, hnet]
    · rw [update_of_ne hm, hoff m hm]

section
variable {o : Option (Candidate ν)} {r : StoredRoute ν}
omit [DecidableEq ν]

section
variable (h : Changed S S' t net now)
include h

/-- The winner of another parent is one of the others. -/
theorem Changed.found (c : Candidate ν)
    (hc : (S.flagged net).filter (fun c => c.parentTable ≠ t) = some c) : c ∈ S'.others t net := by
  obtain ⟨hsome, htable⟩ := filter_eq_some_iff.mp hc
  obtain ⟨u, hu, r, hr, rfl⟩ := mem_alternatives.mp (mem_of_flagged hsome)
  rw [h.others]
  exact mem_others.mpr ⟨u, hu, of_decide_eq_true htable, r, hr, rfl⟩

/-- The last winner is found, by its flag or as the route that leaves. -/
theorem Changed.lastWinner (hmarks : S.Marks net o)
    (ho : ∀ c, o = some c → c ∈ S.alternatives net) (ht : t ∈ S.parents)
    (hr : S.routes t net = some r) :
    S'.lastWinner (o.filter fun c => c.parentTable ≠ t) (S.candidate t r) = o := by
  have hflag : S'.isWinner (S.candidate t r).route = true ↔ o = some (S.candidate t r) := by
    show S'.isWinner r.route = true ↔ _
    rw [h.flags t net r hr]
    exact hmarks t ht r hr
  cases hf : o.filter fun c => c.parentTable ≠ t with
  | some c => exact (filter_eq_some_iff.mp hf).1.symm
  | none =>
    show (if S'.isWinner (S.candidate t r).route = true then _ else _) = o
    by_cases hown : S'.isWinner (S.candidate t r).route = true
    · rw [if_pos hown]
      exact (hflag.mp hown).symm
    · rw [if_neg hown]
      cases o with
      | none => rfl
      | some c =>
        -- the winner is not of another parent, so it is the route that leaves
        have htable : c.parentTable = t := by
          have hnot := filter_eq_none_iff.mp hf c rfl
          simpa using hnot
        obtain ⟨u, hu, r', hr', rfl⟩ := mem_alternatives.mp (ho c rfl)
        obtain rfl : u = t := htable
        rw [some.inj (hr'.symm.trans hr)] at hflag
        exact absurd (hflag.mpr rfl) hown

theorem Changed.ready (hnodup : S.parents.Nodup) (hd : S.Distinct)
    (hknown : ∀ t m r, S.routes t m = some r → (lookup r.attributes.nexthop).isSome = true)
    (hnow : ∀ r, now = some r → (lookup r.attributes.nexthop).isSome = true) :
    S'.Ready lookup net := by
  refine ⟨h.parents ▸ hnodup, h.distinct hd, ?_⟩
  intro c hc
  obtain ⟨u, -, r, hr, rfl⟩ := mem_alternatives.mp hc
  rcases h.held hr with hr | ⟨-, -, hr⟩
  · exact hknown u net r hr
  · exact hnow r hr

end

/-- The new route is one of the alternatives, and the rest are the others. -/
theorem Changed.perm (h : Changed S S' t net (some r)) (hnodup : S.parents.Nodup)
    (ht : t ∈ S.parents) :
    (S'.others t net ++ [S.candidate t r]).Perm (S'.alternatives net) := by
  have hown : S'.candidateOf net t = some (S.candidate t r) := by
    rw [candidateOf, h.routes, map_some, h.candidate]
  have hperm : (S'.alternatives net).Perm (S'.others t net ++ (S'.candidateOf net t).toList) :=
    alternatives_perm (h.parents ▸ hnodup) (h.parents ▸ ht)
  rw [hown] at hperm
  exact hperm.symm

theorem Answers.isSome (h : Answers lookup r) : (lookup r.attributes.nexthop).isSome = true := by
  obtain ⟨metric, hlookup⟩ := h
  rw [hlookup]
  rfl

theorem Answers.resolvable (h : Answers lookup r) :
    resolvable lookup r.attributes.nexthop = .ok r.nexthopResolved := by
  obtain ⟨metric, hlookup⟩ := h
  rw [DecisionTable.resolvable, hlookup]

end

omit [DecidableEq ν] in
/-- A parent that holds no route does not have the winner. -/
theorem filter_flagged (hnone : S.routes t net = none) :
    (S.flagged net).filter (fun c => c.parentTable ≠ t) = S.flagged net := by
  cases ho : S.flagged net with
  | none => rfl
  | some c =>
    obtain ⟨u, -, r, hr, rfl⟩ := mem_alternatives.mp (mem_of_flagged ho)
    refine filter_eq_some_iff.mpr ⟨rfl, ?_⟩
    have hne : u ≠ t := by
      rintro rfl
      rw [hnone] at hr
      cases hr
    exact decide_eq_true hne

/-! ### Steps and runs -/

/-- The step goes through and keeps the account. -/
def Keeps (S : DecisionTable w ν) (lookup : Resolver ν) (op : Op w ν) : Prop :=
  ∃ S', S.step lookup op = .ok S' ∧ Inv S' lookup

section
variable {r : StoredRoute ν} {push : Bool} (h : Inv S before)
include h

theorem Inv.addRoute (hlegal : S.Legal lookup (.addRoute t net r push))
    (hok : S.Steady lookup (.addRoute t net r push)) : S.Keeps lookup (.addRoute t net r push) := by
  obtain ⟨hknown, ht, hnone, hfresh, hanswers⟩ := hlegal
  obtain ⟨hstable, hasked⟩ := hok
  have hch : Changed S (S.hold t net r) t net (some r) := .hold hfresh
  have hready := hch.ready h.nodup h.distinct hknown fun _ hr => some.inj hr ▸ hanswers.isSome
  have hmarks := hch.marks (h.marks net)
  have hfound := hch.found
  rw [filter_flagged hnone] at hmarks hfound
  have hperm := hch.perm h.nodup ht
  have hnew : S.candidate t r ∈ (S.hold t net r).alternatives net :=
    hperm.mem_iff.mp (mem_append_right _ (mem_singleton_self _))
  by_cases hres : r.nexthopResolved = true
  · obtain ⟨x, hx⟩ := hasked hres
    rw [asked, ← hch.others] at hx
    obtain ⟨S', hrun, hdec⟩ := addRoute_decided push hready hmarks hfound hnew
      hanswers.resolvable fun _ => hx
    have hx' : (if (S.candidate t r).nexthopResolved = true then x else S.flagged net) = x :=
      if_pos hres
    rw [hx'] at hdec
    exact ⟨S', hrun, h.decided hch hdec ⟨_, hperm, hx⟩ fun m hm => hstable m (.inl hm)⟩
  · have hno : r.nexthopResolved = false := by simpa using hres
    obtain ⟨S', hrun, hdec⟩ := addRoute_decided (x := none) push hready hmarks hfound hnew
      hanswers.resolvable fun hyes => absurd hyes hres
    have hsame : (if (S.candidate t r).nexthopResolved = true then none else S.flagged net) =
        S.flagged net := if_neg hres
    rw [hsame] at hdec
    obtain ⟨l, hl, hwin⟩ := hstable net (.inr hno)
    rw [alternatives_eq_others hnone, ← hch.others] at hl
    refine ⟨S', hrun, h.decided hch hdec ⟨l ++ [S.candidate t r], ?_, ?_⟩
      fun m hm => hstable m (.inl hm)⟩
    · exact (hl.append_right _).trans hperm
    · rw [findWinnerAmong_append hno]
      exact hwin

theorem Inv.replaceRoute {oldPush : Bool} (hlegal : S.Legal lookup (.replaceRoute t net r oldPush push))
    (hok : S.Steady lookup (.replaceRoute t net r oldPush push)) :
    S.Keeps lookup (.replaceRoute t net r oldPush push) := by
  obtain ⟨hknown, ht, hheld, hfresh, hanswers⟩ := hlegal
  obtain ⟨hstable, hasked⟩ := hok
  obtain ⟨old, hold⟩ := ne_none_iff_exists'.mp hheld
  have hch : Changed S (S.hold t net r) t net (some r) := .hold hfresh
  have hready := hch.ready h.nodup h.distinct hknown fun _ hr => some.inj hr ▸ hanswers.isSome
  have hperm := hch.perm h.nodup ht
  have hnew : S.candidate t r ∈ (S.hold t net r).alternatives net :=
    hperm.mem_iff.mp (mem_append_right _ (mem_singleton_self _))
  have hnone : S.flagged net = none →
      ∀ c ∈ (S.hold t net r).others t net, c.nexthopResolved = false := by
    intro hflag c hc
    obtain ⟨l, hl, hwin⟩ := h.settled net
    rw [hflag] at hwin
    rw [hch.others] at hc
    exact findWinnerAmong_eq_none.mp hwin c (hl.mem_iff.mpr (others_subset hc))
  obtain ⟨x, hx⟩ := hasked rfl
  rw [asked, ← hch.others] at hx
  obtain ⟨S', hrun, hdec⟩ := replaceRoute_decided oldPush push hready (hch.marks (h.marks net))
    hch.found (hch.gone h.distinct hold)
    (hch.lastWinner (h.marks net) (fun _ => mem_of_flagged) ht hold) hnew hanswers.resolvable
    hnone hx
  refine ⟨S', ?_, h.decided hch hdec ⟨_, hperm, hx⟩ fun m hm => hstable m (.inl hm)⟩
  rw [DecisionTable.step, hold]
  exact hrun

theorem Inv.deleteRoute (hlegal : S.Legal lookup (.deleteRoute t net push))
    (hok : S.Steady lookup (.deleteRoute t net push)) :
    S.Keeps lookup (.deleteRoute t net push) := by
  obtain ⟨hknown, ht, hheld⟩ := hlegal
  obtain ⟨hstable, hasked⟩ := hok
  obtain ⟨old, hold⟩ := ne_none_iff_exists'.mp hheld
  have hch : Changed S (S.release t net) t net none := .release
  have hready := hch.ready h.nodup h.distinct hknown fun _ hr => (by cases hr)
  obtain ⟨x, hx⟩ := hasked rfl
  rw [asked, ← hch.others] at hx
  obtain ⟨S', hrun, hdec⟩ := deleteRoute_decided hready (hch.marks (h.marks net)) hch.found
    (hch.gone h.distinct hold)
    (hch.lastWinner (h.marks net) (fun _ => mem_of_flagged) ht hold) hx
  have hperm : ((S.release t net).others t net).Perm ((S.release t net).alternatives net) := by
    rw [alternatives_eq_others hch.routes]
  refine ⟨S', ?_, h.decided hch hdec ⟨_, hperm, hx⟩ fun m hm => hstable m (.inl hm)⟩
  rw [DecisionTable.step, hold]
  exact hrun

/-- **One step keeps the account**, and goes through. -/
theorem Inv.step (hlegal : S.Legal lookup op) (hok : S.Steady lookup op) : S.Keeps lookup op := by
  cases op with
  | addRoute => exact h.addRoute hlegal hok
  | replaceRoute => exact h.replaceRoute hlegal hok
  | deleteRoute => exact h.deleteRoute hlegal hok

end

/-- Where the resolver answers as at the last step, all that is left is that `find_winner` gets
through. -/
theorem Inv.steady (h : Inv S lookup)
    (hasked : op.decides = true → ∃ x, findWinnerAmong lookup (S.asked op) = .ok x) :
    S.Steady lookup op :=
  ⟨fun m _ => h.settled m, hasked⟩

omit [DecidableEq ν] in
theorem flagged_empty (parents : List Nat) (peerHandler : Nat → PeerHandler) :
    (empty parents peerHandler : DecisionTable w ν).alternatives net = [] := by
  refine filterMap_eq_nil_iff.mpr fun t _ => ?_
  rfl

theorem Inv.init {parents : List Nat} (h : parents.Nodup) (peerHandler : Nat → PeerHandler)
    (lookup : Resolver ν) :
    Inv (empty parents peerHandler : DecisionTable w ν) lookup := by
  have hflag : ∀ net, (empty parents peerHandler : DecisionTable w ν).flagged net = none := by
    intro net
    rw [flagged, flagged_empty]
    rfl
  refine ⟨h, ?_, ?_, ?_, ?_⟩
  · intro t net r t' net' r' hr
    cases hr
  · intro net t _ r hr
    cases hr
  · intro net
    refine ⟨[], ?_, ?_⟩
    · rw [flagged_empty]
    · rw [hflag]
      exact findWinnerAmong_eq_none.mpr (by simp)
  · simp only [hflag]
    rfl

variable {ok : DecisionTable w ν → Resolver ν → Op w ν → Prop}

theorem Reach.inv (hok : ∀ S lookup op, ok S lookup op → S.Steady lookup op)
    (h : Reach ok S lookup) : Inv S lookup := by
  induction h with
  | init parents peerHandler lookup hnodup => exact .init hnodup peerHandler lookup
  | step lookup op _ hlegal hop hstep ih =>
    obtain ⟨S', hrun, hinv⟩ := ih.step hlegal (hok _ _ _ hop)
    rw [← Except.ok.inj (hrun.symm.trans hstep)]
    exact hinv

/-- **The winner is announced.**  In a run whose steps are all steady, for every net at most one
alternative is flagged; it is the winner among all alternatives in some order of them, and so the
winner in every order where the order does not matter; none is flagged exactly if none is resolved;
and the changes that were passed on, one after the other, fit and leave the next table with the
flagged ones.  Every further operation that is steady goes through. -/
theorem decision_announces_winner (hok : ∀ S lookup op, ok S lookup op → S.Steady lookup op)
    (h : Reach ok S lookup) :
    (∀ net, ∀ c ∈ S.alternatives net, ∀ d ∈ S.alternatives net,
      S.isFlagged c = true → S.isFlagged d = true → c = d) ∧
    (∀ net, ∃ l, l.Perm (S.alternatives net) ∧ findWinnerAmong lookup l = .ok (S.flagged net)) ∧
    (∀ net, (∀ l, l.Perm (S.alternatives net) →
        findWinnerAmong lookup l = findWinnerAmong lookup (S.alternatives net)) →
      findWinnerAmong lookup (S.alternatives net) = .ok (S.flagged net)) ∧
    (∀ net, S.flagged net = none ↔ ∀ c ∈ S.alternatives net, c.nexthopResolved = false) ∧
    (follow exact Prod.fst S.updates = some fun net => (S.flagged net).map fun c => (net, c)) ∧
    ∀ lookup op, S.Legal lookup op → S.Steady lookup op → ∃ S', S.step lookup op = .ok S' := by
  have hinv := h.inv hok
  refine ⟨?_, hinv.settled, ?_, ?_, hinv.follows, ?_⟩
  · intro net c hc d hd hcf hdf
    exact some.inj ((((hinv.marks net).iff hc).mp hcf).symm.trans
      (((hinv.marks net).iff hd).mp hdf))
  · intro net hsame
    obtain ⟨l, hperm, hwin⟩ := hinv.settled net
    rw [← hsame l hperm]
    exact hwin
  · intro net
    obtain ⟨l, hperm, hwin⟩ := hinv.settled net
    constructor
    · intro hnone c hc
      rw [hnone] at hwin
      exact findWinnerAmong_eq_none.mp hwin c (hperm.mem_iff.mpr hc)
    · intro hall
      have hno : findWinnerAmong lookup l = .ok none :=
        findWinnerAmong_eq_none.mpr fun c hc => hall c (hperm.mem_iff.mp hc)
      exact Except.ok.inj (hwin.symm.trans hno)
  · intro lookup op hlegal hsteady
    obtain ⟨S', hrun, -⟩ := hinv.step hlegal hsteady
    exact ⟨S', hrun⟩

end

/-! ### Two parents -/

theorem fresh_empty {parents : List Nat} {peerHandler : Nat → PeerHandler} (r : StoredRoute ν) :
    (empty parents peerHandler : DecisionTable w ν).Fresh r := by
  intro t m r' hr
  cases hr

theorem Fresh.hold {S S' : DecisionTable w ν} {r r' : StoredRoute ν} {t : Nat} {net : IPNet w}
    (h : S.Fresh r) (hne : r'.route ≠ r.route) (hroutes : S'.routes = (S.hold t net r').routes) :
    S'.Fresh r := by
  intro u m r'' hr
  rw [hroutes] at hr
  by_cases hplace : u = t ∧ m = net
  · obtain ⟨rfl, rfl⟩ := hplace
    change update S.routes u _ u m = _ at hr
    rw [update_self, update_self] at hr
    rw [← some.inj hr]
    exact hne
  · refine h u m r'' ?_
    rw [← hr]
    exact (update_off (not_and_or.mp hplace)).symm

/-- A route with a local preference and a nexthop. -/
def offered (route : Nat) (localPref : BitVec 32) (nexthop : Nat) : StoredRoute Nat :=
  ⟨route, ⟨some localPref, [], .igp, none, nexthop⟩, true, 1⟩

/-- Two parents, for the peers with these identifiers. -/
def twoParents (id₀ id₁ : BitVec 32) : DecisionTable 32 Nat :=
  empty [0, 1] fun t => if t = 0 then ⟨false, id₀⟩ else ⟨false, id₁⟩

/-- All nexthops have this metric but one. -/
def metrics (metric : BitVec 32) (nexthop : Nat) : Option (Bool × BitVec 32) :=
  some (true, if nexthop = 0 then metric else 20)

/-- A route from the peer with the lower identifier takes over. -/
theorem decision_announces_winner_lower : ∃ S : DecisionTable 32 Nat, Reach Steady S (metrics 20) ∧
      S.flagged (IPNet.any 32) = some ((twoParents 1 2).candidate 0 (offered 1 100 0)) ∧
      follow exact Prod.fst S.updates = some fun net => (S.flagged net).map fun c => (net, c) := by
  have h0 : Reach Steady (twoParents 1 2) (metrics 20) := .init _ _ _ (by decide)
  have hinv := fun (S : DecisionTable 32 Nat) (h : Reach Steady S (metrics 20)) =>
    h.inv fun _ _ _ h => h
  have h1 := h0.step (metrics 20) (.addRoute 1 (any 32) (offered 0 100 1) false)
    ⟨fun _ _ _ _ => rfl, by decide, rfl, fresh_empty _, _, rfl⟩
    ((hinv _ h0).steady fun _ => ⟨_, rfl⟩) rfl
  have h2 := h1.step (metrics 20) (.addRoute 0 (any 32) (offered 1 100 0) false)
    ⟨fun _ _ _ _ => rfl, by decide, rfl, (fresh_empty _).hold (by decide) rfl, _, rfl⟩
    ((hinv _ h1).steady fun _ => ⟨_, rfl⟩) rfl
  exact ⟨_, h2, rfl, (decision_announces_winner (fun _ _ _ h => h) h2).2.2.2.2.1⟩

/-- **What goes wrong.**  Two peers with one identifier offer the same: the route that came first
stays the winner, where the other one comes first among the alternatives.  The metric of the
winner's nexthop rises while another net is changed: the other route should win in any order, and
the flag stays.  A local preference of 2^31 fails an assertion. -/
theorem winner_not_flagged : (∃ (S : DecisionTable 32 Nat) (c d : Candidate Nat),
      Reach (fun _ _ _ => True) S (metrics 20) ∧ S.alternatives (IPNet.any 32) = [d, c] ∧
      S.flagged (IPNet.any 32) = some c ∧ c ≠ d ∧
      findWinnerAmong (metrics 20) [d, c] = .ok (some d)) ∧
    (∃ (S : DecisionTable 32 Nat) (c d : Candidate Nat),
      Reach (fun _ _ _ => True) S (metrics 30) ∧ S.alternatives (IPNet.any 32) = [c, d] ∧
      S.flagged (IPNet.any 32) = some c ∧ c ≠ d ∧
      findWinnerAmong (metrics 30) [c, d] = .ok (some d) ∧
      findWinnerAmong (metrics 30) [d, c] = .ok (some d)) ∧
    ∃ (S : DecisionTable 32 Nat) (op : Op 32 Nat),
      Reach (fun _ _ _ => True) S (metrics 20) ∧ S.Legal (metrics 20) op ∧
      (S.step (metrics 20) op).isOk = false := by
  have h0 : Reach (fun _ _ _ => True) (twoParents 1 2) (metrics 20) := .init _ _ _ (by decide)
  have h1 := h0.step (metrics 20) (.addRoute 0 (any 32) (offered 0 100 0) false)
    ⟨fun _ _ _ _ => rfl, by decide, rfl, fresh_empty _, _, rfl⟩ trivial rfl
  refine ⟨?_, ?_, ?_⟩
  · have h0 : Reach (fun _ _ _ => True) (twoParents 7 7) (metrics 20) := .init _ _ _ (by decide)
    have h1 := h0.step (metrics 20) (.addRoute 1 (any 32) (offered 0 100 1) false)
      ⟨fun _ _ _ _ => rfl, by decide, rfl, fresh_empty _, _, rfl⟩ trivial rfl
    have h2 := h1.step (metrics 20) (.addRoute 0 (any 32) (offered 1 100 1) false)
      ⟨fun _ _ _ _ => rfl, by decide, rfl, (fresh_empty _).hold (by decide) rfl, _, rfl⟩ trivial rfl
    exact ⟨_, _, _, h2, rfl, rfl, by decide, rfl⟩
  · have h2 := h1.step (metrics 20) (.addRoute 1 (any 32) (offered 1 100 1) false)
      ⟨fun _ _ _ _ => rfl, by decide, rfl, (fresh_empty _).hold (by decide) rfl, _, rfl⟩ trivial rfl
    have h3 := h2.step (metrics 30) (.addRoute 0 (host 5) (offered 2 100 1) false)
      ⟨fun _ _ _ _ => rfl, by decide, rfl,
        ((fresh_empty _).hold (by decide) rfl).hold (by decide) rfl, _, rfl⟩ trivial rfl
    exact ⟨_, _, _, h3, rfl, rfl, by decide, rfl, rfl⟩
  · exact ⟨_, .addRoute 1 (any 32) (offered 1 0x80000000 1) false, h1,
      ⟨fun _ _ _ _ => rfl, by decide, rfl, (fresh_empty _).hold (by decide) rfl, _, rfl⟩, rfl⟩

end DecisionTable

end Xorp.Bgp

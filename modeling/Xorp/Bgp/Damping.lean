/-
Flap damping.

A `DampingTable` gives every net a figure of merit, which grows with each change and decays
over time.  While the figure is too high the net is damped: its route is kept back, with a
timer that will let it through.  Two tries, a counter and a flag in each entry say which
nets these are, and damping can be switched off while some are held.

What has to be shown is that the four agree after every operation, and that downstream then
holds what the parent holds, without the damped nets.
-/
import Mathlib.Data.Set.Card
import Xorp.Trie.PrefixMap
import Xorp.Lib.Stream

namespace Xorp.Bgp

open Linked Stream Function PrefixMap Option Update IPNet Set

variable {w : Nat} {ρ : Type}

/-! ### The damping parameters -/

structure Damping where
  damping : Bool
  halfLife : BitVec 32
  maxHoldDown : BitVec 32
  reuse : BitVec 32
  cutoff : BitVec 32
  decay : List (BitVec 32)
  tick : BitVec 32

namespace Damping

/-- `FIXED`, the figure of merit of one change. -/
def fixed : BitVec 32 := 1000

/-- The constructor, which leaves the reuse threshold as it finds it. -/
def new (reuse : BitVec 32) : Damping := ⟨false, 15, 60, reuse, 3000, [], 0⟩

/-- `decayAt` stands for the powers of the decay, which are computed in floating point. -/
def init (decayAt : BitVec 32 → Nat → BitVec 32) (d : Damping) : Damping :=
  if d.damping then
    { d with decay := (List.range (d.maxHoldDown * 60).toNat).map (decayAt d.halfLife) }
  else d

section
variable (decayAt : BitVec 32 → Nat → BitVec 32) (d : Damping)

def setHalfLife (halfLife : BitVec 32) : Damping := init decayAt { d with halfLife }

def setMaxHoldDown (maxHoldDown : BitVec 32) : Damping := init decayAt { d with maxHoldDown }

def setReuse (reuse : BitVec 32) : Damping := init decayAt { d with reuse }

def setCutoff (cutoff : BitVec 32) : Damping := init decayAt { d with cutoff }

def setDamping (damping : Bool) : Damping := init decayAt { d with damping }

/-- `bgp_0_3_set_damping`: parameters out of their range are refused. -/
def configure (halfLife maxSuppress reuse suppress : BitVec 32) (disable : Bool) : Damping :=
  if halfLife < 1 ∨ 45 < halfLife then d
  else if maxSuppress < 1 ∨ 720 < maxSuppress then d
  else if reuse < 1 ∨ 20000 < reuse then d
  else if suppress < 1 ∨ 20000 < suppress then d
  else
    ((((d.setHalfLife decayAt halfLife).setMaxHoldDown decayAt maxSuppress).setReuse decayAt
      reuse).setCutoff decayAt suppress).setDamping decayAt (!disable)

end

/-- The figure of merit decays from when it was last computed, and grows by one change. -/
def computeMerit (d : Damping) (lastTime lastMerit : BitVec 32) : Except Fault (BitVec 32) :=
  let tdiff := d.tick - lastTime
  if d.maxHoldDown * 60 ≤ tdiff then .ok fixed
  else
    match d.decay[tdiff.toNat]? with
    | none => .error .badPointer
    | some decay => .ok (lastMerit * decay / fixed + fixed)

/-- How long a route is damped.  A threshold of 0 stops the program. -/
def getReuseTime (d : Damping) (merit : BitVec 32) : Except Fault (BitVec 32) :=
  if d.reuse = 0 then .error .abort
  else
    let dampTime := (merit / d.reuse - 1) * d.halfLife * 60
    let maxTime := d.maxHoldDown * 60
    .ok (if maxTime < dampTime then maxTime else dampTime)

/-- With damping on, there is a decay for every time below the maximum, and the reuse
threshold was configured. -/
def Ready (d : Damping) : Prop :=
  d.damping = true → d.reuse ≠ 0 ∧ d.decay.length = (d.maxHoldDown * 60).toNat

variable {d : Damping}

theorem Ready.computeMerit (h : d.Ready) (hd : d.damping = true) (time merit : BitVec 32) :
    ∃ m, d.computeMerit time merit = .ok m := by
  unfold Damping.computeMerit
  by_cases hmax : d.maxHoldDown * 60 ≤ d.tick - time
  · exact ⟨fixed, if_pos hmax⟩
  · have hlt : (d.tick - time).toNat < d.decay.length := by
      rw [(h hd).2]
      exact Nat.lt_of_not_le fun hle => hmax (BitVec.le_def.mpr hle)
    refine ⟨merit * d.decay[(d.tick - time).toNat] / fixed + fixed, ?_⟩
    rw [if_neg hmax, List.getElem?_eq_getElem hlt]

theorem Ready.getReuseTime (h : d.Ready) (hd : d.damping = true) (merit : BitVec 32) :
    ∃ t, d.getReuseTime merit = .ok t :=
  ⟨_, if_neg (h hd).1⟩

section
variable (decayAt : BitVec 32 → Nat → BitVec 32) (d : Damping)

@[simp] theorem init_damping : (init decayAt d).damping = d.damping := by
  unfold init
  split_ifs <;> rfl

@[simp] theorem init_reuse : (init decayAt d).reuse = d.reuse := by
  unfold init
  split_ifs <;> rfl

end

variable {decayAt : BitVec 32 → Nat → BitVec 32}

/-- `init` makes a decay for every time. -/
theorem init_ready (h : d.reuse ≠ 0) : (init decayAt d).Ready := by
  intro hd
  rw [init_damping] at hd
  refine ⟨(init_reuse ..).symm ▸ h, ?_⟩
  simp [init, hd]

theorem Ready.configure (h : d.Ready) (halfLife maxSuppress reuse suppress : BitVec 32)
    (disable : Bool) : (d.configure decayAt halfLife maxSuppress reuse suppress disable).Ready := by
  unfold Damping.configure
  split_ifs with h₁ h₂ h₃ h₄
  · exact h
  · exact h
  · exact h
  · exact h
  · have hreuse : reuse ≠ 0 := fun he => h₃ (.inl (he ▸ by decide))
    refine init_ready ?_
    simpa [setCutoff, setReuse] using hreuse

end Damping

/-! ### The table -/

/-- What a message says about a route. -/
structure RouteMsg (ρ : Type) where
  route : ρ
  genid : Nat
deriving DecidableEq

/-- `Damp`, which every net gets. -/
structure Damp where
  time : BitVec 32
  merit : BitVec 32
  damped : Bool

/-- `DampRoute`, which a damped net has. -/
structure DampRoute (ρ : Type) where
  msg : RouteMsg ρ
  /-- whether the timer is scheduled -/
  timer : Bool

structure DampingTable (w : Nat) (ρ : Type) where
  /-- whether the peer is an internal one -/
  ibgp : Bool
  params : Damping
  damp : PrefixMap w Damp
  damped : PrefixMap w (DampRoute ρ)
  dampCount : Nat
  /-- the messages to the next table -/
  out : List (Update (RouteMsg ρ))

namespace DampingTable

def empty (ibgp : Bool) (reuse : BitVec 32) : DampingTable w ρ :=
  ⟨ibgp, .new reuse, .empty, .empty, 0, []⟩

section
variable (net : ρ → IPNet w) (T : DampingTable w ρ)

def damping : Bool :=
  if T.ibgp then false
  else if T.dampCount ≠ 0 then true
  else T.params.damping

def dampingGlobal : Bool := T.params.damping

def send (u : Update (RouteMsg ρ)) : DampingTable w ρ :=
  { T with out := T.out ++ [u] }

/-- The answer says whether the net is damped now.  When the timer will expire is left open. -/
def updateFigureOfMerit (n : IPNet w) (damp : Damp) (m : RouteMsg ρ) :
    Except Fault (DampingTable w ρ × Bool) :=
  if T.params.damping then do
    let merit ← T.params.computeMerit damp.time damp.merit
    let damp := { damp with merit, time := T.params.tick }
    if T.params.cutoff < merit then
      let _ ← T.params.getReuseTime merit
      pure
        ({ T with
            damp := T.damp.insert n { damp with damped := true }
            dampCount := T.dampCount + 1
            damped := T.damped.insert n ⟨m, true⟩ }, true)
    else pure ({ T with damp := T.damp.insert n damp }, false)
  else pure (T, false)

def addRoute (m : RouteMsg ρ) : Except Fault (DampingTable w ρ) :=
  if !T.damping then .ok (T.send (.add m))
  else if !T.dampingGlobal then .ok (T.send (.add m))
  else
    match T.damp.get (net m.route) with
    | none =>
        let damp := T.damp.insert (net m.route) ⟨T.params.tick, Damping.fixed, false⟩
        .ok ({ T with damp }.send (.add m))
    | some damp => do
        let (T, damped) ← T.updateFigureOfMerit (net m.route) damp m
        if damped then pure T else pure (T.send (.add m))

def replaceRoute (old new : RouteMsg ρ) :
    Except Fault (DampingTable w ρ) :=
  if net old.route ≠ net new.route then .error .assertion
  else if !T.damping then .ok (T.send (.replace old new))
  else
    match T.damp.get (net old.route) with
    | none => .ok (T.send (.replace old new))
    | some damp =>
        if damp.damped then
          match T.damped.get (net old.route) with
          | none => .error .assertion
          | some r =>
              if !r.timer then .error .abort
              else
                let damped := T.damped.erase (net old.route)
                if T.dampingGlobal then
                  .ok { T with damped := damped.insert (net new.route) ⟨new, true⟩ }
                else
                  .ok
                    (send
                      { T with
                        damped
                        damp := T.damp.insert (net old.route) { damp with damped := false }
                        dampCount := T.dampCount - 1 }
                      (.add new))
        else do
          let (T, damped) ← T.updateFigureOfMerit (net old.route) damp new
          if damped then pure (T.send (.delete old)) else pure (T.send (.replace old new))

def deleteRoute (m : RouteMsg ρ) : Except Fault (DampingTable w ρ) :=
  if !T.damping then .ok (T.send (.delete m))
  else
    match T.damp.get (net m.route) with
    | none => .ok (T.send (.delete m))
    | some damp =>
        if damp.damped then
          match T.damped.get (net m.route) with
          | none => .error .assertion
          | some _ =>
              .ok
                { T with
                  damped := T.damped.erase (net m.route)
                  damp := T.damp.insert (net m.route) { damp with damped := false }
                  dampCount := T.dampCount - 1 }
        else .ok (T.send (.delete m))

def isThisRouteDamped (n : IPNet w) : Bool :=
  match T.damp.get n with
  | none => false
  | some damp => damp.damped

/-- `parent` is what the parent's `lookup_route` answers. -/
def lookupRoute (parent : IPNet w → Option (RouteMsg ρ)) (n : IPNet w) :
    Option (RouteMsg ρ) :=
  if !T.damping then parent n
  else if T.isThisRouteDamped n then none
  else parent n

/-- The callback of the timer of a damped route. -/
def undamp (n : IPNet w) : Except Fault (DampingTable w ρ) :=
  match T.damp.get n with
  | none => .error .assertion
  | some damp =>
      if !damp.damped then .error .assertion
      else
        match T.damped.get n with
        | none => .error .assertion
        | some r =>
            .ok
              (send
                { T with
                  damped := T.damped.erase n
                  damp := T.damp.insert n { damp with damped := false }
                  dampCount := T.dampCount - 1 }
                (.add r.msg))

/-- The timer of a damped route expires.  It is no longer scheduled when its callback runs. -/
def expire (n : IPNet w) : DampingTable w ρ :=
  match T.damped.get n with
  | none => T
  | some r => { T with damped := T.damped.insert n { r with timer := false } }

end

inductive Op (w : Nat) (ρ : Type) where
  /-- a change in the parent's table -/
  | update (u : Update (RouteMsg ρ))
  /-- the timer of a net expires -/
  | undamp (n : IPNet w)
  | tick
  | configure (halfLife maxSuppress reuse suppress : BitVec 32) (disable : Bool)

def step (decayAt : BitVec 32 → Nat → BitVec 32) (net : ρ → IPNet w) (T : DampingTable w ρ) :
    Op w ρ → Except Fault (DampingTable w ρ)
  | .update (.add m) => T.addRoute net m
  | .update (.replace old new) => T.replaceRoute net old new
  | .update (.delete m) => T.deleteRoute net m
  | .undamp n => (T.expire n).undamp n
  | .tick => .ok { T with params := { T.params with tick := T.params.tick + 1 } }
  | .configure halfLife maxSuppress reuse suppress disable =>
      .ok
        { T with
          params := T.params.configure decayAt halfLife maxSuppress reuse suppress disable }

/-- What the parent holds after an operation, if the operation may happen: a change of the
parent's table fits what it holds, and a timer that expires was scheduled. -/
def parentAfter (names : RouteMsg ρ → RouteMsg ρ → Bool) (net : ρ → IPNet w)
    (T : DampingTable w ρ) (parent : IPNet w → Option (RouteMsg ρ)) :
    Op w ρ → Option (IPNet w → Option (RouteMsg ρ))
  | .update u => u.apply names (fun m => net m.route) parent
  | .undamp n => if (T.damped.get n).any DampRoute.timer then some parent else none
  | .tick | .configure .. => some parent

/-- The tables that can be reached, with what the parent holds then. -/
inductive Reach (decayAt : BitVec 32 → Nat → BitVec 32) (names : RouteMsg ρ → RouteMsg ρ → Bool)
    (net : ρ → IPNet w) : DampingTable w ρ → (IPNet w → Option (RouteMsg ρ)) → Prop where
  | empty (ibgp : Bool) (reuse : BitVec 32) :
      Reach decayAt names net (.empty ibgp reuse) fun _ => none
  | step {T T' parent parent'} (op : Op w ρ) : Reach decayAt names net T parent →
      parentAfter names net T parent op = some parent' → T.step decayAt net op = .ok T' →
      Reach decayAt names net T' parent'

/-! ### The two tries and the counter -/

instance : Finite (IPNet w) := by
  refine Finite.of_injective
    (fun n => (n.maskedAddr.toFin, (⟨n.prefixLen, Nat.lt_succ_of_le n.prefixLen_le⟩ : Fin (w + 1))))
    ?_
  rintro ⟨a, l, _, _⟩ ⟨b, l', _, _⟩ h
  obtain ⟨ha, hl⟩ := Prod.mk.inj h
  obtain rfl : a = b := BitVec.eq_of_toFin_eq ha
  obtain rfl : l = l' := Fin.mk.inj hl
  rfl

/-- The nets with a route in the trie of damped routes. -/
def held (damped : PrefixMap w (DampRoute ρ)) : Set (IPNet w) := {n | (damped.get n).isSome}

/-- A route is held exactly for the nets whose entry is flagged, its timer is scheduled, and
the counter says how many there are. -/
structure Coupled (damp : PrefixMap w Damp) (damped : PrefixMap w (DampRoute ρ)) (count : Nat) :
    Prop where
  flag : ∀ n, (damped.get n).isSome ↔ ∃ d, damp.get n = some d ∧ d.damped = true
  timer : ∀ n r, damped.get n = some r → r.timer = true
  count : count = (held damped).ncard

variable {damp : PrefixMap w Damp} {n : IPNet w} {d : Damp} {r : DampRoute ρ}

namespace Coupled

variable {damped : PrefixMap w (DampRoute ρ)} {count : Nat}

theorem empty : Coupled (.empty : PrefixMap w Damp) (.empty : PrefixMap w (DampRoute ρ)) 0 :=
  ⟨by simp, by simp, by simp [held]⟩

section
variable (h : Coupled damp damped count)
include h

theorem flag_eq (hd : damp.get n = some d) : d.damped = (damped.get n).isSome := by
  rw [Bool.eq_iff_iff, h.flag n]
  constructor
  · intro hflag
    exact ⟨d, hd, hflag⟩
  · rintro ⟨d', hd', hflag⟩
    rw [hd] at hd'
    rwa [some.inj hd']

theorem flag_insert {damped' : PrefixMap w (DampRoute ρ)} (hn : (damped'.get n).isSome = d.damped)
    (hrest : ∀ k, k ≠ n → damped'.get k = damped.get k) (k : IPNet w) :
    (damped'.get k).isSome ↔ ∃ e, (damp.insert n d).get k = some e ∧ e.damped = true := by
  rw [get_insert]
  by_cases hk : k = n
  · subst hk
    rw [if_pos rfl, hn]
    simp
  · rw [if_neg hk, hrest k hk, h.flag k]

/-- The entry of a net that is not damped changes. -/
theorem touch (hn : damped.get n = none) (hd : d.damped = false) :
    Coupled (damp.insert n d) damped count :=
  ⟨h.flag_insert (by rw [hn, hd]; rfl) fun _ _ => rfl, h.timer, h.count⟩

end

theorem held_insert : held (damped.insert n r) = insert n (held damped) := by
  ext k
  change ((damped.insert n r).get k).isSome = true ↔ k = n ∨ (damped.get k).isSome = true
  rw [get_insert]
  by_cases hk : k = n <;> simp [hk]

theorem held_erase {damped' : PrefixMap w (DampRoute ρ)}
    (hget : ∀ k, damped'.get k = if k = n then none else damped.get k) :
    held damped' = held damped \ {n} := by
  ext k
  change (damped'.get k).isSome = true ↔ (damped.get k).isSome = true ∧ k ∉ ({n} : Set _)
  rw [hget]
  by_cases hk : k = n <;> simp [hk]

section
variable (h : Coupled damp damped count)
include h

theorem timer_put {damped' : PrefixMap w (DampRoute ρ)}
    (hget : ∀ k, damped'.get k = if k = n then some r else damped.get k) (hr : r.timer = true)
    (k : IPNet w) (r' : DampRoute ρ) (hk : damped'.get k = some r') : r'.timer = true := by
  rw [hget] at hk
  by_cases he : k = n
  · rw [if_pos he] at hk
    rwa [← some.inj hk]
  · rw [if_neg he] at hk
    exact h.timer k r' hk

theorem hold (hn : damped.get n = none) (hd : d.damped = true)
    (hr : r.timer = true) : Coupled (damp.insert n d) (damped.insert n r) (count + 1) := by
  have hget : ∀ k, (damped.insert n r).get k = if k = n then some r else damped.get k :=
    get_insert
  refine ⟨h.flag_insert ?_ ?_, h.timer_put hget hr, ?_⟩
  · rw [hget, if_pos rfl, hd]
    rfl
  · intro k hk
    rw [hget, if_neg hk]
  · have hnot : n ∉ held damped := by simp [held, hn]
    rw [held_insert, ncard_insert_of_notMem hnot, h.count]

theorem release {damped' : PrefixMap w (DampRoute ρ)} (hr : damped.get n = some r)
    (hget : ∀ k, damped'.get k = if k = n then none else damped.get k)
    (hd : d.damped = false) : Coupled (damp.insert n d) damped' (count - 1) := by
  refine ⟨h.flag_insert ?_ ?_, ?_, ?_⟩
  · rw [hget, if_pos rfl, hd]
    rfl
  · intro k hk
    rw [hget, if_neg hk]
  · intro k r' hk
    rw [hget] at hk
    obtain ⟨-, hk⟩ := ite_none_left_eq_some.mp hk
    exact h.timer k r' hk
  · have hmem : n ∈ held damped := by simp [held, hr]
    rw [held_erase hget, ncard_sdiff_singleton_of_mem hmem, h.count]

end

theorem get_swap (hr : damped.get n = some r) (r' : DampRoute ρ) (k : IPNet w) :
    ((damped.erase n).insert n r').get k = if k = n then some r' else damped.get k := by
  rw [get_insert, get_erase hr]
  by_cases hk : k = n <;> simp [hk]

theorem swap (h : Coupled damp damped count) (hr : damped.get n = some r) {r' : DampRoute ρ}
    (hr' : r'.timer = true) : Coupled damp ((damped.erase n).insert n r') count := by
  have hsome : ∀ k, (((damped.erase n).insert n r').get k).isSome = (damped.get k).isSome := by
    intro k
    rw [get_swap hr]
    by_cases hk : k = n
    · rw [if_pos hk, hk, hr]
      rfl
    · rw [if_neg hk]
  refine ⟨fun k => by rw [hsome, h.flag k], h.timer_put (get_swap hr r') hr', ?_⟩
  · rw [h.count]
    exact congrArg ncard (ext fun k => (Bool.eq_iff_iff.mp (hsome k)).symm)

end Coupled

/-! ### The invariant -/

/-- What the parent holds, without the damped nets. -/
def visible (T : DampingTable w ρ) (parent : IPNet w → Option (RouteMsg ρ)) :
    IPNet w → Option (RouteMsg ρ) :=
  fun n => if (T.damped.get n).isSome then none else parent n

structure Inv (names : RouteMsg ρ → RouteMsg ρ → Bool) (net : ρ → IPNet w)
    (T : DampingTable w ρ) (parent : IPNet w → Option (RouteMsg ρ)) : Prop where
  coupled : Coupled T.damp T.damped T.dampCount
  /-- what is held back for a net is what the parent holds for it -/
  route : ∀ n r, T.damped.get n = some r → parent n = some r.msg
  keyed : ∀ n m, parent n = some m → net m.route = n
  /-- nothing from an internal peer is damped -/
  ibgp : T.ibgp = true → ∀ n, T.damped.get n = none
  ready : T.params.Ready
  out : follow names (fun m => net m.route) T.out = some (T.visible parent)

section
variable {names : RouteMsg ρ → RouteMsg ρ → Bool} {net : ρ → IPNet w} {T T' : DampingTable w ρ}
  {parent parent' : IPNet w → Option (RouteMsg ρ)}

variable {out : List (Update (RouteMsg ρ))} {v : Option (RouteMsg ρ)} {m : RouteMsg ρ}

theorem visible_of_held (h : T.damped.get n = some r) : T.visible parent n = none :=
  if_pos (by rw [h]; rfl)

theorem visible_of_none (parent : IPNet w → Option (RouteMsg ρ)) (h : T.damped.get n = none) :
    T.visible parent n = parent n :=
  if_neg (by rw [h]; simp)

/-- A change at one net is seen at that net only. -/
theorem visible_eq_update (hn : T'.visible parent' n = v)
    (hd : ∀ k, k ≠ n → T'.damped.get k = T.damped.get k) (hp : ∀ k, k ≠ n → parent' k = parent k) :
    update (T.visible parent) n v = T'.visible parent' := by
  funext k
  by_cases hk : k = n
  · rw [hk, update_self, hn]
  · rw [update_of_ne hk, visible, visible, hd k hk, hp k hk]

theorem Inv.init (ibgp : Bool) (reuse : BitVec 32) :
    Inv names net (.empty ibgp reuse) fun _ => none :=
  ⟨.empty, by simp [DampingTable.empty], by simp, fun _ _ => rfl, nofun, by
    rfl⟩

section
variable (h : Inv names net T parent)
include h

/-- While damping is off no net is damped. -/
theorem Inv.none_damped (hd : T.damping = false) : T.damped.get n = none := by
  unfold damping at hd
  split_ifs at hd with hibgp hcount
  · exact h.ibgp hibgp n
  · have hzero : (held T.damped).ncard = 0 := by
      rw [← h.coupled.count]
      exact not_not.mp hcount
    have hempty := (ncard_eq_zero (toFinite _)).mp hzero
    rw [← not_isSome_iff_eq_none]
    intro hsome
    exact (eq_empty_iff_forall_notMem.mp hempty n) hsome

/-- A net without an entry is not damped. -/
theorem Inv.none_of_no_entry (hd : T.damp.get n = none) : T.damped.get n = none := by
  rw [← not_isSome_iff_eq_none, h.coupled.flag n, hd]
  simp

theorem Inv.none_of_flag (hd : T.damp.get n = some d)
    (hflag : d.damped = false) : T.damped.get n = none := by
  rw [← not_isSome_iff_eq_none, ← h.coupled.flag_eq hd, hflag]
  simp

theorem Inv.some_of_flag (hd : T.damp.get n = some d)
    (hflag : d.damped = true) : ∃ r, T.damped.get n = some r := by
  rw [← isSome_iff_exists, ← h.coupled.flag_eq hd, hflag]

end

theorem ibgp_of_damping (hd : T.damping = true) : T.ibgp = false := by
  unfold damping at hd
  split_ifs at hd with hibgp
  · exact eq_false_of_ne_true hibgp
  · exact eq_false_of_ne_true hibgp

section
variable (h : Inv names net T parent)
include h

/-- A change for a net that is not damped is passed on. -/
theorem Inv.pass {u : Update (RouteMsg ρ)}
    (hu : u.apply names (fun m => net m.route) parent = some parent')
    (hn : T.damped.get (u.target fun m => net m.route) = none)
    (hc : Coupled damp T.damped T.dampCount) : Inv names net ({ T with damp }.send u) parent' := by
  obtain ⟨hfits, hparent⟩ := apply_eq_some.mp hu
  have hrest : ∀ k, k ≠ u.target (fun m => net m.route) → parent' k = parent k := by
    intro k hk
    rw [hparent, update_of_ne hk]
  refine ⟨hc, ?_, apply_keyed hu h.keyed, h.ibgp, h.ready, ?_⟩
  · intro k r hr
    have hne : k ≠ u.target (fun m => net m.route) := by
      rintro rfl
      exact absurd (hn.symm.trans hr) (by simp)
    rw [hrest k hne]
    exact h.route k r hr
  · rw [← visible_of_none parent hn] at hfits
    refine (follow_concat h.out hfits).trans (congrArg some ?_)
    refine visible_eq_update ?_ (fun _ _ => rfl) hrest
    rw [visible_of_none _ (by exact hn), hparent, update_self]

/-- The figure of merit of a net that is not damped: either its entry changes, or it is damped
now. -/
theorem Inv.updateFigureOfMerit (hn : T.damped.get n = none) (hflag : d.damped = false)
    (m : RouteMsg ρ) : ∃ damp, (T.updateFigureOfMerit n d m = .ok ({ T with damp }, false) ∧
        Coupled damp T.damped T.dampCount) ∨
      (T.updateFigureOfMerit n d m = .ok ({ T with
              damp
              dampCount := T.dampCount + 1
              damped := T.damped.insert n ⟨m, true⟩ }, true) ∧
        Coupled damp (T.damped.insert n ⟨m, true⟩) (T.dampCount + 1)) := by
  unfold DampingTable.updateFigureOfMerit
  by_cases hd : T.params.damping = true
  · obtain ⟨merit, hmerit⟩ := h.ready.computeMerit hd d.time d.merit
    obtain ⟨time, htime⟩ := h.ready.getReuseTime hd merit
    simp only [if_pos hd, hmerit, ok_bind]
    by_cases hcut : T.params.cutoff < merit
    · simp only [if_pos hcut, htime, ok_bind]
      exact ⟨_, .inr ⟨rfl, h.coupled.hold hn rfl rfl⟩⟩
    · simp only [if_neg hcut]
      exact ⟨_, .inl ⟨rfl, h.coupled.touch hn hflag⟩⟩
  · rw [if_neg hd]
    exact ⟨T.damp, .inl ⟨rfl, h.coupled⟩⟩

/-- What is held back for one net changes, and with it what the parent holds for that net. -/
theorem Inv.put {damped : PrefixMap w (DampRoute ρ)} {count : Nat} {held : Option (DampRoute ρ)}
    (hget : ∀ k, damped.get k = if k = n then held else T.damped.get k)
    (hc : Coupled damp damped count) (hheld : ∀ r, held = some r → v = some r.msg)
    (hv : ∀ m, v = some m → net m.route = n) (hib : T.ibgp = false)
    (hout : follow names (fun m => net m.route) out
      = some (update (T.visible parent) n (if held.isSome then none else v))) :
    Inv names net { T with damp, dampCount := count, damped, out } (update parent n v) := by
  refine ⟨hc, ?_, ?_, fun hi => absurd (hib.symm.trans hi) (by simp), h.ready, ?_⟩
  · intro k r hr
    rw [hget] at hr
    by_cases hk : k = n
    · rw [if_pos hk] at hr
      rw [hk, update_self, hheld r hr]
    · rw [if_neg hk] at hr
      rw [update_of_ne hk]
      exact h.route k r hr
  · exact (forall_update_iff parent fun k x => ∀ m, x = some m → net m.route = k).mpr
      ⟨hv, fun k _ => h.keyed k⟩
  · refine hout.trans (congrArg some (visible_eq_update ?_ ?_ ?_))
    · rw [visible, hget, if_pos rfl, update_self]
    · intro k hk
      exact (hget k).trans (if_neg hk)
    · intro k hk
      exact update_of_ne hk _ _

theorem Inv.ibgp_of_held (hr : T.damped.get n = some r) : T.ibgp = false := by
  cases hib : T.ibgp with
  | false => rfl
  | true => exact absurd (hr.symm.trans (h.ibgp hib n)) (by simp)

/-- A net is damped: nothing is seen of it downstream. -/
theorem Inv.hold (hi : T.ibgp = false) (hm : net m.route = n)
    (hc : Coupled damp (T.damped.insert n ⟨m, true⟩) (T.dampCount + 1))
    (hout : follow names (fun m => net m.route) out
      = some (update (T.visible parent) n none)) : Inv names net
      { T with
        damp
        dampCount := T.dampCount + 1
        damped := T.damped.insert n ⟨m, true⟩
        out }
      (update parent n (some m)) := by
  refine h.put get_insert hc ?_ ?_ hi hout
  · rintro r hr
    rw [← some.inj hr]
  · intro m' hm'
    rw [← some.inj hm', hm]

section
variable (hr : T.damped.get n = some r)
include hr

section
variable {damped : PrefixMap w (DampRoute ρ)}
  (hget : ∀ k, damped.get k = if k = n then none else T.damped.get k)
include hget

/-- A net is no longer damped: what the parent holds for it is seen downstream. -/
theorem Inv.release (hv : ∀ m, v = some m → net m.route = n)
    (hc : Coupled damp damped (T.dampCount - 1))
    (hout : follow names (fun m => net m.route) out
      = some (update (T.visible parent) n v)) : Inv names net
      { T with damp, dampCount := T.dampCount - 1, damped, out } (update parent n v) := by
  exact h.put hget hc (fun r hn => by cases hn) hv (h.ibgp_of_held hr) hout

/-- A damped net is let go with a route of its own. -/
theorem Inv.letGo (hm : net m.route = n) (hd : d.damped = false) :
    Inv names net (send { T with
        damped
        damp := T.damp.insert n d
        dampCount := T.dampCount - 1 } (.add m)) (update parent n (some m)) := by
  subst hm
  have hout := follow_concat h.out (u := .add m) (visible_of_held hr)
  refine h.release hr hget ?_ (h.coupled.release hr hget hd) hout
  intro m' hm'
  rw [← some.inj hm']

end

/-- Another route for a damped net is held back too. -/
theorem Inv.swap (hm : net m.route = n) :
    Inv names net { T with damped := (T.damped.erase n).insert n ⟨m, true⟩ }
      (update parent n (some m)) := by
  refine h.put (Coupled.get_swap hr ⟨m, true⟩) (h.coupled.swap hr rfl) ?_ ?_ (h.ibgp_of_held hr) ?_
  · rintro r hr
    rw [← some.inj hr]
  · intro m' hm'
    rw [← some.inj hm', hm]
  · have hsame : update (T.visible parent) n none = T.visible parent :=
      update_eq_self_iff.mpr (visible_of_held hr).symm
    exact h.out.trans (congrArg some hsame.symm)

end

/-! ### The operations -/

theorem Inv.addRoute (hu : (add m).apply names (fun m => net m.route) parent = some parent') :
    ∃ T', T.addRoute net m = .ok T' ∧ Inv names net T' parent' := by
  obtain ⟨hfits, hparent⟩ := apply_eq_some.mp hu
  have hnone : parent (net m.route) = none := hfits
  have hn : T.damped.get (net m.route) = none := by
    by_contra hne
    obtain ⟨r, hr⟩ := ne_none_iff_exists'.mp hne
    exact absurd (hnone.symm.trans (h.route _ r hr)) (by simp)
  unfold DampingTable.addRoute
  by_cases hd : T.damping = true
  · by_cases hg : T.dampingGlobal = true
    · simp only [hd, hg, Bool.not_true, Bool.false_eq_true, if_false]
      cases he : T.damp.get (net m.route) with
      | none => exact ⟨_, rfl, h.pass hu hn (h.coupled.touch hn rfl)⟩
      | some d =>
        have hflag : d.damped = false := by
          rw [h.coupled.flag_eq he, hn]
          rfl
        obtain ⟨damp, ⟨hmerit, hc⟩ | ⟨hmerit, hc⟩⟩ := h.updateFigureOfMerit hn hflag m
        · simp only [hmerit, ok_bind]
          exact ⟨_, rfl, h.pass hu hn hc⟩
        · simp only [hmerit, ok_bind]
          refine ⟨_, rfl, ?_⟩
          rw [hparent]
          refine h.hold (ibgp_of_damping hd) rfl hc (h.out.trans (congrArg some ?_))
          refine (update_eq_self_iff.mpr ?_).symm
          rw [visible_of_none _ hn, hnone]
    · simp only [hd, hg, Bool.not_true, Bool.not_false, Bool.false_eq_true, if_false, if_true]
      exact ⟨_, rfl, h.pass hu hn h.coupled⟩
  · simp only [hd, Bool.not_false, if_true]
    exact ⟨_, rfl, h.pass hu hn h.coupled⟩

theorem Inv.replaceRoute {old new : RouteMsg ρ}
    (hu : (replace old new).apply names (fun m => net m.route) parent = some parent') :
    ∃ T', T.replaceRoute net old new = .ok T' ∧ Inv names net T' parent' := by
  obtain ⟨⟨hnet, hnames⟩, hparent⟩ := apply_eq_some.mp hu
  have hnet : net new.route = net old.route := hnet
  unfold DampingTable.replaceRoute
  rw [if_neg (not_not.mpr hnet.symm)]
  by_cases hd : T.damping = true
  · simp only [hd, Bool.not_true, Bool.false_eq_true, if_false]
    cases he : T.damp.get (net old.route) with
    | none => exact ⟨_, rfl, h.pass hu (h.none_of_no_entry he) h.coupled⟩
    | some d =>
      by_cases hflag : d.damped = true
      · obtain ⟨r, hr⟩ := h.some_of_flag he hflag
        simp only [hflag, hr, h.coupled.timer _ r hr, Bool.not_true, Bool.false_eq_true, if_false,
          if_true]
        rw [hparent]
        by_cases hg : T.dampingGlobal = true
        · rw [if_pos hg, hnet]
          exact ⟨_, rfl, h.swap hr hnet⟩
        · -- damping was switched off while the net was held
          rw [if_neg hg]
          exact ⟨_, rfl, h.letGo hr (get_erase hr) hnet rfl⟩
      · have hflag : d.damped = false := eq_false_of_ne_true hflag
        have hn := h.none_of_flag he hflag
        simp only [hflag, Bool.false_eq_true, if_false]
        obtain ⟨damp, ⟨hmerit, hc⟩ | ⟨hmerit, hc⟩⟩ := h.updateFigureOfMerit hn hflag new
        · simp only [hmerit, ok_bind]
          exact ⟨_, rfl, h.pass hu hn hc⟩
        · simp only [hmerit, ok_bind]
          refine ⟨_, rfl, ?_⟩
          rw [hparent]
          refine h.hold (ibgp_of_damping hd) hnet hc (follow_concat h.out (u := .delete old) ?_)
          change (T.visible parent (net old.route)).any (names old) = true
          rw [visible_of_none _ hn]
          exact hnames
  · simp only [hd, Bool.not_false, if_true]
    exact ⟨_, rfl, h.pass hu (h.none_damped (eq_false_of_ne_true hd)) h.coupled⟩

theorem Inv.deleteRoute (hu : (delete m).apply names (fun m => net m.route) parent = some parent') :
    ∃ T', T.deleteRoute net m = .ok T' ∧ Inv names net T' parent' := by
  obtain ⟨-, hparent⟩ := apply_eq_some.mp hu
  unfold DampingTable.deleteRoute
  by_cases hd : T.damping = true
  · simp only [hd, Bool.not_true, Bool.false_eq_true, if_false]
    cases he : T.damp.get (net m.route) with
    | none => exact ⟨_, rfl, h.pass hu (h.none_of_no_entry he) h.coupled⟩
    | some d =>
      by_cases hflag : d.damped = true
      · obtain ⟨r, hr⟩ := h.some_of_flag he hflag
        simp only [hflag, hr, if_true]
        rw [hparent]
        refine ⟨_, rfl, h.release hr (get_erase hr) ?_ (h.coupled.release hr (get_erase hr) rfl)
          (h.out.trans (congrArg some ?_))⟩
        · intro m' hm'
          simp [value] at hm'
        · exact (update_eq_self_iff.mpr (visible_of_held hr).symm).symm
      · simp only [hflag, Bool.false_eq_true, if_false]
        exact ⟨_, rfl, h.pass hu (h.none_of_flag he (eq_false_of_ne_true hflag)) h.coupled⟩
  · simp only [hd, Bool.not_false, if_true]
    exact ⟨_, rfl, h.pass hu (h.none_damped (eq_false_of_ne_true hd)) h.coupled⟩

/-- **An expiry lets the net go.**  In between its timer is not scheduled. -/
theorem Inv.undamp (hr : T.damped.get n = some r) :
    ∃ T', (T.expire n).undamp n = .ok T' ∧ Inv names net T' parent := by
  obtain ⟨d, he, hflag⟩ := (h.coupled.flag n).mp (by rw [hr]; rfl)
  have hnet : net r.msg.route = n := h.keyed n r.msg (h.route n r hr)
  have hparent : update parent n (some r.msg) = parent :=
    update_eq_self_iff.mpr (h.route n r hr).symm
  have hoff : (T.damped.insert n { r with timer := false }).get n = some { r with timer := false } := by
    rw [get_insert, if_pos rfl]
  have hget : ∀ k, ((T.damped.insert n { r with timer := false }).erase n).get k
      = if k = n then none else T.damped.get k := by
    intro k
    rw [get_erase hoff, get_insert]
    split_ifs <;> rfl
  unfold DampingTable.undamp DampingTable.expire
  simp only [hr, he, hflag, hoff, Bool.not_true, Bool.false_eq_true, if_false]
  exact ⟨_, rfl, hparent ▸ h.letGo hr hget hnet rfl⟩

end

/-- An operation that may happen can be carried out, and keeps the invariant. -/
theorem Inv.step (decayAt : BitVec 32 → Nat → BitVec 32) (h : Inv names net T parent) (op : Op w ρ)
    (hop : parentAfter names net T parent op = some parent') :
    ∃ T', T.step decayAt net op = .ok T' ∧ Inv names net T' parent' := by
  cases op with
  | update u =>
    cases u with
    | add m => exact h.addRoute hop
    | replace old new => exact h.replaceRoute hop
    | delete m => exact h.deleteRoute hop
  | undamp n =>
    obtain ⟨htimer, hparent⟩ := ite_none_right_eq_some.mp hop
    rw [← some.inj hparent]
    cases hr : T.damped.get n with
    | none => exact absurd (hr ▸ htimer) (by simp)
    | some r => exact h.undamp hr
  | tick =>
    rw [← some.inj hop]
    exact ⟨_, rfl, h.coupled, h.route, h.keyed, h.ibgp, h.ready, h.out⟩
  | configure halfLife maxSuppress reuse suppress disable =>
    rw [← some.inj hop]
    exact ⟨_, rfl, h.coupled, h.route, h.keyed, h.ibgp,
      h.ready.configure halfLife maxSuppress reuse suppress disable, h.out⟩

variable {decayAt : BitVec 32 → Nat → BitVec 32}

theorem Reach.inv (h : Reach decayAt names net T parent) : Inv names net T parent := by
  induction h with
  | empty ibgp reuse => exact .init ibgp reuse
  | step op _ hop hstep ih =>
    obtain ⟨T', hok, hinv⟩ := ih.step decayAt op hop
    cases hstep.symm.trans hok
    exact hinv

theorem Inv.lookupRoute (h : Inv names net T parent) (n : IPNet w) :
    T.lookupRoute parent n = T.visible parent n := by
  unfold DampingTable.lookupRoute isThisRouteDamped
  by_cases hd : T.damping = true
  · simp only [hd, Bool.not_true, Bool.false_eq_true, if_false]
    cases he : T.damp.get n with
    | none => rw [if_neg (by simp), visible_of_none _ (h.none_of_no_entry he)]
    | some d =>
      simp only [h.coupled.flag_eq he]
      rfl
  · simp only [hd, Bool.not_false, if_true]
    rw [visible_of_none _ (h.none_damped (eq_false_of_ne_true hd))]

/-- In every state that can be reached, a route is held exactly for the nets whose entry is
flagged, with a timer that is scheduled, the counter is their number, the stream to the next
table is well formed and gives it what the parent holds without these nets, and this is what
`lookup_route` answers; and whatever may happen next, no assertion fails. -/
theorem damping_hides_damped (h : Reach decayAt names net T parent) :
    (∀ n, (T.damped.get n).isSome ↔ ∃ d, T.damp.get n = some d ∧ d.damped = true) ∧
      (∀ n r, T.damped.get n = some r → r.timer = true) ∧
      T.dampCount = {n | ∃ d, T.damp.get n = some d ∧ d.damped = true}.ncard ∧
      follow names (fun m => net m.route) T.out = some (T.visible parent) ∧
      (∀ n, T.lookupRoute parent n = T.visible parent n) ∧
      ∀ op parent', parentAfter names net T parent op = some parent' →
        ∃ T', T.step decayAt net op = .ok T' := by
  have hinv := h.inv
  have hheld : held T.damped = {n | ∃ d, T.damp.get n = some d ∧ d.damped = true} :=
    ext hinv.coupled.flag
  refine ⟨hinv.coupled.flag, hinv.coupled.timer, ?_, hinv.out, hinv.lookupRoute, ?_⟩
  · rw [← hheld]
    exact hinv.coupled.count
  · intro op parent' hop
    obtain ⟨T', hok, -⟩ := hinv.step decayAt op hop
    exact ⟨T', hok⟩

/-- A route that is announced a second time, with a threshold it is over. -/
theorem damping_hides_damped_again :
    ∃ (T : DampingTable 32 (IPNet 32)) (parent : IPNet 32 → Option (RouteMsg (IPNet 32))),
      Reach (fun _ _ => 999) (fun _ _ => true) id T parent ∧ T.dampCount = 1 ∧
      follow (fun _ _ => true) (fun m => m.route) T.out = some (T.visible parent) ∧
      parent (IPNet.any 32) = some ⟨IPNet.any 32, 1⟩ ∧
      T.lookupRoute parent (IPNet.any 32) = T.visible parent (IPNet.any 32) := by
  have hempty : Reach (fun _ _ => 999) (fun _ _ => true) (id : IPNet 32 → IPNet 32)
      (.empty false 0) fun _ => none := .empty false 0
  have hreach := (((hempty.step (.configure 15 1 750 1 false) rfl rfl).step
    (.update (.add ⟨any 32, 1⟩)) rfl rfl).step
    (.update (.delete ⟨any 32, 1⟩)) rfl rfl).step
    (.update (.add ⟨any 32, 1⟩)) rfl rfl
  obtain ⟨-, -, -, hout, hlookup, -⟩ := damping_hides_damped hreach
  exact ⟨_, _, hreach, rfl, hout, rfl, hlookup _⟩

end

end DampingTable

end Xorp.Bgp

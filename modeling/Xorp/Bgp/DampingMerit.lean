/-
How large the figure of merit gets, and how long a route is held for it.

A figure of merit is multiplied with a decay below 1000, divided by 1000 and grows by 1000.  It
stays below a million that way, whatever the spacing of the changes, and no product in between
wraps around.  The time a damped route is held is another matter: it is computed from a quotient,
which says little about halvings where it is small, and the threshold it divides by may be above
the figure, or 0.
-/
import Xorp.Bgp.Damping
import Xorp.Lib.Outcome

namespace Xorp.Bgp

open Linked Stream PrefixMap BitVec

variable {decayAt : BitVec 32 → Nat → BitVec 32} {w : Nat} {ρ : Type}

/-! ### How large the figure of merit gets -/

namespace Damping

inductive Setter
  | halfLife (v : BitVec 32)
  | maxHoldDown (v : BitVec 32)
  | reuse (v : BitVec 32)
  | cutoff (v : BitVec 32)
  | damping (b : Bool)

def set (decayAt : BitVec 32 → Nat → BitVec 32) (d : Damping) : Setter → Damping
  | .halfLife v => d.setHalfLife decayAt v
  | .maxHoldDown v => d.setMaxHoldDown decayAt v
  | .reuse v => d.setReuse decayAt v
  | .cutoff v => d.setCutoff decayAt v
  | .damping b => d.setDamping decayAt b

/-- With damping on there is a decay for every time below the maximum, and it is less than 1. -/
def Decays (d : Damping) : Prop :=
  d.damping = true → d.decay.length = (d.maxHoldDown * 60).toNat ∧ ∀ x ∈ d.decay, x.toNat ≤ 999

variable {d : Damping} {m : BitVec 32}

theorem init_decays (hdecay : ∀ h i, (decayAt h i).toNat ≤ 999) : (init decayAt d).Decays := by
  intro hd
  rw [init_damping] at hd
  simp [init, hd, hdecay]

section
variable (h : d.Decays) (hd : d.damping = true) {time : BitVec 32} (hm : m.toNat ≤ 1000000)
include h hd hm

/-- The product of a figure of merit with a decay that is in the table. -/
theorem Decays.decay_at (hlt : d.tick - time < d.maxHoldDown * 60) :
    ∃ x, d.decay[(d.tick - time).toNat]? = some x ∧ m.toNat * x.toNat ≤ 999000000 := by
  obtain ⟨hlen, hle⟩ := h hd
  have hi : (d.tick - time).toNat < d.decay.length := hlen ▸ lt_def.mp hlt
  exact ⟨_, List.getElem?_eq_getElem hi, Nat.mul_le_mul hm (hle _ (List.getElem_mem hi))⟩

theorem Decays.computeMerit : Yields (fun _ => True) (fun m' : BitVec 32 => m'.toNat ≤ 1000000)
    (d.computeMerit time m) := by
  unfold Damping.computeMerit
  by_cases hmax : d.maxHoldDown * 60 ≤ d.tick - time
  · rw [if_pos hmax]
    simp [Yields, fixed]
  · obtain ⟨x, hx, hprod⟩ := h.decay_at hd hm (BitVec.not_le.mp hmax)
    have hmul : (m * x).toNat = m.toNat * x.toNat := by
      rw [toNat_mul, Nat.mod_eq_of_lt (by omega)]
    simp only [if_neg hmax, hx, Yields, toNat_add, toNat_udiv, hmul]
    simp [fixed]
    omega

end

end Damping

namespace DampingTable

variable {net : ρ → IPNet w} {T : DampingTable w ρ} {n : IPNet w} {d : Damp}

/-- The tables that any calls lead to, with the setters called in any order. -/
inductive Runs (decayAt : BitVec 32 → Nat → BitVec 32) (net : ρ → IPNet w) :
    DampingTable w ρ → Prop where
  | empty (ibgp : Bool) (reuse : BitVec 32) : Runs decayAt net (.empty ibgp reuse)
  | step {T T'} (op : Op w ρ) : Runs decayAt net T → T.step decayAt net op = .ok T' →
      Runs decayAt net T'
  | set {T : DampingTable w ρ} (s : Damping.Setter) : Runs decayAt net T →
      Runs decayAt net { T with params := T.params.set decayAt s }

def Tame (T : DampingTable w ρ) : Prop :=
  (∀ n d, T.damp.get n = some d → d.merit.toNat ≤ 1000000) ∧ T.params.Decays

section
variable (h : Tame T)
include h

theorem Tame.put (hd : d.merit.toNat ≤ 1000000) : Tame { T with damp := T.damp.insert n d } := by
  refine ⟨fun k e he => ?_, h.2⟩
  rw [get_insert] at he
  split_ifs at he
  · cases he
    exact hd
  · exact h.1 k e he

/-- An entry keeps its figure of merit when its flag changes. -/
theorem Tame.clear (hd : T.damp.get n = some d) :
    Tame { T with damp := T.damp.insert n { d with damped := false } } := h.put (h.1 n d hd)

theorem Tame.expire (n : IPNet w) : Tame (T.expire n) := by
  unfold DampingTable.expire
  split
  · exact h
  · exact h

theorem Tame.updateFigureOfMerit (hd : T.damp.get n = some d) (m : RouteMsg ρ) :
    Yields (fun _ => True) (fun x => Tame x.1) (T.updateFigureOfMerit n d m) := by
  unfold DampingTable.updateFigureOfMerit
  split_ifs with hon
  · refine (h.2.computeMerit hon (h.1 n d hd)).bind fun merit hle => ?_
    dsimp only
    split_ifs
    · refine Yields.bind (Q := fun _ => True) ?_ fun _ _ => h.put hle
      cases T.params.getReuseTime merit <;> trivial
    · exact h.put hle
  · exact h

theorem Tame.step (hdecay : ∀ h i, (decayAt h i).toNat ≤ 999) (op : Op w ρ) :
    Yields (fun _ => True) Tame (T.step decayAt net op) := by
  cases op with
  | update u =>
    cases u with
    | add m =>
      simp only [DampingTable.step, addRoute]
      split_ifs
      · exact h
      · exact h
      · split
        · exact h.put (by simp [Damping.fixed])
        · rename_i hd
          refine (h.updateFigureOfMerit hd m).bind fun x hx => ?_
          split_ifs <;> exact hx
    | replace old new =>
      simp only [DampingTable.step, replaceRoute]
      split
      · trivial
      · split
        · exact h
        · split
          · exact h
          · rename_i hd
            split
            · split
              · trivial
              · split_ifs
                · trivial
                · exact h
                · exact h.clear hd
            · refine (h.updateFigureOfMerit hd new).bind fun x hx => ?_
              split_ifs <;> exact hx
    | delete m =>
      simp only [DampingTable.step, deleteRoute]
      split
      · exact h
      · split
        · exact h
        · rename_i hd
          split
          · split
            · trivial
            · exact h.clear hd
          · exact h
  | undamp n =>
    simp only [DampingTable.step, undamp]
    split
    · trivial
    · rename_i hd
      split
      · trivial
      · split
        · trivial
        · exact (h.expire n).clear hd
  | tick => exact h
  | configure halfLife maxSuppress reuse suppress disable =>
    refine ⟨h.1, ?_⟩
    show (Damping.configure ..).Decays
    unfold Damping.configure
    split_ifs
    all_goals first | exact h.2 | exact Damping.init_decays hdecay

end

theorem Runs.tame (hdecay : ∀ h i, (decayAt h i).toNat ≤ 999) (h : Runs decayAt net T) :
    Tame T := by
  induction h with
  | empty ibgp reuse => exact ⟨nofun, nofun⟩
  | step op _ hstep ih =>
    have hyields : Yields _ _ (DampingTable.step decayAt net _ op) := ih.step hdecay op
    rwa [hstep] at hyields
  | set s _ ih => cases s <;> exact ⟨ih.1, Damping.init_decays hdecay⟩

/-- In every state the figures of merit are at most a million, and the next one is computed from a
decay that is in the table and a product that fits. -/
theorem merit_bounded (hdecay : ∀ h i, (decayAt h i).toNat ≤ 999) (h : Runs decayAt net T)
    (hd : T.damp.get n = some d) : d.merit.toNat ≤ 1000000 ∧ (T.params.damping = true →
      T.params.tick - d.time < T.params.maxHoldDown * 60 →
      ∃ x, T.params.decay[(T.params.tick - d.time).toNat]? = some x ∧
        d.merit.toNat * x.toNat < 2 ^ 32) := by
  obtain ⟨hs, hp⟩ := h.tame hdecay
  refine ⟨hs n d hd, fun hon hlt => ?_⟩
  obtain ⟨x, hx, hprod⟩ := hp.decay_at hon (hs n d hd) hlt
  exact ⟨x, hx, by omega⟩

/-- Two changes in a second. -/
theorem merit_bounded_twice : ∃ (T : DampingTable 32 (IPNet 32)) (d : Damp),
    Runs (fun _ _ => 999) id T ∧ T.damp.get (IPNet.any 32) = some d ∧ d.merit = 1999 ∧
      d.merit.toNat ≤ 1000000 := by
  have hempty : Runs (fun _ _ => 999) (id : IPNet 32 → IPNet 32) (.empty false 0) := .empty false 0
  have hruns := (((hempty.set (.maxHoldDown 1)).set (.damping true)).step
    (.update (.add ⟨IPNet.any 32, 1⟩)) rfl).step (.update (.add ⟨IPNet.any 32, 1⟩)) rfl
  exact ⟨_, _, hruns, rfl, rfl, (merit_bounded (n := IPNet.any 32) (fun _ _ => by decide) hruns rfl).1⟩

end DampingTable

/-! ### How long a route is held -/

namespace Damping

/-- What `get_reuse_time` computes before it looks at the maximum. -/
def dampTime (d : Damping) (m : BitVec 32) : BitVec 32 := (m / d.reuse - 1) * d.halfLife * 60

/-- What the time for a figure of merit has to be.  Nothing is divided by zero, no result wraps
around, no smaller figure has a longer time, and at the end, short of the maximum, the figure has
been halved often enough to be at the reuse threshold. -/
structure HeldAsLong (d : Damping) (m : BitVec 32) : Prop where
  divides : d.reuse ≠ 0
  less : (m / d.reuse - 1).toNat + 1 = (m / d.reuse).toNat
  lives : (d.dampTime m).toNat = (m / d.reuse - 1).toNat * d.halfLife.toNat * 60
  most : (d.maxHoldDown * 60).toNat = d.maxHoldDown.toNat * 60
  mono : ∀ m' t t', m' < m → d.getReuseTime m' = .ok t' → d.getReuseTime m = .ok t → t' ≤ t
  long : ∀ t, d.getReuseTime m = .ok t → t = d.maxHoldDown * 60 ∨
    ∃ k, k * (d.halfLife.toNat * 60) ≤ t.toNat ∧ m.toNat ≤ d.reuse.toNat * 2 ^ k

/-- The parameters and the figures for which this is so. -/
def Holdable (reuse halfLife maxHoldDown m : Nat) : Prop :=
  0 < reuse ∧ reuse ≤ m ∧ (m / reuse - 1) * halfLife * 60 < 2 ^ 32 ∧ maxHoldDown * 60 < 2 ^ 32 ∧
    (maxHoldDown * 60 ≤ (m / reuse - 1) * halfLife * 60 ∨
      (2 ^ 32 - 1) * halfLife * 60 % 2 ^ 32 ≤ (m / reuse - 1) * halfLife * 60 ∧
        (halfLife = 0 ∨ m = reuse ∨ m = 2 * reuse ∨ 3 * reuse ≤ m))

variable {d : Damping} {m t : BitVec 32}

theorem getReuseTime_ok (h : d.getReuseTime m = .ok t) :
    t.toNat = min (d.maxHoldDown * 60).toNat (d.dampTime m).toNat := by
  unfold getReuseTime at h
  split_ifs at h
  cases h
  show (if d.maxHoldDown * 60 < d.dampTime m then _ else d.dampTime m).toNat = _
  split_ifs with hlt
  · exact (Nat.min_eq_left (Nat.le_of_lt hlt)).symm
  · exact (Nat.min_eq_right (Nat.le_of_not_lt hlt)).symm

theorem toNat_dampTime : (d.dampTime m).toNat =
    (m / d.reuse - 1).toNat * d.halfLife.toNat * 60 % 2 ^ 32 := by
  rw [dampTime, toNat_mul, toNat_mul, Nat.mod_mul_mod]
  rfl

/-- Below the threshold the number of half-lives wraps around. -/
theorem lives_of_lt (h : m.toNat < d.reuse.toNat) : (m / d.reuse - 1).toNat = 2 ^ 32 - 1 := by
  have hq : m / d.reuse = 0 := eq_of_toNat_eq (Nat.div_eq_of_lt h)
  simp [hq]

theorem lives_of_le (h : d.reuse.toNat ≤ m.toNat) (hr : 0 < d.reuse.toNat) :
    (m / d.reuse - 1).toNat = m.toNat / d.reuse.toNat - 1 := by
  have hq : 0 < m.toNat / d.reuse.toNat := Nat.div_pos h hr
  have hlt : m.toNat / d.reuse.toNat < 2 ^ 32 := (m / d.reuse).isLt
  simp only [toNat_sub, toNat_udiv]
  simp
  omega

section
variable {r n k : Nat} (hr : 0 < r)
include hr

/-- From three times the threshold on, the halvings are enough. -/
theorem le_mul_two_pow (h : n = r ∨ n = 2 * r ∨ 3 * r ≤ n) : n ≤ r * 2 ^ (n / r - 1) := by
  rcases h with rfl | rfl | h
  · simp [Nat.div_self hr]
  · rw [Nat.mul_div_cancel _ hr]
    omega
  · have h3 : 3 ≤ n / r := (Nat.le_div_iff_mul_le hr).mpr h
    have hpow : n / r - 2 < 2 ^ (n / r - 2) := Nat.lt_two_pow_self
    have hsucc : 2 ^ (n / r - 1) = 2 * 2 ^ (n / r - 2) := by
      rw [show n / r - 1 = n / r - 2 + 1 by omega, Nat.pow_succ, Nat.mul_comm]
    calc n ≤ r * (n / r + 1) := Nat.le_of_lt (Nat.lt_mul_div_succ n hr)
      _ ≤ r * 2 ^ (n / r - 1) := Nat.mul_le_mul_left r (by omega)

/-- Below that, only for the threshold and its double. -/
theorem of_le_mul_two_pow (hle : r ≤ n) (hk : k ≤ n / r - 1) (h : n ≤ r * 2 ^ k) :
    n = r ∨ n = 2 * r ∨ 3 * r ≤ n := by
  have hpow := h.trans (Nat.mul_le_mul_left r (Nat.pow_le_pow_right Nat.two_pos hk))
  by_contra hno
  have hq : n / r < 3 := (Nat.div_lt_iff_lt_mul hr).mpr (by omega)
  have hpos := Nat.div_pos hle hr
  obtain hone | htwo : n / r = 1 ∨ n / r = 2 := by omega
  · rw [hone] at hpow
    omega
  · have hmul := Nat.mul_div_le n r
    rw [htwo] at hpow hmul
    omega

end

theorem reuse_pos : d.reuse ≠ 0 ↔ 0 < d.reuse.toNat := by
  rw [Nat.pos_iff_ne_zero, ne_eq, ne_eq, toNat_eq]
  rfl

theorem HeldAsLong.holdable (h : d.HeldAsLong m) :
    Holdable d.reuse.toNat d.halfLife.toNat d.maxHoldDown.toNat m.toNat := by
  have hr := reuse_pos.mp h.divides
  have hle : d.reuse.toNat ≤ m.toNat := by
    by_contra hlt
    have hless := h.less
    rw [lives_of_lt (Nat.lt_of_not_le hlt), toNat_udiv,
      Nat.div_eq_of_lt (Nat.lt_of_not_le hlt)] at hless
    cases hless
  have hlives := h.lives
  rw [lives_of_le hle hr] at hlives
  have hmost := h.most ▸ (d.maxHoldDown * 60).isLt
  refine ⟨hr, hle, hlives ▸ (d.dampTime m).isLt, hmost, ?_⟩
  rw [← hlives]
  by_cases hmax : d.maxHoldDown.toNat * 60 ≤ (d.dampTime m).toNat
  · exact .inl hmax
  · obtain ⟨t, ht⟩ : ∃ t, d.getReuseTime m = .ok t := ⟨_, if_neg h.divides⟩
    obtain ⟨t₀, ht₀⟩ : ∃ t, d.getReuseTime 0 = .ok t := ⟨_, if_neg h.divides⟩
    have htime := getReuseTime_ok ht
    have htime₀ := getReuseTime_ok ht₀
    rw [h.most] at htime htime₀
    rw [toNat_dampTime, lives_of_lt (m := 0) hr] at htime₀
    have hmono : t₀.toNat ≤ t.toNat := h.mono 0 t t₀ (Nat.lt_of_lt_of_le hr hle) ht₀ ht
    refine .inr ⟨by omega, ?_⟩
    rcases h.long t ht with heq | ⟨k, hk, hhalved⟩
    · rw [heq, h.most] at htime
      omega
    · by_cases hzero : d.halfLife.toNat = 0
      · exact .inl hzero
      · refine .inr (of_le_mul_two_pow hr hle ?_ hhalved)
        refine Nat.le_of_mul_le_mul_right (hk.trans ?_) (show 0 < d.halfLife.toNat * 60 by omega)
        rw [← Nat.mul_assoc, ← hlives]
        omega

theorem Holdable.heldAsLong
    (h : Holdable d.reuse.toNat d.halfLife.toNat d.maxHoldDown.toNat m.toNat) :
    d.HeldAsLong m := by
  obtain ⟨hr, hle, hD, hM, hcase⟩ := h
  have hlives := lives_of_le hle hr
  have hdamp : (d.dampTime m).toNat = (m.toNat / d.reuse.toNat - 1) * d.halfLife.toNat * 60 := by
    rw [toNat_dampTime, hlives, Nat.mod_eq_of_lt hD]
  have hmost : (d.maxHoldDown * 60).toNat = d.maxHoldDown.toNat * 60 :=
    (toNat_mul ..).trans (Nat.mod_eq_of_lt hM)
  refine ⟨reuse_pos.mpr hr, ?_, by rw [hdamp, hlives], hmost, fun m' t t' hlt ht' ht => ?_,
    fun t ht => ?_⟩
  · rw [hlives, toNat_udiv, Nat.sub_add_cancel (Nat.div_pos hle hr)]
  · show t'.toNat ≤ t.toNat
    rw [getReuseTime_ok ht', getReuseTime_ok ht, hmost, hdamp, toNat_dampTime]
    by_cases hm' : d.reuse.toNat ≤ m'.toNat
    · have hq := Nat.div_le_div_right (c := d.reuse.toNat) (Nat.le_of_lt hlt)
      rw [lives_of_le hm' hr]
      refine min_le_min_left _ ((Nat.mod_le _ _).trans ?_)
      exact Nat.mul_le_mul_right _ (Nat.mul_le_mul_right _ (Nat.sub_le_sub_right hq 1))
    · rw [lives_of_lt (Nat.lt_of_not_le hm')]
      omega
  · have htime := getReuseTime_ok ht
    rw [hmost, hdamp] at htime
    by_cases hmax : d.maxHoldDown.toNat * 60 ≤ (m.toNat / d.reuse.toNat - 1) * d.halfLife.toNat * 60
    · exact .inl (eq_of_toNat_eq (by omega))
    · obtain ⟨-, hzero | hm⟩ := hcase.resolve_left hmax
      · exact .inr ⟨m.toNat, by simp [hzero],
          (Nat.le_of_lt Nat.lt_two_pow_self).trans (Nat.le_mul_of_pos_left _ hr)⟩
      · exact .inr ⟨_, by rw [← Nat.mul_assoc]; omega, le_mul_two_pow hr hm⟩

/-- A damped route is held as long as its figure of merit calls for exactly with parameters and a
figure in this range. -/
theorem held_as_long_iff (d : Damping) (m : BitVec 32) : d.HeldAsLong m ↔
    Holdable d.reuse.toNat d.halfLife.toNat d.maxHoldDown.toNat m.toNat :=
  ⟨HeldAsLong.holdable, Holdable.heldAsLong⟩

/-- A threshold of 2000, and a fourth change that takes the figure to 3994: the route is damped for
no time at all. -/
theorem held_no_time : ∃ d, d = (((new 0).setMaxHoldDown (fun _ _ => 999) 1).setReuse
      (fun _ _ => 999) 2000).setDamping (fun _ _ => 999) true ∧ d.computeMerit 0 2997 = .ok 3994 ∧
    d.cutoff < 3994 ∧ d.getReuseTime 3994 = .ok 0 ∧ ¬ d.HeldAsLong 3994 := by
  refine ⟨_, rfl, rfl, by decide, rfl, fun h => ?_⟩
  rcases h.long 0 rfl with heq | ⟨k, hk, hhalved⟩
  · exact absurd heq (by decide)
  · obtain rfl : k = 0 := by
      change k * (15 * 60) ≤ 0 at hk
      omega
    exact absurd hhalved (by decide)

end Damping

end Xorp.Bgp

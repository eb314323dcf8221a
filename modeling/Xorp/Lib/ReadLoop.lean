/-
Loops that read.

A decoder walks over items of different lengths: each step takes one item at the cursor and moves
the cursor after it, until nothing is left.  Where the cursor comes to is only known by walking, so
what a loop needs of the buffer is said of the states that it reaches: the loop is safe if and only
if every step that it takes is.  That it comes to an end is a measure that every step decreases.
-/
import Xorp.Lib.Bytes

namespace Xorp.Bytes

variable {ε σ : Type}

/-- `while`, with a bound on the number of its steps. -/
def loop (more : σ → Bool) (step : σ → Read ε σ) : Nat → σ → Read ε σ
  | 0, s => if more s then .error .outOfFuel else .ok s
  | n + 1, s => if more s then step s >>= loop more step n else .ok s

/-- The states that a loop comes to. -/
inductive Reached (more : σ → Bool) (step : σ → Read ε σ) (s : σ) : σ → Prop
  | start : Reached more step s s
  | next {t u : σ} (h : Reached more step s t) (hmore : more t = true) (hstep : step t = .ok u) :
      Reached more step s u

section Loop

variable {more : σ → Bool} {step : σ → Read ε σ} {s s' t : σ} {n : Nat}

theorem Reached.head (hmore : more s = true) (hstep : step s = .ok s')
    (h : Reached more step s' t) : Reached more step s t := by
  induction h with
  | start => exact .next .start hmore hstep
  | next _ hm hs ih => exact .next ih hm hs

/-- The first state, or one that is reached from the second. -/
theorem Reached.cases_head (h : Reached more step s t) :
    t = s ∨ ∃ s', more s = true ∧ step s = .ok s' ∧ Reached more step s' t := by
  induction h with
  | start => exact Or.inl rfl
  | next _ hm hs ih =>
    rcases ih with rfl | ⟨s', hmore, hstep, hr⟩
    · exact Or.inr ⟨_, hm, hs, .start⟩
    · exact Or.inr ⟨s', hmore, hstep, .next hr hm hs⟩

/-- What every step keeps holds in every state. -/
theorem Reached.induct {P : σ → Prop} (h : Reached more step s t) (hs : P s)
    (hstep : ∀ u v, P u → more u = true → step u = .ok v → P v) : P t := by
  induction h with
  | start => exact hs
  | next _ hm hst ih => exact hstep _ _ ih hm hst

/-- A loop is safe when every step that it takes is. -/
theorem safe_loop (μ : σ → Nat)
    (hdec : ∀ u v, Reached more step s u → more u = true → step u = .ok v → μ v < μ u)
    (hn : μ s < n) :
    Safe (loop more step n s) ↔ ∀ t, Reached more step s t → more t = true → Safe (step t) := by
  induction n generalizing s with
  | zero => omega
  | succ n ih =>
    unfold loop
    by_cases hmore : more s = true
    · rw [if_pos hmore, safe_bind]
      have hrest : ∀ u, step s = .ok u → (Safe (loop more step n u) ↔
            ∀ t, Reached more step u t → more t = true → Safe (step t)) := fun u hu =>
        ih (fun v w hv => hdec v w (.head hmore hu hv)) (by
          have := hdec s u .start hmore hu
          omega)
      constructor
      · rintro ⟨hsafe, hall⟩ t ht htm
        rcases ht.cases_head with rfl | ⟨u, _, hu, hut⟩
        · exact hsafe
        · exact (hrest u hu).mp (hall u hu) t hut htm
      · intro h
        exact ⟨h s .start hmore, fun u hu =>
          (hrest u hu).mpr fun t ht => h t (.head hmore hu ht)⟩
    · rw [if_neg hmore]
      refine iff_of_true (safe_ok s) fun t ht htm => ?_
      rcases ht.cases_head with rfl | ⟨_, hm, _⟩
      · contradiction
      · contradiction

/-- A loop ends in a state that it reaches and from which it does not go on. -/
theorem ensures_loop (s : σ) :
    Ensures (loop more step n s) fun t => Reached more step s t ∧ more t = false := by
  induction n generalizing s with
  | zero =>
    unfold loop
    split
    · exact ensures_error _
    · rename_i h
      exact ensures_ok ⟨.start, eq_false_of_ne_true h⟩
  | succ n ih =>
    unfold loop
    split
    · rename_i hmore
      intro t ht
      cases hstep : step s with
      | error stop =>
        rw [hstep] at ht
        cases ht
      | ok u =>
        rw [hstep] at ht
        obtain ⟨hr, hend⟩ := ih u t ht
        exact ⟨.head hmore hstep hr, hend⟩
    · rename_i h
      exact ensures_ok ⟨.start, eq_false_of_ne_true h⟩

end Loop

end Xorp.Bytes

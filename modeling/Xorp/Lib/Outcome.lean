/-
Postconditions for computations that may stop.

`Yields F Q r` says of a computation that it returns a value with `Q`, or stops for a
reason that `F` accounts for.  With `F` false everywhere it says that the computation
returns.  The rule for `bind` chains the facts about the parts of a `do` block, so that
a proof about a function uses the specification of what it calls and not its body.
-/
import Xorp.Lib.Heap

namespace Linked

variable {ε α β : Type} {F : ε → Prop} {Q R : α → Prop}

def Yields (F : ε → Prop) (Q : α → Prop) : Except ε α → Prop
  | .ok a => Q a
  | .error e => F e

variable {r : Except ε α} {f : α → Except ε β}

namespace Yields

theorem of_ok {a : α} (hr : r = .ok a) (ha : Q a) : Yields F Q r := by
  rw [hr]
  exact ha

theorem mono (h : Yields F Q r) (hQ : ∀ a, Q a → R a) : Yields F R r := by
  cases r with
  | ok a => exact hQ a h
  | error e => exact h

theorem bind {S : β → Prop} (h : Yields F Q r) (hf : ∀ a, Q a → Yields F S (f a)) :
    Yields F S (r >>= f) := by
  cases r with
  | ok a => exact hf a h
  | error e => exact h

theorem ok_or (h : Yields F Q r) : (∃ a, r = .ok a ∧ Q a) ∨ ∃ e, r = .error e ∧ F e := by
  cases r with
  | ok a => exact Or.inl ⟨a, rfl, h⟩
  | error e => exact Or.inr ⟨e, rfl, h⟩

end Yields

/-- A chain that returned, taken apart. -/
theorem bind_eq_ok {b : β} : (r >>= f) = .ok b ↔ ∃ a, r = .ok a ∧ f a = .ok b := by
  cases r with
  | ok a => exact ⟨fun h => ⟨a, rfl, h⟩, fun ⟨a', ha, h⟩ => (Except.ok.inj ha) ▸ h⟩
  | error e => exact ⟨fun h => absurd h (by simp), fun ⟨a', ha, _⟩ => absurd ha (by simp)⟩

/-- A loop over a list returns if every turn does. -/
theorem mapM_ok {R : α → β → Prop} {l : List α} (h : ∀ a ∈ l, ∃ b, f a = .ok b ∧ R a b) :
    ∃ l', l.mapM f = .ok l' ∧ ∀ i : Nat, Option.Rel R l[i]? l'[i]? := by
  induction l with
  | nil => exact ⟨[], rfl, fun i => .none⟩
  | cons a l ih =>
    obtain ⟨b, hb, hR⟩ := h a List.mem_cons_self
    obtain ⟨l', hl', hall⟩ := ih fun c hc => h c (List.mem_cons_of_mem a hc)
    refine ⟨b :: l', ?_, fun i => ?_⟩
    · rw [List.mapM_cons, hb, hl']
      rfl
    · cases i with
      | zero => exact .some hR
      | succ i => exact hall i

end Linked

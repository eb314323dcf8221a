/-
Selection in rounds.

A list of candidates is narrowed down in rounds, and whoever is first in what is left at the end wins.
A round is a loop that keeps the best candidates, and may fail on one that it cannot judge.  No round
makes a candidate up, so the winner was one from the start.
-/
import Xorp.Lib.Outcome

namespace Rounds

open Linked List Except

variable {α ε : Type}

/-! ### The loop of a round -/

/-- The loop that keeps the best candidates: those kept so far share the value `test`, a
candidate with a worse value is dropped, and one with a better value takes the place of
those kept. -/
def scan {β : Type} (value : α → Except ε β) (prefer : β → β → Bool) :
    List α → β → List α → Except ε (List α)
  | kept, _, [] => .ok kept
  | kept, test, a :: rest => do
      let v ← value a
      if prefer test v then scan value prefer kept test rest
      else if prefer v test then scan value prefer [a] v rest
      else scan value prefer (kept ++ [a]) test rest

section
variable {β : Type} {value : α → Except ε β} {prefer : β → β → Bool} {kept rest l : List α} {test : β}

/-- What the loop keeps was there. -/
theorem subset_of_scan (h : scan value prefer kept test rest = .ok l) :
    l ⊆ kept ++ rest := by
  induction rest generalizing kept test with
  | nil =>
    rw [append_nil]
    exact ok.inj h ▸ List.Subset.refl _
  | cons c rest ih =>
    rw [scan] at h
    cases hc : value c with
    | error e =>
      rw [hc] at h
      cases h
    | ok x =>
      rw [hc, ok_bind] at h
      have hmid : kept ++ [c] ++ rest = kept ++ c :: rest := by
        rw [append_assoc, singleton_append]
      split_ifs at h
      · intro a ha
        rcases mem_append.mp (ih h ha) with hk | hr
        · exact mem_append_left _ hk
        · exact mem_append_right _ (mem_cons_of_mem c hr)
      · intro a ha
        exact mem_append_right _ (ih h ha)
      · rw [← hmid]
        exact ih h

end

/-! ### Sequences of rounds -/

/-- The rounds, as long as there is more than one candidate. -/
def decideBy (unreachable : ε) : List (List α → Except ε (List α)) → List α → Except ε α
  | _, [a] => .ok a
  | [], [] => .error unreachable
  | [], a :: _ => .ok a
  | R :: rounds, l => do decideBy unreachable rounds (← R l)

variable {rounds : List (List α → Except ε (List α))} {l : List α} {a : α}

/-- A candidate that wins was there, if no round makes one up. -/
theorem mem_of_decideBy {unreachable : ε}
    (hsub : ∀ R ∈ rounds, ∀ l l', R l = .ok l' → l' ⊆ l)
    (h : decideBy unreachable rounds l = .ok a) : a ∈ l := by
  induction rounds generalizing l with
  | nil =>
    match l with
    | [] => cases h
    | [b] => exact ok.inj h ▸ mem_cons_self
    | b :: c :: m => exact ok.inj h ▸ mem_cons_self
  | cons R rounds ih =>
    have hrest : ∀ S ∈ rounds, ∀ l l', S l = .ok l' → l' ⊆ l :=
      fun S hS => hsub S (mem_cons_of_mem R hS)
    have hround : (do decideBy unreachable rounds (← R l)) = .ok a → a ∈ l := by
      intro hdo
      obtain ⟨l', hl', hdec⟩ := bind_eq_ok.mp hdo
      exact hsub R mem_cons_self l l' hl' (ih hrest hdec)
    match l with
    | [] => exact hround h
    | [b] => exact ok.inj h ▸ mem_cons_self
    | b :: c :: m => exact hround h

end Rounds

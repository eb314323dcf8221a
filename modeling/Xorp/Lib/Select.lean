/-
Selecting by pairwise comparison.

A loop keeps the best element that it has seen and compares it with the next one.  The comparison may
fail.  When it never does on two elements of the list, and says which of the two is better, the loop
ends with the best element of the list, and so its result does not depend on the order of the list.
-/
import Xorp.Lib.Outcome

namespace Xorp.Select

open Linked List

variable {α ε : Type}

/-- One round of the loop. -/
def next (pick : α → α → Except ε α) (best : Option α) (a : α) : Except ε (Option α) :=
  match best with
  | none => .ok (some a)
  | some b => do
      let c ← pick b a
      .ok (some c)

def select (pick : α → α → Except ε α) (l : List α) : Except ε (Option α) :=
  l.foldlM (next pick) none

/-- The element that is better than all others, if there is any element. -/
def IsBest (better : α → α → Prop) (l : List α) : Option α → Prop
  | none => l = []
  | some r => r ∈ l ∧ ∀ s ∈ l, s ≠ r → better r s

variable {pick : α → α → Except ε α} {better : α → α → Prop} {l l' : List α}

theorem IsBest.perm {o : Option α} (h : IsBest better l o) (hperm : l.Perm l') :
    IsBest better l' o := by
  cases o with
  | none =>
    obtain rfl : l = [] := h
    exact hperm.nil_eq.symm
  | some r => exact ⟨hperm.mem_iff.mp h.1, fun s hs => h.2 s (hperm.mem_iff.mpr hs)⟩

/-- There is only one such element, when no two elements are better than each other. -/
theorem IsBest.unique (hasymm : ∀ a b, better a b → ¬ better b a) {o o' : Option α}
    (h : IsBest better l o) (h' : IsBest better l o') : o = o' := by
  cases o with
  | none =>
    obtain rfl : l = [] := h
    cases o' with
    | none => rfl
    | some r => cases h'.1
  | some r =>
    cases o' with
    | none =>
      obtain rfl : l = [] := h'
      cases h.1
    | some r' =>
      by_contra hne
      have hne' : r ≠ r' := fun heq => hne (by rw [heq])
      exact hasymm _ _ (h.2 r' h'.1 hne'.symm) (h'.2 r h.1 hne')

/-- What the comparison has to say about the elements of a list. -/
def Decides (pick : α → α → Except ε α) (better : α → α → Prop) (l : List α) : Prop :=
  ∀ a ∈ l, ∀ b ∈ l, a ≠ b →
    better a b ∧ pick a b = .ok a ∨ better b a ∧ pick a b = .ok b

section
variable (htrans : ∀ a b c, better a b → better b c → better a c)
include htrans

/-- The loop from a best element on: it is better than all that come later, or one of those is better
than it and takes its place. -/
theorem foldlM_next {r : α} (hdec : Decides pick better (r :: l)) (hnodup : (r :: l).Nodup) :
    ∃ r', l.foldlM (next pick) (some r) = .ok (some r') ∧ IsBest better (r :: l) (some r') := by
  induction l generalizing r with
  | nil => exact ⟨r, rfl, mem_singleton_self r, by simp⟩
  | cons a l ih =>
    have hne : r ≠ a := fun h => (nodup_cons.mp hnodup).1 (h ▸ mem_cons_self)
    have hr : r ∈ r :: a :: l := mem_cons_self
    have ha : a ∈ r :: a :: l := mem_cons_of_mem _ mem_cons_self
    -- whichever of the two stays, the other one is worse than the best of the rest
    have hstay : ∀ x y, (x = r ∧ y = a ∨ x = a ∧ y = r) → better x y → pick r a = .ok x →
        ∃ r', (a :: l).foldlM (next pick) (some r) = .ok (some r') ∧
          IsBest better (r :: a :: l) (some r') := by
      intro x y hxy hbetter hpick
      have hsub : ∀ s ∈ x :: l, s ∈ r :: a :: l := by
        rintro s hs
        rcases mem_cons.mp hs with rfl | hs
        · rcases hxy with ⟨rfl, -⟩ | ⟨rfl, -⟩
          · exact hr
          · exact ha
        · exact mem_cons_of_mem _ (mem_cons_of_mem _ hs)
      have hnodup' : (x :: l).Nodup := by
        obtain ⟨hrn, han⟩ := nodup_cons.mp hnodup
        obtain ⟨han, hl⟩ := nodup_cons.mp han
        rcases hxy with ⟨rfl, -⟩ | ⟨rfl, -⟩
        · exact nodup_cons.mpr ⟨fun h => hrn (mem_cons_of_mem _ h), hl⟩
        · exact nodup_cons.mpr ⟨han, hl⟩
      obtain ⟨r', hfold, hmem, hbest⟩ :=
        ih (fun b hb c hc => hdec b (hsub b hb) c (hsub c hc)) hnodup'
      refine ⟨r', ?_, hsub r' hmem, ?_⟩
      · exact bind_eq_ok.mpr ⟨some x, bind_eq_ok.mpr ⟨x, hpick, rfl⟩, hfold⟩
      · intro s hs hsr
        have hcases : s = y ∨ s ∈ x :: l := by
          rcases hxy with ⟨rfl, rfl⟩ | ⟨rfl, rfl⟩ <;> simp only [mem_cons] at hs ⊢ <;> tauto
        rcases hcases with rfl | hs
        · by_cases hx : r' = x
          · rw [hx]
            exact hbetter
          · exact htrans _ _ _ (hbest x mem_cons_self (Ne.symm hx)) hbetter
        · exact hbest s hs hsr
    rcases hdec r hr a ha hne with ⟨hbetter, hpick⟩ | ⟨hbetter, hpick⟩
    · exact hstay r a (.inl ⟨rfl, rfl⟩) hbetter hpick
    · exact hstay a r (.inr ⟨rfl, rfl⟩) hbetter hpick

theorem select_isBest (hdec : Decides pick better l) (hnodup : l.Nodup) :
    ∃ o, select pick l = .ok o ∧ IsBest better l o := by
  cases l with
  | nil => exact ⟨none, rfl, rfl⟩
  | cons a l =>
    obtain ⟨r, hfold, hbest⟩ := foldlM_next htrans hdec hnodup
    exact ⟨some r, hfold, hbest⟩

end

/-- The first comparison is that of the first two elements. -/
theorem select_cons_cons_error {a b : α} {why : ε} (h : pick a b = .error why) :
    select pick (a :: b :: l) = .error why := by
  show (do let o ← next pick (some a) b
           l.foldlM (next pick) o) = .error why
  have hnext : next pick (some a) b = .error why := by
    unfold next
    dsimp only
    rw [h]
    rfl
  rw [hnext]
  rfl

end Xorp.Select

/-
Tables in front of tables.

A lookup goes through a row of tables until one of them answers.  If no key is in two of
them, it does not matter in which order they are asked, and an entry that leaves or enters
one of them is an entry that leaves or enters the whole.
-/
import Mathlib.Data.List.Pairwise

namespace Layers

open Function List Option

variable {κ μ : Type}

/-- The last table is asked first. -/
def find (ls : List (κ → Option μ)) (k : κ) : Option μ :=
  ls.foldl (fun below l => (l k).or below) none

/-- No key is in two of the tables. -/
def Disjoint (ls : List (κ → Option μ)) : Prop :=
  ls.Pairwise fun f g => ∀ k, f k = none ∨ g k = none

variable {ls pre post : List (κ → Option μ)} {l l' : κ → Option μ} {k : κ} {m : μ}

theorem foldl_eq_some (h : Disjoint ls) (below : Option μ) :
    ls.foldl (fun below l => (l k).or below) below = some m ↔
      (∃ l ∈ ls, l k = some m) ∨ (∀ l ∈ ls, l k = none) ∧ below = some m := by
  induction ls generalizing below with
  | nil => simp
  | cons l ls ih =>
    obtain ⟨hl, hls⟩ := pairwise_cons.mp h
    rw [foldl_cons, ih hls]
    cases hlk : l k with
    | none => simp [hlk]
    | some m' =>
      -- the others have no entry for the key
      have hnone : ∀ g ∈ ls, g k = none := fun g hg =>
        (hl g hg k).resolve_left (by simp [hlk])
      have hno : ¬ ∃ g ∈ ls, g k = some m := by
        rintro ⟨g, hg, hgk⟩
        exact some_ne_none m (hgk.symm.trans (hnone g hg))
      simpa [hlk, hno] using fun _ => hnone

theorem find_eq_some (h : Disjoint ls) : find ls k = some m ↔ ∃ l ∈ ls, l k = some m := by
  rw [find, foldl_eq_some h]
  simp

theorem find_eq_none (h : Disjoint ls) : find ls k = none ↔ ∀ l ∈ ls, l k = none := by
  rw [eq_none_iff_forall_ne_some]
  constructor
  · intro hnone l hl
    rw [eq_none_iff_forall_ne_some]
    intro m hm
    exact hnone m ((find_eq_some h).mpr ⟨l, hl, hm⟩)
  · intro hnone m hm
    obtain ⟨l, hl, hlm⟩ := (find_eq_some h).mp hm
    exact some_ne_none m (hlm.symm.trans (hnone l hl))

section
variable (h : Disjoint (pre ++ l :: post))
include h

/-- The other tables have no entry for a key of this one. -/
theorem Disjoint.others (hl : l k = some m) : ∀ g ∈ pre ++ post, g k = none := by
  obtain ⟨hpre, hpost, hcross⟩ := pairwise_append.mp h
  refine forall_mem_append.mpr ⟨fun g hg => ?_, fun g hg => ?_⟩
  · exact (hcross g hg l mem_cons_self k).resolve_right (by simp [hl])
  · exact ((pairwise_cons.mp hpost).1 g hg k).resolve_left (by simp [hl])

theorem Disjoint.shrink (hsub : ∀ k, l' k = none ∨ l' k = l k) : Disjoint (pre ++ l' :: post) := by
  obtain ⟨hpre, hpost, hcross⟩ := pairwise_append.mp h
  obtain ⟨hl, hpost⟩ := pairwise_cons.mp hpost
  have hnone : ∀ k, l k = none → l' k = none := fun k hk => (hsub k).elim id (·.trans hk)
  refine pairwise_append.mpr ⟨hpre, pairwise_cons.mpr ⟨?_, hpost⟩, ?_⟩
  · intro g hg k
    exact (hl g hg k).imp (hnone k) id
  · intro f hf g hg k
    rcases mem_cons.mp hg with rfl | hg
    · exact (hcross f hf l mem_cons_self k).imp id (hnone k)
    · exact hcross f hf g (mem_cons_of_mem l hg) k

theorem Disjoint.remove : Disjoint (pre ++ post) :=
  h.sublist (List.Sublist.append_left (sublist_cons_self l post) pre)

/-- An empty table has no say. -/
theorem find_remove (hl : ∀ k, l k = none) : find (pre ++ post) = find (pre ++ l :: post) := by
  funext k
  apply ext
  intro m
  rw [find_eq_some h, find_eq_some h.remove]
  simp [or_and_right, exists_or, hl]

end

section
variable [DecidableEq κ]

theorem Disjoint.take (h : Disjoint (pre ++ l :: post)) (k : κ) :
    Disjoint (pre ++ update l k none :: post) := by
  refine h.shrink fun k' => ?_
  by_cases hk : k' = k
  · exact Or.inl (hk ▸ update_self ..)
  · exact Or.inr (update_of_ne hk ..)

theorem find_take (h : Disjoint (pre ++ l :: post)) (hl : l k = some m) :
    find (pre ++ update l k none :: post) = update (find (pre ++ l :: post)) k none := by
  funext k'
  by_cases hk : k' = k
  · rw [hk, update_self, find_eq_none (h.take k)]
    refine forall_mem_append.mpr ⟨fun g hg => ?_, forall_mem_cons.mpr ⟨update_self .., fun g hg => ?_⟩⟩
    · exact h.others hl g (mem_append_left post hg)
    · exact h.others hl g (mem_append_right pre hg)
  · rw [update_of_ne hk]
    apply ext
    intro m'
    rw [find_eq_some h, find_eq_some (h.take k)]
    simp [or_and_right, exists_or, update_of_ne hk]

section
variable (h : Disjoint (l :: post)) (hk : ∀ g ∈ post, g k = none) (m : μ)
include h hk

theorem Disjoint.put : Disjoint (update l k (some m) :: post) := by
  obtain ⟨hl, hpost⟩ := pairwise_cons.mp h
  refine pairwise_cons.mpr ⟨?_, hpost⟩
  intro g hg k'
  by_cases hk' : k' = k
  · exact Or.inr (hk' ▸ hk g hg)
  · rw [update_of_ne hk']
    exact hl g hg k'

theorem find_put : find (update l k (some m) :: post) = update (find (l :: post)) k (some m) := by
  funext k'
  by_cases hk' : k' = k
  · rw [hk', update_self, find_eq_some (h.put hk m)]
    exact ⟨_, mem_cons_self, update_self ..⟩
  · rw [update_of_ne hk']
    apply ext
    intro m'
    rw [find_eq_some h, find_eq_some (h.put hk m)]
    simp [update_of_ne hk']

end

end

end Layers

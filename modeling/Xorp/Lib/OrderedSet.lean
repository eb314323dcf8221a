/-
Ordered sets as sorted lists.

An ordered container with bidirectional iterators, as a list in the order of a rank.  What
is needed of an iterator is where it goes: the element after `x` is the one whose lower
elements are those up to `x`, and the element before `x` the one up to which the elements
lower than `x` reach.
-/
import Mathlib.Data.List.Pairwise
import Mathlib.Order.Lattice

namespace OrderedSet

open List OrderedSet

variable {α β : Type} [LinearOrder β] {rank : α → β}

def Sorted (rank : α → β) (l : List α) : Prop := l.Pairwise fun a b => rank a < rank b

def insert (rank : α → β) (x : α) : List α → List α
  | [] => [x]
  | a :: l =>
      if rank x < rank a then x :: a :: l
      else if rank a < rank x then a :: insert rank x l
      else a :: l

def erase [DecidableEq α] (x : α) (l : List α) : List α := l.filter (· ≠ x)

/-- The element after `x`, or the end. -/
def next [DecidableEq α] (x : α) : List α → Option α
  | [] => none
  | a :: l => if a = x then l.head? else next x l

/-- The element before `x`, or the end if `x` is the first one. -/
def prev [DecidableEq α] (x : α) : List α → Option α
  | a :: b :: l => if b = x then some a else prev x (b :: l)
  | _ => none

variable {l : List α} {b x y : α}

/-- Nothing else may have the rank of the new element. -/
theorem mem_insert (hx : ∀ b ∈ l, rank b = rank x → b = x) :
    b ∈ insert rank x l ↔ b = x ∨ b ∈ l := by
  induction l with
  | nil => simp [insert]
  | cons a l ih =>
    simp only [insert]
    split_ifs with hlt hgt
    · simp
    · rw [mem_cons, ih fun b hb => hx b (mem_cons_of_mem _ hb), mem_cons]
      exact or_left_comm
    · obtain rfl : a = x := hx a mem_cons_self (le_antisymm (not_lt.mp hlt) (not_lt.mp hgt))
      simp

/-- What is there stays, whatever the rank is. -/
theorem mem_insert_of_mem (hb : b ∈ l) : b ∈ insert rank x l := by
  induction l with
  | nil => cases hb
  | cons a l ih =>
    simp only [insert]
    split_ifs
    · exact mem_cons_of_mem _ hb
    · rcases mem_cons.mp hb with rfl | hb
      · exact mem_cons_self
      · exact mem_cons_of_mem _ (ih hb)
    · exact hb

theorem Sorted.insert (hinj : Function.Injective rank) (h : Sorted rank l) (x : α) :
    Sorted rank (OrderedSet.insert rank x l) := by
  induction l with
  | nil => simp [OrderedSet.insert, Sorted]
  | cons a l ih =>
    obtain ⟨ha, hl⟩ := pairwise_cons.mp h
    simp only [OrderedSet.insert]
    split_ifs with hlt hgt
    · refine pairwise_cons.mpr ⟨forall_mem_cons.mpr ⟨hlt, fun b hb => ?_⟩, h⟩
      exact hlt.trans (ha b hb)
    · refine pairwise_cons.mpr ⟨fun b hb => ?_, ih hl⟩
      rcases (mem_insert fun _ _ h => hinj h).mp hb with rfl | hb
      · exact hgt
      · exact ha b hb
    · exact h

/-- An element that is there already stays where it is. -/
theorem Sorted.insert_of_mem (h : Sorted rank l) (hx : x ∈ l) : OrderedSet.insert rank x l = l := by
  induction l with
  | nil => cases hx
  | cons a l ih =>
    obtain ⟨ha, hl⟩ := pairwise_cons.mp h
    simp only [OrderedSet.insert]
    rcases mem_cons.mp hx with rfl | hx
    · rw [if_neg (lt_irrefl _), if_neg (lt_irrefl _)]
    · rw [if_neg (lt_asymm (ha x hx)), if_pos (ha x hx), ih hl hx]

/-- Nothing is below the first element. -/
theorem Sorted.le_of_head? (h : Sorted rank l) (hy : l.head? = some y) :
    y ∈ l ∧ ∀ b ∈ l, rank y ≤ rank b := by
  cases l with
  | nil => simp at hy
  | cons a l =>
    obtain rfl : a = y := by simpa using hy
    refine ⟨mem_cons_self, forall_mem_cons.mpr ⟨le_rfl, fun b hb => ?_⟩⟩
    exact ((pairwise_cons.mp h).1 b hb).le

section
variable [DecidableEq α]

theorem mem_erase : b ∈ erase x l ↔ b ∈ l ∧ b ≠ x := by
  simp [erase, mem_filter]

theorem Sorted.erase (h : Sorted rank l) (x : α) : Sorted rank (erase x l) :=
  List.Pairwise.filter _ h

/-- Without the first element the list is its tail, -/
theorem Sorted.erase_head (h : Sorted rank (x :: l)) : OrderedSet.erase x (x :: l) = l := by
  have hx : ∀ b ∈ l, b ≠ x := by
    rintro b hb rfl
    exact lt_irrefl _ ((pairwise_cons.mp h).1 b hb)
  rw [OrderedSet.erase, filter_cons_of_neg (by simp)]
  exact filter_eq_self.mpr fun b hb => decide_eq_true (hx b hb)

/-- and without another one its first element stays. -/
theorem head?_erase_of_ne {a : α} (h : a ≠ x) : (erase x (a :: l)).head? = some a := by
  rw [erase, filter_cons_of_pos (by simpa using h)]
  rfl

/-- **The element after `x`**: what is lower than it is what reaches up to `x`. -/
theorem Sorted.next_some (h : Sorted rank l) (hx : x ∈ l) (hy : next x l = some y) :
    y ∈ l ∧ ∀ b ∈ l, rank b < rank y ↔ rank b ≤ rank x := by
  induction l with
  | nil => simp at hx
  | cons a l ih =>
    obtain ⟨ha, hl⟩ := pairwise_cons.mp h
    rw [next] at hy
    split_ifs at hy with hax
    · subst hax
      obtain ⟨hmem, hle⟩ := Sorted.le_of_head? hl hy
      refine ⟨mem_cons_of_mem _ hmem, forall_mem_cons.mpr ⟨?_, fun b hb => ?_⟩⟩
      · exact iff_of_true (ha y hmem) le_rfl
      · exact iff_of_false (not_lt.mpr (hle b hb)) (not_le.mpr (ha b hb))
    · have hxl : x ∈ l := (mem_cons.mp hx).resolve_left fun hc => hax hc.symm
      obtain ⟨hmem, hle⟩ := ih hl hxl hy
      refine ⟨mem_cons_of_mem _ hmem, forall_mem_cons.mpr ⟨?_, hle⟩⟩
      exact iff_of_true (ha y hmem) (ha x hxl).le

theorem Sorted.next_none (h : Sorted rank l) (hx : x ∈ l) (hn : next x l = none) :
    ∀ b ∈ l, rank b ≤ rank x := by
  induction l with
  | nil => simp at hx
  | cons a l ih =>
    obtain ⟨ha, hl⟩ := pairwise_cons.mp h
    rw [next] at hn
    split_ifs at hn with hax
    · subst hax
      rw [List.head?_eq_none_iff.mp hn, forall_mem_singleton]
    · have hxl : x ∈ l := (mem_cons.mp hx).resolve_left fun hc => hax hc.symm
      exact forall_mem_cons.mpr ⟨(ha x hxl).le, ih hl hxl hn⟩

theorem mem_of_prev (hy : prev x l = some y) : x ∈ l := by
  induction l with
  | nil => simp [prev] at hy
  | cons a l ih =>
    cases l with
    | nil => simp [prev] at hy
    | cons c l =>
      rw [prev] at hy
      split_ifs at hy with hcx
      · exact hcx ▸ mem_cons_of_mem _ mem_cons_self
      · exact mem_cons_of_mem _ (ih hy)

/-- **The element before `x`**: what is lower than `x` reaches up to it. -/
theorem Sorted.prev_some (h : Sorted rank l) (hy : prev x l = some y) :
    y ∈ l ∧ ∀ b ∈ l, rank b ≤ rank y ↔ rank b < rank x := by
  induction l with
  | nil => simp [prev] at hy
  | cons a l ih =>
    obtain ⟨ha, hl⟩ := pairwise_cons.mp h
    cases l with
    | nil => simp [prev] at hy
    | cons c l =>
      rw [prev] at hy
      split_ifs at hy with hcx
      · obtain rfl : a = y := Option.some.inj hy
        subst hcx
        refine ⟨mem_cons_self, forall_mem_cons.mpr ⟨?_, fun b hb => ?_⟩⟩
        · exact iff_of_true le_rfl (ha c mem_cons_self)
        · obtain ⟨-, hle⟩ := Sorted.le_of_head? hl rfl
          exact iff_of_false (not_le.mpr (ha b hb)) (not_lt.mpr (hle b hb))
      · obtain ⟨hmem, hle⟩ := ih hl hy
        refine ⟨mem_cons_of_mem _ hmem, forall_mem_cons.mpr ⟨?_, hle⟩⟩
        exact iff_of_true (ha y hmem).le (ha x (mem_of_prev hy))

theorem Sorted.prev_none (h : Sorted rank l) (hx : x ∈ l) (hn : prev x l = none) :
    ∀ b ∈ l, rank x ≤ rank b := by
  induction l with
  | nil => simp at hx
  | cons a l ih =>
    obtain ⟨ha, hl⟩ := pairwise_cons.mp h
    rcases mem_cons.mp hx with rfl | hxl
    · exact (Sorted.le_of_head? h rfl).2
    · -- then something stands before `x`
      exfalso
      cases l with
      | nil => simp at hxl
      | cons c l =>
        rw [prev] at hn
        split_ifs at hn with hcx
        have hle := ih hl hxl hn c mem_cons_self
        rcases mem_cons.mp hxl with rfl | hxl
        · exact hcx rfl
        · exact absurd ((pairwise_cons.mp hl).1 x hxl) (not_lt.mpr hle)

end

end OrderedSet

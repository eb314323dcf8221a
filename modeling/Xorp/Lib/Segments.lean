/-
A log in segments.

The entries of a log are kept in named segments, and new entries go to the last one.  A position is a
segment and an index into it; what is unread from there is the rest of the segment and all segments
after it.  Segments that a position has still to pass must not be empty, except the last: a reader
that comes to the end of its segment looks into the next one only, and would take an empty segment
there for the end of the log.  `Reads` says this of a position, and the lemmas say what becomes of it
when the log grows at the end, is cut at the front, and when the position moves.
-/
import Mathlib.Data.List.Nodup

namespace Segments

open List

variable {U : Type} {L : List (Nat × List U)} {k pos : Nat} {us : List U}

/-- From index `pos` of segment `k` the entries `us` are unread. -/
inductive Reads (L : List (Nat × List U)) : Nat → Nat → List U → Prop
  | mk {k pos : Nat} (pre : List (Nat × List U)) (seg : List U) (post : List (Nat × List U))
      (hL : L = pre ++ (k, seg) :: post) (hpos : pos ≤ seg.length)
      (hne : ∀ s ∈ ((k, seg) :: post).dropLast, s.2 ≠ []) :
      Reads L k pos (seg.drop pos ++ post.flatMap Prod.snd)

/-- The names of the segments. -/
def names (L : List (Nat × List U)) : List Nat := L.map Prod.fst

variable {init : List (Nat × List U)} {s : Nat × List U} {seg' : List U} {k' : Nat}

/-- A name stands for one place of the log. -/
theorem split_unique {pre pre' post post' : List (Nat × List U)} {seg : List U}
    (hnames : (names L).Nodup) (h : L = pre ++ (k, seg) :: post)
    (h' : L = pre' ++ (k, seg') :: post') : seg = seg' ∧ post = post' := by
  induction pre generalizing L pre' with
  | nil =>
    cases pre' with
    | nil =>
      rw [h] at h'
      simp only [nil_append, cons.injEq, Prod.mk.injEq, true_and] at h'
      exact h'
    | cons s pre' =>
      -- the name would stand at the head and once more behind it
      exfalso
      rw [h] at h' hnames
      simp only [nil_append, cons_append, cons.injEq] at h'
      obtain ⟨rfl, hpost⟩ := h'
      simp [names, hpost] at hnames
  | cons s pre ih =>
    cases pre' with
    | nil =>
      exfalso
      rw [h'] at h hnames
      simp only [nil_append, cons_append, cons.injEq] at h
      obtain ⟨rfl, hpost⟩ := h
      simp [names, hpost] at hnames
    | cons s' pre' =>
      rw [h] at h' hnames
      simp only [cons_append, cons.injEq] at h'
      refine ih ?_ rfl h'.2
      exact (nodup_cons.mp hnames).2

/-- The segment of a position, and what is unread in it. -/
theorem Reads.seg {seg : List U} (h : Reads L k pos us) (hnames : (names L).Nodup)
    (hseg : (k, seg) ∈ L) : pos ≤ seg.length ∧ ∃ rest, us = seg.drop pos ++ rest := by
  obtain ⟨pre, seg', post, hL, hpos, -⟩ := h
  obtain ⟨pre', post', hL'⟩ := append_of_mem hseg
  obtain ⟨rfl, -⟩ := split_unique hnames hL hL'
  exact ⟨hpos, _, rfl⟩

variable {seg : List U}

/-- A position has one rest. -/
theorem Reads.unique {us' : List U} (h : Reads L k pos us) (hnames : (names L).Nodup)
    (h' : Reads L k pos us') : us = us' := by
  obtain ⟨pre, seg, post, hL, -, -⟩ := h
  obtain ⟨pre', seg', post', hL', -, -⟩ := h'
  obtain ⟨rfl, rfl⟩ := split_unique hnames hL hL'
  rfl

theorem Reads.mem (h : Reads L k pos us) : ∃ seg, (k, seg) ∈ L := by
  obtain ⟨pre, seg, post, rfl, -, -⟩ := h
  exact ⟨seg, by simp⟩

theorem Reads.atEnd (init : List (Nat × List U)) (seg : List U) :
    Reads (init ++ [(k, seg)]) k seg.length [] := by
  have h : Reads (init ++ [(k, seg)]) k seg.length _ :=
    .mk init seg [] rfl (Nat.le_refl _) (by simp)
  simpa using h

theorem Reads.tail (h : Reads (s :: L) k pos us) (hs : s.1 ≠ k) : Reads L k pos us := by
  obtain ⟨pre, seg, post, hL, hpos, hne⟩ := h
  cases pre with
  | nil =>
    simp only [nil_append, cons.injEq] at hL
    exact absurd (by rw [hL.1]) hs
  | cons s' pre =>
    simp only [cons_append, cons.injEq] at hL
    exact .mk pre seg post hL.2 hpos hne

/-- A new segment at the end of a log whose last segment is not empty. -/
theorem Reads.concat {last : Nat × List U} (h : Reads (init ++ [last]) k pos us)
    (hlast : last.2 ≠ []) : Reads (init ++ [last] ++ [(k', [])]) k pos us := by
  obtain ⟨pre, seg, post, hL, hpos, hne⟩ := h
  have hnew : Reads (init ++ [last] ++ [(k', [])]) k pos _ :=
    .mk pre seg (post ++ [(k', [])]) (by rw [hL]; simp) hpos ?_
  · simpa using hnew
  · intro s hs
    rw [← cons_append, dropLast_concat] at hs
    -- the segments that were before the last one, and the one that was the last
    rcases eq_nil_or_concat' ((k, seg) :: post) with hnil | ⟨l, s', hl⟩
    · cases hnil
    · rw [hl] at hs hne
      rw [dropLast_concat] at hne
      rcases mem_append.mp hs with hs | hs
      · exact hne s hs
      · have hend : init ++ [last] = pre ++ l ++ [s'] := by rw [hL, hl, append_assoc]
        have heq : last = s' := by
          have := (append_inj' hend rfl).2
          simpa using this
        rw [mem_singleton.mp hs, ← heq]
        exact hlast

/-- An entry at the end is unread from everywhere. -/
theorem Reads.push {u : U} (h : Reads (init ++ [(k', seg')]) k pos us) :
    Reads (init ++ [(k', seg' ++ [u])]) k pos (us ++ [u]) := by
  obtain ⟨pre, seg, post, hL, hpos, hne⟩ := h
  rcases eq_nil_or_concat' post with rfl | ⟨post, last, rfl⟩
  · -- the position is in the last segment
    obtain ⟨rfl, hlast⟩ := append_inj' hL rfl
    simp only [cons.injEq, Prod.mk.injEq, and_true] at hlast
    obtain ⟨rfl, rfl⟩ := hlast
    have hnew : Reads (init ++ [(k', seg' ++ [u])]) k' pos _ :=
      .mk init (seg' ++ [u]) [] rfl (by simp; omega) (by simp)
    rw [drop_append_of_le_length hpos] at hnew
    simpa using hnew
  · have hsplit : init ++ [(k', seg')] = (pre ++ (k, seg) :: post) ++ [last] := by rw [hL]; simp
    obtain ⟨rfl, hlast⟩ := append_inj' hsplit rfl
    obtain rfl : (k', seg') = last := by simpa using hlast
    have hnew : Reads (pre ++ (k, seg) :: post ++ [(k', seg' ++ [u])]) k pos _ :=
      .mk pre seg (post ++ [(k', seg' ++ [u])]) (by simp) hpos ?_
    · simpa using hnew
    · rw [← cons_append, dropLast_concat] at hne ⊢
      exact hne

theorem Reads.succ (h : Reads L k pos us) (hnames : (names L).Nodup)
    (hseg : (k, seg) ∈ L) (hpos : pos < seg.length) : Reads L k (pos + 1) us.tail := by
  obtain ⟨pre, seg', post, hL, -, hne⟩ := h
  obtain ⟨pre', post', hL'⟩ := append_of_mem hseg
  obtain ⟨rfl, -⟩ := split_unique hnames hL hL'
  have hnew : Reads L k (pos + 1) _ := .mk pre seg' post hL hpos hne
  rw [drop_eq_getElem_cons hpos]
  exact hnew

/-- From the end of a segment to the beginning of the next. -/
theorem Reads.next {pre post : List (Nat × List U)} (h : Reads L k seg.length us)
    (hnames : (names L).Nodup) (hL : L = pre ++ (k, seg) :: (k', seg') :: post) :
    Reads L k' 0 us := by
  obtain ⟨pre₀, seg₀, post₀, hL₀, -, hne⟩ := h
  obtain ⟨rfl, rfl⟩ := split_unique hnames hL₀ hL
  have hnew : Reads L k' 0 _ :=
    .mk (pre ++ [(k, seg₀)]) seg' post (by rw [hL]; simp) (Nat.zero_le _)
      fun s hs => hne s (by simp [hs])
  simpa using hnew

/-- What is unread when there is nothing left in the last segment, and when the segment is passed. -/
theorem Reads.eq_nil_of_last (h : Reads (init ++ [(k, seg)]) k seg.length us)
    (hnames : (names (init ++ [(k, seg)])).Nodup) : us = [] := by
  obtain ⟨pre, seg', post, hL, -, -⟩ := h
  obtain ⟨rfl, hpost⟩ := split_unique hnames hL rfl
  rw [hpost]
  simp

/-- A segment that is empty and has a position in it is the last one. -/
theorem Reads.last_of_nil (h : Reads L k pos us) (hnames : (names L).Nodup) (hseg : (k, []) ∈ L) :
    ∃ init, L = init ++ [(k, [])] := by
  obtain ⟨pre, seg, post, hL, -, hne⟩ := h
  obtain ⟨pre', post', hL'⟩ := append_of_mem hseg
  obtain ⟨rfl, -⟩ := split_unique hnames hL hL'
  cases post with
  | nil => exact ⟨pre, hL⟩
  | cons s post => exact absurd rfl (hne (k, []) (by simp))

/-! ### Positions with an entry -/

/-- There is an entry at the position. -/
def Inside (L : List (Nat × List U)) (k pos : Nat) : Prop := ∃ seg, (k, seg) ∈ L ∧ pos < seg.length

theorem Inside.tail (h : Inside (s :: L) k pos) (hs : s.1 ≠ k) : Inside L k pos := by
  obtain ⟨seg, hseg, hpos⟩ := h
  rcases mem_cons.mp hseg with rfl | hseg
  · contradiction
  · exact ⟨seg, hseg, hpos⟩

theorem Inside.concat (h : Inside L k pos) : Inside (L ++ [s]) k pos := by
  obtain ⟨seg, hseg, hpos⟩ := h
  exact ⟨seg, mem_append_left _ hseg, hpos⟩

theorem Inside.push {u : U} (h : Inside (init ++ [(k', seg')]) k pos) :
    Inside (init ++ [(k', seg' ++ [u])]) k pos := by
  obtain ⟨seg, hseg, hpos⟩ := h
  rcases mem_append.mp hseg with hseg | hseg
  · exact ⟨seg, mem_append_left _ hseg, hpos⟩
  · obtain ⟨rfl, rfl⟩ := Prod.mk.inj (mem_singleton.mp hseg)
    exact ⟨seg ++ [u], by simp, by simp; omega⟩

/-- The first unread entry is the one at the position, when there is one; and a position at the
beginning of a segment without an entry is the end of the log. -/
theorem Reads.head (h : Reads L k pos us) (hnames : (names L).Nodup)
    (hseg : (k, seg) ∈ L) (hpos : pos < seg.length ∨ pos = 0) : us.head? = seg[pos]? := by
  by_cases hlt : pos < seg.length
  · obtain ⟨-, rest, rfl⟩ := h.seg hnames hseg
    rw [drop_eq_getElem_cons hlt, getElem?_eq_getElem hlt]
    rfl
  · obtain rfl : pos = 0 := hpos.resolve_left hlt
    obtain rfl : seg = [] := eq_nil_of_length_eq_zero (by omega)
    obtain ⟨init, rfl⟩ := h.last_of_nil hnames hseg
    obtain rfl : us = [] := h.eq_nil_of_last hnames
    rfl

end Segments

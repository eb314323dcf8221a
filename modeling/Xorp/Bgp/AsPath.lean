/-
AS paths.

The path of an aggregate is collected from the segment where two paths part.  What comes after that
segment is lost: of a path that goes on where the other ends, or with a segment of another kind,
nothing is taken, and after two segments of one kind that differ the numbers are read from these
segments again.  So the aggregate has the numbers of both paths where what comes after brings nothing
new.
-/
import Xorp.Lib.Outcome

namespace Xorp.Bgp

open Linked

abbrev AsNum := BitVec 32

namespace AsNum

/-- `AS_INVALID`. -/
def invalid : AsNum := 0

end AsNum

inductive ASPathSegType where
  | none
  | set
  | sequence
  | confedSequence
  | confedSet
deriving DecidableEq, Repr

structure ASSegment where
  type : ASPathSegType
  aslist : List AsNum
deriving DecidableEq, Repr

namespace ASSegment

variable (s : ASSegment)

/-- A set counts once, however many numbers are in it. -/
def pathLength : Nat :=
  match s.type with
  | .set | .confedSet => 1
  | .sequence | .confedSequence => s.aslist.length
  | .none => 0

def firstAsnum : Except Fault AsNum :=
  match s.aslist with
  | [] => .error .assertion
  | a :: _ => .ok a

def addAs (a : AsNum) : ASSegment := { s with aslist := s.aslist ++ [a] }

def contains (a : AsNum) : Bool := a ∈ s.aslist

/-- `as_num`, which does not look where the list ends. -/
def asNum (n : Nat) : Except Fault AsNum :=
  match s.aslist[n]? with
  | some a => .ok a
  | none => .error .badPointer

end ASSegment

abbrev ASPath := List ASSegment

namespace ASPath

def pathLength (p : ASPath) : Nat := (p.map ASSegment.pathLength).sum

def firstAsnum : ASPath → Except Fault AsNum
  | [] => .error .assertion
  | s :: _ => s.firstAsnum

/-! ### The path of an aggregate -/

/-- How many numbers two segments begin with alike, of the `k` from position `i` on. -/
def matchElem (s t : ASSegment) : Nat → Nat → Except Fault Nat
  | 0, i => .ok i
  | k + 1, i => do
      let a ← s.asNum i
      let b ← t.asNum i
      if a ≠ b then pure i else matchElem s t k (i + 1)

/-- The segments two paths begin with alike, whether they match in full, and the segment and the
position where they stop.  Segments of different types count as a full match. -/
def common : ASPath → ASPath → Nat → Nat → Except Fault (ASPath × Bool × Nat × Nat)
  | s :: p, t :: q, curseg, matchelem =>
      if s.type ≠ t.type then .ok ([], true, curseg, matchelem)
      else do
        let k ← matchElem s t (min s.pathLength t.pathLength) 0
        let new := if k ≠ 0 then [⟨s.type, s.aslist.take k⟩] else []
        if k < s.pathLength ∨ k < t.pathLength then pure (new, false, curseg, k)
        else
          let (rest, fullmatch, curseg', k') ← common p q (curseg + 1) k
          pure (new ++ rest, fullmatch, curseg', k')
  | _, _, curseg, matchelem => .ok ([], true, curseg, matchelem)

/-- The numbers of `base` at the positions of the segments from `startelem` on join the set. -/
def collect (base : ASSegment) : List ASSegment → Nat → ASSegment → Except Fault ASSegment
  | [], _, set => .ok set
  | s :: l, startelem, set => do
      let set ← (List.range' startelem (s.pathLength - startelem)).foldlM
        (fun set elem => do
          let a ← base.asNum elem
          pure (if set.contains a then set else set.addAs a)) set
      collect base l 0 set

/-- What is left of a path.  The numbers are those of the segment where the match stopped, for
every segment after it too. -/
def collectRest (p : ASPath) (curseg matchelem : Nat) (set : ASSegment) :
    Except Fault ASSegment :=
  match p.drop curseg with
  | [] => .ok set
  | base :: l => collect base (base :: l) matchelem set

/-- `ASPath(asp1, asp2)`. -/
def aggregate (asp₁ asp₂ : ASPath) : Except Fault ASPath := do
  let (segments, fullmatch, curseg, matchelem) ← common asp₁ asp₂ 0 0
  if fullmatch then pure segments
  else
    let set ← collectRest asp₁ curseg matchelem ⟨.set, []⟩
    let set ← collectRest asp₂ curseg matchelem set
    pure (segments ++ [set])

/-! ### What an aggregate keeps -/

/-- The numbers of a path, each with the kind of its segment. -/
def steps (p : ASPath) : List (ASPathSegType × AsNum) := p.flatMap fun s => s.aslist.map (s.type, ·)

def numbers (p : ASPath) : List AsNum := p.flatMap ASSegment.aslist

/-- Two lists that do not begin alike. -/
abbrev Apart {α : Type} (a b : List α) : Prop := ∀ x ∈ a.head?, x ∉ b.head?

/-- The path starts with what both start with, and has the numbers of both. -/
def Keeps (p q r : ASPath) : Prop :=
  (∃ c p' q', steps p = c ++ p' ∧ steps q = c ++ q' ∧ Apart p' q' ∧ c <+: steps r) ∧
    numbers p ++ numbers q ⊆ numbers r

/-- Every set has one member. -/
abbrev Plain (p : ASPath) : Prop := ∀ s ∈ p, s.pathLength = s.aslist.length

/-- Two paths go on from `u` with segments that differ.  The numbers part there as well, and what
comes after has no number that is not before.  Segments of one kind count as before, and the ones
after them are not longer. -/
def Settled (u : ASPath) : ASPath → ASPath → Prop
  | s :: p, t :: q =>
    if s.type = t.type then
      (∃ c xs ys, s.aslist = c ++ xs ∧ t.aslist = c ++ ys ∧
        Apart (xs.map (s.type, ·) ++ steps p) (ys.map (s.type, ·) ++ steps q)) ∧
      numbers p ++ numbers q ⊆ numbers (u ++ [s, t]) ∧
      (∀ v ∈ p, v.pathLength ≤ s.pathLength) ∧ ∀ v ∈ q, v.pathLength ≤ t.pathLength
    else Apart (steps (s :: p)) (steps (t :: q)) ∧ numbers (s :: p) ++ numbers (t :: q) ⊆ numbers u
  | p, q => numbers p ++ numbers q ⊆ numbers u

open List

variable {s t : ASSegment} {p q u : ASPath} {c xs ys : List AsNum} {a : AsNum}

theorem steps_append : steps (p ++ q) = steps p ++ steps q := flatMap_append

theorem steps_cons : steps (s :: p) = s.aslist.map (s.type, ·) ++ steps p := flatMap_cons

theorem numbers_append : numbers (p ++ q) = numbers p ++ numbers q := flatMap_append

theorem numbers_eq (p : ASPath) : numbers p = (steps p).map Prod.snd := by
  simp [numbers, steps, map_flatMap]

theorem steps_kept (y : ASPathSegType) (l : List AsNum) :
    steps (if l.length ≠ 0 then [⟨y, l⟩] else []) = l.map (y, ·) := by
  cases l <;> simp [steps]

section Apart

variable {α : Type} {l l' A B A' B' : List α}

theorem exists_apart [DecidableEq α] (A B : List α) :
    ∃ l A' B', A = l ++ A' ∧ B = l ++ B' ∧ Apart A' B' := by
  induction A generalizing B with
  | nil => exact ⟨[], [], B, rfl, rfl, nofun⟩
  | cons a A ih =>
    by_cases hhead : a ∈ B.head?
    · obtain ⟨B, rfl⟩ := head?_eq_some_iff.mp hhead
      obtain ⟨l, A', B', rfl, rfl, hapart⟩ := ih B
      exact ⟨a :: l, A', B', rfl, rfl, hapart⟩
    · refine ⟨[], a :: A, B, rfl, rfl, ?_⟩
      rintro x ⟨⟩
      exact hhead

theorem Apart.not_append (h : Apart (l ++ A) (l ++ B)) : l = [] := by
  cases l with
  | nil => rfl
  | cons x l => exact absurd rfl (h x rfl)

theorem Apart.unique (h : Apart A B) (h' : Apart A' B') (hA : l ++ A = l' ++ A')
    (hB : l ++ B = l' ++ B') : l = l' := by
  rcases append_eq_append_iff.mp hA with ⟨d, rfl, rfl⟩ | ⟨d, rfl, rfl⟩
  · rw [append_assoc, append_cancel_left_eq] at hB
    subst hB
    rw [h.not_append, append_nil]
  · rw [append_assoc, append_cancel_left_eq] at hB
    subst hB
    rw [h'.not_append, append_nil]

end Apart

/-- What an aggregate keeps, where it starts with the beginning `l` of both paths and nothing that
both may go on with comes next. -/
theorem keeps_iff {r : ASPath} {l A B Z : List (ASPathSegType × AsNum)} (hp : steps p = l ++ A)
    (hq : steps q = l ++ B) (hr : steps r = l ++ Z)
    (hZ : ∀ x ∈ Z.head?, x ∈ A.head? → x ∉ B.head?) :
    Keeps p q r ↔ Apart A B ∧ (A ++ B).map Prod.snd ⊆ numbers r := by
  have hnum : numbers p ++ numbers q ⊆ numbers r ↔ (A ++ B).map Prod.snd ⊆ numbers r := by
    simp only [numbers_eq, hp, hq, hr, map_append, append_subset, subset_append_left,
      true_and]
  refine and_congr ?_ hnum
  constructor
  · rintro ⟨c, A', B', hA, hB, hapart, hpre⟩
    rw [hp] at hA
    rw [hq] at hB
    rcases append_eq_append_iff.mp hA with ⟨d, rfl, rfl⟩ | ⟨d, rfl, rfl⟩
    · rw [append_assoc, append_cancel_left_eq] at hB
      subst hB
      cases d with
      | nil => exact hapart
      | cons x d =>
        rw [hr, prefix_append_right_inj] at hpre
        obtain ⟨Z, rfl⟩ := hpre
        exact absurd rfl (hZ x rfl rfl)
    · rw [append_assoc, append_cancel_left_eq] at hB
      subst hB
      obtain rfl := hapart.not_append
      exact hapart
  · intro h
    exact ⟨l, A, B, hp, hq, h, hr ▸ prefix_append l Z⟩

/-- Two segments of one kind, with one member if it is that of sets, that differ after `c`. -/
structure Parted (s t : ASSegment) (c xs ys : List AsNum) : Prop where
  plain : Plain [s, t]
  type : s.type = t.type
  ne : s ≠ t
  left : s.aslist = c ++ xs
  right : t.aslist = c ++ ys
  apart : Apart xs ys

theorem Parted.not_nil (h : Parted s t c xs ys) : ¬ (xs = [] ∧ ys = []) := by
  rintro ⟨rfl, rfl⟩
  have hlist : s.aslist = t.aslist := h.left.trans h.right.symm
  exact h.ne (by cases s; cases t; cases h.type; cases hlist; rfl)

/-! ### The walk -/

theorem asNum_append (h : s.aslist = c ++ a :: xs) : s.asNum c.length = .ok a := by
  simp [ASSegment.asNum, h]

/-- The match ends where the lists part. -/
theorem matchElem_apart {d : List AsNum} (hs : s.aslist = d ++ (c ++ xs))
    (ht : t.aslist = d ++ (c ++ ys)) (h : Apart xs ys) :
    matchElem s t (min (c ++ xs).length (c ++ ys).length) d.length = .ok (d ++ c).length := by
  induction c generalizing d with
  | nil =>
    match xs, ys with
    | [], _ | _ :: _, [] => simp [matchElem]
    | a :: xs, b :: ys =>
      have hab : a ≠ b := fun hab => h a rfl (hab ▸ rfl)
      simp [matchElem, asNum_append hs, asNum_append ht, hab, pure, Except.pure]
  | cons a c ih =>
    have hrest := ih (d := d ++ [a]) (by simp [hs]) (by simp [ht])
    simpa [matchElem, asNum_append hs, asNum_append ht, Nat.succ_min_succ, Nat.add_comm 1] using hrest

theorem matchElem_self : matchElem s s s.aslist.length 0 = .ok s.aslist.length := by
  have hs : s.aslist = [] ++ (s.aslist ++ []) := by simp
  simpa using matchElem_apart hs hs nofun

/-- Segments that are in both paths are kept. -/
theorem common_append (hu : Plain u) (cur m : Nat) : ∃ r m', steps r = steps u ∧
    common (u ++ p) (u ++ q) cur m = common p q (cur + u.length) m' >>= fun x =>
      .ok (r ++ x.1, x.2) := by
  induction u generalizing cur m with
  | nil =>
    refine ⟨[], m, rfl, ?_⟩
    cases h : common p q cur m <;> simp [h]
  | cons s u ih =>
    obtain ⟨r, m', hr, hrun⟩ := ih (fun v hv => hu v (mem_cons_of_mem _ hv)) (cur + 1)
      s.aslist.length
    refine ⟨(if s.aslist.length ≠ 0 then [⟨s.type, s.aslist⟩] else []) ++ r, m', ?_, ?_⟩
    · rw [steps_append, steps_kept, steps_cons, hr]
    · have hs := hu s mem_cons_self
      simp [common, hs, matchElem_self, hrun, Nat.add_assoc, Nat.add_comm 1]

/-- Segments of one kind that differ: what both start with is kept. -/
theorem common_parted (h : Parted s t c xs ys) (cur m : Nat) : ∃ r, steps r = c.map (s.type, ·) ∧
    common (s :: p) (t :: q) cur m = .ok (r, false, cur, c.length) := by
  refine ⟨if c.length ≠ 0 then [⟨s.type, c⟩] else [], steps_kept s.type c, ?_⟩
  have hs := h.plain s (by simp)
  have ht := h.plain t (by simp)
  have hk := matchElem_apart (d := []) h.left h.right h.apart
  simp only [length_nil, nil_append] at hk
  have hlt : c.length < s.pathLength ∨ c.length < t.pathLength := by
    by_contra hnot
    exact h.not_nil (by simpa [hs, ht, h.left, h.right] using hnot)
  rw [common, if_neg (by simp [h.type]), hs, ht, h.left, h.right, hk, ok_bind, ← h.left, ← h.right,
    ← hs, ← ht, if_pos hlt, h.left, take_left]
  rfl

/-- The positions at which numbers are read from the base. -/
def positions : List ASSegment → Nat → List Nat
  | [], _ => []
  | s :: l, start => List.range' start (s.pathLength - start) ++ positions l 0

theorem mem_positions {l : List ASSegment} {i : Nat} :
    i ∈ positions l 0 ↔ ∃ v ∈ l, i < v.pathLength := by
  induction l with
  | nil => simp [positions]
  | cons s l ih => simp [positions, ih]

theorem collect_eq (base : ASSegment) (l : List ASSegment) (start : Nat) (set : ASSegment) :
    collect base l start set = (positions l start).foldlM (fun set elem => do
      let a ← base.asNum elem
      pure (if set.contains a then set else set.addAs a)) set := by
  induction l generalizing start set with
  | nil => rfl
  | cons s l ih =>
    rw [collect, positions, foldlM_append]
    simp only [ih]

/-- The numbers at the positions join the set, if there are numbers at all of them. -/
theorem collect_cases (base : ASSegment) (l : List ASSegment) (start : Nat) (set : ASSegment) :
    if ∀ i ∈ positions l start, i < base.aslist.length then
      ∃ set', collect base l start set = .ok set' ∧ set'.type = set.type ∧ ∀ a,
        a ∈ set'.aslist ↔ a ∈ set.aslist ∨ ∃ i ∈ positions l start, base.aslist[i]? = some a
    else ∃ e, collect base l start set = .error e := by
  rw [collect_eq]
  generalize positions l start = is
  induction is generalizing set with
  | nil => exact ⟨set, rfl, rfl, by simp⟩
  | cons i is ih =>
    rw [foldlM_cons]
    cases hi : base.aslist[i]? with
    | none =>
      have hle := getElem?_eq_none_iff.mp hi
      rw [if_neg fun h => absurd (h i mem_cons_self) (by omega)]
      exact ⟨.badPointer, by simp [ASSegment.asNum, hi]⟩
    | some a =>
      have hlt := (List.getElem?_eq_some_iff.mp hi).1
      have hrest := ih (if set.contains a then set else set.addAs a)
      simp only [forall_mem_cons, hlt, true_and]
      by_cases hall : ∀ i ∈ is, i < base.aslist.length
      · rw [if_pos hall] at hrest ⊢
        obtain ⟨set', hrun, htype, hmem⟩ := hrest
        refine ⟨set', by simpa [ASSegment.asNum, hi, pure, Except.pure] using hrun, ?_, ?_⟩
        · rw [htype]
          split <;> rfl
        · intro b
          rw [hmem]
          grind [ASSegment.contains, ASSegment.addAs]
      · rw [if_neg hall] at hrest ⊢
        obtain ⟨e, hrun⟩ := hrest
        exact ⟨e, by simpa [ASSegment.asNum, hi, pure, Except.pure] using hrun⟩

/-- What is left of a path after its first `c.length` numbers of the segment where the match stopped
joins the set, if no segment after it is longer. -/
theorem collectRest_cases (hs : s.pathLength = s.aslist.length) (hxs : s.aslist = c ++ xs)
    (set : ASSegment) :
    if ∀ v ∈ p, v.pathLength ≤ s.pathLength then
      ∃ set', collectRest (u ++ s :: p) u.length c.length set = .ok set' ∧ set'.type = set.type ∧
        set.aslist ++ xs ⊆ set'.aslist ∧ set'.aslist ⊆ set.aslist ++ s.aslist
    else ∃ e, collectRest (u ++ s :: p) u.length c.length set = .error e := by
  have hrange : (∀ i ∈ positions (s :: p) c.length, i < s.aslist.length) ↔
      ∀ v ∈ p, v.pathLength ≤ s.pathLength := by
    simp only [positions, mem_append, mem_range'_1, mem_positions]
    constructor
    · intro h v hv
      by_contra hlt
      have := h s.pathLength (.inr ⟨v, hv, by omega⟩)
      omega
    · rintro h i (hi | ⟨v, hv, hi⟩)
      · omega
      · have := h v hv
        omega
  have hcases := collect_cases s (s :: p) c.length set
  rw [collectRest, drop_left]
  simp only [hrange] at hcases
  split_ifs at hcases ⊢
  · obtain ⟨set', hrun, htype, hmem⟩ := hcases
    refine ⟨set', hrun, htype, ?_, ?_⟩
    · intro a ha
      rw [hmem]
      rcases mem_append.mp ha with ha | ha
      · exact .inl ha
      · obtain ⟨i, hi⟩ := mem_iff_getElem?.mp ha
        have hlt := (List.getElem?_eq_some_iff.mp hi).1
        refine .inr ⟨c.length + i, by simp [positions, hs, hxs, hlt], ?_⟩
        rw [hxs, getElem?_append_right (Nat.le_add_right _ _), Nat.add_sub_cancel_left, hi]
    · intro a ha
      rcases (hmem a).mp ha with ha | ⟨i, -, hi⟩
      · exact mem_append_left _ ha
      · exact mem_append_right _ (mem_of_getElem? hi)
  · exact hcases

/-! ### Aggregates -/

/-- No pair of segments of one kind follows: the walk ends, and only what is in both is kept. -/
theorem aggregate_ended (hu : Plain u)
    (hend : ∀ s ∈ p.head?, ∀ t ∈ q.head?, s.type ≠ t.type) :
    ∃ r, aggregate (u ++ p) (u ++ q) = .ok r ∧ steps r = steps u := by
  obtain ⟨r, m, hr, hrun⟩ := common_append (p := p) (q := q) hu 0 0
  have hnil : common p q (0 + u.length) m = .ok ([], true, 0 + u.length, m) := by
    match p, q with
    | [], _ | _ :: _, [] => simp [common]
    | s :: p, t :: q => rw [common, if_pos (hend s rfl t rfl)]
  rw [hnil] at hrun
  exact ⟨r, by simp [aggregate, hrun, pure, Except.pure], hr⟩

theorem keeps_ended (hu : Plain u) (hend : ∀ s ∈ p.head?, ∀ t ∈ q.head?, s.type ≠ t.type) :
    (∃ r, aggregate (u ++ p) (u ++ q) = .ok r ∧ Keeps (u ++ p) (u ++ q) r) ↔
      Apart (steps p) (steps q) ∧ numbers p ++ numbers q ⊆ numbers u := by
  obtain ⟨r, hrun, hr⟩ := aggregate_ended hu hend
  have hkeeps : Keeps (u ++ p) (u ++ q) r ↔ _ :=
    keeps_iff steps_append steps_append (Z := []) (by simpa using hr) nofun
  rw [map_append, ← numbers_eq, ← numbers_eq, numbers_eq r, hr, ← numbers_eq] at hkeeps
  rw [← hkeeps]
  constructor
  · rintro ⟨r', hrun', h⟩
    rw [hrun] at hrun'
    cases hrun'
    exact h
  · exact fun h => ⟨r, hrun, h⟩

/-- Two sets do not go on alike after they part. -/
theorem Parted.not_set (h : Parted s t c xs ys) {x : ASPathSegType × AsNum}
    {A B : List (ASPathSegType × AsNum)} (hA : x ∈ (xs.map (s.type, ·) ++ A).head?)
    (hB : x ∈ (ys.map (s.type, ·) ++ B).head?) : x.1 ≠ .set := by
  have hs := h.plain s (by simp)
  have ht := h.plain t (by simp)
  intro hset
  -- one of the two goes on with its own numbers, so the kind is that of sets and both have one
  have hkind : s.type = .set := by
    rcases not_and_or.mp h.not_nil with hne | hne <;>
      obtain ⟨a, l, rfl⟩ := exists_cons_of_ne_nil hne
    · cases hA
      exact hset
    · cases hB
      exact hset
  rw [ASSegment.pathLength, hkind, h.left, length_append] at hs
  rw [ASSegment.pathLength, ← h.type, hkind, h.right, length_append] at ht
  match xs, ys with
  | [], [] => exact h.not_nil ⟨rfl, rfl⟩
  | [], _ :: _ | _ :: _, [] =>
    simp only [length_nil, length_cons] at hs ht
    omega
  | a :: _, b :: _ =>
    cases hA
    cases hB
    exact h.apart _ rfl rfl

/-- Of segments of one kind that differ, what both start with is kept and the rest is collected. -/
theorem aggregate_parted (hu : Plain u) (h : Parted s t c xs ys) :
    if (∀ v ∈ p, v.pathLength ≤ s.pathLength) ∧ ∀ v ∈ q, v.pathLength ≤ t.pathLength then
      ∃ r set, aggregate (u ++ s :: p) (u ++ t :: q) = .ok (r ++ [⟨.set, set⟩]) ∧
        steps r = steps u ++ c.map (s.type, ·) ∧ xs ++ ys ⊆ set ∧ set ⊆ s.aslist ++ t.aslist
    else ∃ e, aggregate (u ++ s :: p) (u ++ t :: q) = .error e := by
  obtain ⟨r₀, m, hr₀, hrun⟩ := common_append (p := s :: p) (q := t :: q) hu 0 0
  obtain ⟨r₁, hr₁, hrun₁⟩ := common_parted (p := p) (q := q) h (0 + u.length) m
  rw [hrun₁, Nat.zero_add] at hrun
  have hfirst := collectRest_cases (u := u) (p := p) (h.plain s (by simp)) h.left ⟨.set, []⟩
  by_cases hp : ∀ v ∈ p, v.pathLength ≤ s.pathLength
  swap
  · rw [if_neg hp] at hfirst
    obtain ⟨e, he⟩ := hfirst
    rw [if_neg fun h => hp h.1]
    exact ⟨e, by simp [aggregate, hrun, he]⟩
  rw [if_pos hp] at hfirst
  obtain ⟨⟨_, set⟩, hset, rfl, hsub, hsup⟩ := hfirst
  have hsecond := collectRest_cases (u := u) (p := q) (h.plain t (by simp)) h.right ⟨.set, set⟩
  by_cases hq : ∀ v ∈ q, v.pathLength ≤ t.pathLength
  swap
  · rw [if_neg hq] at hsecond
    obtain ⟨e, he⟩ := hsecond
    rw [if_neg fun h => hq h.2]
    exact ⟨e, by simp [aggregate, hrun, hset, he]⟩
  rw [if_pos hq] at hsecond
  obtain ⟨⟨_, set'⟩, hset', rfl, hsub', hsup'⟩ := hsecond
  rw [if_pos ⟨hp, hq⟩]
  refine ⟨r₀ ++ r₁, set', ?_, by rw [steps_append, hr₀, hr₁], ?_, ?_⟩
  · simp [aggregate, hrun, hset, hset', pure, Except.pure]
  · grind
  · grind

theorem keeps_parted (hu : Plain u) (h : Parted s t c xs ys) :
    (∃ r, aggregate (u ++ s :: p) (u ++ t :: q) = .ok r ∧ Keeps (u ++ s :: p) (u ++ t :: q) r) ↔
      Apart (xs.map (s.type, ·) ++ steps p) (ys.map (s.type, ·) ++ steps q) ∧
      numbers p ++ numbers q ⊆ numbers (u ++ [s, t]) ∧
      (∀ v ∈ p, v.pathLength ≤ s.pathLength) ∧ ∀ v ∈ q, v.pathLength ≤ t.pathLength := by
  have hcases := aggregate_parted (p := p) (q := q) hu h
  split at hcases
  case isFalse hlt =>
    obtain ⟨e, he⟩ := hcases
    simp [he, hlt]
  case isTrue hle =>
    obtain ⟨r, set, hagg, hr, hsub, hsup⟩ := hcases
    have hkeeps : Keeps (u ++ s :: p) (u ++ t :: q) (r ++ [⟨.set, set⟩]) ↔ _ :=
      keeps_iff (l := steps u ++ c.map (s.type, ·)) (A := xs.map (s.type, ·) ++ steps p)
        (B := ys.map (s.type, ·) ++ steps q) (Z := set.map (.set, ·))
        (by simp [steps_append, steps_cons, h.left])
        (by simp [steps_append, steps_cons, h.right, h.type])
        (by rw [steps_append, hr]; simp [steps]) (by
          intro x hx hA hB
          refine h.not_set hA hB ?_
          obtain ⟨a, -, rfl⟩ := mem_map.mp (mem_of_mem_head? hx)
          rfl)
    have hnum : ((xs.map (s.type, ·) ++ steps p) ++ (ys.map (s.type, ·) ++ steps q)).map Prod.snd ⊆
          numbers (r ++ [⟨.set, set⟩]) ↔ numbers p ++ numbers q ⊆ numbers (u ++ [s, t]) := by
      have hkept : numbers r = numbers u ++ c := by
        rw [numbers_eq, hr, numbers_eq]
        simp
      rw [numbers_append, numbers_append, hkept]
      simp only [map_append, ← numbers_eq]
      simp [numbers]
      grind [h.left, h.right]
    rw [hnum] at hkeeps
    rw [← and_assoc, ← hkeeps, and_iff_left hle]
    simp [hagg]

theorem keeps_iff_settled (hp : Plain (u ++ p)) (hq : Plain (u ++ q)) (hapart : Apart p q) :
    (∃ r, aggregate (u ++ p) (u ++ q) = .ok r ∧ Keeps (u ++ p) (u ++ q) r) ↔ Settled u p q := by
  have hu : Plain u := fun s hs => hp s (mem_append_left _ hs)
  match p, q with
  | [], q | s :: p, [] =>
    rw [keeps_ended hu (by simp), Settled]
    · exact and_iff_right (by simp [Apart, steps])
    · exact nofun
  | s :: p, t :: q =>
    by_cases htype : s.type = t.type
    · have hne : s ≠ t := fun h => hapart s rfl (h ▸ rfl)
      obtain ⟨c, xs, ys, hxs, hys, hxy⟩ := exists_apart s.aslist t.aslist
      have hst : Plain [s, t] :=
        forall_mem_cons.mpr ⟨hp s (by simp), forall_mem_singleton.mpr (hq t (by simp))⟩
      rw [keeps_parted hu ⟨hst, htype, hne, hxs, hys, hxy⟩, Settled, if_pos htype]
      refine and_congr_left fun _ => ⟨fun h => ⟨c, xs, ys, hxs, hys, h⟩, ?_⟩
      rintro ⟨c', xs', ys', hxs', hys', h⟩
      have hxy' : Apart xs' ys' := by
        intro a ha hb
        obtain ⟨l, rfl⟩ := head?_eq_some_iff.mp ha
        obtain ⟨l', rfl⟩ := head?_eq_some_iff.mp hb
        exact h (s.type, a) rfl rfl
      obtain rfl := hxy.unique hxy' (hxs.symm.trans hxs') (hys.symm.trans hys')
      rw [hxs, append_cancel_left_eq] at hxs'
      rw [hys, append_cancel_left_eq] at hys'
      subst hxs' hys'
      exact h
    · rw [keeps_ended hu (by simpa using htype), Settled, if_neg htype]

end ASPath

end Xorp.Bgp

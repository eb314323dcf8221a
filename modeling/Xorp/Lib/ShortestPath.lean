/-
Shortest paths by growing a set of settled vertices.

The settled vertices have their final distance.  Every edge that leaves them leads to a queued
vertex, whose distance is that of the best edge seen so far.  The one fact that has to be argued
is that the nearest queued vertex may be settled: a walk to it from the origin leaves the settled
vertices somewhere, and from there on it only gets longer (`Frontier.le_walk`).  Weights are
natural numbers.
-/
import Mathlib.Data.List.Nodup

namespace ShortestPath

variable {V : Type} {E : V → V → Nat → Prop} {o : V}

/-! ### Walks and routes -/

/-- A walk from the origin, with its weight. -/
inductive Walk (E : V → V → Nat → Prop) (o : V) : V → Nat → Prop
  | start : Walk E o o 0
  | step {u v : V} {n w : Nat} : Walk E o u n → E u v w → Walk E o v (n + w)

/-- A path from the origin that visits no vertex twice, listed from its end, with its weight. -/
inductive Route (E : V → V → Nat → Prop) (o : V) : List V → Nat → Prop
  | start : Route E o [o] 0
  | step {u v : V} {p : List V} {n w : Nat} : Route E o (u :: p) n → E u v w → v ∉ u :: p →
      Route E o (v :: u :: p) (n + w)

/-- The first vertex after the origin, on a path listed from its end. -/
def FirstHop (o : V) (p : List V) (f : V) : Prop := ∃ q, p = q ++ [f, o]

variable {p : List V} {n : Nat} {v : V}

theorem Route.walk (h : Route E o (v :: p) n) : Walk E o v n := by
  generalize hl : v :: p = l at h
  induction h generalizing v p with
  | start =>
    cases hl
    exact .start
  | step _ he _ ih =>
    cases hl
    exact .step (ih rfl) he

theorem Route.origin_mem (h : Route E o p n) : o ∈ p := by
  induction h with
  | start => exact List.mem_singleton_self o
  | step _ _ _ ih => exact List.mem_cons_of_mem _ ih

/-- A path comes back to the origin in no other way than by staying there. -/
theorem Route.eq_nil (h : Route E o (o :: p) n) : p = [] := by
  cases h with
  | start => rfl
  | step h _ hnew => exact absurd h.origin_mem hnew

theorem Route.tail {u : V} (h : Route E o (v :: u :: p) n) : ∃ m, Route E o (u :: p) m := by
  cases h with
  | step h _ _ => exact ⟨_, h⟩

theorem FirstHop.cons {f : V} (h : FirstHop o p f) (v : V) : FirstHop o (v :: p) f := by
  obtain ⟨q, rfl⟩ := h
  exact ⟨v :: q, rfl⟩

/-- Weights that grow along every edge bound the weight of a walk. -/
theorem Walk.le_potential (φ : V → Nat) (hφ : ∀ {u v w}, E u v w → φ u + w ≤ φ v)
    (h : Walk E o v n) :
    n ≤ φ v := by
  induction h with
  | start => omega
  | step _ he ih => exact Nat.le_trans (Nat.add_le_add_right ih _) (hφ he)

/-- A walk that ends outside a set of vertices leaves it somewhere. -/
theorem Walk.exits {D : V → Prop} (h : Walk E o v n) (ho : D o) (hv : ¬ D v) :
    ∃ x y m w, D x ∧ ¬ D y ∧ Walk E o x m ∧ E x y w ∧ m + w ≤ n := by
  induction h with
  | start => contradiction
  | @step u v n w hwalk he ih =>
    by_cases hu : D u
    · exact ⟨u, v, n, w, hu, hv, hwalk, he, Nat.le_refl _⟩
    · obtain ⟨x, y, m, w', hx, hy, hm, he', hle⟩ := ih hu
      exact ⟨x, y, m, w', hx, hy, hm, he', Nat.le_trans hle (Nat.le_add_right _ _)⟩

/-! ### The frontier -/

/-- What is known of the vertices: those settled, those queued, their distances, and for each the
vertex before it and the first vertex on the way to it. -/
structure Labels (V : Type) where
  settled : V → Prop
  queued : V → Prop
  dist : V → Nat
  last : V → V
  first : V → V

/-- The edges in `rest` have not been looked at. -/
structure Frontier (E : V → V → Nat → Prop) (o : V) (rest : V → V → Nat → Prop) (L : Labels V) :
    Prop where
  origin : L.settled o
  dist_origin : L.dist o = 0
  apart : ∀ {v}, L.queued v → ¬ L.settled v
  route : ∀ {v}, L.settled v → ∃ p, Route E o (v :: p) (L.dist v) ∧ (∀ u ∈ p, L.settled u) ∧
    (v ≠ o → FirstHop o (v :: p) (L.first v))
  least : ∀ {v n}, L.settled v → Walk E o v n → L.dist v ≤ n
  edges : ∀ {u v w}, L.settled u → E u v w →
    L.settled v ∨ (L.queued v ∧ L.dist v ≤ L.dist u + w) ∨ rest u v w
  best : ∀ {v}, L.queued v → L.settled (L.last v) ∧
    ∃ w, E (L.last v) v w ∧ L.dist v = L.dist (L.last v) + w

variable {L L' : Labels V} {rest rest' : V → V → Nat → Prop} {u : V} {w : Nat}

/-- Nothing is left to look at. -/
def NoRest : V → V → Nat → Prop := fun _ _ _ => False

/-- The nearest queued vertex is as near as any walk gets to it. -/
theorem Frontier.le_walk (h : Frontier E o NoRest L) (hv : L.queued v)
    (hmin : ∀ u, L.queued u → L.dist v ≤ L.dist u) (hwalk : Walk E o v n) : L.dist v ≤ n := by
  obtain ⟨x, y, m, w, hx, hy, hm, he, hle⟩ := hwalk.exits h.origin (h.apart hv)
  obtain ⟨hq, hd⟩ := ((h.edges hx he).resolve_left hy).resolve_right id
  have hxm := h.least hx hm
  have hvy := hmin y hq
  omega

/-- The path to a queued vertex. -/
theorem Frontier.route_queued (h : Frontier E o rest L) (hv : L.queued v) :
    ∃ p, Route E o (v :: L.last v :: p) (L.dist v) ∧ (∀ u ∈ L.last v :: p, L.settled u) ∧
      (L.last v ≠ o → FirstHop o (L.last v :: p) (L.first (L.last v))) := by
  obtain ⟨hlast, w, he, hd⟩ := h.best hv
  obtain ⟨p, hp, hset, hfirst⟩ := h.route hlast
  have hall : ∀ u ∈ L.last v :: p, L.settled u := by
    intro u hu
    rcases List.mem_cons.mp hu with rfl | hu
    · exact hlast
    · exact hset u hu
  refine ⟨p, ?_, hall, hfirst⟩
  rw [hd]
  exact hp.step he fun hin => h.apart hv (hall v hin)

/-- The nearest queued vertex is settled.  Its edges are to be looked at. -/
theorem Frontier.settle (h : Frontier E o NoRest L) (hv : L.queued v)
    (hmin : ∀ u, L.queued u → L.dist v ≤ L.dist u)
    (hset : ∀ x, L'.settled x ↔ x = v ∨ L.settled x)
    (hqueue : ∀ x, L'.queued x ↔ L.queued x ∧ x ≠ v)
    (hdist : L'.dist = L.dist) (hlast : L'.last = L.last)
    (hkeep : ∀ x, x ≠ v → L'.first x = L.first x)
    (hdirect : L.last v = o → L'.first v = v)
    (hfirst : L.last v ≠ o → L'.first v = L.first (L.last v)) :
    Frontier E o (fun x _ _ => x = v) L' := by
  refine ⟨(hset o).mpr (.inr h.origin), by rw [hdist, h.dist_origin], ?_, ?_, ?_, ?_, ?_⟩
  · intro x hx hs
    obtain ⟨hq, hxv⟩ := (hqueue x).mp hx
    exact ((hset x).mp hs).elim hxv (h.apart hq)
  · intro x hx
    rw [hdist]
    by_cases hxv : x = v
    · subst hxv
      obtain ⟨p, hp, hall, hhop⟩ := h.route_queued hv
      refine ⟨_, hp, fun u hu => (hset u).mpr (.inr (hall u hu)), fun _ => ?_⟩
      by_cases ho : L.last x = o
      · -- The path is a single edge.
        rw [hdirect ho]
        rw [ho] at hp ⊢
        obtain ⟨m, htail⟩ := hp.tail
        exact ⟨[], by rw [htail.eq_nil]; rfl⟩
      · rw [hfirst ho]
        exact (hhop ho).cons x
    · obtain ⟨p, hp, hall, hhop⟩ := h.route (((hset x).mp hx).resolve_left hxv)
      rw [hkeep x hxv]
      exact ⟨p, hp, fun u hu => (hset u).mpr (.inr (hall u hu)), hhop⟩
  · intro x n hx hwalk
    rw [hdist]
    rcases (hset x).mp hx with rfl | hx
    · exact h.le_walk hv hmin hwalk
    · exact h.least hx hwalk
  · intro x y w hx he
    rcases (hset x).mp hx with rfl | hx
    · exact .inr (.inr rfl)
    · rw [hdist, hset, hqueue]
      by_cases hyv : y = v
      · exact .inl (.inl hyv)
      · rcases h.edges hx he with hy | hy | hy
        · exact .inl (.inr hy)
        · exact .inr (.inl ⟨⟨hy.1, hyv⟩, hy.2⟩)
        · exact hy.elim
  · intro x hx
    obtain ⟨hq, -⟩ := (hqueue x).mp hx
    obtain ⟨hl, w, he, hd⟩ := h.best hq
    rw [hlast, hdist]
    exact ⟨(hset _).mpr (.inr hl), w, he, hd⟩

/-- Edges to settled vertices need not be looked at. -/
theorem Frontier.weaken (h : Frontier E o rest L)
    (hrest : ∀ {x y m}, E x y m → rest x y m → L.settled y ∨ rest' x y m) :
    Frontier E o rest' L := by
  refine ⟨h.origin, h.dist_origin, h.apart, h.route, h.least, fun {x y m} hx he => ?_, h.best⟩
  rcases h.edges hx he with hy | hy | hy
  · exact .inl hy
  · exact .inr (.inl hy)
  · exact (hrest he hy).imp id .inr

/-- An edge to a vertex that is not settled: it is queued, at the better of the two distances. -/
theorem Frontier.relax (h : Frontier E o rest L) (hu : L.settled u) (he : E u v w)
    (hv : ¬ L.settled v) (hset : L'.settled = L.settled) (hfirst : L'.first = L.first)
    (hqueue : ∀ x, L'.queued x ↔ x = v ∨ L.queued x)
    (hkeep : ∀ x, x ≠ v → L'.dist x = L.dist x ∧ L'.last x = L.last x)
    (hnew : (L'.dist v = L.dist u + w ∧ L'.last v = u ∧ (L.queued v → L.dist u + w ≤ L.dist v)) ∨
      (L.queued v ∧ L.dist v ≤ L.dist u + w ∧ L'.dist v = L.dist v ∧ L'.last v = L.last v))
    (hrest : ∀ {x y m}, rest x y m → rest' x y m ∨ (x = u ∧ y = v ∧ m = w)) :
    Frontier E o rest' L' := by
  have hdist : ∀ {x}, L.settled x → L'.dist x = L.dist x := fun {x} hx =>
    (hkeep x fun heq => hv (heq ▸ hx)).1
  have hle : L'.dist v ≤ L.dist u + w := by
    rcases hnew with ⟨hd, -⟩ | ⟨-, hd, heq, -⟩ <;> omega
  have hold : L.queued v → L'.dist v ≤ L.dist v := by
    intro hq
    rcases hnew with ⟨hd, -, hless⟩ | ⟨-, -, heq, -⟩
    · exact hd ▸ hless hq
    · omega
  refine ⟨hset ▸ h.origin, by rw [hdist h.origin, h.dist_origin], ?_, ?_, ?_, ?_, ?_⟩
  · intro x hx
    rw [hset]
    rcases (hqueue x).mp hx with rfl | hx
    · exact hv
    · exact h.apart hx
  · intro x hx
    rw [hset] at hx
    rw [hdist hx, hset, hfirst]
    exact h.route hx
  · intro x n hx hwalk
    rw [hset] at hx
    rw [hdist hx]
    exact h.least hx hwalk
  · intro x y m hx he'
    rw [hset] at hx
    rw [hset, hdist hx, hqueue]
    rcases h.edges hx he' with hy | hy | hy
    · exact .inl hy
    · refine .inr (.inl ⟨.inr hy.1, ?_⟩)
      by_cases hyv : y = v
      · subst hyv
        exact Nat.le_trans (hold hy.1) hy.2
      · rw [(hkeep y hyv).1]
        exact hy.2
    · rcases hrest hy with hy | ⟨rfl, rfl, rfl⟩
      · exact .inr (.inr hy)
      · exact .inr (.inl ⟨.inl rfl, hle⟩)
  · intro x hx
    rw [hset]
    by_cases hxv : x = v
    · subst hxv
      rcases hnew with ⟨hd, hl, -⟩ | ⟨hq, -, hd, hl⟩
      · rw [hl, hd, hdist hu]
        exact ⟨hu, w, he, rfl⟩
      · obtain ⟨hs, m, hem, hdm⟩ := h.best hq
        rw [hl, hd, hdist hs]
        exact ⟨hs, m, hem, hdm⟩
    · obtain ⟨hs, m, hem, hdm⟩ := h.best (((hqueue x).mp hx).resolve_left hxv)
      rw [(hkeep x hxv).1, (hkeep x hxv).2, hdist hs]
      exact ⟨hs, m, hem, hdm⟩

/-- The search starts with the origin and its edges to look at. -/
theorem Frontier.init (hset : ∀ x, L.settled x ↔ x = o) (hqueue : ∀ x, ¬ L.queued x)
    (hdist : L.dist o = 0) : Frontier E o (fun x _ _ => x = o) L where
  origin := (hset o).mpr rfl
  dist_origin := hdist
  apart hx := absurd hx (hqueue _)
  route {x} hx := by
    obtain rfl := (hset x).mp hx
    rw [hdist]
    exact ⟨[], .start, fun u hu => absurd hu List.not_mem_nil, fun hne => absurd rfl hne⟩
  least {x n} hx _ := by
    obtain rfl := (hset x).mp hx
    rw [hdist]
    omega
  edges hx _ := .inr (.inr ((hset _).mp hx))
  best hx := absurd hx (hqueue _)

/-- With nothing queued, what is settled is what can be reached. -/
theorem Frontier.settled_iff (h : Frontier E o NoRest L) (hqueue : ∀ x, ¬ L.queued x) :
    L.settled v ↔ ∃ n, Walk E o v n := by
  constructor
  · intro hv
    obtain ⟨p, hp, -⟩ := h.route hv
    exact ⟨_, hp.walk⟩
  · rintro ⟨n, hwalk⟩
    by_contra hv
    obtain ⟨x, y, m, w, hx, hy, -, he, -⟩ := hwalk.exits h.origin hv
    rcases h.edges hx he with hs | hq | hr
    · exact hy hs
    · exact hqueue y hq.1
    · exact hr

end ShortestPath

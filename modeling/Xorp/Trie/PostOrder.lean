/-
Iteration in post-order.

The iterators find the next node with parent and child pointers alone.  Here that
walk is tied to the list of the tree's nodes in post-order: one turn of `next()`
goes from a node to its successor in the list, and so `next()` itself returns the
first node with a payload in the rest of the list, unless it leaves the search key
before it gets there.
-/
import Xorp.Trie.Refine

namespace Xorp

open Linked Spine BinTree Option Heap

variable {w : Nat} {P X : Type}

namespace Mem

variable {h : Mem w P X} {a : Label w P X}

section
variable {c : Spine (Label w P X)}
variable {l r t : NodeTree w P X}

theorem leftmostLoop_eq (fuel : Nat) (u : Option Nat) (i : Nat) (ht : Linked.Laid h u t)
    (hi : t.ptr = some i) (hfuel : t.height < fuel) :
    ∃ b, t.leftmost = some b ∧ leftmostLoop fuel h i = .ok b.1 := by
  induction t generalizing fuel u i with
  | nil => simp at hi
  | node a l r ihl ihr =>
    obtain rfl : a.1 = i := some.inj hi
    obtain ⟨fuel, rfl⟩ := exists_fuel hfuel
    simp only [height] at hfuel
    rw [leftmostLoop, read_eq ht.1, ok_bind]
    cases l with
    | node b l l' =>
      obtain ⟨d, hd, hrun⟩ := ihl fuel _ b.1 ht.2.1 rfl (by omega)
      exact ⟨d, hd, hrun⟩
    | nil =>
      cases r with
      | node b r r' =>
        obtain ⟨d, hd, hrun⟩ := ihr fuel _ b.1 ht.2.2 rfl (by omega)
        exact ⟨d, hd, hrun⟩
      | nil => exact ⟨a, rfl, rfl⟩

/-- `leftmost` of a subtree is the first of its nodes in post-order. -/
theorem leftmost_eq (H : Holds h (plug c t)) (hne : t ≠ .nil) :
    ∃ i b rest, t.ptr = some i ∧ t.nodes = b :: rest ∧ h.leftmost i = .ok b.1 := by
  have hle := H.height_le
  have hplug := height_plug_le c t
  cases t with
  | nil => contradiction
  | node a l r =>
    obtain ⟨b, hb, hrun⟩ := leftmostLoop_eq h.bound _ a.1 H.laid_focus rfl
      (by rw [bound]; omega)
    rw [leftmost_eq_head?, List.head?_eq_some_iff] at hb
    obtain ⟨rest, hrest⟩ := hb
    exact ⟨a.1, b, rest, rfl, hrest, hrun⟩

/-- **One turn of `next()` goes to the successor in post-order.** -/
theorem iterStep_eq (H : Holds h (plug c (.node a l r))) :
    h.iterStep a.1 = .ok ((after c).head?.map Prod.fst) := by
  rw [iterStep, read_eq H.cell, ok_bind]
  rcases c with _ | ⟨f, c⟩
  · rfl
  · have hcell := H.laid_path.1
    simp only [up, read_eq hcell, ok_bind]
    cases f with
    | left b s =>
      rw [Frame.cell, ptr_node, if_pos rfl]
      cases hs : s.ptr with
      | none =>
        rw [ptr_eq_none] at hs
        subst hs
        rfl
      | some j =>
        have hne : s ≠ .nil := by
          rintro rfl
          simp at hs
        obtain ⟨i, d, rest, hi, hnodes, hrun⟩ :=
          leftmost_eq (c := .right b (.node a l r) :: c) H hne
        obtain rfl : i = j := some.inj (hi.symm.trans hs)
        simp only [hrun, ok_bind, after, Frame.after, hnodes]
        rfl
    | right b s =>
      have hne : s.ptr ≠ some a.1 := by
        intro hc
        refine H.nodup_parts.2.2 a.1 (mem_ids_cons.mpr (Or.inr (Or.inl ?_))) (by simp)
        cases s with
        | nil => simp at hc
        | node d s s' =>
          rw [ptr_node, some_inj] at hc
          simp [Frame.other, hc]
      rw [Frame.cell, if_neg hne]
      rfl

end

/-! ### The rest of the walk -/

/-- The first node with a payload, as long as the walk stays inside the key `ρ`. -/
def scan (ρ : IPNet w) : List (Nat × Node w P X) → Option (Nat × Node w P X)
  | [] => none
  | b :: rest =>
      if ρ.contains (nodeKey b) then if nodeFull b then some b else scan ρ rest else none

theorem scan_any_eq (ys : List (Label w P X)) : scan (IPNet.any w) ys = ys.find? nodeFull := by
  induction ys with
  | nil => rfl
  | cons b ys ih =>
    rw [scan, if_pos IPNet.any_contains, List.find?_cons, ih]
    by_cases hf : nodeFull b = true
    · rw [if_pos hf, hf]
    · rw [if_neg hf, Bool.eq_false_iff.mpr hf]

section
variable {t : NodeTree w P X}

variable {xs ys : List (Label w P X)}

/-- A node splits the post-order in one way only. -/
theorem after_unique {c : Spine (Label w P X)} {l r : NodeTree w P X}
    (hnd : (plug c (.node a l r)).ids.Nodup) (hsplit : (plug c (.node a l r)).nodes =
      xs ++ a :: ys) :
    after c = ys := by
  have hnd' : (plug c (.node a l r)).nodes.Nodup := List.Nodup.of_map _ hnd
  have hnodes : (plug c (.node a l r)).nodes = (before c ++ (l.nodes ++ r.nodes)) ++ a :: after c := by
    rw [nodes_plug]
    simp
  rw [hnodes] at hsplit hnd'
  rw [List.append_eq_append_iff] at hsplit
  rw [List.nodup_append] at hnd'
  rcases hsplit with ⟨zs, rfl, hzs⟩ | ⟨zs, hxs, hzs⟩
  · cases zs with
    | nil => simpa using hzs
    | cons z zs =>
      obtain ⟨rfl, hzs⟩ := List.cons.inj hzs
      exact absurd (hnd'.2.1) (by simp [hzs])
  · cases zs with
    | nil => simpa using hzs.symm
    | cons z zs =>
      obtain ⟨rfl, hzs⟩ := List.cons.inj hzs
      exact absurd rfl (hnd'.2.2 a (by simp [hxs]) a (by simp))

/-- **`next()` scans the rest of the post-order.** -/
theorem nextLoop_eq (H : Holds h t) (ρ : IPNet w) (ys xs : List (Label w P X)) (a : Label w P X)
    (fuel : Nat) (hsplit : t.nodes = xs ++ a :: ys) (hfuel : ys.length < fuel) :
    nextLoop ρ fuel h a.1 = .ok ((scan ρ ys).map Prod.fst) := by
  induction ys generalizing xs a fuel with
  | nil =>
    obtain ⟨fuel, rfl⟩ := exists_fuel hfuel
    obtain ⟨c, l, r, rfl⟩ := exists_plug (show a ∈ t.nodes by simp [hsplit])
    rw [nextLoop, iterStep_eq H, after_unique H.nodup hsplit]
    rfl
  | cons b ys ih =>
    obtain ⟨fuel, rfl⟩ := exists_fuel hfuel
    rw [List.length_cons] at hfuel
    obtain ⟨cell, hcell, hdata⟩ := H.cell_of_mem (show b ∈ t.nodes by simp [hsplit])
    have hrest := ih (xs ++ [a]) b fuel (by simp [hsplit]) (by omega)
    obtain ⟨c, l, r, rfl⟩ := exists_plug (show a ∈ t.nodes by simp [hsplit])
    rw [nextLoop, iterStep_eq H, after_unique H.nodup hsplit]
    simp only [List.head?_cons, map_some, ok_bind, read_eq hcell, hdata, hrest, scan]
    show (if ρ.contains (nodeKey b) then if nodeFull b then _ else _ else _) = _
    by_cases hc : ρ.contains (nodeKey b) = true
    · rw [if_pos hc, if_pos hc]
      by_cases hf : nodeFull b = true
      · rw [if_pos hf, if_pos hf]
        rfl
      · rw [if_neg hf, if_neg hf]
    · rw [if_neg hc, if_neg hc]
      rfl

theorem iterNext_eq (H : Holds h t) (ρ : IPNet w) (hsplit : t.nodes = xs ++ a :: ys) :
    h.iterNext ρ a.1 = .ok ((scan ρ ys).map Prod.fst) := by
  refine nextLoop_eq H ρ ys xs a _ hsplit ?_
  have hlen := H.length_le
  rw [BinTree.ids, List.length_map, hsplit, List.length_append, List.length_cons] at hlen
  rw [bound]
  omega

end

end Mem

end Xorp

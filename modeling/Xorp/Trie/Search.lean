/-
Searches that end where an iteration starts.

`begin()` climbs as long as the parent lies inside the search key and then goes down
to the left; `lower_bound` climbs to the first subtree that comes after its key and
goes down to the left of that.  Both end at the first node, in post-order, of some
subtree.  Such a node is a leaf, so it has a payload.
-/
import Xorp.Trie.PostOrder

namespace Xorp

open Linked Spine BinTree Option Heap IPNet

variable {w : Nat} {P X : Type}

/-! ### Where an iteration begins -/

namespace Mem

/-- The highest of the ancestors above a subtree, taken one after the other, that lie
inside the search key. -/
def ascend (ρ : IPNet w) : Spine (Nat × Node w P X) → BinTree (Nat × Node w P X) →
    BinTree (Nat × Node w P X)
  | [], t => t
  | f :: c, t => if ρ.contains (nodeKey f.label) then ascend ρ c (f.fill t) else t

variable {h : Mem w P X} {c : Spine (Label w P X)} {a : Label w P X} {l r t : NodeTree w P X}

/-- Where the climb ends is itself a position of the tree. -/
theorem exists_ascend (ρ : IPNet w) (t : NodeTree w P X) :
    ∃ c', plug c t = plug c' (ascend ρ c t) := by
  induction c generalizing t with
  | nil => exact ⟨[], rfl⟩
  | cons f c ih =>
    rw [ascend]
    by_cases hc : ρ.contains (nodeKey f.label) = true
    · rw [if_pos hc]
      exact ih (f.fill t)
    · rw [if_neg hc]
      exact ⟨f :: c, rfl⟩

theorem ascend_ne_nil (ρ : IPNet w) (hne : t ≠ .nil) :
    ascend ρ c t ≠ .nil := by
  induction c generalizing t with
  | nil => exact hne
  | cons f c ih =>
    rw [ascend]
    split_ifs
    · exact ih (by cases f <;> simp [Frame.fill])
    · exact hne

/-- A search key that contains everything takes the climb to the root. -/
theorem ascend_any : ascend (any w) c t = plug c t := by
  induction c generalizing t with
  | nil => rfl
  | cons f c ih => rw [ascend, if_pos any_contains, ih, plug_cons]

section
variable (ρ : IPNet w) (H : Holds h (plug c (.node a l r)))
include H

theorem beginLoop_eq (fuel : Nat) (hfuel : c.length < fuel) :
    ∃ i, (ascend ρ c (.node a l r)).ptr = some i ∧ beginLoop ρ fuel h a.1 = .ok i := by
  induction c generalizing a l r fuel with
  | nil =>
    obtain ⟨fuel, rfl⟩ := exists_fuel hfuel
    refine ⟨a.1, rfl, ?_⟩
    rw [beginLoop, read_eq H.cell]
    rfl
  | cons f c ih =>
    obtain ⟨fuel, rfl⟩ := exists_fuel hfuel
    rw [List.length_cons] at hfuel
    have hcell := H.laid_path.1
    rw [beginLoop, read_eq H.cell, ok_bind, ascend]
    simp only [up, read_eq hcell, ok_bind, Frame.data_cell]
    by_cases hc : ρ.contains (nodeKey f.label) = true
    · rw [if_pos hc, if_pos (show ρ.contains f.label.2.k = true from hc)]
      cases f with
      | left b s => exact ih H fuel (by omega)
      | right b s => exact ih H fuel (by omega)
    · rw [if_neg hc, if_neg (show ¬ ρ.contains f.label.2.k = true from hc)]
      exact ⟨a.1, rfl, rfl⟩

/-- **Where `begin()` goes**: to the first node of the subtree it climbs to. -/
theorem iterBegin_eq :
    ∃ b rest, (ascend ρ c (.node a l r)).nodes = b :: rest ∧ h.iterBegin ρ a.1 = .ok b.1 := by
  have hlen := length_le_next H
  obtain ⟨i, hi, hrun⟩ := beginLoop_eq ρ H h.bound (by rw [bound]; omega)
  obtain ⟨c', hplug⟩ := exists_ascend ρ (.node a l r)
  have H' := H
  rw [hplug] at H'
  obtain ⟨j, b, rest, hj, hnodes, hleft⟩ := leftmost_eq H' (ascend_ne_nil ρ (by simp))
  obtain rfl : j = i := some.inj (hj.symm.trans hi)
  refine ⟨b, rest, hnodes, ?_⟩
  rw [iterBegin, hrun]
  exact hleft

end

theorem first_entry (hw : PrefixTree.WF nodeKey nodeFull (plug c t)) {b : Label w P X}
    {rest : List (Label w P X)} (hnodes : t.nodes = b :: rest) :
    b ∈ (plug c t).nodes ∧ nodeFull b = true := by
  refine ⟨?_, hw.focus.full_of_first hnodes⟩
  rw [nodes_plug, hnodes]
  simp

theorem iterBegin_entry (ρ : IPNet w) (H : Holds h t)
    (hw : PrefixTree.WF nodeKey nodeFull t) (ha : a ∈ t.nodes) :
    ∃ b ∈ t.nodes, nodeFull b = true ∧ h.iterBegin ρ a.1 = .ok b.1 := by
  obtain ⟨c, l, r, rfl⟩ := exists_plug ha
  obtain ⟨b, rest, hnodes, hrun⟩ := iterBegin_eq ρ H
  obtain ⟨c', hplug⟩ := exists_ascend ρ (.node a l r)
  rw [hplug] at hw ⊢
  obtain ⟨hb, hf⟩ := first_entry hw hnodes
  exact ⟨b, hb, hf, hrun⟩

/-- With the whole space as the search key it is the first entry of the tree. -/
theorem iterBegin_any (H : Holds h t) (ha : a ∈ t.nodes) :
    ∃ b rest, t.nodes = b :: rest ∧ h.iterBegin (any w) a.1 = .ok b.1 := by
  obtain ⟨c, l, r, rfl⟩ := exists_plug ha
  have hbegin := iterBegin_eq (any w) H
  rwa [ascend_any] at hbegin

theorem ptrAfter_eq {u : Option Nat} (ht : Linked.Laid h u t) (key : IPNet w) :
    h.ptrAfter key t.ptr = .ok (t.top.any fun b => key.lt (nodeKey b)) := by
  cases t with
  | nil => rfl
  | node a l r =>
    rw [ptr_node, ptrAfter, read_eq ht.1]
    rfl

end Mem

/-! ### `lower_bound` on the tree -/

namespace PrefixTree

variable {α : Type}

section
variable (key : α → IPNet w) (full : α → Bool) (k : IPNet w)

/-- The first label of the first of two subtrees that comes after the key. -/
def beside (l r : BinTree α) : Option α :=
  if l.top.any fun b => k.lt (key b) then l.leftmost
  else if r.top.any fun b => k.lt (key b) then r.leftmost
  else none

/-- The climb from the deepest node that contains the key, seen from above: what the way
down leads to, or else what stands beside it. -/
def upward : BinTree α → Option α
  | .nil => none
  | .node _ l r =>
      (if rootContains key k l then upward l else if rootContains key k r then upward r
        else none).or (beside key k l r)

/-- The key's own label if it is stored; if it is not, the second of all stored labels, for
the code starts over from the first one. -/
def lowerBound (t : BinTree α) : Option α :=
  match lookup key (fun _ => true) k t with
  | some d => if full d then some d else t.nodes.tail.find? full
  | none => upward key k t

end

section
variable {key : α → IPNet w} {full : α → Bool} {k : IPNet w}

variable {t : BinTree α} {b : α}

theorem exists_find (hc : rootContains key k t = true) :
    ∃ d, find key (fun _ => true) k t = some d := by
  cases t with
  | nil => simp [rootContains] at hc
  | node x l r =>
    rw [find, if_pos (show (key x).contains k = true from hc), if_pos rfl]
    cases (if rootContains key k l = true then find key (fun _ => true) k l
      else find key (fun _ => true) k r) with
    | none => exact ⟨x, rfl⟩
    | some d => exact ⟨d, rfl⟩

theorem find_of_not_rootContains {sel : α → Bool} (hc : rootContains key k t = false) :
    find key sel k t = none := by
  cases t with
  | nil => rfl
  | node x l r => exact if_neg (by rw [rootContains] at hc; simp [hc])

theorem WF.leftmost_mem (h : WF key full t) (hb : t.leftmost = some b) :
    b ∈ t.nodes ∧ full b = true := by
  rw [leftmost_eq_head?, List.head?_eq_some_iff] at hb
  obtain ⟨rest, hrest⟩ := hb
  exact ⟨by simp [hrest], h.full_of_first hrest⟩

theorem WF.beside_mem {x : α} {l r : BinTree α} (h : WF key full (.node x l r))
    (hb : beside key k l r = some b) : b ∈ (node x l r).nodes ∧ full b = true := by
  rw [beside] at hb
  split_ifs at hb
  · obtain ⟨hmem, hf⟩ := h.2.2.2.1.leftmost_mem hb
    exact ⟨mem_nodes_node.mpr (.inr (.inl hmem)), hf⟩
  · obtain ⟨hmem, hf⟩ := h.2.2.2.2.leftmost_mem hb
    exact ⟨mem_nodes_node.mpr (.inr (.inr hmem)), hf⟩

theorem WF.upward_mem (h : WF key full t) (hb : upward key k t = some b) :
    b ∈ t.nodes ∧ full b = true := by
  induction t with
  | nil => simp [upward] at hb
  | node x l r ihl ihr =>
    rcases or_eq_some_iff.mp hb with hb | ⟨-, hb⟩
    · split_ifs at hb
      · obtain ⟨hmem, hf⟩ := ihl h.2.2.2.1 hb
        exact ⟨mem_nodes_node.mpr (.inr (.inl hmem)), hf⟩
      · obtain ⟨hmem, hf⟩ := ihr h.2.2.2.2 hb
        exact ⟨mem_nodes_node.mpr (.inr (.inr hmem)), hf⟩
    · exact h.beside_mem hb

/-- The node the climb starts from, the deepest one that contains the key or the root, and
whether it is the key's own. -/
theorem exists_candidate (h : WF key full t) (hne : t ≠ .nil) :
    ∃ a, (find key (fun _ => true) k t).or t.top = some a ∧ a ∈ t.nodes ∧
      (key a = k → lookup key (fun _ => true) k t = some a) ∧
      (key a ≠ k → lookup key (fun _ => true) k t = none) := by
  cases t with
  | nil => contradiction
  | node b l r =>
    cases hf : find key (fun _ => true) k (.node b l r) with
    | none =>
      have hnot := (find_eq_none h).mp hf b (by simp) rfl
      refine ⟨b, rfl, by simp, fun hk => ?_, fun _ => by rw [lookup, hf]; rfl⟩
      rw [hk, contains_refl] at hnot
      simp at hnot
    | some d =>
      have hmem := (find_longest h hf).mem
      refine ⟨d, rfl, hmem, fun hk => (lookup_eq_some h).mpr ⟨hmem, rfl, hk⟩, fun hk => ?_⟩
      rw [lookup, hf, filter_some, if_neg fun hc => hk (of_decide_eq_true hc)]

theorem WF.lowerBound_mem (h : WF key full t) (hb : lowerBound key full k t = some b) :
    b ∈ t.nodes ∧ full b = true := by
  rw [lowerBound] at hb
  cases hd : lookup key (fun _ => true) k t with
  | none =>
    rw [hd] at hb
    exact h.upward_mem hb
  | some d =>
    rw [hd] at hb
    have hmem := ((lookup_eq_some h).mp hd).1
    simp only at hb
    split_ifs at hb with hf
    · cases hb
      exact ⟨hmem, hf⟩
    · exact ⟨List.mem_of_mem_tail (List.mem_of_find?_eq_some hb), List.find?_some hb⟩

end

end PrefixTree

/-! ### The loops of `lower_bound` -/

namespace Mem

open PrefixTree (WF upward beside rootContains exists_find)

section
variable {h : Mem w P X} {u : Option Nat} {a : Label w P X}
variable {l r t : NodeTree w P X}

theorem candidate_eq {o : Option (Label w P X)} (hroot : h.root = t.ptr)
    (ha : o.or t.top = some a) : (o.map Prod.fst).or h.root = some a.1 := by
  rw [hroot, ptr, ← map_or, ha]
  rfl

theorem ptrLeftmost_eq (ht : Linked.Laid h u t) (hb : t.height < h.bound) (hne : t ≠ .nil) :
    h.ptrLeftmost t.ptr = .ok (t.leftmost.map Prod.fst) := by
  cases t with
  | nil => contradiction
  | node a l r =>
    obtain ⟨b, hleft, hrun⟩ := leftmostLoop_eq h.bound _ a.1 ht rfl hb
    rw [hleft, ptr_node, ptrLeftmost, leftmost, hrun]
    rfl

theorem lowerBoundLoop_step (key : IPNet w) (fuel : Nat) (ht : Linked.Laid h u (.node a l r))
    (hb : (node a l r).height ≤ h.bound) :
    lowerBoundLoop key (fuel + 1) h (some a.1) = match beside nodeKey key l r with
      | some b => .ok (some b.1)
      | none => lowerBoundLoop key fuel h u := by
  obtain ⟨hcell, hl, hr⟩ := ht
  rw [height] at hb
  have hsome : ∀ {s : NodeTree w P X} {v : Option Nat}, Linked.Laid h v s →
      s.height < h.bound → (s.top.any fun b => key.lt (nodeKey b)) = true →
      ∃ b, s.leftmost = some b ∧ h.ptrLeftmost s.ptr = .ok (some b.1) := by
    intro s v hs hsb htop
    cases s with
    | nil => simp at htop
    | node b sl sr =>
      have hrun := ptrLeftmost_eq hs hsb (by simp)
      cases hleft : (node b sl sr).leftmost with
      | none =>
        rw [leftmost_eq_head?] at hleft
        simp at hleft
      | some d =>
        rw [hleft] at hrun
        exact ⟨d, rfl, hrun⟩
  rw [lowerBoundLoop, read_eq hcell, ok_bind, ptrAfter_eq hl, ok_bind, ptrAfter_eq hr, beside]
  by_cases hleft : (l.top.any fun b => key.lt (nodeKey b)) = true
  · obtain ⟨b, hb, hrun⟩ := hsome hl (by omega) hleft
    rw [if_pos hleft, if_pos hleft, hb, hrun]
  · rw [if_neg hleft, if_neg hleft, ok_bind]
    by_cases hright : (r.top.any fun b => key.lt (nodeKey b)) = true
    · obtain ⟨b, hb, hrun⟩ := hsome hr (by omega) hright
      rw [if_pos hright, if_pos hright, hb, hrun]
    · rw [if_neg hright, if_neg hright]

/-- **The climb of `lower_bound`** from the deepest node of a subtree that contains the key:
it ends inside, or leaves at the top. -/
theorem lowerBoundLoop_upward (key : IPNet w) (u : Option Nat) (d : Label w P X)
    (ht : Linked.Laid h u t) (hb : t.height ≤ h.bound)
    (hd : PrefixTree.find nodeKey (fun _ => true) key t = some d) :
    ∃ n, n ≤ t.height ∧ ∀ fuel, lowerBoundLoop key (fuel + n) h (some d.1)
      = match upward nodeKey key t with
        | some b => .ok (some b.1)
        | none => lowerBoundLoop key fuel h u := by
  induction t generalizing u d with
  | nil => simp [PrefixTree.find] at hd
  | node a l r ihl ihr =>
    have hstep := fun fuel => lowerBoundLoop_step key fuel ht hb
    -- after a subtree has been left, the climb is at `a`
    have hup : ∀ (s : NodeTree w P X) (m : Nat), m ≤ s.height →
        (∀ fuel, lowerBoundLoop key (fuel + m) h (some d.1) = match upward nodeKey key s with
            | some b => .ok (some b.1)
            | none => lowerBoundLoop key fuel h (some a.1)) →
        ∀ fuel, lowerBoundLoop key (fuel + (m + 1)) h (some d.1)
          = match (upward nodeKey key s).or (beside nodeKey key l r) with
            | some b => .ok (some b.1)
            | none => lowerBoundLoop key fuel h u := by
      intro s m _ hs fuel
      rw [show fuel + (m + 1) = (fuel + 1) + m by omega, hs (fuel + 1)]
      cases upward nodeKey key s with
      | some b => rfl
      | none => exact hstep fuel
    rw [height] at hb
    rw [PrefixTree.find] at hd
    have hc : (nodeKey a).contains key = true := by
      by_contra hc
      rw [if_neg hc] at hd
      simp at hd
    rw [if_pos hc] at hd
    rw [upward, height]
    by_cases hl : rootContains nodeKey key l = true
    · rw [if_pos hl] at hd ⊢
      obtain ⟨d', hd'⟩ := exists_find hl
      rw [hd', some_or] at hd
      obtain ⟨m, hm, hrun⟩ := ihl (some a.1) d ht.2.1 (by omega) (hd'.trans hd)
      exact ⟨m + 1, by omega, hup l m hm hrun⟩
    · rw [if_neg hl] at hd ⊢
      by_cases hr : rootContains nodeKey key r = true
      · rw [if_pos hr]
        obtain ⟨d', hd'⟩ := exists_find hr
        rw [hd', some_or] at hd
        obtain ⟨m, hm, hrun⟩ := ihr (some a.1) d ht.2.2 (by omega) (hd'.trans hd)
        exact ⟨m + 1, by omega, hup r m hm hrun⟩
      · rw [PrefixTree.find_of_not_rootContains (Bool.not_eq_true _ ▸ hr), none_or,
          if_pos rfl] at hd
        cases hd
        rw [if_neg hr, none_or]
        exact ⟨1, by omega, hstep⟩

/-- **`lower_bound`'s climb on the tree**, from the deepest node that contains the key, or
from the root. -/
theorem lowerBoundLoop_eq (H : Holds h t) (hw : WF nodeKey nodeFull t) (key : IPNet w)
    {d : Label w P X}
    (hd : (PrefixTree.find nodeKey (fun _ => true) key t).or t.top = some d) :
    lowerBoundLoop key h.bound h (some d.1) = .ok ((upward nodeKey key t).map Prod.fst) := by
  have hle := H.height_le
  -- above the root there is nothing
  have hend : ∀ (o : Option (Label w P X)) (fuel : Nat), 0 < fuel → (match o with
        | some b => .ok (some b.1)
        | none => lowerBoundLoop key fuel h none) = Except.ok (o.map Prod.fst) := by
    intro o fuel hpos
    obtain ⟨fuel, rfl⟩ := exists_fuel hpos
    cases o with
    | none => rfl
    | some b => rfl
  cases hf : PrefixTree.find nodeKey (fun _ => true) key t with
  | some d' =>
    rw [hf, some_or, some_inj] at hd
    subst hd
    obtain ⟨n, hn, hrun⟩ := lowerBoundLoop_upward key none d' H.laid (by rw [bound]; omega) hf
    have hfuel : h.bound = (h.bound - n) + n := by rw [bound]; omega
    rw [hfuel, hrun]
    exact hend _ _ (by rw [bound]; omega)
  | none =>
    rw [hf, none_or] at hd
    cases t with
    | nil => simp at hd
    | node a l r =>
      obtain rfl := some.inj hd
      have hnot := (PrefixTree.find_eq_none hw).mp hf
      have hchild : ∀ s : NodeTree w P X, (∀ b ∈ s.nodes, b ∈ (node a l r).nodes) →
          rootContains nodeKey key s = false := by
        intro s hs
        cases s with
        | nil => rfl
        | node b sl sr => exact hnot b (hs b (by simp)) rfl
      have hfuel : h.bound = (2 * h.next + 1) + 1 := by rw [bound]
      rw [hfuel, lowerBoundLoop_step key _ H.laid (by rw [bound]; omega), upward,
        if_neg (by simp [hchild l fun b hb => mem_nodes_node.mpr (.inr (.inl hb))]),
        if_neg (by simp [hchild r fun b hb => mem_nodes_node.mpr (.inr (.inr hb))]),
        none_or]
      exact hend _ _ (by omega)

end

end Mem

end Xorp

/-
The range of addresses around one that share its route.

`find_bounds` starts at the longest match and walks down towards the address, narrowing
the range by what it passes.  On the tree this is `bounds`; a flag says whether the walk
raises the lower bound when it turns right, as `TrieNode` does and `RefTrieNode` does not.
-/
import Xorp.Trie.Shape

namespace Xorp

open Linked Spine Heap BinTree IPNet Option PrefixTree

variable {w : Nat} {P X : Type} {α : Type}

namespace PrefixTree

/-! ### The bounds in a tree -/

/-- The lowest address of a subtree that is stored. -/
def low (key : α → IPNet w) (full : α → Bool) : BinTree α → BitVec w
  | .nil => 0
  | .node a l r =>
      if full a then (key a).maskedAddr
      else if l.top.isSome then low key full l
      else if r.top.isSome then low key full r
      else (key a).maskedAddr

/-- The highest address of a subtree that is stored. -/
def high (key : α → IPNet w) (full : α → Bool) : BinTree α → BitVec w
  | .nil => 0
  | .node a l r =>
      if full a then (key a).topAddr
      else if r.top.isSome then high key full r
      else if l.top.isSome then high key full l
      else (key a).topAddr

/-- The walk down from a node that contains the address, with the bounds so far. -/
def bounds (key : α → IPNet w) (full : α → Bool) (raise : Bool) (a : BitVec w) :
    BitVec w × BitVec w → BinTree α → BitVec w × BitVec w
  | b, .nil => b
  | b, .node _ l r =>
      match l.top, r.top with
      | none, none => b
      | some x, none =>
          if a < (key x).maskedAddr then (b.1, low key full l - 1)
          else if a ≤ (key x).topAddr then bounds key full raise a b l
          else (high key full l + 1, b.2)
      | none, some x =>
          if a < (key x).maskedAddr then (b.1, low key full r - 1)
          else if a ≤ (key x).topAddr then bounds key full raise a b r
          else (high key full r + 1, b.2)
      | some x, some y =>
          if a < (key x).maskedAddr then (b.1, low key full l - 1)
          else if a ≤ (key x).topAddr then bounds key full raise a b l
          else if a < (key y).maskedAddr then (high key full l + 1, low key full r - 1)
          else if a ≤ (key y).topAddr then
            bounds key full raise a (if raise then high key full l + 1 else b.1, b.2) r
          else (high key full r + 1, b.2)

/-- The subtree at the most specific selected label on the way down to `k`. -/
def descend (key : α → IPNet w) (sel : α → Bool) (k : IPNet w) : BinTree α → BinTree α
  | .nil => .nil
  | .node a l r =>
      if (key a).contains k then
        match if rootContains key k l then descend key sel k l else descend key sel k r with
        | .nil => if sel a then .node a l r else .nil
        | .node b l' r' => .node b l' r'
      else .nil

/-- The walk from a default entry above the root.  It does not read the label it starts
with. -/
def defaultBounds (key : α → IPNet w) (full : α → Bool) (raise : Bool) (a : BitVec w) :
    BinTree α → BitVec w × BitVec w
  | .nil => ((IPNet.any w).maskedAddr, (IPNet.any w).topAddr)
  | .node x l r => bounds key full raise a ((IPNet.any w).maskedAddr, (IPNet.any w).topAddr)
      (.node x (.node x l r) .nil)

/-- The range around `a`: the walk from the longest match, if there is one. -/
def findBounds (key : α → IPNet w) (full : α → Bool) (raise : Bool) (a : BitVec w)
    (t : BinTree α) : BitVec w × BitVec w :=
  match descend key full (IPNet.host a) t with
  | .node e l r => bounds key full raise a ((key e).maskedAddr, (key e).topAddr) (.node e l r)
  | .nil => defaultBounds key full raise a t

section
variable {key : α → IPNet w} {sel : α → Bool}

theorem descend_node (k : IPNet w) (a : α) (l r : BinTree α) :
    descend key sel k (.node a l r) = if (key a).contains k then
      match descend key sel k (if rootContains key k l then l else r) with
      | .nil => if sel a then .node a l r else .nil
      | .node b l' r' => .node b l' r'
    else .nil := by
  rw [descend, apply_ite (descend key sel k)]

theorem top_descend (k : IPNet w) (t : BinTree α) :
    (descend key sel k t).top = find key sel k t := by
  induction t with
  | nil => rfl
  | node a l r ihl ihr =>
    rw [descend_node, find, ← ihl, ← ihr, ← apply_ite top, ← apply_ite (descend key sel k)]
    by_cases hc : (key a).contains k = true
    · rw [if_pos hc, if_pos hc]
      cases descend key sel k (if rootContains key k l then l else r) with
      | nil => exact apply_ite top (sel a = true) (.node a l r) .nil
      | node b l' r' => rfl
    · rw [if_neg hc, if_neg hc]
      rfl

/-- Where the walk ends is a position of the tree. -/
theorem exists_descend (k : IPNet w) (t : BinTree α) (hne : descend key sel k t ≠ .nil) :
    ∃ c, t = plug c (descend key sel k t) := by
  suffices hs : ∀ c₀ : Spine α, ∃ c, plug c₀ t = plug c (descend key sel k t) from hs []
  induction t with
  | nil => contradiction
  | node a l r ihl ihr =>
    intro c₀
    -- on the side the walk takes
    have hside : descend key sel k (if rootContains key k l then l else r) ≠ .nil →
        ∃ c, plug c₀ (.node a l r) =
          plug c (descend key sel k (if rootContains key k l then l else r)) := by
      split_ifs
      · exact fun hl => ihl hl (.left a r :: c₀)
      · exact fun hr => ihr hr (.right a l :: c₀)
    rw [descend_node] at hne ⊢
    by_cases hc : (key a).contains k = true
    · rw [if_pos hc] at hne ⊢
      cases hd : descend key sel k (if rootContains key k l then l else r) with
      | nil =>
        simp only [hd] at hne ⊢
        split_ifs at hne ⊢
        · exact ⟨c₀, rfl⟩
        · contradiction
      | node b l' r' =>
        rw [hd] at hside
        exact hside (by simp)
    · exact absurd (if_neg hc) hne

end

end PrefixTree

/-! ### The loops -/

namespace Mem

section
variable {C : NodeClass X} {h : Mem w P X} {t l r : NodeTree w P X}

theorem lowLoop_eq (fuel : Nat) (u : Option Nat) (i : Nat) (ht : Linked.Laid h u t)
    (hi : t.ptr = some i) (hfuel : t.height < fuel) :
    lowLoop C fuel h i = .ok (PrefixTree.low nodeKey (nodeActive C) t) := by
  induction t generalizing fuel u i with
  | nil => simp at hi
  | node a l r ihl ihr =>
    obtain rfl : a.1 = i := some.inj hi
    obtain ⟨fuel, rfl⟩ := exists_fuel hfuel
    simp only [height] at hfuel
    rw [lowLoop, read_eq ht.1, ok_bind, PrefixTree.low]
    by_cases hact : a.2.active C = true
    · rw [if_pos hact, if_pos (show nodeActive C a = true from hact)]
      rfl
    · rw [if_neg hact, if_neg (show ¬ nodeActive C a = true from hact)]
      cases l with
      | node b l l' => exact ihl fuel _ b.1 ht.2.1 rfl (by omega)
      | nil =>
        cases r with
        | node b r r' => exact ihr fuel _ b.1 ht.2.2 rfl (by omega)
        | nil => rfl

theorem highLoop_eq (fuel : Nat) (u : Option Nat) (i : Nat) (ht : Linked.Laid h u t)
    (hi : t.ptr = some i) (hfuel : t.height < fuel) :
    highLoop C fuel h i = .ok (PrefixTree.high nodeKey (nodeActive C) t) := by
  induction t generalizing fuel u i with
  | nil => simp at hi
  | node a l r ihl ihr =>
    obtain rfl : a.1 = i := some.inj hi
    obtain ⟨fuel, rfl⟩ := exists_fuel hfuel
    simp only [height] at hfuel
    rw [highLoop, read_eq ht.1, ok_bind, PrefixTree.high]
    by_cases hact : a.2.active C = true
    · rw [if_pos hact, if_pos (show nodeActive C a = true from hact)]
      rfl
    · rw [if_neg hact, if_neg (show ¬ nodeActive C a = true from hact)]
      cases r with
      | node b r r' => exact ihr fuel _ b.1 ht.2.2 rfl (by omega)
      | nil =>
        cases l with
        | node b l l' => exact ihl fuel _ b.1 ht.2.1 rfl (by omega)
        | nil => rfl

/-- What a class does before a right turn, on the tree. -/
def Turns (C : NodeClass X) (turn : Mem w P X → Nat → BitVec w → Except Fault (BitVec w))
    (raise : Bool) (a : BitVec w) (h : Mem w P X) : Prop :=
  ∀ (u : Option Nat) (x : Nat × Node w P X) (l r : BinTree (Nat × Node w P X)) (lo : BitVec w),
    Linked.Laid h u (.node x l r) → (BinTree.node x l r).height < h.bound → ¬ a ≤ x.2.k.topAddr →
    turn h x.1 lo
      = .ok (if raise then PrefixTree.high nodeKey (nodeActive C) (.node x l r) + 1 else lo)

theorem turns_raiseLow (a : BitVec w) : Turns C (raiseLow C a) true a h := by
  intro u x l r lo ht hb ha
  rw [raiseLow, read_eq ht.1, ok_bind]
  rw [if_pos (show x.2.k.topAddr < a from BitVec.not_le.mp ha), high, highLoop_eq _ _ _ ht rfl hb]
  rfl

theorem turns_keepLow (a : BitVec w) : Turns C keepLow false a h := by
  intro u x l r lo _ _ _
  rfl

variable {x : Label w P X} {u : Option Nat} {a : BitVec w}

section
variable (ht : Linked.Laid h u (.node x l r)) (hb : (node x l r).height < h.bound)
include ht hb

theorem low_eq : h.low C x.1 = .ok (PrefixTree.low nodeKey (nodeActive C) (.node x l r)) :=
  lowLoop_eq _ _ _ ht rfl hb

theorem high_eq : h.high C x.1 = .ok (PrefixTree.high nodeKey (nodeActive C) (.node x l r)) :=
  highLoop_eq _ _ _ ht rfl hb

end

variable {turn : Mem w P X → Nat → BitVec w → Except Fault (BitVec w)} {v : Option Nat}
  {d : Node w P X} {raise : Bool}

theorem position_one {n : Cell (Node w P X)} (hx : Linked.Laid h u (.node x l r))
    (hn : n = ⟨v, some x.1, none, d⟩ ∨ n = ⟨v, none, some x.1, d⟩) :
    h.position a n = .ok (if a < x.2.k.maskedAddr then .case1 x.1
      else if a ≤ x.2.k.topAddr then .case2 x.1 else .case3' x.1) := by
  rcases hn with rfl | rfl
  · simp only [position, some_or, read_eq hx.1, ok_bind]
    split_ifs <;> rfl
  · simp only [position, none_or, read_eq hx.1, ok_bind]
    split_ifs <;> rfl

theorem position_two {y : Label w P X} {l' r' : NodeTree w P X}
    (hx : Linked.Laid h u (.node x l r)) (hy : Linked.Laid h u (.node y l' r')) :
    h.position a ⟨v, some x.1, some y.1, d⟩ = .ok (if a < x.2.k.maskedAddr then .case1 x.1
      else if a ≤ x.2.k.topAddr then .case2 x.1
      else if a < y.2.k.maskedAddr then .case3 x.1 y.1
      else if a ≤ y.2.k.topAddr then .case4 x.1 y.1 else .case5 y.1) := by
  simp only [position, some_or, read_eq hx.1, read_eq hy.1, ok_bind]
  split_ifs <;> rfl

/-- **The loop of `find_bounds` on the tree.** -/
theorem boundsLoop_eq (hturn : Turns C turn raise a h) :
    ∀ (n : Label w P X) (l r : NodeTree w P X) (fuel : Nat) (u v : Option Nat)
      (d : Node w P X) (lo hi : BitVec w), Linked.Laid h u l → Linked.Laid h u r →
      (node n l r).height ≤ h.bound → (node n l r).height < fuel →
      boundsLoop C turn a fuel h ⟨v, l.ptr, r.ptr, d⟩ lo hi
        = .ok (bounds nodeKey (nodeActive C) raise a (lo, hi) (.node n l r)) := by
  intro n l r fuel u v d lo hi hl hr hb hfuel
  generalize ht : node n l r = t at hb hfuel ⊢
  induction t generalizing n l r fuel u v d lo hi with
  | nil => simp at ht
  | node _ _ _ ihl ihr =>
    obtain ⟨rfl, rfl, rfl⟩ := node.inj ht
    obtain ⟨fuel, rfl⟩ := exists_fuel hfuel
    rw [height] at hfuel hb
    have hlb : l.height < h.bound := by omega
    have hrb : r.height < h.bound := by omega
    rw [boundsLoop, bounds]
    rcases l with _ | ⟨x, xl, xr⟩
    · rcases r with _ | ⟨y, yl, yr⟩
      · rfl
      · rw [show Cell.mk v (ptr .nil) (ptr (.node y yl yr)) d
            = ⟨v, none, some y.1, d⟩ from rfl, position_one hr (.inr rfl), ok_bind]
        simp only [top_nil, top_node]
        by_cases h1 : a < y.2.k.maskedAddr
        · simp only [h1, if_true, low_eq hr hrb, ok_bind, nodeKey]
          rfl
        · by_cases h2 : a ≤ y.2.k.topAddr
          · simp only [h1, h2, if_true, if_false, read_eq hr.1, ok_bind, nodeKey]
            exact ihr y yl yr fuel _ _ y.2 lo hi hr.2.1 hr.2.2 rfl hrb.le (by omega)
          · simp only [h1, h2, if_false, high_eq hr hrb, ok_bind, nodeKey]
            rfl
    · rcases r with _ | ⟨y, yl, yr⟩
      · rw [show Cell.mk v (ptr (.node x xl xr)) (ptr .nil) d
            = ⟨v, some x.1, none, d⟩ from rfl, position_one hl (.inl rfl), ok_bind]
        simp only [top_nil, top_node]
        by_cases h1 : a < x.2.k.maskedAddr
        · simp only [h1, if_true, low_eq hl hlb, ok_bind, nodeKey]
          rfl
        · by_cases h2 : a ≤ x.2.k.topAddr
          · simp only [h1, h2, if_true, if_false, read_eq hl.1, ok_bind, nodeKey]
            exact ihl x xl xr fuel _ _ x.2 lo hi hl.2.1 hl.2.2 rfl hlb.le (by omega)
          · simp only [h1, h2, if_false, high_eq hl hlb, ok_bind, nodeKey]
            rfl
      · rw [show Cell.mk v (ptr (.node x xl xr)) (ptr (.node y yl yr)) d
            = ⟨v, some x.1, some y.1, d⟩ from rfl, position_two hl hr, ok_bind]
        simp only [top_node]
        by_cases h1 : a < x.2.k.maskedAddr
        · simp only [h1, if_true, low_eq hl hlb, ok_bind, nodeKey]
          rfl
        by_cases h2 : a ≤ x.2.k.topAddr
        · simp only [h1, h2, if_true, if_false, read_eq hl.1, ok_bind, nodeKey]
          exact ihl x xl xr fuel _ _ x.2 lo hi hl.2.1 hl.2.2 rfl hlb.le (by omega)
        by_cases h3 : a < y.2.k.maskedAddr
        · simp only [h1, h2, h3, if_true, if_false, high_eq hl hlb, low_eq hr hrb, ok_bind, nodeKey]
          rfl
        by_cases h4 : a ≤ y.2.k.topAddr
        · simp only [h1, h2, h3, h4, if_true, if_false, read_eq hr.1, ok_bind, nodeKey]
          rw [hturn _ _ _ _ _ hl hlb h2, ok_bind]
          exact ihr y yl yr fuel _ _ y.2 _ hi hr.2.1 hr.2.2 rfl hrb.le (by omega)
        · simp only [h1, h2, h3, h4, if_false, nodeKey]
          rw [high_eq hr hrb, ok_bind]
          rfl

/-- **`find_bounds` on the tree.** -/
theorem findBounds_eq (H : Holds h t) (hroot : h.root = t.ptr)
    (hturn : Turns C turn raise a h) :
    h.findBounds C turn a = .ok (PrefixTree.findBounds nodeKey (nodeActive C) raise a t) := by
  have hle := H.height_le
  rw [findBounds, boundsStart, find_eq H hroot, ok_bind, ← top_descend,
    PrefixTree.findBounds]
  cases hd : descend nodeKey (nodeActive C) (host a) t with
  | nil =>
    have hrun := boundsLoop_eq hturn (0, Node.glue C (any w)) t .nil h.bound none none
      (Node.glue C (any w)) (any w).maskedAddr (any w).topAddr H.laid trivial
      (by simp only [height, Heap.bound]; omega)
      (by simp only [height, Heap.bound]; omega)
    rw [ptr_nil, ← hroot] at hrun
    refine hrun.trans ?_
    cases t with
    | nil => rfl
    | node x l r => rfl
  | node e l r =>
    obtain ⟨c, hc⟩ := exists_descend (host a) t
      (show descend nodeKey (nodeActive C) (host a) t ≠ .nil by rw [hd]; simp)
    rw [hd] at hc
    subst hc
    have hfocus := H.laid_focus
    have hsub := height_plug_le c (node e l r)
    simp only [top_node, map_some, read_eq hfocus.1, ok_bind]
    exact boundsLoop_eq hturn e l r h.bound _ _ e.2 _ _ hfocus.2.1 hfocus.2.2
      (by rw [Heap.bound]; omega) (by rw [Heap.bound]; omega)

end

end Mem

end Xorp

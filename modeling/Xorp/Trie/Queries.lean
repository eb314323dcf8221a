/-
What a `Trie` answers.

The remaining members of the class, and what every member says of the shape of the tree:
the searches return the label that the function of the same name on the shape returns.
-/
import Xorp.Trie.Range
import Xorp.Trie.Subtree
import Xorp.Trie.Trie

namespace Xorp

open Linked Spine PrefixTree BinTree List Prod Mem Shape Heap IPNet

variable {w : Nat} {P X : Type} {α β : Type}

/-! ### The searches and a change of labels -/

namespace PrefixTree

section
variable {key : α → IPNet w} {full : α → Bool} {key' : β → IPNet w} {full' : β → Bool} {f : α → β}

variable {sel : α → Bool} {sel' : β → Bool}

theorem leftmost_map (t : BinTree α) : (t.map f).leftmost = t.leftmost.map f := by
  rw [leftmost_eq_head?, leftmost_eq_head?, nodes_map, head?_map]

variable (hkey : ∀ a, key' (f a) = key a) (k : IPNet w) (t : BinTree α)
include hkey

theorem lookup_map (hsel : ∀ a, sel' (f a) = sel a) :
    lookup key' sel' k (t.map f) = (lookup key sel k t).map f := by
  rw [lookup, lookup, find_map hkey k t fun a _ => hsel a]
  cases find key sel k t with
  | none => rfl
  | some a =>
    simp only [Option.map_some, Option.filter_some, hkey]
    split_ifs <;> rfl

theorem upward_map : upward key' k (t.map f) = (upward key k t).map f := by
  induction t with
  | nil => rfl
  | node a l r ihl ihr =>
    have hbeside : beside key' k (l.map f) (r.map f) = (beside key k l r).map f := by
      simp only [beside, top_map, Option.any_map, hkey, leftmost_map]
      split_ifs <;> rfl
    rw [map_node, upward, upward, rootContains_map hkey, rootContains_map hkey, ihl, ihr,
      hbeside, Option.map_or]
    split_ifs <;> rfl

theorem lowerBound_map (hfull : ∀ a, full' (f a) = full a) :
    lowerBound key' full' k (t.map f) = (lowerBound key full k t).map f := by
  rw [lowerBound, lowerBound, lookup_map hkey _ _ fun _ => rfl]
  cases lookup key (fun _ => true) k t with
  | none => exact upward_map hkey k t
  | some d =>
    simp only [Option.map_some, hfull]
    split_ifs
    · rfl
    · rw [nodes_map, ← map_tail, find?_map, show full' ∘ f = full from funext hfull]

theorem rootInside_map : rootInside key' k (t.map f) = rootInside key k t := by
  cases t with
  | nil => rfl
  | node a l r => exact congrArg k.contains (hkey a)

theorem subtreeAt_map : subtreeAt key' k (t.map f) = (subtreeAt key k t).map f := by
  induction t with
  | nil => rfl
  | node a l r ihl ihr =>
    simp only [map_node, subtreeAt, hkey, rootContains_map hkey, rootInside_map hkey, ihl, ihr]
    split_ifs <;> rfl

theorem deepestAt_map : deepestAt key' k (t.map f) = (deepestAt key k t).map f := by
  induction t with
  | nil => rfl
  | node a l r ihl ihr =>
    simp only [map_node, deepestAt, hkey, rootContains_map hkey, ihl, ihr]
    split_ifs <;> rfl

theorem deepestSubtree_map : deepestSubtree key' k (t.map f) = (deepestSubtree key k t).map f := by
  rw [deepestSubtree, deepestSubtree, rootContains_map hkey, rootInside_map hkey, deepestAt_map hkey]
  split_ifs <;> rfl

theorem visits_map (hfull : ∀ a, full' (f a) = full a) (start : Option α) :
    visits key' full' k (t.map f) (start.map f) = (visits key full k t start).map f := by
  cases start with
  | none => rfl
  | some s =>
    simp only [visits, Option.map_some, nodes_map, dropWhile_map, hkey, Function.comp_def]
    cases t.nodes.dropWhile fun b => key b ≠ key s with
    | nil => rfl
    | cons a rest =>
      simp only [map_cons, takeWhile_map, filter_map, Function.comp_def, hkey, hfull]

theorem descend_map (hsel : ∀ a ∈ t.nodes, sel' (f a) = sel a) :
    descend key' sel' k (t.map f) = (descend key sel k t).map f := by
  induction t with
  | nil => rfl
  | node x l r ihl ihr =>
    simp only [map_node, descend, hkey, forall_root hsel, rootContains_map hkey,
      ihl (forall_left hsel), ihr (forall_right hsel)]
    by_cases hc : (key x).contains k = true
    · rw [if_pos hc, if_pos hc]
      by_cases hl : rootContains key k l = true
      · rw [if_pos hl, if_pos hl]
        cases descend key sel k l with
        | nil => cases sel x <;> rfl
        | node b bl br => rfl
      · rw [if_neg hl, if_neg hl]
        cases descend key sel k r with
        | nil => cases sel x <;> rfl
        | node b bl br => rfl
    · rw [if_neg hc, if_neg hc]
      rfl

variable (hfull : ∀ a ∈ t.nodes, full' (f a) = full a)
include hfull

theorem low_map : low key' full' (t.map f) = low key full t := by
  induction t with
  | nil => rfl
  | node a l r ihl ihr =>
    simp only [map_node, low, hkey, forall_root hfull, top_map, Option.isSome_map,
      ihl (forall_left hfull), ihr (forall_right hfull)]

theorem high_map : high key' full' (t.map f) = high key full t := by
  induction t with
  | nil => rfl
  | node a l r ihl ihr =>
    simp only [map_node, high, hkey, forall_root hfull, top_map, Option.isSome_map,
      ihl (forall_left hfull), ihr (forall_right hfull)]

variable (raise : Bool) (a : BitVec w)

theorem bounds_map (b : BitVec w × BitVec w) :
    bounds key' full' raise a b (t.map f) = bounds key full raise a b t := by
  induction t generalizing b with
  | nil => rfl
  | node x l r ihl ihr =>
    have hl := forall_left hfull
    have hr := forall_right hfull
    rw [map_node, bounds, bounds, top_map, top_map, low_map hkey l hl,
      low_map hkey r hr, high_map hkey l hl, high_map hkey r hr]
    cases l.top with
    | none =>
      cases r.top with
      | none => rfl
      | some z => simp only [Option.map_none, Option.map_some, hkey, ihr hr]
    | some y =>
      cases r.top with
      | none => simp only [Option.map_none, Option.map_some, hkey, ihl hl]
      | some z => simp only [Option.map_some, hkey, ihl hl, ihr hr]

theorem findBounds_map :
    findBounds key' full' raise a (t.map f) = findBounds key full raise a t := by
  rw [findBounds, findBounds, descend_map hkey (host a) t hfull]
  cases hd : descend key full (host a) t with
  | node e l r =>
    have hsub : ∀ b ∈ (BinTree.node e l r).nodes, full' (f b) = full b := by
      obtain ⟨c, hplug⟩ := exists_descend (host a) t
        (show descend key full (host a) t ≠ .nil by rw [hd]; simp)
      intro b hb
      refine hfull b ?_
      rw [hplug, nodes_plug, hd]
      exact mem_append_left _ (mem_append_right _ hb)
    show bounds key' full' raise a ((key' (f e)).maskedAddr, (key' (f e)).topAddr)
      ((BinTree.node e l r).map f) = _
    rw [bounds_map hkey _ hsub, hkey]
  | nil =>
    cases t with
    | nil => rfl
    | node x l r =>
      refine bounds_map hkey (.node x (.node x l r) .nil) (fun b hb => ?_) raise a _
      rcases mem_nodes_node.mp hb with rfl | hb | hb
      · exact hfull b (mem_nodes_node.mpr (.inl rfl))
      · exact hfull b hb
      · simp at hb

end

end PrefixTree

/-! ### The searches on the shape -/

namespace Shape

variable (s : Shape w P) (k : IPNet w)

def lookup : Option (IPNet w × Option P) :=
  PrefixTree.lookup Prod.fst full k s

/-- The longest match of the key with one bit less. -/
def findLessSpecific : Option (IPNet w × Option P) :=
  if k.prefixLen = 0 then none else s.find (parentKey k)

def lowerBound : Option (IPNet w × Option P) :=
  PrefixTree.lowerBound Prod.fst full k s

/-- The keys an iteration of `k` sees, from the first label of the subtree inside `k`. -/
def subtreeKeys : List (IPNet w) :=
  (PrefixTree.visits Prod.fst full k s (PrefixTree.subtreeStart Prod.fst k s)).map Prod.fst

/-- The same, from the first label under the deepest node that contains `k`. -/
def deepestKeys : List (IPNet w) :=
  (PrefixTree.visits Prod.fst full k s (PrefixTree.deepestStart Prod.fst k s)).map Prod.fst

def findBounds (raise : Bool) (a : BitVec w) : BitVec w × BitVec w :=
  PrefixTree.findBounds Prod.fst full raise a s

def MissesLow (a : BitVec w) : Prop := PrefixTree.MissesLow Prod.fst full a s

def StartsOutside : Prop := PrefixTree.StartsOutside Prod.fst k s

/-- An operation on the shape; `erase` takes out the longest match. -/
def step (s : Shape w P) : Trie.Op w P → Shape w P
  | .insert k p => s.insert k p
  | .erase k =>
      match s.find k with
      | none => s
      | some e => s.erase e.1

def run (s : Shape w P) (ops : List (Trie.Op w P)) : Shape w P := ops.foldl step s

/-- Key and payload of a label that stores one. -/
def entry (e : IPNet w × Option P) : Option (IPNet w × P) := e.2.map fun p => (e.1, p)

end Shape

section
variable {t : NodeTree w P X} (k : IPNet w)

theorem lookup_shape : (shape t).lookup k = (lookup nodeKey nodeFull k t).map nodeEntry :=
  lookup_map (fun _ => rfl) k t fun _ => rfl

theorem lowerBound_shape :
    (shape t).lowerBound k = (lowerBound nodeKey nodeFull k t).map nodeEntry :=
  lowerBound_map (fun _ => rfl) k t fun _ => rfl

theorem findBounds_shape (raise : Bool) (a : BitVec w) :
    (shape t).findBounds raise a = findBounds nodeKey nodeFull raise a t :=
  findBounds_map (fun _ => rfl) t (fun _ _ => rfl) raise a

theorem visits_shape (start : Option (Label w P X)) :
    (visits fst full k (shape t) (start.map nodeEntry)).map fst
      = (visits nodeKey nodeFull k t start).map nodeKey := by
  have hmap : visits fst full k (shape t) (start.map nodeEntry)
      = (visits nodeKey nodeFull k t start).map nodeEntry := by
    refine visits_map ?_ k t ?_ start
    · intro a
      rfl
    · intro a
      rfl
  rw [hmap, List.map_map]
  rfl

theorem subtreeKeys_shape : (shape t).subtreeKeys k
    = (visits nodeKey nodeFull k t (subtreeStart nodeKey k t)).map nodeKey := by
  have hstart : subtreeStart fst k (shape t) = (subtreeStart nodeKey k t).map nodeEntry := by
    rw [subtreeStart, shape, subtreeAt_map (fun _ => rfl) k t, leftmost_map]
    rfl
  rw [subtreeKeys, hstart, visits_shape]

theorem deepestKeys_shape : (shape t).deepestKeys k
    = (visits nodeKey nodeFull k t (deepestStart nodeKey k t)).map nodeKey := by
  have hstart : deepestStart fst k (shape t) = (deepestStart nodeKey k t).map nodeEntry := by
    rw [deepestStart, shape, deepestSubtree_map (fun _ => rfl) k t, leftmost_map]
    rfl
  rw [deepestKeys, hstart, visits_shape]

end

/-! ### The members of `Trie` -/

namespace Trie

section
variable (T : Trie w P) (k : IPNet w)

/-- The constructor for a subtree scan of the key `k`. -/
def subtreeIterator : Option Nat → Except Fault (Iterator w)
  | none => .ok ⟨none, k⟩
  | some n => do pure ⟨some (← T.heap.iterBegin k n), k⟩

/-- `operator++`. -/
def next (it : Iterator w) : Except Fault (Iterator w) :=
  match it.cur with
  | none => .error .badPointer
  | some n => do pure { it with cur := ← T.heap.iterNext it.root n }

def findLessSpecific : Except Fault (Iterator w) := do
  if k.prefixLen = 0 then T.heap.iterator none
  else T.find (parentKey k)

/-- `TrieNode::lower_bound`, called on `_root`. -/
def lowerBoundNode : Except Fault (Option Nat) := do
  let cand ← T.heap.deepest none k
  match cand.or T.heap.root with
  | none => .error .badPointer
  | some n =>
      let c ← T.heap.read n
      if c.data.k = k then
        if c.data.hasPayload then pure (some n)
        else T.heap.iterNext (IPNet.any w) (← T.heap.iterBegin (IPNet.any w) n)
      else Mem.lowerBoundLoop k T.heap.bound T.heap (some n)

def lowerBound : Except Fault (Iterator w) := do
  T.heap.iterator (← T.lowerBoundNode k)

def searchSubtree : Except Fault (Iterator w) := do
  match T.heap.root with
  | some _ => T.subtreeIterator k (← T.heap.findSubtree k)
  | none => T.heap.iterator none

def findBounds (a : BitVec w) : Except Fault (BitVec w × BitVec w) := do
  T.heap.deref
  T.heap.findBounds trieNode (Mem.raiseLow trieNode a) a

/-- The keys of a loop with `++` until `end()`. -/
def keysLoop (T : Trie w P) : Nat → Iterator w → Except Fault (List (IPNet w))
  | 0, _ => .error .outOfFuel
  | fuel + 1, it => do
      match it.cur with
      | none => pure []
      | some n =>
          let k := (← T.heap.read n).data.k
          pure (k :: (← T.keysLoop fuel (← T.next it)))

/-- The key sequence of `search_subtree`. -/
def subtreeKeys : Except Fault (List (IPNet w)) := do
  T.keysLoop T.heap.bound (← T.searchSubtree k)

/-- The tree in the heap has this shape. -/
def Shaped (s : Shape w P) : Prop := ∃ t, Represents T t ∧ shape t = s

end

section
variable {T : Trie w P} {t : BinTree (Nat × Node w P Unit)}

section
variable (R : Represents T t)
include R

theorem entry_iterator {o : Option (Nat × Node w P Unit)} (ho : ∀ a, o = some a → a ∈ t.nodes) :
    (T.heap.iterator (o.map fst)).map T.entry = .ok ((o.map nodeEntry).map some) := by
  cases o with
  | none => rfl
  | some a =>
    obtain ⟨cell, hcell, hdata⟩ := R.holds.cell_of_mem (ho a rfl)
    have hentry : T.entry ⟨some a.1, cell.data.k⟩ = some (some (nodeEntry a)) := by
      show some ((T.heap.cells a.1).map fun c => (c.data.k, c.data.p)) = _
      rw [hcell, Option.map_some, hdata]
      rfl
    rw [Option.map_some, iterator, read_eq hcell, ok_bind]
    exact congrArg Except.ok hentry

theorem find_mem {k : IPNet w} {a : Nat × Node w P Unit}
    (ha : PrefixTree.find nodeKey nodeFull k t = some a) : a ∈ t.nodes :=
  (find_longest R.wf ha).mem

variable (k : IPNet w)

theorem find_entry : (T.find k).map T.entry = .ok (((shape t).find k).map some) := by
  rw [find_shape, ← entry_iterator R fun a ha => find_mem R ha, find, find_eq R.holds R.root,
    nodeActive_trieNode]
  cases t with
  | nil =>
    rw [R.root]
    rfl
  | node b l r =>
    rw [R.root]
    rfl

theorem lookupNode_entry :
    (T.lookupNode k).map T.entry = .ok (((shape t).lookup k).map some) := by
  rw [lookup_shape, PrefixTree.lookup, lookupNode, find_eq R.holds R.root, nodeActive_trieNode,
    ok_bind]
  cases hf : PrefixTree.find nodeKey nodeFull k t with
  | none => rfl
  | some a =>
    obtain ⟨cell, hcell, hdata⟩ := R.holds.cell_of_mem (find_mem R hf)
    have hiter := entry_iterator R (o := some a) fun b hb => Option.some.inj hb ▸ find_mem R hf
    simp only [Option.map_some, read_eq hcell, ok_bind, hdata, Option.filter_some]
    by_cases hk : nodeKey a = k
    · rw [if_pos (show a.2.k = k from hk), if_pos (decide_eq_true hk)]
      exact hiter
    · rw [if_neg (show ¬ a.2.k = k from hk), if_neg fun hc => hk (of_decide_eq_true hc)]
      rfl

theorem findLessSpecific_entry :
    (T.findLessSpecific k).map T.entry = .ok (((shape t).findLessSpecific k).map some) := by
  rw [findLessSpecific, Shape.findLessSpecific]
  by_cases hk : k.prefixLen = 0
  · rw [if_pos hk, if_pos hk]
    rfl
  · rw [if_neg hk, if_neg hk]
    exact find_entry R (parentKey k)

theorem findBounds_eq (hne : t ≠ .nil) (a : BitVec w) :
    T.findBounds a = .ok ((shape t).findBounds true a) := by
  rw [findBounds, Mem.deref_eq (by rwa [R.root, Ne, ptr_eq_none]), ok_bind, Mem.findBounds_eq R.holds R.root (Mem.turns_raiseLow a), nodeActive_trieNode,
    findBounds_shape]

/-- **`lower_bound` on the tree.** -/
theorem lowerBoundNode_eq (hne : t ≠ .nil) :
    T.lowerBoundNode k = .ok ((PrefixTree.lowerBound nodeKey nodeFull k t).map fst) := by
  obtain ⟨a, ha, hmem, hlook, hlook'⟩ := exists_candidate R.wf hne
  obtain ⟨cell, hcell, hdata⟩ := R.holds.cell_of_mem hmem
  rw [lowerBoundNode, deepest_eq R.holds R.root, ok_bind, Option.or_none,
    candidate_eq R.root ha, PrefixTree.lowerBound]
  simp only [read_eq hcell, ok_bind, hdata]
  by_cases hk : a.2.k = k
  · rw [if_pos hk, hlook hk]
    by_cases hf : a.2.hasPayload = true
    · rw [if_pos hf]
      simp only [show nodeFull a = true from hf, if_true]
      rfl
    · obtain ⟨b, rest, hnodes, hbegin⟩ := iterBegin_any R.holds hmem
      have hfirst : t.nodes = [] ++ b :: rest := hnodes
      rw [if_neg hf, hbegin, ok_bind, iterNext_eq R.holds _ hfirst, scan_any_eq, hnodes]
      simp only [show ¬ nodeFull a = true from hf, if_false, tail_cons, Bool.false_eq_true]
  · rw [if_neg hk, hlook' hk, lowerBoundLoop_eq R.holds R.wf k ha]

variable {k} in
theorem lowerBound_entry (hne : t ≠ .nil) :
    (T.lowerBound k).map T.entry = .ok (((shape t).lowerBound k).map some) := by
  rw [lowerBound, lowerBoundNode_eq R k hne, ok_bind, lowerBound_shape]
  exact entry_iterator R fun a ha => (R.wf.lowerBound_mem ha).1

end

/-- On an empty trie the code goes through a null pointer. -/
theorem lowerBound_nil (R : Represents T .nil) (k : IPNet w) :
    (T.lowerBound k).map T.entry = .error .badPointer := by
  have hroot : T.heap.root = none := R.root
  rw [lowerBound, lowerBoundNode, deepest_eq R.holds R.root, ok_bind, hroot]
  rfl

/-- **The loop over an iteration** sees what the tree says. -/
theorem keysLoop_eq (R : Represents T t) (ρ : IPNet w) (fuel : Nat)
    (o : Option (Nat × Node w P Unit))
    (ho : ∀ a, o = some a → ∃ xs ys, t.nodes = xs ++ a :: ys ∧ ys.length + 1 < fuel)
    (hpos : 0 < fuel) :
    T.keysLoop fuel ⟨o.map fst, ρ⟩ = .ok ((visits nodeKey nodeFull ρ t o).map nodeKey) := by
  induction fuel generalizing o with
  | zero => exact absurd hpos (Nat.lt_irrefl 0)
  | succ fuel ih =>
    cases o with
    | none => rfl
    | some a =>
      obtain ⟨xs, ys, hsplit, hlen⟩ := ho a rfl
      obtain ⟨cell, hcell, hdata⟩ := R.holds.cell_of_mem (show a ∈ t.nodes by simp [hsplit])
      have hnext := iterNext_eq R.holds ρ hsplit
      have hrest := ih (scan ρ ys) (by
        intro b hb
        rcases scan_cases ρ ys with ⟨hscan, -⟩ | ⟨pre, d, rest, rfl, hscan, -⟩
        · exact absurd (hscan.symm.trans hb) (by simp)
        · obtain rfl : d = b := Option.some.inj (hscan.symm.trans hb)
          refine ⟨xs ++ a :: pre, rest, by simp [hsplit], ?_⟩
          simp only [length_append, length_cons] at hlen
          omega) (by omega)
      rw [visits_scan R.wf ρ hsplit, Option.map_some, keysLoop]
      simp only [read_eq hcell, ok_bind, next, hnext, pure_bind, hrest, hdata]
      rfl

theorem subtreeKeys_eq (R : Represents T t) (k : IPNet w) :
    T.subtreeKeys k = .ok ((shape t).subtreeKeys k) := by
  have hsearch : T.searchSubtree k >>= T.keysLoop T.heap.bound
      = T.keysLoop T.heap.bound ⟨(subtreeStart nodeKey k t).map fst, k⟩ := by
    rw [searchSubtree, R.root, findSubtree_eq R.holds R.root, subtreeStart]
    cases t with
    | nil => rfl
    | node a l r =>
      cases hs : subtreeAt nodeKey k (.node a l r) with
      | nil => rfl
      | node b bl br =>
        have hne : subtreeAt nodeKey k (.node a l r) ≠ .nil := by rw [hs]; simp
        obtain ⟨c, hplug, hparent⟩ := exists_subtreeAt hne
        have H := R.holds
        rw [hplug, hs] at H
        obtain ⟨d, hleft, hbegin⟩ := iterBegin_of_parent H k rfl hparent
        simp only [ptr_node, ok_bind, subtreeIterator, hbegin, hleft]
        rfl
  rw [subtreeKeys, hsearch, subtreeKeys_shape]
  refine keysLoop_eq R k T.heap.bound _ (fun a ha => ?_) (by rw [bound]; omega)
  obtain ⟨xs, ys, hsplit⟩ := append_of_mem (mem_of_subtreeStart ha)
  have hlen := R.holds.length_le
  rw [BinTree.ids, length_map, hsplit, length_append, length_cons] at hlen
  exact ⟨xs, ys, hsplit, by rw [bound]; omega⟩

variable {s : Shape w P}

theorem step_shaped (hT : Shaped T s) (op : Op w P) :
    ∃ T', T.step op = .ok T' ∧ Shaped T' (s.step op) := by
  obtain ⟨t, R, rfl⟩ := hT
  cases op with
  | insert k p =>
    obtain ⟨T', it, hrun, R', -⟩ := insert_represents R p
    refine ⟨T', ?_, _, R', shape_insertTree trieNode k p _⟩
    rw [step, hrun]
    rfl
  | erase k =>
    rw [Shape.step, find_shape]
    cases hfind : PrefixTree.find nodeKey nodeFull k t with
    | none => exact ⟨T, erase_of_none R k hfind, t, R, rfl⟩
    | some a =>
      obtain ⟨T', hrun, R', -⟩ := erase_represents R hfind
      exact ⟨T', hrun, _, R', shape_eraseTree _⟩

/-- **A run on the shape.** -/
theorem run_shaped (ops : List (Op w P)) (hT : Shaped T s) :
    ∃ T', T.run ops = .ok T' ∧ Shaped T' (s.run ops) := by
  induction ops generalizing T s with
  | nil => exact ⟨T, rfl, hT⟩
  | cons op ops ih =>
    obtain ⟨T', hstep, hT'⟩ := step_shaped hT op
    obtain ⟨T'', hrun, hT''⟩ := ih hT'
    refine ⟨T'', ?_, hT''⟩
    rw [run, hstep]
    exact hrun

end

end Trie

end Xorp

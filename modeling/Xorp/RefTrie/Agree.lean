/-
`RefTrie` against `Trie`.

With no iterator outstanding, a `RefTrie` and a `Trie` that have gone through the same
insertions and removals hold trees of one shape, and their searches are functions of it.
All but two are the same function.  `find_bounds` of `RefTrie` lacks a statement that
`Trie` has, and `search_subtree` starts from another node.  And where `Trie` looks whether
there is a root before it follows `_root`, `RefTrie` does not: on an empty `RefTrie` a
search, and `erase` of a key with it, goes through a null pointer.
-/
import Xorp.RefTrie.Ops
import Xorp.Trie.PrefixMap

namespace Xorp

open Linked Spine PrefixTree List Option Prod Mem IPNet

variable {w : Nat} {P : Type}

/-- A key is erased while the tree is empty. -/
def Shape.ErasesEmpty (s : Shape w P) : List (Trie.Op w P) → Prop
  | [] => False
  | op :: ops => (s = .nil ∧ ∃ k, op = .erase k) ∨ (s.step op).ErasesEmpty ops

namespace RefTrie

section
variable (T : RefTrie w P)

/-- Key and payload where an iterator stands; both assert that the node is not deleted. -/
def entry (it : Iterator w) : Option (Option (IPNet w × Option P)) :=
  it.cur.map fun i => (T.heap.cells i).bind fun c =>
    if deleted c.data.x then none else some (c.data.k, c.data.p)

def findBounds (a : BitVec w) : Except Fault (BitVec w × BitVec w) := do
  T.heap.deref
  T.heap.findBounds refTrieNode Mem.keepLow a

/-- The keys of a loop with `++` until `end()`; the comparison calls `force_valid()`. -/
def keysLoop : Nat → RefTrie w P → Iterator w → Except Fault (List (IPNet w))
  | 0, _, _ => .error .outOfFuel
  | fuel + 1, T, it => do
      let (T, it) ← forceValid T.heap.bound T it
      match it.cur with
      | none => pure []
      | some n =>
          let k := (← T.heap.read n).data.k
          let (T, it) ← T.next it
          pure (k :: (← keysLoop fuel T it))

/-- The key sequence of `search_subtree`. -/
def subtreeKeys (k : IPNet w) : Except Fault (List (IPNet w)) := do
  let (T, it) ← T.searchSubtree k
  keysLoop T.heap.bound T it

/-- The operation on the trie.  The iterator `insert` returns is destroyed. -/
def step : Trie.Op w P → Except Fault (RefTrie w P)
  | .insert k p => do
      let (T, it) ← T.insert k p
      T.release it.cur
  | .erase k => T.erase k

def run (T : RefTrie w P) : List (Trie.Op w P) → Except Fault (RefTrie w P)
  | [] => .ok T
  | op :: ops => do (← T.step op).run ops

/-- No iterator is outstanding, and the tree in the heap has this shape. -/
def Shaped (s : Shape w P) : Prop :=
  ∃ t, Counted T.heap [] t ∧ shape t = s

end

variable {s : Shape w P}

section
variable {T : RefTrie w P} {t : RefNodeTree w P}

/-- With so few iterators no count overflows. -/
theorem ok_of_yields {α : Type} {Q : α → Prop} {r : Except Fault α}
    (h : Yields (Overflow []) Q r) : ∃ a, r = .ok a ∧ Q a := by
  cases r with
  | ok a => exact ⟨a, rfl, h⟩
  | error e =>
    obtain ⟨-, i, hi⟩ := h
    simp at hi

variable {a : RefLabel w P}

/-- No node in use is deleted. -/
def Live (t : RefNodeTree w P) : Prop := ∀ a ∈ t.nodes, nodeFull a = true → deleted a.2.x = false

theorem Live.of_uncounted {t' : RefNodeTree w P} (h : Live t) (hsame : uncounted t' = uncounted t) :
    Live t' := by
  intro c hc hf
  obtain ⟨d, hd, -, -, hfull, hdel⟩ := mem_of_uncounted hsame hc
  rw [← hdel, h d hd (hfull.trans hf)]

section
variable (C : Counted T.heap [] t)
include C

theorem live_of_no_iterators : Live t := by
  intro a ha hf
  rw [Bool.eq_false_iff]
  intro hd
  exact absurd (C.gone a ha hf hd) (by simp)

theorem active_eq (ha : a ∈ t.nodes) : nodeFull a = nodeActive refTrieNode a := by
  rw [Bool.eq_iff_iff]
  refine ⟨fun hf => stored_iff.mpr ⟨hf, live_of_no_iterators C a ha hf⟩, fun hst => (stored_iff.mp hst).1⟩

theorem find_shape_active (k : IPNet w) :
    (shape t).find k = (PrefixTree.find nodeKey (nodeActive refTrieNode) k t).map nodeEntry :=
  PrefixTree.find_map (fun _ => rfl) k t fun _ ha => active_eq C ha

/-! ### The searches -/

/-- Making the one iterator. -/
theorem iterator_counted {n : Option Nat} (hn : Entry t n) :
    ∃ T' it t', T.iterator n = .ok (T', it) ∧ it.cur = n ∧ Counted T'.heap n.toList t' ∧
      uncounted t' = uncounted t := by
  obtain ⟨it, hit, hcur⟩ := heap_iterator C.toCounts hn
  obtain ⟨T', hrun, t', C', hsame⟩ := ok_of_yields (acquire_counted C hn (by simp))
  refine ⟨T', it, t', ?_, hcur, by simpa using C', hsame⟩
  rw [iterator, hit, ok_bind, hrun]
  rfl

end

theorem iterator_entry {t' : RefNodeTree w P} (C : Counted T.heap [] t')
    (hsame : uncounted t' = uncounted t) {o : Option (RefLabel w P)}
    (ho : ∀ a, o = some a → a ∈ t.nodes ∧ nodeFull a = true) :
    (T.iterator (o.map fst)).map (fun out => out.1.entry out.2)
      = .ok ((o.map nodeEntry).map some) := by
  cases o with
  | none => rfl
  | some a =>
    obtain ⟨ha, hf⟩ := ho a rfl
    obtain ⟨b, hb, hid, -, hfull, hbdel⟩ := mem_of_uncounted hsame.symm ha
    have hentry : Entry t' (some a.1) := fun i hi =>
      ⟨b, hb, hid.trans (some.inj hi), hfull.trans hf⟩
    obtain ⟨T₁, it, t₁, hrun, hcur, C₁, hsame₁⟩ := iterator_counted C hentry
    obtain ⟨xs, ys, hsplit⟩ := append_of_mem ha
    obtain ⟨xs₁, d, ys₁, hnodes, hdid, hlabel, hdel, -⟩ :=
      split_of_uncounted (hsame₁.trans hsame) hsplit
    obtain ⟨cell, hcell, hdata⟩ := C₁.holds.cell_of_mem (show d ∈ t₁.nodes by simp [hnodes])
    have hnot : deleted d.2.x = false := by
      rw [hdel, ← hbdel, live_of_no_iterators C b hb (hfull.trans hf)]
    have hshow : T₁.entry it = some (some (nodeEntry a)) := by
      rw [entry, hcur, map_some, ← hdid, hcell, bind_some, hdata, hnot, ← hlabel]
      rfl
    rw [map_some, hrun]
    exact congrArg Except.ok hshow

section
variable (C : Counted T.heap [] t)
include C

theorem find_mem {k : IPNet w}
    (ha : PrefixTree.find nodeKey (nodeActive refTrieNode) k t = some a) :
    a ∈ t.nodes ∧ nodeFull a = true := by
  have hlong := PrefixTree.find_longest C.wf ha
  exact ⟨hlong.mem, (stored_iff.mp hlong.stored).1⟩

variable (hne : t ≠ .nil) (k : IPNet w)
include hne

theorem find_entry :
    (T.find k).map (fun out => out.1.entry out.2) = .ok (((shape t).find k).map some) := by
  rw [find_shape_active C, find, deref_eq (root_ne_none C.toCounts hne), ok_bind,
    find_eq C.holds C.root, ok_bind]
  exact iterator_entry C rfl fun a ha => find_mem C ha

theorem lookupNode_entry : (T.lookupNode k).map (fun out => out.1.entry out.2)
      = .ok (((shape t).lookup k).map some) := by
  have hshape : (shape t).lookup k = ((shape t).find k).filter fun e => e.1 = k := rfl
  rw [hshape, find_shape_active C, lookupNode, deref_eq (root_ne_none C.toCounts hne), ok_bind,
    find_eq C.holds C.root, ok_bind]
  cases hf : PrefixTree.find nodeKey (nodeActive refTrieNode) k t with
  | none => rfl
  | some a =>
    obtain ⟨cell, hread, hdata⟩ := C.read (find_mem C hf).1
    simp only [map_some, hread, ok_bind, hdata, filter_some]
    by_cases hk : a.2.k = k
    · rw [if_pos hk, if_pos (decide_eq_true (show (nodeEntry a).1 = k from hk))]
      exact iterator_entry (o := some a) C rfl fun b hb => some.inj hb ▸ find_mem C hf
    · rw [if_neg hk, if_neg fun hc => hk (show (nodeEntry a).1 = k from of_decide_eq_true hc)]
      rfl

theorem findLessSpecific_entry : (T.findLessSpecific k).map (fun out => out.1.entry out.2)
      = .ok (((shape t).findLessSpecific k).map some) := by
  rw [findLessSpecific, Shape.findLessSpecific]
  by_cases hk : k.prefixLen = 0
  · rw [if_pos hk, if_pos hk]
    rfl
  · rw [if_neg hk, if_neg hk]
    exact find_entry C hne (parentKey k)

theorem lowerBound_entry : (T.lowerBound k).map (fun out => out.1.entry out.2)
      = .ok (((shape t).lowerBound k).map some) := by
  obtain ⟨⟨T₁, n⟩, hrun, ⟨t₁, C₁, hsame⟩, hn⟩ :=
    ok_of_yields (lowerBoundNode_counted C k (root_ne_none C.toCounts hne) (by simp))
  obtain rfl : n = _ := hn
  rw [lowerBound, hrun, lowerBound_shape]
  exact iterator_entry C₁ hsame fun a ha => C.wf.lowerBound_mem ha

theorem findBounds_eq (a : BitVec w) : T.findBounds a = .ok ((shape t).findBounds false a) := by
  have hshape : (shape t).findBounds false a
      = PrefixTree.findBounds nodeKey (Mem.nodeActive refTrieNode) false a t :=
    PrefixTree.findBounds_map (f := nodeEntry) (fun _ => rfl) t (fun _ ha => active_eq C ha) false a
  rw [findBounds, deref_eq (root_ne_none C.toCounts hne), ok_bind,
    Mem.findBounds_eq C.holds C.root (Mem.turns_keepLow a), hshape]

end

theorem Shaped.root_nil (hT : Shaped T .nil) : T.heap.root = none := by
  obtain ⟨t, C, hs⟩ := hT
  obtain rfl : t = .nil := BinTree.map_eq_nil.mp hs
  exact C.root

theorem lowerBound_nil (hT : Shaped T .nil) (k : IPNet w) :
    (T.lowerBound k).map (fun out => out.1.entry out.2) = .error .badPointer := by
  obtain ⟨t, C, hs⟩ := id hT
  rw [lowerBound, lowerBoundNode, deepest_eq C.holds C.root, ok_bind, hT.root_nil,
    BinTree.map_eq_nil.mp hs]
  rfl

/-- `force_valid()` has nothing to do on a node that is not deleted. -/
theorem forceValid_eq {hs : List Nat} (C : Counts T.heap hs t) (fuel : Nat)
    {o : Option (RefLabel w P)}
    (ho : ∀ a, o = some a → a ∈ t.nodes ∧ deleted a.2.x = false) (ρ : IPNet w) :
    forceValid (fuel + 1) T ⟨o.map fst, ρ⟩ = .ok (T, ⟨o.map fst, ρ⟩) := by
  rw [forceValid, curDeleted]
  cases o with
  | none => rfl
  | some a =>
    obtain ⟨ha, hdel⟩ := ho a rfl
    obtain ⟨cell, hread, hdata⟩ := C.read ha
    simp only [map_some, hread, ok_bind, hdata, hdel]
    rfl

/-- **The loop over an iteration** sees what the tree says. -/
theorem keysLoop_eq (ρ : IPNet w) (fuel : Nat) (T : RefTrie w P) (t : RefNodeTree w P)
    (o : Option (RefLabel w P)) (C : Counted T.heap (o.map fst).toList t)
    (hlive : Live t)
    (ho : ∀ a, o = some a → ∃ xs ys, t.nodes = xs ++ a :: ys ∧ ys.length + 1 < fuel)
    (hpos : 0 < fuel) :
    keysLoop fuel T ⟨o.map fst, ρ⟩ = .ok ((visits nodeKey nodeFull ρ t o).map nodeKey) := by
  induction fuel generalizing T t o with
  | zero => exact absurd hpos (Nat.lt_irrefl 0)
  | succ fuel ih =>
    have hmem : ∀ a, o = some a → a ∈ t.nodes ∧ deleted a.2.x = false := by
      intro a ha
      obtain ⟨xs, ys, hsplit, -⟩ := ho a ha
      have hin : a ∈ t.nodes := by simp [hsplit]
      exact ⟨hin, hlive a hin (C.full_of_held hin (by simp [ha]))⟩
    have hvalid : forceValid T.heap.bound T ⟨o.map fst, ρ⟩ = .ok (T, ⟨o.map fst, ρ⟩) :=
      forceValid_eq C.toCounts (2 * T.heap.next + 1) hmem ρ
    rw [keysLoop, hvalid, ok_bind]
    cases o with
    | none => rfl
    | some a =>
      obtain ⟨xs, ys, hsplit, hlen⟩ := ho a rfl
      obtain ⟨cell, hread, hdata⟩ := C.read (hmem a rfl).1
      have hcur : (⟨some a.1, ρ⟩ : Iterator w).cur = some a.1 := rfl
      obtain ⟨⟨T₁, it₁⟩, hnext, hit₁, t₁, C₁, -, hsame⟩ := ok_of_yields
        (next_counted C hcur hsplit (by
          intro i
          rw [count_singleton]
          split_ifs <;> simp))
      have hsame := hsame (hmem a rfl).2
      obtain rfl : it₁ = ⟨(scan ρ ys).map fst, ρ⟩ := hit₁
      -- the node the iterator stands on now, as the tree is now
      obtain ⟨o₁, hids, hlabels, hsplit₁⟩ : ∃ o₁ : Option (RefLabel w P),
          o₁.map fst = (scan ρ ys).map fst ∧
          o₁.map nodeEntry = (scan ρ ys).map nodeEntry ∧
          ∀ b, o₁ = some b → ∃ xs ys, t₁.nodes = xs ++ b :: ys ∧ ys.length + 1 < fuel := by
        rcases scan_cases ρ ys with ⟨hscan, -⟩ | ⟨pre, b, rest, rfl, hscan, -⟩
        · exact ⟨none, by simp [hscan], by simp [hscan], fun b hb => absurd hb (by simp)⟩
        · have hsplit' : t.nodes = (xs ++ a :: pre) ++ b :: rest := by simp [hsplit]
          obtain ⟨xs₁, b₁, ys₁, hnodes, hid, hlabel, -, hlen₁⟩ := split_of_uncounted hsame hsplit'
          refine ⟨some b₁, by rw [hscan]; exact congrArg some hid,
            by rw [hscan]; exact congrArg some hlabel, fun c hc => ?_⟩
          cases hc
          refine ⟨xs₁, ys₁, hnodes, ?_⟩
          simp only [length_append, length_cons] at hlen
          omega
      have hrest := ih T₁ t₁ o₁ (by rw [hids]; simpa using C₁) (hlive.of_uncounted hsame) hsplit₁
        (by omega)
      have hkeys : (visits nodeKey nodeFull ρ t₁ o₁).map nodeKey
          = (visits nodeKey nodeFull ρ t (scan ρ ys)).map nodeKey := by
        rw [← visits_shape, ← visits_shape, hlabels, shape_of_uncounted hsame]
      rw [hids, hkeys] at hrest
      rw [visits_scan C.wf ρ hsplit]
      simp only [map_some, hread, ok_bind, hnext, hrest, hdata]
      rfl

section
variable (C : Counted T.heap [] t) (k : IPNet w)
include C

/-- The key sequence of `search_subtree`, on the shape. -/
theorem subtreeKeys_eq (hne : t ≠ .nil) : T.subtreeKeys k = .ok ((shape t).deepestKeys k) := by
  have hlive : Live t := live_of_no_iterators C
  rw [subtreeKeys, searchSubtree, deref_eq (root_ne_none C.toCounts hne), ok_bind,
    findSubtreeDeepest_eq C.holds C.root, ok_bind, deepestKeys_shape, deepestStart]
  cases hs : deepestSubtree nodeKey k t with
  | nil => exact keysLoop_eq k T.heap.bound T t none C hlive (by simp) (by rw [Heap.bound]; omega)
  | node g gl gr =>
    obtain ⟨c, hplug, hparent⟩ := C.wf.exists_deepestSubtree (k := k) (by rw [hs]; simp)
    rw [hs] at hplug
    have H := C.holds
    rw [hplug] at H
    obtain ⟨b, hleft, hbegin⟩ := iterBegin_of_parent H k rfl hparent
    have hb : b ∈ t.nodes := by
      rw [hplug, nodes_plug]
      exact mem_append_left _ (mem_append_right _ (BinTree.mem_of_leftmost hleft))
    have hwf := C.wf
    rw [hplug] at hwf
    have hentry : Entry t (some b.1) := fun i hi =>
      ⟨b, hb, some.inj hi, (hwf.focus.leftmost_mem hleft).2⟩
    obtain ⟨T₁, hrun, t₁, C₁, hsame⟩ := ok_of_yields (acquire_counted C hentry (by simp))
    obtain ⟨xs, ys, hsplit⟩ := append_of_mem hb
    obtain ⟨xs₁, b₁, ys₁, hnodes, hid, hlabel, -, -⟩ := split_of_uncounted hsame hsplit
    have hlen := C₁.holds.length_le
    rw [BinTree.ids, length_map, hnodes, length_append, length_cons] at hlen
    have hloop := keysLoop_eq k T₁.heap.bound T₁ t₁ (some b₁) (by simpa [hid] using C₁)
      (hlive.of_uncounted hsame)
      (fun d hd => ⟨xs₁, ys₁, by rw [hnodes, some.inj hd], by rw [Heap.bound]; omega⟩)
      (by rw [Heap.bound]; omega)
    have hkeys : (visits nodeKey nodeFull k t₁ (some b₁)).map nodeKey
        = (visits nodeKey nodeFull k t (some b)).map nodeKey := by
      rw [← visits_shape, ← visits_shape, shape_of_uncounted hsame, map_some, map_some, hlabel]
    rw [hkeys, map_some, hid] at hloop
    simp only [BinTree.ptr_node, subtreeIterator, hbegin, ok_bind, hrun, hleft]
    exact hloop

/-! ### Runs -/

theorem insert_shaped (p : P) :
    ∃ T', T.step (.insert k p) = .ok T' ∧ Shaped T' ((shape t).insert k p) := by
  obtain ⟨h', replaced, b, hrun, C', -, hb, -, hst⟩ := insert_counted C k p
  have hentry : Entry (insertTree refTrieNode k p T.heap.next t) (some b.1) := fun i hi =>
    ⟨b, hb, some.inj hi, (stored_iff.mp hst).1⟩
  obtain ⟨T₁, it, t₁, hit, hcur, C₁, hsame⟩ :=
    iterator_counted (T := ⟨h', if replaced then T.payloadCount else T.payloadCount + 1⟩) C' hentry
  have hinsert : T.insert k p = .ok (T₁, it) := by
    rw [insert, hrun, ok_bind]
    exact hit
  have C₁' : Counted T₁.heap ((some b.1).toList ++ []) t₁ := C₁
  obtain ⟨T₂, t₂, hrel, C₂, hleft⟩ := release_counted C₁'
  have hsame₂ : uncounted t₂ = uncounted t₁ := by
    refine hleft.leaves fun a ha hid => ?_
    obtain ⟨c, hc, hid', -, -, hdel⟩ := mem_of_uncounted hsame ha
    rw [← hdel, C'.eq_of_id_eq hc hb (hid'.trans (some.inj hid).symm)]
    exact (stored_iff.mp hst).2
  refine ⟨T₂, ?_, t₂, C₂, ?_⟩
  · rw [step, hinsert, ok_bind]
    show T₁.release it.cur = _
    rw [hcur, hrel]
  · rw [shape_of_uncounted (hsame₂.trans hsame), shape_insertTree]

theorem erase_shaped (hne : t ≠ .nil) :
    ∃ T', T.step (.erase k) = .ok T' ∧ Shaped T' ((shape t).step (.erase k)) := by
  rw [Shape.step, find_shape_active C]
  cases hfind : PrefixTree.find nodeKey (nodeActive refTrieNode) k t with
  | none => exact ⟨T, erase_of_none C.toCounts (root_ne_none C.toCounts hne) hfind, t, C, rfl⟩
  | some a =>
    obtain ⟨T', hrun, t', C', h⟩ := ok_of_yields (erase_of_some C hfind (by simp))
    exact ⟨T', hrun, t', C', h.removes (by simp)⟩

end

/-- **One step on the shape.** -/
theorem step_shaped (hT : Shaped T s) (op : Trie.Op w P) (hop : s = .nil → ∀ k, op ≠ .erase k) :
    ∃ T', T.step op = .ok T' ∧ Shaped T' (s.step op) := by
  obtain ⟨t, C, rfl⟩ := hT
  cases op with
  | insert k p => exact insert_shaped C k p
  | erase k =>
    refine erase_shaped C k ?_
    rintro rfl
    exact hop rfl k rfl

theorem find_nil (hT : Shaped T .nil) (k : IPNet w) : T.find k = .error .badPointer := by
  rw [find, deref, if_pos hT.root_nil]
  rfl

/-- **A run on the shape**, which stops at the null root when a key is erased from an empty
trie. -/
theorem run_shaped (ops : List (Trie.Op w P)) (hT : Shaped T s) :
    (∃ T', T.run ops = .ok T' ∧ Shaped T' (s.run ops) ∧ ¬ s.ErasesEmpty ops) ∨
      (T.run ops = .error .badPointer ∧ s.ErasesEmpty ops) := by
  induction ops generalizing T s with
  | nil => exact .inl ⟨T, rfl, hT, id⟩
  | cons op ops ih =>
    by_cases hop : s = .nil ∧ ∃ k, op = .erase k
    · obtain ⟨rfl, k, rfl⟩ := hop
      refine .inr ⟨?_, .inl ⟨rfl, k, rfl⟩⟩
      rw [run, step, erase, find_nil hT]
      rfl
    · obtain ⟨T', hstep, hT'⟩ := step_shaped hT op fun hs k hk => hop ⟨hs, k, hk⟩
      have hrun : T.run (op :: ops) = T'.run ops := by
        rw [run, hstep]
        rfl
      rw [hrun]
      rcases ih hT' with ⟨T'', hrest, hT'', hno⟩ | ⟨herr, hyes⟩
      · exact .inl ⟨T'', hrest, hT'', fun h => h.elim hop hno⟩
      · exact .inr ⟨herr, .inr hyes⟩

end

/-! ### The table by prefix

The routing tables of BGP are kept in `RefTrie`s, and modelled as `PrefixMap`s. -/

section
variable {T : RefTrie w P} {m : PrefixMap w P} (h : Shaped T m.shape) (k : IPNet w)
include h

theorem Shaped.get (hne : m.shape ≠ .nil) : (T.lookupNode k).map (fun out => out.1.entry out.2)
      = .ok ((m.get k).map fun p => some (k, some p)) := by
  obtain ⟨t, C, hs⟩ := h
  have hne' : t ≠ .nil := fun hnil => hne (by rw [← hs, hnil]; rfl)
  rw [lookupNode_entry C hne', hs, PrefixMap.lookup_map]

theorem Shaped.insert (p : P) :
    ∃ T', T.step (.insert k p) = .ok T' ∧ Shaped T' (m.insert k p).shape :=
  step_shaped h (.insert k p) (by simp)

theorem Shaped.erase (hne : m.shape ≠ .nil) :
    ∃ T', T.step (.erase k) = .ok T' ∧ Shaped T' (m.erase k).shape :=
  step_shaped h (.erase k) fun hs => absurd hs hne

end

/-! ### The comparison -/

/-- Which of the searches give the same results in both classes, if the tree has this shape. -/
structure Agrees (T : Trie w P) (R : RefTrie w P) (s : Shape w P) : Prop where
  find : ∀ k, (T.find k).map T.entry = (R.find k).map (fun out => out.1.entry out.2) ↔ s ≠ .nil
  lookupNode : ∀ k, (T.lookupNode k).map T.entry
    = (R.lookupNode k).map (fun out => out.1.entry out.2) ↔ s ≠ .nil
  findLessSpecific : ∀ k, (T.findLessSpecific k).map T.entry
    = (R.findLessSpecific k).map (fun out => out.1.entry out.2) ↔ s ≠ .nil ∨ k.prefixLen = 0
  /-- on an empty trie both go through a null pointer, as in `find_bounds` -/
  lowerBound : ∀ k, (T.lowerBound k).map T.entry = (R.lowerBound k).map fun out => out.1.entry out.2
  findBounds : ∀ a, T.findBounds a = R.findBounds a ↔ ¬ s.MissesLow a
  subtreeKeys : ∀ k, T.subtreeKeys k = R.subtreeKeys k ↔ s ≠ .nil ∧ ¬ s.StartsOutside k

section
variable {T : Trie w P} {R : RefTrie w P}

theorem agrees_nil (hT : T.Shaped .nil) (hR : R.Shaped .nil) : Agrees T R .nil := by
  obtain ⟨t, hrep, hshape⟩ := hT
  obtain rfl : t = .nil := BinTree.map_eq_nil.mp hshape
  have hroot : T.heap.root = none := hrep.root
  have hfind := find_nil hR
  refine ⟨fun k => ?_, fun k => ?_, fun k => ?_, fun k => ?_, fun a => ?_, fun k => ?_⟩
  · rw [Trie.find_entry hrep, hfind]
    simp [Except.map]
  · rw [Trie.lookupNode_entry hrep, lookupNode, deref, if_pos hR.root_nil]
    simp [Except.map]
  · rw [Trie.findLessSpecific_entry hrep, findLessSpecific, hfind, Shape.findLessSpecific]
    by_cases hk : k.prefixLen = 0
    · simp [hk, iterator, Mem.iterator, Except.map, acquire, entry]
    · simp [hk, Except.map]
  · rw [Trie.lowerBound_nil hrep, lowerBound_nil hR]
  · rw [Trie.findBounds, findBounds, deref, deref, if_pos hroot, if_pos hR.root_nil]
    simp [Shape.MissesLow, PrefixTree.MissesLow]
  · rw [Trie.subtreeKeys_eq hrep, subtreeKeys, searchSubtree, deref, if_pos hR.root_nil]
    simp

theorem agrees_of_shaped {s : Shape w P} (hT : T.Shaped s) (hR : R.Shaped s) : Agrees T R s := by
  obtain ⟨t, hrep, hshapeT⟩ := hT
  obtain ⟨u, C, hshapeR⟩ := hR
  by_cases hs : s = .nil
  · subst hs
    exact agrees_nil ⟨t, hrep, hshapeT⟩ ⟨u, C, hshapeR⟩
  have hwf : PrefixTree.WF fst Shape.full s := hshapeT ▸ wf_shape.mpr hrep.wf
  have hne : t ≠ .nil := fun h => hs (by rw [← hshapeT, h]; rfl)
  have hne' : u ≠ .nil := fun h => hs (by rw [← hshapeR, h]; rfl)
  refine ⟨fun k => iff_of_true ?_ hs, fun k => iff_of_true ?_ hs, fun k => iff_of_true ?_ (.inl hs),
    fun k => ?_, fun a => ?_, fun k => ?_⟩
  · rw [Trie.find_entry hrep, find_entry C hne', hshapeT, hshapeR]
  · rw [Trie.lookupNode_entry hrep, lookupNode_entry C hne', hshapeT, hshapeR]
  · rw [Trie.findLessSpecific_entry hrep, findLessSpecific_entry C hne', hshapeT, hshapeR]
  · rw [Trie.lowerBound_entry hrep hne, lowerBound_entry C hne', hshapeT, hshapeR]
  · rw [Trie.findBounds_eq hrep hne, findBounds_eq C hne', hshapeT, hshapeR, Except.ok.injEq]
    exact findBounds_agree_iff hwf a
  · rw [Trie.subtreeKeys_eq hrep, subtreeKeys_eq C k hne', hshapeT, hshapeR, Except.ok.injEq,
      and_iff_right hs]
    exact visits_agree_iff hwf

end

/-- **`RefTrie` agrees with `Trie`** after any insertions and removals, but for
`find_bounds` where the lower bound is missed, for `search_subtree` where the iteration
starts outside the key, and on an empty trie. -/
theorem run_agrees_iff (ops : List (Trie.Op w P)) : ∃ T : Trie w P, Trie.empty.run ops = .ok T ∧
    ((RefTrie.empty.run ops = (.error .badPointer : Except Fault (RefTrie w P)) ∧
        Shape.ErasesEmpty .nil ops) ∨
      ∃ R : RefTrie w P, RefTrie.empty.run ops = .ok R ∧ ¬ Shape.ErasesEmpty .nil ops ∧
        Agrees T R (Shape.run .nil ops)) := by
  obtain ⟨T, hrunT, hT⟩ := Trie.run_shaped (T := Trie.empty) ops ⟨.nil, Trie.Represents.empty, rfl⟩
  refine ⟨T, hrunT, ?_⟩
  rcases run_shaped (T := RefTrie.empty) ops ⟨.nil, Counted.empty, rfl⟩ with
    ⟨R, hrunR, hR, hno⟩ | hstop
  · exact .inr ⟨R, hrunR, hno, agrees_of_shaped hT hR⟩
  · exact .inl hstop

/-- With `0.0.0.0/2`, `160.0.0.0/3` and `192.0.0.0/2` stored, the range around `128.0.0.1`
starts at `64.0.0.0`, and for `RefTrie` at `0.0.0.0`.  With only the default route stored,
the subtree of `10.0.0.0/8` is empty, and for `RefTrie` it is the default route. -/
theorem run_disagrees :
    let ops : List (Trie.Op 32 Unit) := [.insert (ofAddr 0x00000000 2 (by decide)) (),
      .insert (ofAddr 0xa0000000 3 (by decide)) (),
      .insert (ofAddr 0xc0000000 2 (by decide)) ()]
    let default : List (Trie.Op 32 Unit) := [.insert (any 32) ()]
    let ten : IPNet 32 := ofAddr 0x0a000000 8 (by decide)
    (Trie.empty.run ops >>= fun T => T.findBounds 0x80000001) = .ok (0x40000000, 0x9fffffff) ∧
    (RefTrie.empty.run ops >>= fun R => R.findBounds 0x80000001) = .ok (0x00000000, 0x9fffffff) ∧
    (Trie.empty.run default >>= fun T => T.subtreeKeys ten) = .ok [] ∧
    (RefTrie.empty.run default >>= fun R => R.subtreeKeys ten) = .ok [any 32] := by
  decide +kernel

end RefTrie

end Xorp

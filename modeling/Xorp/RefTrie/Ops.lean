/-
The functions of `RefTrie`, by what they do to the holders.

A function that returns an iterator adds one holder; `next()` and `force_valid()` move
one; `insert` and `erase` change entries around the holders.  In every case the nodes
the other iterators stand on stay where they are.
-/
import Xorp.RefTrie.Counts
import Xorp.Trie.Subtree

namespace Xorp

open Linked Spine Mem List PrefixTree IPNet Prod

variable {w : Nat} {P : Type}

namespace RefTrie

variable {T : RefTrie w P} {hs hs₀ : List Nat} {t : RefNodeTree w P}

/-- One more iterator than `hs`, and nothing that was held has moved. -/
def Made (hs : List Nat) (t : RefNodeTree w P) (out : RefTrie w P × Iterator w) : Prop :=
  ∃ t', Counted out.1.heap (out.2.cur.toList ++ hs) t' ∧ Persists hs t t'

/-! ### Iterators -/

variable {ys : List (RefLabel w P)} {a : RefLabel w P} {it : Iterator w} {n : Option Nat}

theorem heap_iterator (C : Counts T.heap hs t) (hn : Entry t n) :
    ∃ it, T.heap.iterator n = .ok it ∧ it.cur = n := by
  cases n with
  | none => exact ⟨_, rfl, rfl⟩
  | some i =>
    obtain ⟨a, ha, rfl, -⟩ := hn i rfl
    obtain ⟨cell, hread, -⟩ := C.read ha
    refine ⟨⟨some a.1, cell.data.k⟩, ?_, rfl⟩
    rw [Mem.iterator, hread]
    rfl

theorem entry_find (C : Counts T.heap hs t) (k : IPNet w) :
    ∃ n, T.heap.find refTrieNode k = .ok n ∧ Entry t n := by
  refine ⟨_, find_eq C.holds C.root k, ?_⟩
  intro i hi
  obtain ⟨a, hfind, rfl⟩ := Option.map_eq_some_iff.mp hi
  have hlong := find_longest C.wf hfind
  exact ⟨a, hlong.mem, rfl, (stored_iff.mp hlong.stored).1⟩

theorem entry_none : Entry t none := by
  intro i hi
  simp at hi

theorem mem_of_root (C : Counts T.heap hs t) {i : Nat} (hi : T.heap.root = some i) :
    ∃ a ∈ t.nodes, a.1 = i := by
  rw [C.root] at hi
  cases t with
  | nil => simp at hi
  | node a l r => exact ⟨a, BinTree.mem_nodes_node.mpr (.inl rfl), Option.some.inj hi⟩

theorem root_ne_none (C : Counts T.heap hs t) (hne : t ≠ .nil) : T.heap.root ≠ none := by
  rwa [C.root, Ne, BinTree.ptr_eq_none]

theorem root_of_mem (C : Counts T.heap hs t) (ha : a ∈ t.nodes) : T.heap.root ≠ none := by
  refine root_ne_none C ?_
  rintro rfl
  simp at ha

section
variable (C : Counted T.heap hs t) (hle : ∀ i, hs.count i ≤ hs₀.count i + 2) (k : IPNet w)
include C hle

theorem iterator_made (hn : Entry t n) : Yields (Overflow hs₀) (Made hs t) (T.iterator n) := by
  obtain ⟨it, hit, hcur⟩ := heap_iterator C.toCounts hn
  rw [iterator, hit, ok_bind]
  refine (acquire_counted C hn hle).bind fun T' hT' => ?_
  obtain ⟨t', C', hsame⟩ := hT'
  refine ⟨t', ?_, (Keeps.of_uncounted hsame).persists⟩
  rw [hcur]
  exact C'

theorem subtreeIterator_made (hn : ∀ i, n = some i → ∃ a ∈ t.nodes, a.1 = i) :
    Yields (Overflow hs₀) (Made hs t) (T.subtreeIterator n k) := by
  cases n with
  | none => exact ⟨t, C, (Keeps.refl t).persists⟩
  | some i =>
    obtain ⟨a, ha, rfl⟩ := hn i rfl
    obtain ⟨b, hb, hf, hbegin⟩ := iterBegin_entry k C.holds C.wf ha
    have hentry : Entry t (some b.1) := fun i hi => ⟨b, hb, Option.some.inj hi, hf⟩
    rw [subtreeIterator]
    simp only [hbegin, ok_bind]
    refine (acquire_counted C hentry hle).bind fun T' hT' => ?_
    obtain ⟨t', C', hsame⟩ := hT'
    exact ⟨t', C', (Keeps.of_uncounted hsame).persists⟩

section
variable (hroot : T.heap.root ≠ none)
include hroot

theorem find_made : Yields (Overflow hs₀) (Made hs t) (T.find k) := by
  obtain ⟨n, hfind, hn⟩ := entry_find C.toCounts k
  rw [find, deref_eq hroot, ok_bind, hfind, ok_bind]
  exact iterator_made C hle hn

theorem lookupNode_made : Yields (Overflow hs₀) (Made hs t) (T.lookupNode k) := by
  obtain ⟨n, hfind, hn⟩ := entry_find C.toCounts k
  rw [lookupNode, deref_eq hroot, ok_bind, hfind, ok_bind]
  cases n with
  | none => exact iterator_made C hle entry_none
  | some i =>
    obtain ⟨a, ha, rfl, -⟩ := hn i rfl
    obtain ⟨cell, hread, -⟩ := C.read ha
    simp only [hread, ok_bind]
    by_cases hk : cell.data.k = k
    · rw [if_pos hk]
      exact iterator_made C hle hn
    · rw [if_neg hk]
      exact iterator_made C hle entry_none

theorem searchSubtree_made : Yields (Overflow hs₀) (Made hs t) (T.searchSubtree k) := by
  rw [searchSubtree, deref_eq hroot, ok_bind, findSubtreeDeepest_eq C.holds C.root, ok_bind]
  refine subtreeIterator_made C hle k fun i hi => ?_
  cases hd : deepestSubtree nodeKey k t with
  | nil =>
    rw [hd] at hi
    simp at hi
  | node g gl gr =>
    obtain ⟨c, hplug, -⟩ := C.wf.exists_deepestSubtree (k := k) (by rw [hd]; simp)
    rw [hd] at hi hplug
    refine ⟨g, ?_, Option.some.inj hi⟩
    rw [hplug, nodes_plug]
    simp

end

theorem findLessSpecific_made (hroot : k.prefixLen ≠ 0 → T.heap.root ≠ none) :
    Yields (Overflow hs₀) (Made hs t) (T.findLessSpecific k) := by
  rw [findLessSpecific]
  by_cases hk : k.prefixLen = 0
  · rw [if_pos hk]
    exact iterator_made C hle entry_none
  · rw [if_neg hk]
    exact find_made C hle (parentKey k) (hroot hk)

end

/-! ### `lower_bound` -/

variable {t' : RefNodeTree w P} {xs : List (RefLabel w P)} {b : RefLabel w P}

theorem scan_mem {ρ : IPNet w} (h : scan ρ ys = some b) : b ∈ ys ∧ nodeFull b = true := by
  induction ys with
  | nil => simp [scan] at h
  | cons a ys ih =>
    rw [scan] at h
    split_ifs at h with hc hf
    · cases h
      exact ⟨mem_cons_self, hf⟩
    · exact ⟨mem_cons_of_mem _ (ih h).1, (ih h).2⟩

/-- The way past a node without a payload goes to the second entry and leaves the trie as
it was. -/
theorem skipEmpty_counted (C : Counted T.heap hs t) (ha : a ∈ t.nodes)
    (hle : ∀ i, hs.count i + 1 ≤ hs₀.count i + 2) : Yields (Overflow hs₀)
      (fun out => (∃ t', Counted out.1.heap hs t' ∧ uncounted t' = uncounted t) ∧
        out.2 = (t.nodes.tail.find? nodeFull).map Prod.fst)
      (T.skipEmpty a.1) := by
  obtain ⟨b, rest, hnodes, hbegin⟩ := iterBegin_any C.holds ha
  have hfirst : Entry t (some b.1) := by
    intro i hi
    exact ⟨b, by simp [hnodes], Option.some.inj hi, C.wf.full_of_first hnodes⟩
  rw [skipEmpty, hbegin, ok_bind]
  refine (acquire_counted C hfirst fun i => by have := hle i; omega).bind fun T₁ hT₁ => ?_
  obtain ⟨t₁, C₁, hsame₁⟩ := hT₁
  -- the first node now, and the rest
  have hmap := nodes_of_uncounted hsame₁
  rw [hnodes, map_cons, map_eq_cons_iff] at hmap
  obtain ⟨b₁, ys, hsplit, hb₁, hys⟩ := hmap
  have hid : b₁.1 = b.1 := (Prod.mk.inj hb₁).1
  have hfirst₁ : t₁.nodes = [] ++ b₁ :: ys := hsplit
  have hnext := iterNext_eq C₁.holds (any w) hfirst₁
  have hcur : (scan (any w) ys).map Prod.fst = (t.nodes.tail.find? nodeFull).map Prod.fst := by
    have hfind := congrArg (List.find? fun e => e.2.2.1.isSome) hys
    rw [List.find?_map, List.find?_map] at hfind
    rw [scan_any_eq, hnodes, tail_cons]
    have hfst := congrArg (Option.map Prod.fst) hfind
    rw [Option.map_map, Option.map_map] at hfst
    exact hfst
  have hentry : Entry t₁ ((scan (any w) ys).map Prod.fst) := by
    intro i hi
    obtain ⟨d, hscan, rfl⟩ := Option.map_eq_some_iff.mp hi
    exact ⟨d, by simp [hsplit, (scan_mem hscan).1], rfl, (scan_mem hscan).2⟩
  rw [← hid, hnext, ok_bind]
  refine (acquire_counted C₁ hentry ?_).bind fun T₂ hT₂ => ?_
  · intro i
    have := hle i
    show (b.1 :: hs).count i ≤ _
    rw [count_cons]
    split_ifs <;> omega
  obtain ⟨t₂, C₂, hsame₂⟩ := hT₂
  -- neither of the two nodes is deleted and free, since none was at the start
  have hgone : ∀ {t' : RefNodeTree w P}, uncounted t' = uncounted t →
      ∀ c ∈ t'.nodes, nodeFull c = true → deleted c.2.x = true → c.1 ∈ hs := by
    intro t' hsame c hc hfc hd
    obtain ⟨d, hd', hid', -, hfull, hdel⟩ := mem_of_uncounted hsame hc
    exact hid' ▸ C.gone d hd' (hfull.trans hfc) (hdel.trans hd)
  have hsame₂' := hsame₂.trans hsame₁
  have C₂' : Counted T₂.heap
      ((some b₁.1).toList ++ (((scan (any w) ys).map Prod.fst).toList ++ hs)) t₂ :=
    C₂.perm (by rw [hid]; exact perm_middle)
  obtain ⟨T₃, t₃, hrun₃, C₃, hsame₃⟩ := releaseLocal_counted C₂'
    (fun c hc hfc hd => mem_append_right _ (hgone hsame₂' c hc hfc hd))
  obtain ⟨T₄, t₄, hrun₄, C₄, hsame₄⟩ := releaseLocal_counted C₃ (hgone (hsame₃.trans hsame₂'))
  rw [hrun₃, ok_bind, hrun₄, ok_bind]
  exact ⟨⟨t₄, C₄, hsame₄.trans (hsame₃.trans hsame₂')⟩, hcur⟩

/-- **`lower_bound` on the tree.** -/
theorem lowerBoundNode_counted (C : Counted T.heap hs t) (k : IPNet w) (hroot : T.heap.root ≠ none)
    (hle : ∀ i, hs.count i + 1 ≤ hs₀.count i + 2) :
    Yields (Overflow hs₀)
      (fun out => (∃ t', Counted out.1.heap hs t' ∧ uncounted t' = uncounted t) ∧
        out.2 = (PrefixTree.lowerBound nodeKey nodeFull k t).map fst)
      (T.lowerBoundNode k) := by
  obtain ⟨a, ha, hmem, hlook, hlook'⟩ := PrefixTree.exists_candidate C.wf
    (fun hnil => hroot (by rw [C.root, hnil]; rfl))
  obtain ⟨cell, hread, hdata⟩ := C.read hmem
  rw [lowerBoundNode, deepest_eq C.holds C.root, ok_bind, Option.or_none, candidate_eq C.root ha,
    PrefixTree.lowerBound]
  simp only [hread, ok_bind, hdata]
  by_cases hk : a.2.k = k
  · rw [if_pos hk, hlook hk]
    by_cases hf : a.2.hasPayload = true
    · rw [if_pos hf]
      exact ⟨⟨t, C, rfl⟩, by simp only [show nodeFull a = true from hf, if_true]; rfl⟩
    · rw [if_neg hf]
      simp only [show ¬ nodeFull a = true from hf]
      exact skipEmpty_counted C hmem hle
  · rw [if_neg hk, hlook' hk, lowerBoundLoop_eq C.holds C.wf k ha, ok_bind]
    exact ⟨⟨t, C, rfl⟩, rfl⟩

theorem entry_lowerBound (hw : PrefixTree.WF nodeKey nodeFull t) (k : IPNet w)
    (hsame : uncounted t' = uncounted t) :
    Entry t' ((PrefixTree.lowerBound nodeKey nodeFull k t).map fst) := by
  intro i hi
  obtain ⟨b, hb, rfl⟩ := Option.map_eq_some_iff.mp hi
  obtain ⟨hmem, hf⟩ := hw.lowerBound_mem hb
  obtain ⟨c, hc, hid, -, hfull, -⟩ := mem_of_uncounted hsame.symm hmem
  exact ⟨c, hc, hid, hfull.trans hf⟩

theorem lowerBound_made (C : Counted T.heap hs t) (k : IPNet w) (hroot : T.heap.root ≠ none)
    (hle : ∀ i, hs.count i + 1 ≤ hs₀.count i + 2) :
    Yields (Overflow hs₀) (Made hs t) (T.lowerBound k) := by
  refine (lowerBoundNode_counted C k hroot hle).bind fun out hout => ?_
  obtain ⟨⟨t', C', hsame⟩, hn⟩ := hout
  have hentry := hn ▸ entry_lowerBound C.wf k hsame
  refine (iterator_made C' (fun i => by have := hle i; omega) hentry).mono fun out' hout' => ?_
  obtain ⟨t'', C'', hpersists⟩ := hout'
  exact ⟨t'', C'', (Keeps.of_uncounted hsame).persists.trans hpersists⟩

/-! ### `next` -/

/-- In a scan of the whole space no entry is passed over. -/
theorem scan_any (hsorted : ys.Pairwise fun a b => (nodeKey a).lt (nodeKey b) = true)
    {d : RefLabel w P} (hd : d ∈ ys) (hf : nodeFull d = true) :
    ∃ b, scan (any w) ys = some b ∧ (nodeKey d).lt (nodeKey b) = false := by
  induction ys with
  | nil => simp at hd
  | cons a ys ih =>
    rw [pairwise_cons] at hsorted
    rw [scan, if_pos any_contains]
    by_cases ha : nodeFull a = true
    · rw [if_pos ha]
      refine ⟨a, rfl, ?_⟩
      rcases mem_cons.mp hd with rfl | hd
      · exact lt_irrefl _
      · exact lt_asymm (hsorted.1 d hd)
    · rw [if_neg ha]
      have hne : d ≠ a := fun hc => ha (hc ▸ hf)
      exact ih hsorted.2 ((mem_cons.mp hd).resolve_left hne)

/-- **`next()` moves one iterator**, to where a scan of the rest of the tree ends. -/
theorem next_counted (C : Counted T.heap (a.1 :: hs) t) (hit : it.cur = some a.1)
    (hsplit : t.nodes = xs ++ a :: ys) (hle : ∀ i, (a.1 :: hs).count i ≤ hs₀.count i + 2) :
    Yields (Overflow hs₀) (fun out => out.2 = { it with cur := (scan it.root ys).map fst } ∧
        ∃ t', Counted out.1.heap (out.2.cur.toList ++ hs) t' ∧ Keeps (out.2.cur.toList ++ hs) t t' ∧
          (deleted a.2.x = false → uncounted t' = uncounted t))
      (T.next it) := by
  have hentry : Entry t ((scan it.root ys).map fst) := by
    intro i hi
    obtain ⟨b, hscan, rfl⟩ := Option.map_eq_some_iff.mp hi
    obtain ⟨hb, hf⟩ := scan_mem hscan
    exact ⟨b, by simp [hsplit, hb], rfl, hf⟩
  rw [next, hit]
  simp only [iterNext_eq C.holds it.root hsplit, ok_bind]
  refine (acquire_counted C hentry hle).bind fun T₁ hT₁ => ?_
  obtain ⟨t₁, C₁, hsame⟩ := hT₁
  have C₁' : Counted T₁.heap ((some a.1).toList ++ (((scan it.root ys).map fst).toList ++ hs)) t₁ :=
    C₁.perm perm_middle
  obtain ⟨T₂, t₂, hrel, C₂, hleft⟩ := release_counted C₁'
  rw [hrel, ok_bind]
  refine ⟨rfl, t₂, C₂, (Keeps.of_uncounted hsame).trans hleft.keeps, fun hdel => ?_⟩
  refine (hleft.leaves fun b hb hid => ?_).trans hsame
  obtain ⟨c, hc, hid', -, -, hdel'⟩ := mem_of_uncounted hsame hb
  rw [← hdel', C.eq_of_id_eq hc (show a ∈ t.nodes by simp [hsplit])
    (hid'.trans (Option.some.inj hid).symm), hdel]

/-! ### `force_valid` -/

/-- How many nodes come after a key. -/
def ahead (t : RefNodeTree w P) (k : IPNet w) : Nat :=
  ((t.nodes.map nodeKey).filter fun k' => k.lt k').length

theorem ahead_lt (hw' : PrefixTree.WF nodeKey nodeFull t')
    (hkeys : ∀ b ∈ t'.nodes, ∃ a ∈ t.nodes, nodeKey a = nodeKey b) {k : IPNet w} (hb : b ∈ t'.nodes)
    (hlt : k.lt (nodeKey b) = true) : ahead t' (nodeKey b) < ahead t k := by
  have hnd : (t'.nodes.map nodeKey).Nodup := by
    rw [List.Nodup, pairwise_map]
    refine hw'.sorted.imp fun {a c} hac heq => ?_
    rw [heq, lt_irrefl] at hac
    simp at hac
  have hsub : (nodeKey b :: (t'.nodes.map nodeKey).filter fun k' => (nodeKey b).lt k') ⊆
      (t.nodes.map nodeKey).filter fun k' => k.lt k' := by
    intro k' hk'
    rw [mem_filter]
    rcases mem_cons.mp hk' with rfl | hk'
    · obtain ⟨a, ha, heq⟩ := hkeys b hb
      exact ⟨heq ▸ mem_map_of_mem ha, hlt⟩
    · rw [mem_filter] at hk'
      obtain ⟨c, hc, rfl⟩ := mem_map.mp hk'.1
      obtain ⟨a, ha, heq⟩ := hkeys c hc
      exact ⟨heq ▸ mem_map_of_mem ha, lt_trans hlt hk'.2⟩
  have hself : nodeKey b ∉ (t'.nodes.map nodeKey).filter fun k' => (nodeKey b).lt k' := by
    rw [mem_filter, lt_irrefl]
    simp
  exact (subperm_of_subset (nodup_cons.mpr ⟨hself, hnd.filter _⟩) hsub).length_le

theorem ahead_lt_bound (C : Counts T.heap hs t) (k : IPNet w) : ahead t k + 1 < T.heap.bound := by
  have hlen := C.holds.length_le
  have hfilter := length_filter_le (fun k' => k.lt k') (t.nodes.map nodeKey)
  rw [BinTree.ids, length_map] at hlen
  rw [length_map] at hfilter
  rw [ahead, Heap.bound]
  omega

/-- Where `force_valid()` leaves an iterator that was on `a`. -/
structure Forced (hs : List Nat) (t : RefNodeTree w P) (it : Iterator w)
    (out : RefTrie w P × Iterator w) (t' : RefNodeTree w P) : Prop where
  counted : Counted out.1.heap (out.2.cur.toList ++ hs) t'
  keeps : Keeps hs t t'
  root : out.2.root = it.root
  rest : it.cur = none → out.2.cur = none
  stored : ∀ b ∈ t'.nodes, out.2.cur = some b.1 → Xorp.stored b = true
  /-- it does not go back -/
  onward : ∀ a ∈ t.nodes, it.cur = some a.1 → ∀ b ∈ t'.nodes, out.2.cur = some b.1 →
    (nodeKey b).lt (nodeKey a) = false
  /-- and skips only what has been deleted -/
  least : it.root = IPNet.any w → ∀ a ∈ t.nodes, it.cur = some a.1 → ∀ d ∈ t'.nodes,
    Xorp.stored d = true → (nodeKey d).lt (nodeKey a) = false →
    ∃ b ∈ t'.nodes, out.2.cur = some b.1 ∧ (nodeKey d).lt (nodeKey b) = false

/-- What lies on either side of a node in the post-order. -/
theorem sides (hw : PrefixTree.WF nodeKey nodeFull t) (hsplit : t.nodes = xs ++ a :: ys) :
    (∀ b ∈ ys, (nodeKey a).lt (nodeKey b) = true) ∧
    (∀ b ∈ t.nodes, (nodeKey a).lt (nodeKey b) = true → b ∈ ys) ∧
    ys.Pairwise fun a b => (nodeKey a).lt (nodeKey b) = true := by
  have hsorted := hw.sorted
  rw [hsplit, pairwise_append, pairwise_cons] at hsorted
  refine ⟨hsorted.2.1.1, ?_, hsorted.2.1.2⟩
  intro b hb hlt
  rw [hsplit, mem_append, mem_cons] at hb
  rcases hb with hb | rfl | hb
  · have hback := lt_asymm (hsorted.2.2 b hb a mem_cons_self)
    simp [hback] at hlt
  · simp [lt_irrefl] at hlt
  · exact hb

theorem Forced.stay (C : Counted T.heap (it.cur.toList ++ hs) t)
    (hst : ∀ a ∈ t.nodes, it.cur = some a.1 → Xorp.stored a = true) : Forced hs t it (T, it) t where
  counted := C
  keeps := Keeps.refl t
  root := rfl
  rest := id
  stored := hst
  onward := by
    intro a ha hcur b hb hcur'
    rw [C.eq_of_id_eq hb ha (Option.some.inj (hcur'.symm.trans hcur))]
    exact lt_irrefl _
  least := fun _ a ha hcur d _ _ hd => ⟨a, ha, hcur, hd⟩

/-- One turn of `force_valid()`, off a deleted node, and what comes after it. -/
theorem Forced.step {it it₁ : Iterator w} {out : RefTrie w P × Iterator w}
    {t₁ t' : RefNodeTree w P}
    (C : Counted T.heap (a.1 :: hs) t)
    (hit : it.cur = some a.1) (hdel : deleted a.2.x = true) (hsplit : t.nodes = xs ++ a :: ys)
    (hit₁ : it₁ = { it with cur := (scan it.root ys).map fst })
    (hkeeps : Keeps (it₁.cur.toList ++ hs) t t₁) (F : Forced hs t₁ it₁ out t') : Forced hs t it out t' := by
  have ha : a ∈ t.nodes := by simp [hsplit]
  obtain ⟨hafter, hmem, hsorted⟩ := sides C.wf hsplit
  -- where the iterator stands after the first move
  have hpos : ∀ b₀, scan it.root ys = some b₀ →
      ∃ b ∈ t₁.nodes, it₁.cur = some b.1 ∧ nodeKey b = nodeKey b₀ := by
    intro b₀ hscan
    have hcur : it₁.cur = some b₀.1 := by rw [hit₁]; simp [hscan]
    have hb₀ : b₀ ∈ t.nodes := by simp [hsplit, (scan_mem hscan).1]
    obtain ⟨b, hb, hid, hkey⟩ := hkeeps.persists b₀ hb₀ (by simp [hcur])
    exact ⟨b, hb, by rw [hcur, hid], hkey⟩
  refine ⟨F.counted, (hkeeps.mono fun i hi => mem_append_right _ hi).trans F.keeps,
    F.root.trans (by rw [hit₁]), fun hc => absurd (hit.symm.trans hc) (by simp), F.stored, ?_, ?_⟩
  · intro c hc hcur b hb hout
    obtain rfl : c = a := C.eq_of_id_eq hc ha (Option.some.inj (hcur.symm.trans hit))
    cases hscan : scan it.root ys with
    | none =>
      -- at the end the iterator stays there
      have hnone : it₁.cur = none := by rw [hit₁]; simp [hscan]
      exact absurd hout (by rw [F.rest hnone]; simp)
    | some b₀ =>
      obtain ⟨b₁, hb₁, hcur₁, hkey⟩ := hpos b₀ hscan
      have hback := F.onward b₁ hb₁ hcur₁ b hb hout
      rw [Bool.eq_false_iff]
      intro hlt
      rw [hkey, lt_trans hlt (hafter b₀ (scan_mem hscan).1)] at hback
      simp at hback
  · intro hany c hc hcur d hd hst hge
    obtain rfl : c = a := C.eq_of_id_eq hc ha (Option.some.inj (hcur.symm.trans hit))
    obtain ⟨d₁, hd₁, hkey₁, hst₁⟩ := F.keeps.keys d hd
    obtain ⟨d₀, hd₀, hkey₀, hst₀⟩ := hkeeps.keys d₁ hd₁
    have hstored := stored_iff.mp (hst₀ (hst₁ hst))
    have hkey : nodeKey d₀ = nodeKey d := hkey₀.trans hkey₁
    have hlt : (nodeKey c).lt (nodeKey d₀) = true := by
      rcases lt_trichotomy (nodeKey c) (nodeKey d₀) with hlt | heq | hlt
      · exact hlt
      · rw [C.wf.eq_of_key_eq hc hd₀ heq, hstored.2] at hdel
        simp at hdel
      · rw [hkey, hge] at hlt
        simp at hlt
    obtain ⟨b₀, hscan, hle⟩ := scan_any hsorted (hmem d₀ hd₀ hlt) hstored.1
    rw [← hany] at hscan
    obtain ⟨b₁, hb₁, hcur₁, hkeyb⟩ := hpos b₀ hscan
    refine F.least (by rw [hit₁]; exact hany) b₁ hb₁ hcur₁ d hd hst ?_
    rw [← hkey, hkeyb]
    exact hle

/-- **`force_valid()` leaves a deleted node for the next stored one**, or the end. -/
theorem forceValid_forced (fuel : Nat) (C : Counted T.heap (it.cur.toList ++ hs) t)
    (hfuel : ∀ a ∈ t.nodes, it.cur = some a.1 → ahead t (nodeKey a) + 1 < fuel) (hpos : 0 < fuel)
    (hle : ∀ i, hs.count i + 1 ≤ hs₀.count i + 2) :
    Yields (Overflow hs₀) (fun out => ∃ t', Forced hs t it out t') (forceValid fuel T it) := by
  induction fuel generalizing T it t with
  | zero => exact absurd hpos (Nat.lt_irrefl 0)
  | succ fuel ih =>
    rw [forceValid, curDeleted]
    cases hcur : it.cur with
    | none =>
      refine Yields.of_ok (a := (T, it)) rfl ⟨t, Forced.stay C ?_⟩
      intro a _ hc
      rw [hcur] at hc
      simp at hc
    | some i =>
      rw [hcur] at C
      obtain ⟨a, ha, rfl, hf⟩ := C.held i mem_cons_self
      obtain ⟨cell, hread, hdata⟩ := C.read ha
      have hlt := hfuel a ha hcur
      simp only [hread, ok_bind, pure_bind, hdata]
      by_cases hdel : deleted a.2.x = true
      · rw [if_pos hdel]
        obtain ⟨xs, ys, hsplit⟩ := append_of_mem ha
        refine (next_counted C hcur hsplit ?_).bind fun out hout => ?_
        · intro i
          have := hle i
          show (a.1 :: hs).count i ≤ _
          rw [count_cons]
          split_ifs <;> omega
        · obtain ⟨hit₁, t₁, C₁, hkeeps, -⟩ := hout
          refine (ih C₁ ?_ ?_).mono fun out' hout' => ?_
          · intro b hb hb'
            obtain ⟨b₀, hscan, hid⟩ : ∃ b₀, scan it.root ys = some b₀ ∧ b₀.1 = b.1 := by
              rw [hit₁] at hb'
              exact Option.map_eq_some_iff.mp hb'
            obtain ⟨hb₀, -⟩ := scan_mem hscan
            have hkey : nodeKey b = nodeKey b₀ := C₁.key_eq hkeeps.persists
              (by simp [hsplit, hb₀]) (by simp [hb', hid]) hb hid.symm
            have hdec : ahead t₁ (nodeKey b) < ahead t (nodeKey a) := by
              refine ahead_lt C₁.wf ?_ hb (hkey ▸ (sides C.wf hsplit).1 b₀ hb₀)
              intro c hc
              obtain ⟨d, hd, heq, -⟩ := hkeeps.keys c hc
              exact ⟨d, hd, heq⟩
            omega
          · omega
          · obtain ⟨t', F⟩ := hout'
            exact ⟨t', Forced.step C hcur hdel hsplit hit₁ hkeeps F⟩
      · rw [if_neg hdel]
        refine Yields.of_ok (a := (T, it)) rfl ⟨t, Forced.stay (by rw [hcur]; exact C) ?_⟩
        intro b hb hc
        obtain rfl : b = a := C.eq_of_id_eq hb ha (Option.some.inj (hc.symm.trans hcur))
        exact stored_iff.mpr ⟨hf, Bool.eq_false_iff.mpr hdel⟩

/-! ### `insert` and `erase` -/

section
variable (C : Counted T.heap hs t)
include C

/-- **`insert` puts an entry in**, and nothing is lost that an iterator stands on. -/
theorem insert_counted (k : IPNet w) (p : P) :
    ∃ h' replaced b, T.heap.insert refTrieNode k p = .ok (h', b.1, replaced) ∧
      Counted h' hs (insertTree refTrieNode k p T.heap.next t) ∧
      Persists hs t (insertTree refTrieNode k p T.heap.next t) ∧
      b ∈ (insertTree refTrieNode k p T.heap.next t).nodes ∧ nodeKey b = k ∧
      stored b = true := by
  obtain ⟨⟨h', me, replaced⟩, hrun, hout⟩ := insert_inserted p C.holds C.root
  obtain ⟨b, hb, rfl, hf, hk⟩ := hout.entry C.wf
  -- the new addresses are not among the holders
  have hfresh : ∀ i, T.heap.next ≤ i → hs.count i = 0 := by
    intro i hi
    rw [count_eq_zero]
    intro hm
    obtain ⟨a, ha, rfl, -⟩ := C.held i hm
    exact absurd (C.holds.bound a.1 (mem_map_of_mem ha)) (by omega)
  have hold : ∀ a ∈ t.nodes, nodeFull a = true →
      ∃ b ∈ (insertTree refTrieNode k p T.heap.next t).nodes, b.1 = a.1 ∧
        nodeKey b = nodeKey a ∧ nodeFull b = true := by
    intro a ha hfa
    by_cases hk : nodeKey a = k
    · exact ⟨(a.1, a.2.setPayload refTrieNode p),
        (mem_insertTree C.wf rfl).mpr (.inr (.inr ⟨a, ha, hk, rfl⟩)), rfl, rfl, rfl⟩
    · exact ⟨a, (mem_insertTree C.wf hfa).mpr (.inl ⟨ha, hk⟩), rfl, rfl, hfa⟩
  have C' : Counted h' hs (insertTree refTrieNode k p T.heap.next t) := by
    refine ⟨⟨hout.holds, hout.root, wf_insertTree C.wf, ?_, ?_⟩, ?_⟩
    · refine forall_insert ?_ ?_ ?_ C.count
      · refine refs_init.trans (hfresh _ ?_).symm
        unfold newNode
        split_ifs
        · omega
        · omega
      · intro a ha _
        exact (refs_revive a.2.x).trans ha
      · intro a _ _
        exact refs_init.trans (hfresh _ (Nat.le_refl _)).symm
    · intro i hi
      obtain ⟨a, ha, rfl, hfa⟩ := C.held i hi
      obtain ⟨b, hb, hid, -, hfb⟩ := hold a ha hfa
      exact ⟨b, hb, hid, hfb⟩
    · intro b hb hfb hd
      rcases (mem_insertTree C.wf hfb).mp hb with ⟨hb, -⟩ | ⟨rfl, -⟩ | ⟨a, -, -, rfl⟩
      · exact C.gone b hb hfb hd
      · exact absurd (hd.symm.trans deleted_init) (by decide)
      · exact absurd (hd.symm.trans (deleted_revive a.2.x)) (by decide)
  refine ⟨h', replaced, b, hrun, C', fun a ha hi => ?_, hb, hk, stored_iff.mpr ⟨hf, ?_⟩⟩
  · obtain ⟨b, hb, hid, hkey, -⟩ := hold a ha (C.full_of_held ha hi)
    exact ⟨b, hb, hid, hkey⟩
  · rcases (mem_insertTree C.wf hf).mp hb with ⟨-, hne⟩ | ⟨rfl, -⟩ | ⟨a, -, -, rfl⟩
    · contradiction
    · exact deleted_init
    · exact deleted_revive a.2.x

theorem insert_made (k : IPNet w) (p : P) (hle : ∀ i, hs.count i ≤ hs₀.count i + 2) :
    Yields (Overflow hs₀) (Made hs t) (T.insert k p) := by
  obtain ⟨h', replaced, b, hrun, C', hpersists, hb, -, hst⟩ := insert_counted C k p
  have hentry : Entry (insertTree refTrieNode k p T.heap.next t) (some b.1) := fun i hi =>
    ⟨b, hb, Option.some.inj hi, (stored_iff.mp hst).1⟩
  rw [insert, hrun, ok_bind]
  refine (iterator_made (T := ⟨h', _⟩) C' hle hentry).mono fun out hout => ?_
  obtain ⟨t', C'', hpersists'⟩ := hout
  exact ⟨t', C'', hpersists.trans hpersists'⟩

/-- **`erase` marks**, since the iterator that names the entry stands on it. -/
theorem eraseAt_counted (hit : ∀ i, it.cur = some i → i ∈ hs) :
    ∃ T' t', T.eraseAt it = .ok T' ∧ Counted T'.heap hs t' ∧ Persists hs t t' ∧ shape t' = shape t ∧
      ∀ a ∈ t.nodes, it.cur = some a.1 → stored a = true → ∀ b, b ∈ t'.nodes ↔
        (b ∈ t.nodes ∧ b.1 ≠ a.1) ∨ b = (a.1, { a.2 with x := a.2.x ||| nodeDeleted }) := by
  rw [eraseAt]
  cases hcur : it.cur with
  | none =>
    refine ⟨T, t, ?_, C, (Keeps.refl t).persists, rfl, fun _ _ hc => absurd hc (by simp)⟩
    cases T.heap.root <;> rfl
  | some i =>
    obtain ⟨a, ha, rfl, hf⟩ := C.held i (hit i hcur)
    obtain ⟨cell, hread, hdata⟩ := C.read ha
    obtain ⟨r, hroot⟩ := Option.ne_none_iff_exists'.mp (root_of_mem C.toCounts ha)
    simp only [hroot, hread, ok_bind, hdata]
    by_cases hact : a.2.active refTrieNode = true
    · rw [if_pos hact]
      obtain ⟨h', t', hrun, C', hshape, hnodes⟩ := C.erase_held ha (hit _ hcur)
      rw [hrun, ok_bind]
      refine ⟨_, t', rfl, ⟨C'.withRoot, ?_⟩, (C.keeps_of_mark ha hnodes).persists, hshape, ?_⟩
      · intro b hb hfb hd
        rcases (hnodes b).mp hb with ⟨hb, -⟩ | rfl
        · exact C.gone b hb hfb hd
        · exact hit _ hcur
      · intro b hb hid _
        obtain rfl := C.eq_of_id_eq hb ha (Option.some.inj hid).symm
        exact hnodes
    · rw [if_neg hact]
      refine ⟨T, t, rfl, C, (Keeps.refl t).persists, rfl, fun b hb hid hst => ?_⟩
      obtain rfl := C.eq_of_id_eq hb ha (Option.some.inj hid).symm
      contradiction

end

/-- What becomes of the tree when an entry is erased: iterators may keep the node. -/
structure Erased (hs : List Nat) (t : RefNodeTree w P) (a : Nat × RefNode w P)
    (t' : RefNodeTree w P) : Prop where
  persists : Persists hs t t'
  lists : ∀ k p, Lists t' k p ↔ Lists t k p ∧ k ≠ nodeKey a
  removes : a.1 ∉ hs → shape t' = (shape t).erase (nodeKey a)

variable {k : IPNet w}

theorem erase_of_none (C : Counts T.heap hs t) (hroot : T.heap.root ≠ none)
    (hfind : PrefixTree.find nodeKey stored k t = none) : T.erase k = .ok T := by
  rw [erase, find, deref_eq hroot, ok_bind, find_eq C.holds C.root, hfind]
  show (T.eraseAt ⟨none, _⟩ >>= fun T => T.release none) = _
  rw [eraseAt]
  cases T.heap.root <;> rfl

/-- **`erase` takes the entry that `find` finds.** -/
theorem erase_of_some (C : Counted T.heap hs t)
    (hfind : PrefixTree.find nodeKey stored k t = some a)
    (hle : ∀ i, hs.count i ≤ hs₀.count i + 2) : Yields (Overflow hs₀)
      (fun T' => ∃ t', Counted T'.heap hs t' ∧ Erased hs t a t') (T.erase k) := by
  have hlong := PrefixTree.find_longest C.wf hfind
  obtain ⟨hf, hlive⟩ := stored_iff.mp hlong.stored
  have hn : Entry t (some a.1) := fun i hi => ⟨a, hlong.mem, Option.some.inj hi, hf⟩
  obtain ⟨it, hit, hcur⟩ := heap_iterator C.toCounts hn
  rw [erase, find, deref_eq (root_of_mem C.toCounts hlong.mem), ok_bind, find_eq C.holds C.root,
    hfind, ok_bind, Option.map_some, iterator, hit, ok_bind, bind_assoc]
  refine (acquire_counted C hn hle).bind fun T₁ hT₁ => ?_
  obtain ⟨t₁, C₁, hsame⟩ := hT₁
  obtain ⟨T₂, t₂, hrun₂, C₂, hp₂, hshape, hmark⟩ := eraseAt_counted C₁
    (fun i (hi : it.cur = some i) => by rw [hcur] at hi; simp [Option.some.inj hi])
  obtain ⟨T₃, t₃, hrun₃, C₃, hleft⟩ := release_counted C₂
  -- the entry as it stands before it is marked
  obtain ⟨b, hb, hid, hkey, hfull, hdel⟩ := mem_of_uncounted hsame.symm hlong.mem
  have hnodes := hmark b hb (by rw [hcur, hid]) (stored_iff.mpr ⟨hfull.trans hf, hdel.trans hlive⟩)
  refine Yields.of_ok (a := T₃) ?_ ⟨t₃, C₃, ?_, fun n p => ?_, fun hout => ?_⟩
  · show (T₁.eraseAt it >>= fun T => T.release it.cur) = _
    rw [hrun₂, ok_bind, hcur, hrun₃]
  · exact ((Keeps.of_uncounted hsame).persists.trans
      (hp₂.mono fun i hi => mem_append_right _ hi)).trans hleft.keeps.persists
  · rw [hleft.lists, C₁.lists_mark hb hnodes, hkey]
    exact and_congr_left fun _ => ⟨.of_uncounted hsame.symm, .of_uncounted hsame⟩
  · rw [hleft.removes _ ((hnodes _).mpr (.inr rfl)) (by rw [hid]) (deleted_mark b.2.x) (by rwa [hid]),
      hshape, shape_of_uncounted hsame]
    show Shape.erase (nodeKey b) _ = Shape.erase (nodeKey a) _
    rw [hkey]

theorem erase_counted (C : Counted T.heap hs t) (hle : ∀ i, hs.count i ≤ hs₀.count i + 2)
    (hroot : T.heap.root ≠ none) : Yields (Overflow hs₀)
      (fun T' => ∃ t', Counted T'.heap hs t' ∧ Persists hs t t') (T.erase k) := by
  cases hfind : PrefixTree.find nodeKey stored k t with
  | none =>
    exact Yields.of_ok (erase_of_none C.toCounts hroot hfind) ⟨t, C, (Keeps.refl t).persists⟩
  | some a =>
    refine (erase_of_some C hfind hle).mono fun T' hT' => ?_
    obtain ⟨t', C', h⟩ := hT'
    exact ⟨t', C', h.persists⟩

end RefTrie

end Xorp

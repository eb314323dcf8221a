/-
Where `search_subtree` starts.

`TrieNode::find_subtree` looks for the root of the subtree inside the key.
`RefTrieNode::find_subtree` goes to the deepest node that contains the key, and the
iteration then starts at the first node under that one, inside the key or not.
-/
import Mathlib.Data.List.TakeWhile
import Xorp.Trie.Search

namespace Xorp

open Linked Spine BinTree IPNet List Option Bool

variable {w : Nat} {P X : Type} {α : Type}

namespace PrefixTree

section
variable (key : α → IPNet w) (full : α → Bool) (k : IPNet w)

def rootInside : BinTree α → Bool
  | .nil => false
  | .node a _ _ => k.contains (key a)

/-- The subtree inside the key. -/
def subtreeAt : BinTree α → BinTree α
  | .nil => .nil
  | .node a l r =>
      if k.contains (key a) then .node a l r
      else if (key a).contains k then
        if rootContains key k l then subtreeAt l
        else if rootContains key k r then subtreeAt r
        else if rootInside key k l then l
        else if rootInside key k r then r
        else .nil
      else .nil

/-- The deepest node that contains the key, with what is under it. -/
def deepestAt : BinTree α → BinTree α
  | .nil => .nil
  | .node a l r =>
      if (key a).contains k then
        if rootContains key k l then deepestAt l
        else if rootContains key k r then deepestAt r
        else .node a l r
      else .nil

def subtreeStart (t : BinTree α) : Option α := (subtreeAt key k t).leftmost

/-- Where `RefTrieNode::find_subtree` goes. -/
def deepestSubtree (t : BinTree α) : BinTree α :=
  if rootContains key k t then deepestAt key k t else if rootInside key k t then t else .nil

def deepestStart (t : BinTree α) : Option α := (deepestSubtree key k t).leftmost

/-- What an iteration of the key `k` sees from a label on. -/
def visits (t : BinTree α) (start : Option α) : List α :=
  match start with
  | none => []
  | some f =>
      match t.nodes.dropWhile fun b => key b ≠ key f with
      | [] => []
      | a :: rest => a :: (rest.takeWhile fun b => k.contains (key b)).filter full

/-- The deepest node that contains the key is not the key's own, and the first label under
it is not inside the key. -/
def StartsOutside (t : BinTree α) : Prop :=
  ∃ g, find key (fun _ => true) k t = some g ∧ key g ≠ k ∧
    ∃ f, (deepestAt key k t).leftmost = some f ∧ k.contains (key f) = false

end

section
variable {key : α → IPNet w} {full : α → Bool} {k : IPNet w} {t : BinTree α}

theorem top_deepestAt : (deepestAt key k t).top = find key (fun _ => true) k t := by
  induction t with
  | nil => rfl
  | node x l r ihl ihr =>
    rw [deepestAt, find]
    by_cases hx : (key x).contains k = true
    · rw [if_pos hx, if_pos hx]
      by_cases hl : rootContains key k l = true
      · obtain ⟨d, hd⟩ := exists_find hl
        rw [if_pos hl, if_pos hl, ihl, hd, some_or]
      · rw [if_neg hl, if_neg hl]
        by_cases hr : rootContains key k r = true
        · obtain ⟨d, hd⟩ := exists_find hr
          rw [if_pos hr, ihr, hd, some_or]
        · rw [if_neg hr, find_of_not_rootContains (eq_false_iff.mpr hr)]
          rfl
    · rw [if_neg hx, if_neg hx]
      rfl

variable {gl gr : BinTree α} {f g : α}

/-- Nothing under the deepest node that contains the key contains it. -/
theorem deepestAt_children (hd : deepestAt key k t = .node g gl gr) :
    (key g).contains k = true ∧ rootContains key k gl = false ∧ rootContains key k gr = false := by
  induction t with
  | nil => simp [deepestAt] at hd
  | node x l r ihl ihr =>
    rw [deepestAt] at hd
    split_ifs at hd with hx hl hr
    · exact ihl hd
    · exact ihr hd
    · obtain ⟨rfl, rfl, rfl⟩ := node.inj hd
      exact ⟨hx, eq_false_iff.mpr hl, eq_false_iff.mpr hr⟩

/-- The two searches meet at that node. -/
theorem WF.subtreeAt_eq (h : WF key full t) (hd : deepestAt key k t = .node g gl gr) :
    subtreeAt key k t = if k.contains (key g) then .node g gl gr else if rootInside key k gl then gl
      else if rootInside key k gr then gr
      else .nil := by
  induction t with
  | nil => simp [deepestAt] at hd
  | node x l r ihl ihr =>
    rw [deepestAt] at hd
    rw [subtreeAt]
    split_ifs at hd with hx hl hr
    · -- the key is strictly inside `x`, so `x` is not inside the key
      rw [if_neg fun hkx => (h.inLeft hl).ne (contains_antisymm hx hkx), if_pos hx, if_pos hl]
      exact ihl h.2.2.2.1 hd
    · rw [if_neg fun hkx => (h.inRight hr).ne (contains_antisymm hx hkx), if_pos hx,
        if_neg hl, if_pos hr]
      exact ihr h.2.2.2.2 hd
    · obtain ⟨rfl, rfl, rfl⟩ := node.inj hd
      rw [if_pos hx, if_neg hl, if_neg hr]

theorem WF.inside_of_rootInside (h : WF key full t) (ht : rootInside key k t = true) {b : α}
    (hb : b ∈ t.nodes) : k.contains (key b) = true := by
  cases t with
  | nil => simp [rootInside] at ht
  | node x l r => exact contains_trans ht (h.root_contains hb)

/-- A subtree that reaches into the key and does not contain it lies inside. -/
theorem WF.rootInside_of_mem (h : WF key full t) (ht : rootContains key k t = false) {b : α}
    (hb : b ∈ t.nodes) (hkb : k.contains (key b) = true) : rootInside key k t = true := by
  cases t with
  | nil => simp at hb
  | node x l r =>
    rcases contains_or_contains (h.root_contains hb) hkb with hc | hc
    · rw [rootContains, hc] at ht
      simp at ht
    · exact hc

theorem deepestAt_eq_nil : deepestAt key k t = .nil ↔ rootContains key k t = false := by
  cases hd : deepestAt key k t with
  | nil =>
    have hnone : find key (fun _ => true) k t = none := by rw [← top_deepestAt, hd]; rfl
    refine iff_of_true rfl (eq_false_iff.mpr fun hc => ?_)
    obtain ⟨d, hd⟩ := exists_find hc
    exact absurd (hnone.symm.trans hd) (by simp)
  | node g gl gr =>
    have hsome : find key (fun _ => true) k t = some g := by rw [← top_deepestAt, hd]; rfl
    refine iff_of_false (by simp) fun hc => ?_
    rw [find_of_not_rootContains hc] at hsome
    simp at hsome

/-- Under a node whose children do not contain the key: the child inside the key is the one
the first label is in, if that label is inside. -/
theorem WF.inside_leftmost_iff (h : WF key full (.node g gl gr)) (hkg : ¬ k.contains (key g) = true)
    (hnl : rootContains key k gl = false) (hnr : rootContains key k gr = false)
    (hf : (node g gl gr).leftmost = some f) :
    (if rootInside key k gl then gl else if rootInside key k gr then gr else .nil).leftmost = some f
      ↔ k.contains (key f) = true := by
  obtain ⟨-, -, -, hwl, hwr⟩ := h
  cases gl with
  | node x xl xr =>
    have hf : (node x xl xr).leftmost = some f := hf
    by_cases hin : rootInside key k (.node x xl xr) = true
    · rw [if_pos hin]
      exact iff_of_true hf (hwl.inside_of_rootInside hin (mem_of_leftmost hf))
    · refine ⟨fun hright => ?_, fun hkf =>
        absurd (hwl.rootInside_of_mem hnl (mem_of_leftmost hf) hkf) hin⟩
      split_ifs at hright with hinr
      · exact hwr.inside_of_rootInside hinr (mem_of_leftmost hright)
      · simp [leftmost] at hright
  | nil =>
    cases gr with
    | nil =>
      obtain rfl : g = f := some.inj hf
      exact iff_of_false (by simp [rootInside, leftmost]) hkg
    | node y yl yr =>
      have hf : (node y yl yr).leftmost = some f := hf
      by_cases hin : rootInside key k (.node y yl yr) = true
      · rw [if_pos hin]
        exact iff_of_true hf (hwr.inside_of_rootInside hin (mem_of_leftmost hf))
      · rw [if_neg hin]
        exact iff_of_false (by simp [leftmost]) fun hkf =>
          hin (hwr.rootInside_of_mem hnr (mem_of_leftmost hf) hkf)

theorem exists_deepestAt (hne : deepestAt key k t ≠ .nil) :
    ∃ c, t = plug c (deepestAt key k t) := by
  suffices hs : ∀ c₀ : Spine α, ∃ c, plug c₀ t = plug c (deepestAt key k t) from hs []
  induction t with
  | nil => contradiction
  | node x l r ihl ihr =>
    intro c₀
    rw [deepestAt] at hne ⊢
    split_ifs at hne ⊢ with hx hl hr
    · exact ihl hne (.left x r :: c₀)
    · exact ihr hne (.right x l :: c₀)
    · exact ⟨c₀, rfl⟩
    · contradiction

section
variable (h : WF key full t)
include h

/-- **The two searches start at the same label, or `RefTrie`'s starts outside the key.** -/
theorem starts_agree_iff :
    subtreeStart key k t = deepestStart key k t ↔ ¬ StartsOutside key k t := by
  rw [subtreeStart, deepestStart, deepestSubtree, StartsOutside]
  cases hd : deepestAt key k t with
  | nil =>
    have hroot := deepestAt_eq_nil.mp hd
    refine iff_of_true ?_ ?_
    · rw [if_neg (by simp [hroot])]
      cases t with
      | nil => rfl
      | node x l r =>
        rw [subtreeAt, if_neg (show ¬ (key x).contains k = true by
          rw [rootContains] at hroot; simp [hroot])]
        rfl
    · rintro ⟨g, hg, -⟩
      rw [find_of_not_rootContains hroot] at hg
      simp at hg
  | node g gl gr =>
    have hfind : find key (fun _ => true) k t = some g := by rw [← top_deepestAt, hd]; rfl
    obtain ⟨hg, hnl, hnr⟩ := deepestAt_children hd
    have hroot : rootContains key k t = true := by
      by_contra hc
      rw [deepestAt_eq_nil.mpr (eq_false_iff.mpr hc)] at hd
      simp at hd
    rw [h.subtreeAt_eq hd, hfind, if_pos hroot]
    by_cases hkg : k.contains (key g) = true
    · rw [if_pos hkg]
      refine iff_of_true rfl ?_
      rintro ⟨g', hg', hne, -⟩
      cases hg'
      exact hne (contains_antisymm hg hkg)
    · have hne : key g ≠ k := by
        intro heq
        rw [heq] at hkg
        exact hkg contains_refl
      obtain ⟨c, hplug⟩ := exists_deepestAt (by rw [hd]; simp)
      have hsub : WF key full (.node g gl gr) := by
        rw [hplug, hd] at h
        exact h.focus
      obtain ⟨f, hf⟩ := exists_leftmost (show node g gl gr ≠ .nil by simp)
      simp only [hf]
      rw [if_neg hkg, hsub.inside_leftmost_iff hkg hnl hnr hf]
      simp [hne]

/-! ### What the iteration sees -/

theorem WF.head?_visits (hf : f ∈ t.nodes) : (visits key full k t (some f)).head? = some f := by
  rw [visits]
  cases hdrop : t.nodes.dropWhile fun b => key b ≠ key f with
  | nil =>
    rw [dropWhile_eq_nil_iff] at hdrop
    exact absurd rfl (of_decide_eq_true (hdrop f hf))
  | cons a rest =>
    have hhead := head?_dropWhile_not (fun b => key b ≠ key f) t.nodes
    rw [hdrop] at hhead
    have hmem : a ∈ t.nodes := (dropWhile_sublist _).subset (by rw [hdrop]; simp)
    have hkey : key a = key f := by simpa using hhead
    simp [h.eq_of_key_eq hmem hf hkey]

theorem WF.visits_split {xs ys : List α} {a : α} (hsplit : t.nodes = xs ++ a :: ys) :
    visits key full k t (some a) = a :: (ys.takeWhile fun b => k.contains (key b)).filter full := by
  have hbefore : ∀ b ∈ xs, key b ≠ key a := by
    intro b hb heq
    have hsorted := h.sorted
    rw [hsplit, pairwise_append] at hsorted
    have hlt := hsorted.2.2 b hb a mem_cons_self
    rw [heq, lt_irrefl] at hlt
    simp at hlt
  have hdrop : t.nodes.dropWhile (fun b => key b ≠ key a) = a :: ys := by
    rw [hsplit, dropWhile_append_of_pos (by simpa using hbefore), dropWhile_cons_of_neg (by simp)]
  rw [visits, hdrop]

/-- The keys an iteration sees tell where it started. -/
theorem WF.visits_inj {s s' : Option α} (hs : ∀ f, s = some f → f ∈ t.nodes)
    (hs' : ∀ f, s' = some f → f ∈ t.nodes) :
    (visits key full k t s).map key = (visits key full k t s').map key ↔ s = s' := by
  refine ⟨fun heq => ?_, fun heq => by rw [heq]⟩
  have hhead := congrArg head? heq
  rw [head?_map, head?_map] at hhead
  cases s with
  | none =>
    cases s' with
    | none => rfl
    | some f' =>
      rw [h.head?_visits (hs' f' rfl)] at hhead
      simp [visits] at hhead
  | some f =>
    rw [h.head?_visits (hs f rfl)] at hhead
    cases s' with
    | none => simp [visits] at hhead
    | some f' =>
      rw [h.head?_visits (hs' f' rfl)] at hhead
      rw [h.eq_of_key_eq (hs f rfl) (hs' f' rfl) (some.inj hhead)]

end

/-- The subtree inside the key stands under a node that is not inside. -/
theorem exists_subtreeAt (hne : subtreeAt key k t ≠ .nil) : ∃ c, t = plug c (subtreeAt key k t) ∧
      ∀ f, c.head? = some f → k.contains (key f.label) = false := by
  suffices hs : ∀ c₀ : Spine α, (∀ f, c₀.head? = some f → k.contains (key f.label) = false) →
      ∃ c, plug c₀ t = plug c (subtreeAt key k t) ∧
        ∀ f, c.head? = some f → k.contains (key f.label) = false from hs [] (by simp)
  induction t with
  | nil => contradiction
  | node x l r ihl ihr =>
    intro c₀ hc₀
    rw [subtreeAt] at hne ⊢
    have hunder : ¬ k.contains (key x) = true → ∀ g : Frame α, g.label = x →
        ∀ f, (g :: c₀).head? = some f → k.contains (key f.label) = false := by
      intro hkx g hg f hf
      rw [← some.inj hf, hg]
      exact eq_false_iff.mpr hkx
    split_ifs at hne ⊢ with hkx hx hl hr hil hir
    · exact ⟨c₀, rfl, hc₀⟩
    · exact ihl hne (.left x r :: c₀) (hunder hkx _ rfl)
    · exact ihr hne (.right x l :: c₀) (hunder hkx _ rfl)
    · exact ⟨.left x r :: c₀, rfl, hunder hkx _ rfl⟩
    · exact ⟨.right x l :: c₀, rfl, hunder hkx _ rfl⟩
    · contradiction
    · contradiction

theorem WF.parent_contains {c : Spine α} (h : WF key full (plug c (.node g gl gr))) {f : Frame α}
    (hf : c.head? = some f) : (key f.label).contains (key g) = true ∧ key f.label ≠ key g := by
  cases c with
  | nil => simp at hf
  | cons f' c =>
    obtain rfl := some.inj hf
    rw [plug_cons] at h
    have hfocus := h.focus
    cases f' with
    | left a r =>
      have hin := hfocus.1 g (by simp)
      exact ⟨hin.contains, hin.ne⟩
    | right a l =>
      have hin := hfocus.2.1 g (by simp)
      exact ⟨hin.contains, hin.ne⟩

theorem mem_of_subtreeStart (hf : subtreeStart key k t = some f) : f ∈ t.nodes := by
  have hmem := mem_of_leftmost hf
  obtain ⟨c, hplug, -⟩ := exists_subtreeAt (show subtreeAt key k t ≠ .nil by
    intro hnil
    rw [hnil] at hmem
    exact absurd hmem (by simp))
  rw [hplug, nodes_plug]
  simp [hmem]

/-- So does the one under the deepest node that contains the key. -/
theorem WF.exists_deepestSubtree (h : WF key full t) (hne : deepestSubtree key k t ≠ .nil) :
    ∃ c, t = plug c (deepestSubtree key k t) ∧
      ∀ f, c.head? = some f → k.contains (key f.label) = false := by
  rw [deepestSubtree] at hne ⊢
  by_cases hroot : rootContains key k t = true
  · rw [if_pos hroot] at hne ⊢
    obtain ⟨c, hplug⟩ := exists_deepestAt hne
    refine ⟨c, hplug, ?_⟩
    cases hd : deepestAt key k t with
    | nil => contradiction
    | node g gl gr =>
      obtain ⟨hg, -⟩ := deepestAt_children hd
      rw [hplug, hd] at h
      intro f hf
      -- the parent is strictly wider than a prefix that contains the key
      have hparent := h.parent_contains hf
      rw [eq_false_iff]
      intro hkf
      exact hparent.2 (contains_antisymm hparent.1 (contains_trans hg hkf))
  · split_ifs at hne ⊢
    · exact ⟨[], rfl, by simp⟩
    · contradiction

theorem WF.mem_of_deepestStart (h : WF key full t) (hf : deepestStart key k t = some f) :
    f ∈ t.nodes := by
  have hmem := mem_of_leftmost hf
  obtain ⟨c, hplug, -⟩ := h.exists_deepestSubtree (show deepestSubtree key k t ≠ .nil by
    intro hnil
    rw [hnil] at hmem
    exact absurd hmem (by simp))
  rw [hplug, nodes_plug]
  simp [hmem]

/-- **The key sequences agree, or `RefTrie`'s starts outside the key.** -/
theorem visits_agree_iff (h : WF key full t) : (visits key full k t (subtreeStart key k t)).map key
      = (visits key full k t (deepestStart key k t)).map key ↔ ¬ StartsOutside key k t := by
  rw [h.visits_inj (fun _ => mem_of_subtreeStart) (fun _ => h.mem_of_deepestStart),
    starts_agree_iff h]

end

end PrefixTree

/-! ### The loops -/

namespace Mem

open PrefixTree (WF rootContains subtreeAt visits deepestAt deepestSubtree deepestAt_eq_nil
  top_deepestAt)

section
variable {h : Mem w P X} {u : Option Nat} {t : NodeTree w P X}

theorem ptrInside_eq (ht : Linked.Laid h u t) (key : IPNet w) :
    h.ptrInside key t.ptr = .ok (PrefixTree.rootInside nodeKey key t) := by
  cases t with
  | nil => rfl
  | node a l r =>
    rw [ptr_node, ptrInside, Heap.read_eq ht.1]
    rfl

/-- The loop of `TrieNode::find_subtree`, from a node that contains the key. -/
theorem findSubtreeLoop_eq (key : IPNet w) (fuel : Nat) (u cand : Option Nat)
    (ht : Linked.Laid h u t) (hc : rootContains nodeKey key t = true) (hfuel : t.height < fuel) :
    findSubtreeLoop key fuel h cand t.ptr = .ok ((subtreeAt nodeKey key t).ptr.or cand) := by
  induction t generalizing fuel u cand with
  | nil => simp [rootContains] at hc
  | node a l r ihl ihr =>
    obtain ⟨fuel, rfl⟩ := exists_fuel hfuel
    rw [height] at hfuel
    obtain ⟨hcell, hl, hr⟩ := ht
    have hc : a.2.k.contains key = true := hc
    rw [ptr_node, findSubtreeLoop, Heap.read_eq hcell, ok_bind, if_pos hc, ptrContains_eq hl,
      ok_bind, ptrContains_eq hr, ptrInside_eq hl, ptrInside_eq hr, subtreeAt,
      if_pos (show (nodeKey a).contains key = true from hc)]
    by_cases hin : key.contains a.2.k = true
    · rw [if_pos hin, if_pos (show key.contains (nodeKey a) = true from hin)]
      rfl
    rw [if_neg hin, if_neg (show ¬ key.contains (nodeKey a) = true from hin)]
    by_cases hcl : rootContains nodeKey key l = true
    · rw [if_pos hcl, if_pos hcl]
      exact ihl fuel _ cand hl hcl (by omega)
    rw [if_neg hcl, if_neg hcl, ok_bind]
    by_cases hcr : rootContains nodeKey key r = true
    · rw [if_pos hcr, if_pos hcr]
      exact ihr fuel _ cand hr hcr (by omega)
    rw [if_neg hcr, if_neg hcr, ok_bind]
    by_cases hil : PrefixTree.rootInside nodeKey key l = true
    · rw [if_pos hil, if_pos hil]
      cases l with
      | nil => simp [PrefixTree.rootInside] at hil
      | node b bl br => rfl
    rw [if_neg hil, if_neg hil, ok_bind]
    by_cases hir : PrefixTree.rootInside nodeKey key r = true
    · rw [if_pos hir, if_pos hir]
      cases r with
      | nil => simp [PrefixTree.rootInside] at hir
      | node b bl br => rfl
    rw [if_neg hir, if_neg hir]
    rfl

section
variable (H : Holds h t) (hroot : h.root = t.ptr) (key : IPNet w)
include H hroot

theorem rootInside_eq :
    h.rootInside key = .ok (if PrefixTree.rootInside nodeKey key t then t.ptr else none) := by
  rw [rootInside, hroot, ptrInside_eq H.laid, ok_bind]
  split_ifs
  · rfl
  · rfl

/-- **`TrieNode::find_subtree` on the tree.** -/
theorem findSubtree_eq : h.findSubtree key = .ok (subtreeAt nodeKey key t).ptr := by
  have hle := H.height_le
  rw [findSubtree, rootInside_eq H hroot, ok_bind, hroot]
  cases hc : rootContains nodeKey key t with
  | true =>
    rw [findSubtreeLoop_eq key _ _ _ H.laid hc (by rw [Heap.bound]; omega)]
    cases t with
    | nil => rfl
    | node a l r =>
      rw [PrefixTree.rootInside, subtreeAt]
      split_ifs <;> simp
  | false =>
    cases t with
    | nil => rfl
    | node a l r =>
      have hc : a.2.k.contains key = false := hc
      have hcell := H.laid.1
      rw [show h.bound = (2 * h.next + 1) + 1 by rw [Heap.bound], ptr_node, findSubtreeLoop,
        Heap.read_eq hcell, ok_bind, if_neg (by simp [hc]), PrefixTree.rootInside,
        subtreeAt, if_neg (show ¬ (nodeKey a).contains key = true by
          rw [show (nodeKey a).contains key = false from hc]; simp)]
      split_ifs
      · rfl
      · rfl

/-- **`RefTrieNode::find_subtree` on the tree.** -/
theorem findSubtreeDeepest_eq :
    h.findSubtreeDeepest key = .ok (deepestSubtree nodeKey key t).ptr := by
  rw [findSubtreeDeepest, rootInside_eq H hroot, ok_bind, deepest_eq H hroot,
    deepestSubtree, ← top_deepestAt]
  by_cases hc : rootContains nodeKey key t = true
  · rw [if_pos hc]
    cases hd : deepestAt nodeKey key t with
    | nil =>
      rw [deepestAt_eq_nil, hc] at hd
      simp at hd
    | node g gl gr => rfl
  · rw [if_neg hc, deepestAt_eq_nil.mpr (eq_false_iff.mpr hc)]
    split_ifs
    · rfl
    · rfl

end

/-- What `next()` finds, and what comes after it. -/
theorem scan_cases (ρ : IPNet w) (ys : List (Label w P X)) :
    (scan ρ ys = none ∧ (ys.takeWhile fun b => ρ.contains (nodeKey b)).filter nodeFull = []) ∨
    ∃ pre b rest, ys = pre ++ b :: rest ∧ scan ρ ys = some b ∧
      (ys.takeWhile fun b => ρ.contains (nodeKey b)).filter nodeFull
        = b :: (rest.takeWhile fun b => ρ.contains (nodeKey b)).filter nodeFull := by
  induction ys with
  | nil => exact .inl ⟨rfl, rfl⟩
  | cons b ys ih =>
    rw [scan]
    by_cases hin : ρ.contains (nodeKey b) = true
    · simp only [takeWhile_cons, hin, if_true]
      by_cases hf : nodeFull b = true
      · rw [if_pos hf, filter_cons_of_pos hf]
        exact .inr ⟨[], b, ys, rfl, rfl, rfl⟩
      · rw [if_neg hf, filter_cons_of_neg hf]
        rcases ih with hnone | ⟨pre, d, rest, rfl, hscan, heq⟩
        · exact .inl hnone
        · exact .inr ⟨b :: pre, d, rest, rfl, hscan, heq⟩
    · simp only [takeWhile_cons, hin]
      exact .inl ⟨rfl, rfl⟩

/-- **`++` on what an iteration sees**: the current node, and what it sees from the next. -/
theorem visits_scan (hw : WF nodeKey nodeFull t) (ρ : IPNet w)
    {xs ys : List (Label w P X)} {a : Label w P X} (hsplit : t.nodes = xs ++ a :: ys) :
    visits nodeKey nodeFull ρ t (some a) = a :: visits nodeKey nodeFull ρ t (scan ρ ys) := by
  rw [hw.visits_split hsplit]
  rcases scan_cases ρ ys with ⟨hscan, heq⟩ | ⟨pre, b, rest, rfl, hscan, heq⟩
  · rw [hscan, heq]
    rfl
  · have hsplit' : t.nodes = (xs ++ a :: pre) ++ b :: rest := by simp [hsplit]
    rw [hscan, heq, hw.visits_split hsplit']

/-- An iteration from a node whose parent is not inside the key starts at the first node
under it. -/
theorem iterBegin_of_parent {c : Spine (Label w P X)} {s : NodeTree w P X}
    {i : Nat} (H : Holds h (plug c s)) (ρ : IPNet w) (hi : s.ptr = some i)
    (hc : ∀ f, c.head? = some f → ρ.contains (nodeKey f.label) = false) :
    ∃ b, s.leftmost = some b ∧ h.iterBegin ρ i = .ok b.1 := by
  cases s with
  | nil => simp at hi
  | node a l r =>
    obtain rfl : a.1 = i := some.inj hi
    obtain ⟨b, rest, hnodes, hrun⟩ := iterBegin_eq ρ H
    have hstay : ascend ρ c (.node a l r) = .node a l r := by
      cases c with
      | nil => rfl
      | cons f c => rw [ascend, if_neg (by simp [hc f rfl])]
    rw [hstay] at hnodes
    exact ⟨b, by rw [leftmost_eq_head?, hnodes]; rfl, hrun⟩

end

end Mem

end Xorp

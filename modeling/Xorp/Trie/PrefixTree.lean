/-
Prefix trees.

What a `Trie` is for, with the pointers gone: a binary tree whose labels carry a
prefix, where the left subtree of a node lies in the left half of the node's prefix
and the right one in the right half, and where a node that stores nothing is there
only to join two subtrees.  The labels are arbitrary, so that the same functions
serve the tables of the RIB, where a label is a key and a payload, and the nodes in
memory, where it has an address as well.

`insert` and `erase` keep the shape, and on the labels that store something they act
as a finite map does.  `find` returns the most specific one.
-/
import Xorp.Net.IPNet
import Xorp.Lib.BinTree
import Mathlib.Data.List.Pairwise

namespace Xorp

open Linked BinTree IPNet List Option Spine

variable {w : Nat} {α : Type}

namespace PrefixTree

/-- The shape: children in the halves of their parent's prefix, and no node without
a payload that does not join two subtrees. -/
def WF (key : α → IPNet w) (full : α → Bool) : BinTree α → Prop
  | .nil => True
  | .node a l r =>
      (∀ b ∈ l.nodes, (key a).InLeft (key b)) ∧ (∀ b ∈ r.nodes, (key a).InRight (key b)) ∧
        (full a = true ∨ (l ≠ .nil ∧ r ≠ .nil)) ∧ WF key full l ∧ WF key full r

variable {l r t : BinTree α} {a b : α}

variable {key : α → IPNet w} {full : α → Bool}

theorem WF.root_contains (h : WF key full (.node a l r)) (hb : b ∈ (node a l r).nodes) :
    (key a).contains (key b) = true := by
  rcases mem_nodes_node.mp hb with rfl | hb | hb
  · exact contains_refl
  · exact (h.1 b hb).contains
  · exact (h.2.1 b hb).contains

/-- A post-order walk meets the keys in increasing order. -/
theorem WF.sorted (h : WF key full t) : t.nodes.Pairwise fun a b => (key a).lt (key b) = true := by
  induction t with
  | nil => exact List.Pairwise.nil
  | node a l r ihl ihr =>
    obtain ⟨hl, hr, -, hwl, hwr⟩ := h
    rw [nodes_node, pairwise_append, pairwise_append]
    refine ⟨⟨ihl hwl, ihr hwr, fun b hb c hc => ((hl b hb).below (hr c hc)).lt⟩,
      pairwise_singleton _ _, ?_⟩
    intro b hb c hc
    rw [mem_singleton] at hc
    subst hc
    rcases mem_append.mp hb with hb | hb
    · exact lt_of_strict (hl b hb).contains (hl b hb).ne
    · exact lt_of_strict (hr b hb).contains (hr b hb).ne

theorem WF.eq_of_key_eq (h : WF key full t) (ha : a ∈ t.nodes) (hb : b ∈ t.nodes)
    (heq : key a = key b) : a = b := by
  by_contra hne
  have hsym : t.nodes.Pairwise fun a b => key a ≠ key b := h.sorted.imp fun {a b} hlt hc => by
    rw [hc, lt_irrefl] at hlt
    simp at hlt
  have : Std.Symm fun a b => key a ≠ key b := ⟨fun _ _ hab => hab.symm⟩
  exact hsym.forall ha hb hne heq

/-- The post-order starts at a leaf, and a leaf stores something. -/
theorem WF.full_of_first (h : WF key full t) {rest : List α} (ht : t.nodes = a :: rest) :
    full a = true := by
  induction t generalizing rest with
  | nil => simp at ht
  | node b l r ihl ihr =>
    obtain ⟨-, -, hg, hwl, hwr⟩ := h
    rw [nodes_node, append_assoc] at ht
    cases hl : l.nodes with
    | cons c ls =>
      rw [hl, cons_append, List.cons.injEq] at ht
      exact ihl hwl (ht.1 ▸ hl)
    | nil =>
      cases hr : r.nodes with
      | cons c rs =>
        rw [hl, hr, nil_append, cons_append, List.cons.injEq] at ht
        exact ihr hwr (ht.1 ▸ hr)
      | nil =>
        rw [hl, hr, nil_append, nil_append, List.cons.injEq] at ht
        rcases hg with hf | ⟨hne, -⟩
        · exact ht.1 ▸ hf
        · exact absurd (nodes_eq_nil.mp hl) hne

/-! ### Insertion -/

/-- Put the label `leaf` at key `x`, or apply `set` to the label already there.  Two
disjoint prefixes are joined under a `glue` label for their common subnet. -/
def insert (key : α → IPNet w) (leaf : α) (glue : IPNet w → α) (set : α → α) (x : IPNet w) :
    BinTree α → BinTree α
  | .nil => .node leaf .nil .nil
  | .node a l r =>
      if x = key a then .node (set a) l r
      else if x.Below (key a) then
        .node (glue (x.commonSubnet (key a))) (.node leaf .nil .nil) (.node a l r)
      else if (key a).Below x then
        .node (glue (x.commonSubnet (key a))) (.node a l r) (.node leaf .nil .nil)
      else if (key a).InLeft x then .node a (insert key leaf glue set x l) r
      else if (key a).InRight x then .node a l (insert key leaf glue set x r)
      else if x.InRight (key a) then .node leaf .nil (.node a l r)
      else .node leaf (.node a l r) .nil

/-- The ways `x` can lie to the key of a node, in the order `insert` asks. -/
theorem position_cases (x y : IPNet w) :
    x = y ∨ x.Below y ∨ y.Below x ∨ y.InLeft x ∨ y.InRight x ∨ x.InRight y ∨ x.InLeft y := by
  by_cases heq : x = y
  · exact .inl heq
  · rcases nested_or_disjoint x y with h | h | h | h
    · rcases inLeft_or_inRight h heq with h | h <;> simp [h]
    · rcases inLeft_or_inRight h (Ne.symm heq) with h | h <;> simp [h]
    · simp [h]
    · simp [h]

section
variable (key : α → IPNet w) (full : α → Bool) (leaf : α) (glue : IPNet w → α) (set : α → α)
variable (x : IPNet w)

theorem insert_ne_nil (t : BinTree α) : insert key leaf glue set x t ≠ .nil := by
  cases t with
  | nil => simp [insert]
  | node a l r =>
    simp only [insert]
    split_ifs <;> simp

variable {key full leaf glue set x}

/-- What holds of the new label and of the old ones, and passes to a glue label for the
common subnet of two keys, holds of every label after an insertion. -/
theorem forall_insert {Q : α → Prop} (hleaf : Q leaf) (hset : ∀ a, Q a → key a = x → Q (set a))
    (hglue : ∀ a, Q a → x.Below (key a) ∨ (key a).Below x → Q (glue (x.commonSubnet (key a))))
    (ht : ∀ a ∈ t.nodes, Q a) : ∀ a ∈ (insert key leaf glue set x t).nodes, Q a := by
  induction t with
  | nil => simpa [insert] using hleaf
  | node a l r ihl ihr =>
    obtain ⟨ha, hl, hr⟩ := forall_nodes_node.mp ht
    have hnew : ∀ b ∈ (node leaf .nil .nil).nodes, Q b := by simpa using hleaf
    -- in every case the labels are a root and those of two subtrees
    simp only [insert]
    split_ifs with h0 hA hB hC hD hE <;> rw [forall_nodes_node]
    · exact ⟨hset a ha h0.symm, hl, hr⟩
    · exact ⟨hglue a ha (.inl hA), hnew, ht⟩
    · exact ⟨hglue a ha (.inr hB), ht, hnew⟩
    · exact ⟨ha, ihl hl, hr⟩
    · exact ⟨ha, hl, ihr hr⟩
    · exact ⟨hleaf, by simp, ht⟩
    · exact ⟨hleaf, ht, by simp⟩

/-- **Insertion keeps the shape.** -/
theorem WF.insert (h : WF key full t) (hleaf : key leaf = x) (hglue : ∀ k, key (glue k) = k)
    (hset : ∀ a, key (set a) = key a) (hfull : full leaf = true) (hfull' : ∀ a, full (set a) =
      true) :
    WF key full (PrefixTree.insert key leaf glue set x t) := by
  have hnew : WF key full (.node leaf .nil .nil) := by simp [WF, hfull]
  induction t with
  | nil => exact hnew
  | node a l r ihl ihr =>
    have hroot := fun b hb => h.root_contains (b := b) hb
    have hpos := position_cases x (key a)
    obtain ⟨hl, hr, hglued, hwl, hwr⟩ := id h
    simp only [PrefixTree.insert]
    split_ifs with h0 hA hB hC hD hE
    · exact ⟨by simpa only [hset] using hl, by simpa only [hset] using hr, .inl (hfull' a),
        hwl, hwr⟩
    · -- the two sides of the new glue node are its two halves
      obtain ⟨hxl, har⟩ := commonSubnet_halves hA
      refine ⟨?_, fun b hb => ?_, .inr (by simp), hnew, h⟩
      · simpa [hglue, hleaf] using hxl
      · rw [hglue]; exact har.of_contains (hroot b hb)
    · obtain ⟨hal, hxr⟩ := commonSubnet_halves hB
      rw [commonSubnet_comm] at hal hxr
      refine ⟨fun b hb => ?_, ?_, .inr (by simp), h, hnew⟩
      · rw [hglue]; exact hal.of_contains (hroot b hb)
      · simpa [hglue, hleaf] using hxr
    · refine ⟨?_, hr, hglued.imp_right fun hne => ⟨insert_ne_nil _ _ _ _ _ _, hne.2⟩, ihl hwl, hwr⟩
      refine forall_insert (by rwa [hleaf]) (fun b hb _ => by rwa [hset]) ?_ hl
      intro b hb hAB
      rw [hglue]
      rcases hAB with hA | hB
      · exact hC.commonSubnet hb hA
      · rw [commonSubnet_comm]
        exact hb.commonSubnet hC hB
    · refine ⟨hl, ?_, hglued.imp_right fun hne => ⟨hne.1, insert_ne_nil _ _ _ _ _ _⟩, hwl, ihr hwr⟩
      refine forall_insert (by rwa [hleaf]) (fun b hb _ => by rwa [hset]) ?_ hr
      intro b hb hAB
      rw [hglue]
      rcases hAB with hA | hB
      · exact hD.commonSubnet hb hA
      · rw [commonSubnet_comm]
        exact hb.commonSubnet hD hB
    · refine ⟨by simp, fun b hb => ?_, .inl hfull, trivial, h⟩
      rw [hleaf]; exact hE.of_contains (hroot b hb)
    · have hF : x.InLeft (key a) := by tauto
      refine ⟨fun b hb => ?_, by simp, .inl hfull, h, trivial⟩
      rw [hleaf]; exact hF.of_contains (hroot b hb)

/-- **Insertion updates one entry.**  The labels that store something are the old
ones at other keys, and the new one: `leaf` if the key was not in the tree, `set`
of what stood there otherwise. -/
theorem mem_insert (h : WF key full t) (hglue : ∀ k, full (glue k) = false) (hb : full b = true) :
    b ∈ (insert key leaf glue set x t).nodes ↔
      (b ∈ t.nodes ∧ key b ≠ x) ∨ (b = leaf ∧ ∀ a ∈ t.nodes, key a ≠ x) ∨
        ∃ a ∈ t.nodes, key a = x ∧ b = set a := by
  induction t with
  | nil => simp [insert]
  | node a l r ihl ihr =>
    obtain ⟨hl, hr, -, hwl, hwr⟩ := id h
    -- a key that no label below `a` can have
    have hother : ∀ {c}, ¬ (key a).contains c → ∀ d ∈ (node a l r).nodes, key d ≠ c :=
      fun hc d hd heq => hc (heq ▸ h.root_contains hd)
    simp only [insert]
    split_ifs with h0 hA hB hC hD hE
    · have hkl : ∀ d ∈ l.nodes, key d ≠ x := fun d hd heq => (hl d hd).ne (h0.symm.trans heq.symm)
      have hkr : ∀ d ∈ r.nodes, key d ≠ x := fun d hd heq => (hr d hd).ne (h0.symm.trans heq.symm)
      simp only [mem_nodes_node]
      grind
    · have hk := hother (c := x) (by simp [hA.not_contains'])
      simp only [mem_nodes_node (a := glue _), mem_nodes_node (a := leaf), nodes_nil, not_mem_nil]
      grind
    · have hk := hother (c := x) (by simp [hB.not_contains])
      simp only [mem_nodes_node (a := glue _), mem_nodes_node (a := leaf), nodes_nil, not_mem_nil]
      grind
    · have hkr : ∀ d ∈ r.nodes, key d ≠ x := fun d hd heq => hC.not_inRight (heq ▸ hr d hd)
      simp only [mem_nodes_node, ihl hwl]
      grind [IPNet.InLeft.ne]
    · simp only [mem_nodes_node, ihr hwr]
      grind [IPNet.InRight.ne]
    · have hnc : ¬ (key a).contains x := fun hc => h0 (contains_antisymm hE.contains hc)
      have hk := hother hnc
      simp only [mem_nodes_node (a := leaf), nodes_nil, not_mem_nil]
      grind
    · have hF : x.InLeft (key a) := by
        have := position_cases x (key a)
        tauto
      have hnc : ¬ (key a).contains x := fun hc => h0 (contains_antisymm hF.contains hc)
      simp only [mem_nodes_node (a := leaf), nodes_nil, not_mem_nil]
      grind

end

/-! ### Lookup

A lookup may be restricted further, to the labels `sel` selects.
-/

/-- Does the root of this tree contain `k`? -/
def rootContains (key : α → IPNet w) (k : IPNet w) : BinTree α → Bool
  | .nil => false
  | .node a _ _ => (key a).contains k

/-- The most specific selected label on the way down to `k`. -/
def find (key : α → IPNet w) (sel : α → Bool) (k : IPNet w) : BinTree α → Option α
  | .nil => none
  | .node a l r =>
      if (key a).contains k then
        (if rootContains key k l then find key sel k l else find key sel k r).or
          (if sel a then some a else none)
      else none

/-- The label with exactly this key, if it is selected. -/
def lookup (key : α → IPNet w) (sel : α → Bool) (k : IPNet w) (t : BinTree α) : Option α :=
  (find key sel k t).filter fun a => key a = k

section
variable {full sel : α → Bool}

variable {k : IPNet w}

theorem WF.not_contains (h : WF key full t) (hk : rootContains key k t = false) (ha : a ∈ t.nodes) :
    (key a).contains k = false := by
  cases t with
  | nil => simp at ha
  | node b l r =>
    rw [Bool.eq_false_iff]
    intro hc
    exact absurd (contains_trans (h.root_contains ha) hc) (by simpa [rootContains] using hk)

section
variable (h : WF key full (.node a l r))
include h

/-- What contains `k` on the left keeps it in the left half. -/
theorem WF.inLeft (hk : rootContains key k l = true) : (key a).InLeft k := by
  cases l with
  | nil => simp [rootContains] at hk
  | node c _ _ => exact (h.1 c (mem_nodes_node.mpr (.inl rfl))).of_contains hk

theorem WF.inRight (hk : rootContains key k r = true) : (key a).InRight k := by
  cases r with
  | nil => simp [rootContains] at hk
  | node c _ _ => exact (h.2.1 c (mem_nodes_node.mpr (.inl rfl))).of_contains hk

theorem WF.right_not_contains (hk : rootContains key k l = true)
    (hb : b ∈ r.nodes) : (key b).contains k = false := by
  rw [Bool.eq_false_iff]
  intro hbk
  exact (h.inLeft hk).not_inRight ((h.2.1 b hb).of_contains hbk)

end

/-- `a` is the most specific label that contains `k` among the selected ones. -/
structure Longest (key : α → IPNet w) (sel : α → Bool) (t : BinTree α) (k : IPNet w) (a : α) :
    Prop where
  mem : a ∈ t.nodes
  stored : sel a = true
  contains : (key a).contains k = true
  longest : ∀ b ∈ t.nodes, sel b = true → (key b).contains k = true →
    (key b).contains (key a) = true

section
variable (h : WF key full t)
include h

theorem Longest.unique (ha : Longest key sel t k a) (hb : Longest key sel t k b) : a = b :=
  h.eq_of_key_eq ha.mem hb.mem (contains_antisymm (hb.longest a ha.mem ha.stored ha.contains)
    (ha.longest b hb.mem hb.stored hb.contains))

theorem find_eq_none :
    find key sel k t = none ↔ ∀ a ∈ t.nodes, sel a = true → (key a).contains k = false := by
  induction t with
  | nil => simp [find]
  | node a l r ihl ihr =>
    obtain ⟨hl, hr, -, hwl, hwr⟩ := id h
    by_cases hc : (key a).contains k = true
    · cases hlk : rootContains key k l with
      | false =>
        have := fun b hb => hwl.not_contains hlk (a := b) hb
        simp only [find, hc, hlk, if_true, Bool.false_eq_true, if_false,
          or_eq_none_iff, ihr hwr, mem_nodes_node]
        grind
      | true =>
        have := fun b hb => h.right_not_contains hlk (b := b) hb
        simp only [find, hc, hlk, if_true, or_eq_none_iff, ihl hwl, mem_nodes_node]
        grind
    · have := fun b hb => h.not_contains (k := k) (a := b) (by simpa [rootContains] using hc) hb
      simp only [find, hc]
      grind

theorem find_longest (hf : find key sel k t = some a) : Longest key sel t k a := by
  induction t with
  | nil => simp [find] at hf
  | node c l r ihl ihr =>
    obtain ⟨hl, hr, -, hwl, hwr⟩ := id h
    by_cases hc : (key c).contains k = true
    · simp only [find, hc, if_true, or_eq_some_iff] at hf
      -- the side the walk takes, and the other one
      obtain ⟨s, hs, hws, hlong, hmem, hoff⟩ : ∃ s : BinTree α,
          (if rootContains key k l then find key sel k l else find key sel k r)
            = find key sel k s ∧ WF key full s ∧
          (find key sel k s = some a → Longest key sel s k a) ∧
          (∀ b ∈ s.nodes, b ∈ (node c l r).nodes) ∧
          ∀ b ∈ (node c l r).nodes, (key b).contains k = true → b = c ∨ b ∈ s.nodes := by
        cases hlk : rootContains key k l with
        | false =>
          have := fun b hb => hwl.not_contains hlk (a := b) hb
          refine ⟨r, by simp, hwr, ihr hwr, fun b hb => ?_, fun b hb hbk => ?_⟩
          · exact mem_nodes_node.mpr (.inr (.inr hb))
          · rw [mem_nodes_node] at hb
            grind
        | true =>
          have := fun b hb => h.right_not_contains hlk (b := b) hb
          refine ⟨l, by simp, hwl, ihl hwl, fun b hb => ?_, fun b hb hbk => ?_⟩
          · exact mem_nodes_node.mpr (.inr (.inl hb))
          · rw [mem_nodes_node] at hb
            grind
      rw [hs] at hf
      rcases hf with hf | ⟨hnone, hf⟩
      · have hL := hlong hf
        refine ⟨hmem a hL.mem, hL.stored, hL.contains, fun b hb hfb hbk => ?_⟩
        rcases hoff b hb hbk with rfl | hb'
        · exact h.root_contains (hmem a hL.mem)
        · exact hL.longest b hb' hfb hbk
      · have hcfull : sel c = true ∧ c = a := by simpa using hf
        obtain ⟨hfc, rfl⟩ := hcfull
        refine ⟨mem_nodes_node.mpr (.inl rfl), hfc, hc, fun b hb hfb hbk => ?_⟩
        rcases hoff b hb hbk with rfl | hb'
        · exact contains_refl
        · rw [find_eq_none hws] at hnone
          simp [hnone b hb' hfb] at hbk
    · simp [find, hc] at hf

/-- **`find` is longest-prefix match.** -/
theorem find_eq_some : find key sel k t = some a ↔ Longest key sel t k a := by
  refine ⟨find_longest h, fun ha => ?_⟩
  cases hf : find key sel k t with
  | none =>
    rw [find_eq_none h] at hf
    exact absurd ha.contains (by simp [hf a ha.mem ha.stored])
  | some b => rw [(find_longest h hf).unique h ha]

theorem lookup_eq_some : lookup key sel k t = some a ↔ a ∈ t.nodes ∧ sel a = true ∧ key a = k := by
  rw [lookup, filter_eq_some_iff, find_eq_some h]
  constructor
  · rintro ⟨ha, hk⟩
    exact ⟨ha.mem, ha.stored, by simpa using hk⟩
  · rintro ⟨ha, hf, rfl⟩
    exact ⟨⟨ha, hf, contains_refl, fun b hb _ hc => hc⟩, by simp⟩

end

end

/-! ### The label of a key -/

/-- The label with key `x`, selected or not. -/
def exact (key : α → IPNet w) (x : IPNet w) : BinTree α → Option α
  | .nil => none
  | .node a l r =>
      if x = key a then some a
      else if (key a).InLeft x then exact key x l
      else if (key a).InRight x then exact key x r
      else none

/-- Does the insertion of `x` need a glue label? -/
def joins (key : α → IPNet w) (x : IPNet w) : BinTree α → Bool
  | .nil => false
  | .node a l r =>
      if x = key a then false
      else if x.Below (key a) ∨ (key a).Below x then true
      else if (key a).InLeft x then joins key x l
      else if (key a).InRight x then joins key x r
      else false

variable {x : IPNet w}

theorem exact_eq_some (h : WF key full t) : exact key x t = some a ↔ a ∈ t.nodes ∧ key a = x := by
  induction t with
  | nil => simp [exact]
  | node b l r ihl ihr =>
    obtain ⟨hl, hr, -, hwl, hwr⟩ := id h
    have hb : b ∈ (node b l r).nodes := mem_nodes_node.mpr (.inl rfl)
    rw [exact]
    split_ifs with h0 hC hD
    · rw [some_inj]
      constructor
      · intro heq
        exact heq ▸ ⟨hb, h0.symm⟩
      · intro ha
        exact h.eq_of_key_eq hb ha.1 (h0.symm.trans ha.2.symm)
    · rw [ihl hwl, mem_nodes_node]
      refine ⟨fun ha => ⟨.inr (.inl ha.1), ha.2⟩, fun ha => ⟨?_, ha.2⟩⟩
      rcases ha.1 with rfl | hm | hm
      · exact absurd ha.2.symm h0
      · exact hm
      · exact absurd (ha.2 ▸ hr a hm) hC.not_inRight
    · rw [ihr hwr, mem_nodes_node]
      refine ⟨fun ha => ⟨.inr (.inr ha.1), ha.2⟩, fun ha => ⟨?_, ha.2⟩⟩
      rcases ha.1 with rfl | hm | hm
      · exact absurd ha.2.symm h0
      · exact absurd (ha.2 ▸ hl a hm) hC
      · exact hm
    · rw [mem_nodes_node]
      constructor
      · intro hc
        simp at hc
      · intro ha
        rcases ha.1 with rfl | hm | hm
        · exact absurd ha.2.symm h0
        · exact absurd (ha.2 ▸ hl a hm) hC
        · exact absurd (ha.2 ▸ hr a hm) hD

/-! ### Removal -/

/-- A node, unless it stores nothing and joins nothing. -/
def prune (full : α → Bool) (a : α) (l r : BinTree α) : BinTree α :=
  if full a then .node a l r
  else
    match l, r with
    | .nil, r => r
    | l, .nil => l
    | l, r => .node a l r

/-- Apply `clear` to the label with key `x` and prune what has become useless. -/
def erase (key : α → IPNet w) (full : α → Bool) (clear : α → α) (x : IPNet w) :
    BinTree α → BinTree α
  | .nil => .nil
  | .node a l r =>
      if x = key a then prune full (clear a) l r
      else if (key a).InLeft x then prune full a (erase key full clear x l) r
      else if (key a).InRight x then prune full a l (erase key full clear x r)
      else .node a l r

variable {clear : α → α}

theorem prune_cases (full : α → Bool) (a : α) (l r : BinTree α) :
    (prune full a l r = .node a l r ∧ (full a = true ∨ (l ≠ .nil ∧ r ≠ .nil))) ∨
      (full a = false ∧ l = .nil ∧ prune full a l r = r) ∨
      (full a = false ∧ r = .nil ∧ prune full a l r = l) := by
  cases hf : full a with
  | true => simp [prune, hf]
  | false =>
    cases l with
    | nil => simp [prune, hf]
    | node b l l' =>
      cases r with
      | nil => simp [prune, hf]
      | node c r r' => simp [prune, hf]

theorem prune_of_joins (h : full a = true ∨ (l ≠ .nil ∧ r ≠ .nil)) :
    PrefixTree.prune full a l r = .node a l r := by
  rcases prune_cases full a l r with ⟨heq, -⟩ | ⟨hf, hc, -⟩ | ⟨hf, hc, -⟩
  · exact heq
  · simp [hf, hc] at h
  · simp [hf, hc] at h

theorem mem_of_mem_prune (h : b ∈ (prune full a l r).nodes) :
    b = a ∨ b ∈ l.nodes ∨ b ∈ r.nodes := by
  rcases prune_cases full a l r with ⟨heq, -⟩ | ⟨-, -, heq⟩ | ⟨-, -, heq⟩ <;> rw [heq] at h
  · exact mem_nodes_node.mp h
  · exact .inr (.inr h)
  · exact .inr (.inl h)

theorem mem_prune (hb : full b = true) :
    b ∈ (prune full a l r).nodes ↔ b = a ∨ b ∈ l.nodes ∨ b ∈ r.nodes := by
  refine ⟨mem_of_mem_prune, fun h => ?_⟩
  have hne : full a = false → b ≠ a := by
    rintro hf rfl
    rw [hf] at hb
    simp at hb
  rcases prune_cases full a l r with ⟨heq, -⟩ | ⟨hf, rfl, heq⟩ | ⟨hf, rfl, heq⟩ <;> rw [heq]
  · exact mem_nodes_node.mpr h
  · simpa [hne hf] using h
  · simpa [hne hf] using h

theorem WF.prune (hl : ∀ b ∈ l.nodes, (key a).InLeft (key b))
    (hr : ∀ b ∈ r.nodes, (key a).InRight (key b)) (hwl : WF key full l) (hwr : WF key full r) :
    WF key full (PrefixTree.prune full a l r) := by
  rcases prune_cases full a l r with ⟨heq, hf⟩ | ⟨-, -, heq⟩ | ⟨-, -, heq⟩ <;> rw [heq]
  · exact ⟨hl, hr, hf, hwl, hwr⟩
  · exact hwr
  · exact hwl

/-- Removal introduces no label, but for the one it clears. -/
theorem of_mem_erase (h : b ∈ (erase key full clear x t).nodes) :
    b ∈ t.nodes ∨ ∃ a ∈ t.nodes, key a = x ∧ b = clear a := by
  induction t with
  | nil => simp [erase] at h
  | node a l r ihl ihr =>
    simp only [erase] at h
    simp only [mem_nodes_node]
    split_ifs at h with h0
    · rcases mem_of_mem_prune h with rfl | h | h
      · exact .inr ⟨a, .inl rfl, h0.symm, rfl⟩
      · exact .inl (.inr (.inl h))
      · exact .inl (.inr (.inr h))
    · rcases mem_of_mem_prune h with rfl | h | h
      · exact .inl (.inl rfl)
      · rcases ihl h with h | ⟨c, hc, heq⟩
        · exact .inl (.inr (.inl h))
        · exact .inr ⟨c, .inr (.inl hc), heq⟩
      · exact .inl (.inr (.inr h))
    · rcases mem_of_mem_prune h with rfl | h | h
      · exact .inl (.inl rfl)
      · exact .inl (.inr (.inl h))
      · rcases ihr h with h | ⟨c, hc, heq⟩
        · exact .inl (.inr (.inr h))
        · exact .inr ⟨c, .inr (.inr hc), heq⟩
    · exact .inl (mem_nodes_node.mp h)

theorem key_mem_of_mem_erase (hclear : ∀ a, key (clear a) = key a)
    (h : b ∈ (erase key full clear x t).nodes) : ∃ a ∈ t.nodes, key a = key b := by
  rcases of_mem_erase h with h | ⟨a, ha, -, rfl⟩
  · exact ⟨b, h, rfl⟩
  · exact ⟨a, ha, (hclear a).symm⟩

/-- **Removal keeps the shape.** -/
theorem WF.erase (h : WF key full t) (hclear : ∀ a, key (clear a) = key a) :
    WF key full (PrefixTree.erase key full clear x t) := by
  induction t with
  | nil => trivial
  | node a l r ihl ihr =>
    obtain ⟨hl, hr, -, hwl, hwr⟩ := id h
    simp only [PrefixTree.erase]
    split_ifs with h0 hC hD
    · exact WF.prune (by simpa only [hclear] using hl) (by simpa only [hclear] using hr) hwl hwr
    · refine WF.prune (fun b hb => ?_) hr (ihl hwl) hwr
      obtain ⟨c, hc, heq⟩ := key_mem_of_mem_erase hclear hb
      exact heq ▸ hl c hc
    · refine WF.prune hl (fun b hb => ?_) hwl (ihr hwr)
      obtain ⟨c, hc, heq⟩ := key_mem_of_mem_erase hclear hb
      exact heq ▸ hr c hc
    · exact h

/-- **Removal takes out one entry.** -/
theorem mem_erase (h : WF key full t) (hclear : ∀ a, full (clear a) = false) (hb : full b = true) :
    b ∈ (erase key full clear x t).nodes ↔ b ∈ t.nodes ∧ key b ≠ x := by
  induction t with
  | nil => simp [erase]
  | node a l r ihl ihr =>
    obtain ⟨hl, hr, -, hwl, hwr⟩ := id h
    simp only [erase]
    split_ifs with h0 hC hD
    · rw [mem_prune hb, mem_nodes_node]
      grind [IPNet.InLeft.ne, IPNet.InRight.ne]
    · have hkr : ∀ d ∈ r.nodes, key d ≠ x := fun d hd heq => hC.not_inRight (heq ▸ hr d hd)
      simp only [mem_prune hb, mem_nodes_node, ihl hwl]
      grind
    · simp only [mem_prune hb, mem_nodes_node, ihr hwr]
      grind
    · refine ⟨fun hm => ⟨hm, ?_⟩, And.left⟩
      rintro rfl
      rw [mem_nodes_node] at hm
      grind

/-! ### At a position

The code removes a node where it stands and works its way up.
-/

/-- Rebuild the tree above a position, pruning on the way. -/
def pruneUp (full : α → Bool) : Spine α → BinTree α → BinTree α
  | [], t => t
  | .left a r :: c, t => pruneUp full c (prune full a t r)
  | .right a l :: c, t => pruneUp full c (prune full a l t)

section

variable {c : Spine α}

section
variable (h : WF key full (plug c t))
include h

theorem WF.focus : WF key full t := by
  induction c generalizing t with
  | nil => exact h
  | cons f c ih =>
    cases f with
    | left a r => exact (ih h).2.2.2.1
    | right a l => exact (ih h).2.2.2.2

/-- A subtree may be exchanged for one with no other keys. -/
theorem WF.exchange {t' : BinTree α} (h' : WF key full t') (hne : t ≠ .nil → t' ≠ .nil)
    (hkeys : ∀ b ∈ t'.nodes, ∃ a ∈ t.nodes, key a = key b) : WF key full (plug c t') := by
  induction c generalizing t t' with
  | nil => exact h'
  | cons f c ih =>
    have hw := WF.focus (c := c) h
    have hside : ∀ {Q : IPNet w → Prop}, (∀ a ∈ t.nodes, Q (key a)) → ∀ b ∈ t'.nodes, Q (key b) := by
      intro Q hQ b hb
      obtain ⟨d, hd, heq⟩ := hkeys b hb
      exact heq ▸ hQ d hd
    have hfill : ∀ b ∈ (f.fill t').nodes, ∃ a ∈ (f.fill t).nodes, key a = key b := by
      cases f <;> simp only [Frame.fill, mem_nodes_node] <;> grind
    cases f with
    | left a r =>
      obtain ⟨hl, hr, hg, -, hwr⟩ := hw
      exact ih h ⟨hside hl, hr, hg.imp_right fun hlr => ⟨hne hlr.1, hlr.2⟩, h', hwr⟩
        (by simp [Frame.fill]) hfill
    | right a l =>
      obtain ⟨hl, hr, hg, hwl, -⟩ := hw
      exact ih h ⟨hl, hside hr, hg.imp_right fun hlr => ⟨hlr.1, hne hlr.2⟩, hwl, h'⟩
        (by simp [Frame.fill]) hfill

theorem erase_plug (ha : a ∈ t.nodes) : erase key full clear (key a) (plug c t)
      = pruneUp full c (erase key full clear (key a) t) := by
  induction c generalizing t with
  | nil => rfl
  | cons f c ih =>
    have hw := WF.focus (c := c) h
    cases f with
    | left b r =>
      have hb := hw.1 a ha
      rw [plug_cons, ih h (mem_nodes_node.mpr (.inr (.inl ha))), pruneUp,
        Frame.fill, erase, if_neg (Ne.symm hb.ne), if_pos hb]
    | right b l =>
      have hb := hw.2.1 a ha
      have hnl : ¬ (key b).InLeft (key a) := fun hc => hc.not_inRight hb
      rw [plug_cons, ih h (mem_nodes_node.mpr (.inr (.inr ha))), pruneUp,
        Frame.fill, erase, if_neg (Ne.symm hb.ne), if_neg hnl, if_pos hb]

/-- Above a subtree that is still there nothing is pruned. -/
theorem pruneUp_of_ne_nil {t' : BinTree α} (hne : t ≠ .nil) (hne' : t' ≠ .nil) :
    pruneUp full c t' = plug c t' := by
  induction c generalizing t t' with
  | nil => rfl
  | cons f c ih =>
    have hw := WF.focus (c := c) h
    cases f with
    | left a r =>
      rw [pruneUp, prune_of_joins (hw.2.2.1.imp_right fun hlr => ⟨hne', hlr.2⟩)]
      exact ih (t := .node a t r) h (by simp) (by simp)
    | right a l =>
      rw [pruneUp, prune_of_joins (hw.2.2.1.imp_right fun hlr => ⟨hlr.1, hne'⟩)]
      exact ih (t := .node a l t) h (by simp) (by simp)

end

end

end PrefixTree

end Xorp

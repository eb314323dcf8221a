/-
`Trie` of `libxorp/trie.hh`, as a map.

The class keeps a root pointer and a payload count over the node code, and hands out
iterators.  `Represents` ties a trie to a tree laid out in its heap; every operation
carries it along, and from it follow both halves of what the class promises: the
invariant written above `TrieNode` in the header, read off the cells and their
pointers, and that exact lookup, the route count and the nodes with a payload are
those of a finite map that sees the same insertions and removals.
-/
import Xorp.Trie.Refine
import Mathlib.Data.Finmap

namespace Xorp

open Linked Spine Mem PrefixTree Option Finmap

variable {w : Nat} {P : Type}

/-- `TrieNode` keeps nothing besides key and payload, and any node may be deleted. -/
def trieNode : NodeClass Unit where
  init := ()
  revive := id
  deleted := fun _ => false
  retire := id
  destructible := fun _ => true

/-- A `TriePostOrderIterator`: the current node and the search key. -/
structure Iterator (w : Nat) where
  cur : Option Nat
  root : IPNet w

/-- The constructor for exact searches: the search key is the node's own. -/
def Mem.iterator {X : Type} (h : Mem w P X) : Option Nat → Except Fault (Iterator w)
  | none => .ok ⟨none, IPNet.any w⟩
  | some i => do pure ⟨some i, (← h.read i).data.k⟩

/-- The key with one bit less, for `find_less_specific`. -/
def parentKey (k : IPNet w) : IPNet w :=
  IPNet.ofAddr k.maskedAddr (k.prefixLen - 1) (Nat.le_trans (Nat.sub_le _ _) k.prefixLen_le)

structure Trie (w : Nat) (P : Type) where
  /-- the nodes, and `_root` -/
  heap : Mem w P Unit
  payloadCount : Nat

namespace Trie

def empty : Trie w P := ⟨Heap.empty, 0⟩

section
variable (T : Trie w P)

def insert (net : IPNet w) (p : P) : Except Fault (Trie w P × Iterator w) := do
  let (heap, out, replaced) ← T.heap.insert trieNode net p
  let count := if replaced then T.payloadCount else T.payloadCount + 1
  pure (⟨heap, count⟩, ← Mem.iterator heap (some out))

/-- `erase(iterator)`. -/
def eraseAt (i : Iterator w) : Except Fault (Trie w P) :=
  match T.heap.root, i.cur with
  | some _, some n => do
      if (← T.heap.read n).data.hasPayload then
        let (heap, root) ← T.heap.eraseNode trieNode n
        pure ⟨{ heap with root := root }, T.payloadCount - 1⟩
      else pure T
  | _, _ => pure T

/-- `find`: the longest match. -/
def find (k : IPNet w) : Except Fault (Iterator w) := do
  match T.heap.root with
  | some _ => T.heap.iterator (← T.heap.find trieNode k)
  | none => T.heap.iterator none

/-- `erase(key)`: note that it goes by `find`. -/
def erase (k : IPNet w) : Except Fault (Trie w P) := do
  T.eraseAt (← T.find k)

def lookupNode (k : IPNet w) : Except Fault (Iterator w) := do
  match ← T.heap.find trieNode k with
  | some n => if (← T.heap.read n).data.k = k then T.heap.iterator (some n) else T.heap.iterator none
  | none => T.heap.iterator none

def routeCount : Nat := T.payloadCount

end

/-! ### The invariant above `TrieNode` -/

/-- What the header says of every node, and of the pointers between them. -/
structure Valid (T : Trie w P) : Prop where
  /-- a left child is in the left half of its parent's key, and points back to it -/
  left : ∀ i c j, T.heap.cells i = some c → c.left = some j →
    ∃ d, T.heap.cells j = some d ∧ d.up = some i ∧ c.data.k.InLeft d.data.k
  right : ∀ i c j, T.heap.cells i = some c → c.right = some j →
    ∃ d, T.heap.cells j = some d ∧ d.up = some i ∧ c.data.k.InRight d.data.k
  /-- a parent has the node as one of its children -/
  up : ∀ i c j, T.heap.cells i = some c → c.up = some j →
    ∃ d, T.heap.cells j = some d ∧ (d.left = some i ∨ d.right = some i)
  /-- the root is there, and is the only node without a parent -/
  root : ∀ i, T.heap.root = some i ↔ ∃ c, T.heap.cells i = some c ∧ c.up = none
  /-- a node without a payload joins two subtrees -/
  glue : ∀ i c, T.heap.cells i = some c → c.data.p = none → c.left ≠ none ∧ c.right ≠ none

/-- The heap of the trie is this tree. -/
structure Represents (T : Trie w P) (t : BinTree (Nat × Node w P Unit)) : Prop where
  holds : Holds T.heap t
  root : T.heap.root = t.ptr
  wf : PrefixTree.WF nodeKey nodeFull t

section
variable {T : Trie w P} {t : BinTree (Nat × Node w P Unit)}

theorem Represents.valid (R : Represents T t) : Valid T where
  left := by
    intro i c j hi hj
    obtain ⟨q, a, l, r, rfl, rfl, rfl⟩ := R.holds.exists_of_cell hi
    cases l with
    | nil => simp at hj
    | node b l' r' =>
      obtain rfl : b.1 = j := some.inj hj
      refine ⟨_, Holds.cell (c := .left a r :: q) R.holds, rfl, ?_⟩
      exact R.wf.focus.1 b (BinTree.mem_nodes_node.mpr (.inl rfl))
  right := by
    intro i c j hi hj
    obtain ⟨q, a, l, r, rfl, rfl, rfl⟩ := R.holds.exists_of_cell hi
    cases r with
    | nil => simp at hj
    | node b l' r' =>
      obtain rfl : b.1 = j := some.inj hj
      refine ⟨_, Holds.cell (c := .right a l :: q) R.holds, rfl, ?_⟩
      exact R.wf.focus.2.1 b (BinTree.mem_nodes_node.mpr (.inl rfl))
  up := by
    intro i c j hi hj
    obtain ⟨q, a, l, r, rfl, rfl, rfl⟩ := R.holds.exists_of_cell hi
    rcases q with _ | ⟨f, q⟩
    · simp [Spine.up] at hj
    · obtain rfl : f.label.1 = j := some.inj hj
      refine ⟨_, R.holds.laid_path.1, ?_⟩
      cases f with
      | left b s => exact .inl rfl
      | right b s => exact .inr rfl
  root := by
    intro i
    rw [R.root]
    constructor
    · intro hi
      cases t with
      | nil => simp at hi
      | node a l r =>
        obtain rfl : a.1 = i := some.inj hi
        exact ⟨_, Holds.cell (c := []) R.holds, rfl⟩
    · rintro ⟨c, hi, hup⟩
      obtain ⟨q, a, l, r, rfl, rfl, rfl⟩ := R.holds.exists_of_cell hi
      rcases q with _ | ⟨f, q⟩
      · rfl
      · simp [Spine.up] at hup
  glue := by
    intro i c hi hp
    obtain ⟨q, a, l, r, rfl, rfl, rfl⟩ := R.holds.exists_of_cell hi
    simp only [ne_eq, BinTree.ptr_eq_none]
    rcases R.wf.focus.2.2.1 with hf | hlr
    · rw [nodeFull, Node.hasPayload, show a.2.p = none from hp] at hf
      simp at hf
    · exact hlr

theorem Represents.empty : Represents (Trie.empty : Trie w P) .nil := ⟨Holds.empty, rfl, trivial⟩

/-- The trie stores this payload under this prefix. -/
def Has (T : Trie w P) (k : IPNet w) (p : P) : Prop :=
  ∃ i c, T.heap.cells i = some c ∧ c.data.k = k ∧ c.data.p = some p

theorem Represents.has_iff (R : Represents T t) {k : IPNet w} {p : P} :
    T.Has k p ↔ ∃ a ∈ t.nodes, nodeKey a = k ∧ a.2.p = some p := by
  constructor
  · rintro ⟨i, c, hi, hk, hp⟩
    obtain ⟨a, ha, -, hdata⟩ := R.holds.mem_of_cell hi
    rw [hdata] at hk hp
    exact ⟨a, ha, hk, hp⟩
  · rintro ⟨a, ha, hk, hp⟩
    obtain ⟨cell, hcell, hdata⟩ := R.holds.cell_of_mem ha
    exact ⟨a.1, cell, hcell, by rw [hdata]; exact hk, by rw [hdata]; exact hp⟩

end

/-! ### The finite map -/

/-- The stored entries, as a finite map. -/
abbrev Map (w : Nat) (P : Type) := Finmap fun _ : IPNet w => P

/-- The tree stores exactly the entries of the map. -/
def Stores (t : BinTree (Nat × Node w P Unit)) (m : Map w P) : Prop :=
  ∀ k p, (∃ a ∈ t.nodes, nodeKey a = k ∧ a.2.p = some p) ↔ m.lookup k = some p

/-- Tree and count agree with the map. -/
structure Refines (T : Trie w P) (m : Map w P) (t : BinTree (Nat × Node w P Unit)) : Prop
    extends Represents T t where
  stores : Stores t m
  count : T.payloadCount = m.keys.card

theorem nodeFull_iff {a : Nat × Node w P Unit} : nodeFull a = true ↔ ∃ p, a.2.p = some p := by
  rw [nodeFull, Node.hasPayload, isSome_iff_exists]

theorem nodeActive_trieNode : (nodeActive trieNode : Nat × Node w P Unit → Bool) = nodeFull := by
  funext a
  simp [nodeActive, Node.active, nodeFull, Node.hasPayload, trieNode]

variable {t : BinTree (Nat × Node w P Unit)} {m : Map w P} {T : Trie w P} {k : IPNet w}

theorem Stores.mem_iff (hs : Stores t m) :
    k ∈ m ↔ ∃ a ∈ t.nodes, nodeKey a = k ∧ nodeFull a = true := by
  rw [Finmap.mem_iff]
  constructor
  · rintro ⟨p, hp⟩
    obtain ⟨a, ha, hk, hap⟩ := (hs k p).mpr hp
    exact ⟨a, ha, hk, nodeFull_iff.mpr ⟨p, hap⟩⟩
  · rintro ⟨a, ha, hk, hf⟩
    obtain ⟨p, hap⟩ := nodeFull_iff.mp hf
    exact ⟨p, (hs k p).mp ⟨a, ha, hk, hap⟩⟩

section
variable (hs : Stores t m) (hw : PrefixTree.WF nodeKey nodeFull t) (x : IPNet w)
include hs hw

theorem Stores.insert
    (p : P) (next : Nat) : Stores (insertTree trieNode x p next t) (m.insert x p) := by
  intro k q
  by_cases hk : k = x
  · subst hk
    rw [lookup_insert, some_inj]
    constructor
    · rintro ⟨b, hb, hbk, hbp⟩
      rcases (mem_insertTree hw (nodeFull_iff.mpr ⟨q, hbp⟩)).mp hb with ⟨-, hne⟩ | ⟨rfl, -⟩ | ⟨a, -, -, rfl⟩
      · contradiction
      · exact some.inj hbp
      · exact some.inj hbp
    · rintro rfl
      by_cases hex : ∃ a ∈ t.nodes, nodeKey a = k
      · obtain ⟨a, ha, hak⟩ := hex
        refine ⟨(a.1, a.2.setPayload trieNode p), ?_, hak, rfl⟩
        exact (mem_insertTree hw rfl).mpr (.inr (.inr ⟨a, ha, hak, rfl⟩))
      · refine ⟨newNode trieNode k p next t, ?_, rfl, rfl⟩
        exact (mem_insertTree hw rfl).mpr (.inr (.inl ⟨rfl, fun a ha hak => hex ⟨a, ha, hak⟩⟩))
  · rw [lookup_insert_of_ne _ hk, ← hs k q]
    constructor
    · rintro ⟨b, hb, hbk, hbp⟩
      rcases (mem_insertTree hw (nodeFull_iff.mpr ⟨q, hbp⟩)).mp hb with ⟨hm, -⟩ | ⟨rfl, -⟩ | ⟨a, -, hak, rfl⟩
      · exact ⟨b, hm, hbk, hbp⟩
      · exact absurd hbk.symm hk
      · exact absurd (hbk.symm.trans hak) hk
    · rintro ⟨b, hb, hbk, hbp⟩
      refine ⟨b, (mem_insertTree hw (nodeFull_iff.mpr ⟨q, hbp⟩)).mpr (.inl ⟨hb, ?_⟩), hbk, hbp⟩
      rw [hbk]
      exact hk

theorem Stores.erase : Stores (eraseTree x t) (m.erase x) := by
  intro k q
  by_cases hk : k = x
  · subst hk
    refine ⟨?_, fun hc => absurd hc (by simp)⟩
    rintro ⟨b, hb, hbk, hbp⟩
    exact absurd hbk ((mem_eraseTree hw (nodeFull_iff.mpr ⟨q, hbp⟩)).mp hb).2
  · rw [lookup_erase_ne hk, ← hs k q]
    refine exists_congr fun b => and_congr_left ?_
    rintro ⟨rfl, hbp⟩
    rw [mem_eraseTree hw (nodeFull_iff.mpr ⟨q, hbp⟩), and_iff_left hk]

end

theorem card_keys_insert (p : P) :
    (m.insert k p).keys.card = if k ∈ m then m.keys.card else m.keys.card + 1 := by
  have hkeys : (m.insert k p).keys = Insert.insert k m.keys := by
    ext x
    rw [Finmap.mem_keys, Finmap.mem_insert, Finset.mem_insert, Finmap.mem_keys]
  rw [hkeys]
  by_cases hk : k ∈ m
  · rw [if_pos hk, Finset.insert_eq_of_mem (Finmap.mem_keys.mpr hk)]
  · rw [if_neg hk, Finset.card_insert_of_notMem fun hc => hk (Finmap.mem_keys.mp hc)]

theorem Refines.empty : Refines (Trie.empty : Trie w P) ∅ .nil where
  toRepresents := Represents.empty
  stores := by
    intro k p
    simp
  count := by simp [Trie.empty]

/-- What `insert` does to the tree and to the count. -/
theorem insert_represents (R : Represents T t) (p : P) :
    ∃ T' it, T.insert k p = .ok (T', it) ∧ Represents T' (insertTree trieNode k p T.heap.next t) ∧
      T'.payloadCount = if (exact nodeKey k t).any nodeFull then T.payloadCount
        else T.payloadCount + 1 := by
  obtain ⟨⟨h', me, replaced⟩, hrun, hout⟩ := insert_inserted p R.holds R.root
  obtain ⟨b, hb, hme, -⟩ := hout.entry R.wf
  obtain rfl : b.1 = me := hme
  obtain ⟨cell, hcell, -⟩ := hout.holds.cell_of_mem hb
  have hrep : replaced = (exact nodeKey k t).any nodeFull := by
    rw [show replaced = _ from hout.replaced, ← nodeActive_trieNode]
    rfl
  refine ⟨⟨h', if replaced then T.payloadCount else T.payloadCount + 1⟩, ⟨some b.1, cell.data.k⟩,
    ?_, ⟨hout.holds, hout.root, wf_insertTree R.wf⟩, by rw [hrep]⟩
  rw [insert, hrun]
  simp only [ok_bind, iterator, Heap.read_eq hcell]
  rfl

/-- **Step lemma for `insert`**: it does not abort, and the map gains the entry. -/
theorem insert_refines (R : Refines T m t) (p : P) :
    ∃ T' it t', T.insert k p = .ok (T', it) ∧ Refines T' (m.insert k p) t' := by
  obtain ⟨T', it, hrun, R', hcount⟩ := insert_represents R.toRepresents p
  have hrep : (exact nodeKey k t).any nodeFull = true ↔ k ∈ m := by
    rw [R.stores.mem_iff, any_eq_true]
    constructor
    · rintro ⟨a, hex, hf⟩
      obtain ⟨ha, hak⟩ := (exact_eq_some R.wf).mp hex
      exact ⟨a, ha, hak, hf⟩
    · rintro ⟨a, ha, hak, hf⟩
      exact ⟨a, (exact_eq_some R.wf).mpr ⟨ha, hak⟩, hf⟩
  refine ⟨T', it, _, hrun, R', R.stores.insert R.wf k p _, ?_⟩
  rw [hcount, card_keys_insert, R.count]
  by_cases hk : k ∈ m
  · rw [if_pos hk, if_pos (hrep.mpr hk)]
  · rw [if_neg hk, if_neg fun hc => hk (hrep.mp hc)]

theorem find_of_mem (R : Refines T m t) (hk : k ∈ m) :
    ∃ a ∈ t.nodes, nodeKey a = k ∧ nodeFull a = true ∧
      PrefixTree.find nodeKey nodeFull k t = some a := by
  obtain ⟨a, ha, hak, hf⟩ := R.stores.mem_iff.mp hk
  have hlong : PrefixTree.Longest nodeKey nodeFull t k a :=
    ⟨ha, hf, by rw [hak]; exact IPNet.contains_refl, fun b _ _ hb => by rw [hak]; exact hb⟩
  exact ⟨a, ha, hak, hf, (PrefixTree.find_eq_some R.wf).mpr hlong⟩

/-- What `erase` does to the tree and to the count: it takes out the longest match. -/
theorem erase_represents (R : Represents T t) {a : Nat × Node w P Unit}
    (hfind : PrefixTree.find nodeKey nodeFull k t = some a) :
    ∃ T', T.erase k = .ok T' ∧ Represents T' (eraseTree (nodeKey a) t) ∧
      T'.payloadCount = T.payloadCount - 1 := by
  have hlong := PrefixTree.find_longest R.wf hfind
  obtain ⟨cell, hcell, hdata⟩ := R.holds.cell_of_mem hlong.mem
  obtain ⟨i, hroot⟩ : ∃ i, T.heap.root = some i := by
    rw [R.root]
    cases t with
    | nil => simp [PrefixTree.find] at hfind
    | node b l r => exact ⟨b.1, rfl⟩
  have hheap : T.heap.find trieNode k = .ok (some a.1) := by
    rw [find_eq R.holds R.root, nodeActive_trieNode, hfind]
    rfl
  obtain ⟨h', hrun, hholds, -⟩ := eraseNode_erases (C := trieNode) R.holds R.wf hlong.mem
    (fun _ _ _ => rfl) rfl
  refine ⟨⟨{ h' with root := (eraseTree (nodeKey a) t).ptr }, T.payloadCount - 1⟩, ?_,
    ⟨hholds.withRoot _, rfl, wf_eraseTree R.wf⟩, rfl⟩
  have hp : cell.data.hasPayload = true := by
    rw [hdata]
    exact hlong.stored
  rw [erase, find]
  simp only [hroot, hheap, ok_bind, iterator, Heap.read_eq hcell, pure, Except.pure, eraseAt,
    hp, if_true, hrun]

theorem erase_of_none (R : Represents T t) (k : IPNet w)
    (hfind : PrefixTree.find nodeKey nodeFull k t = none) : T.erase k = .ok T := by
  rw [erase, find, find_eq R.holds R.root, nodeActive_trieNode, hfind]
  cases hroot : T.heap.root with
  | none => simp only [iterator, ok_bind, eraseAt, hroot]; rfl
  | some i => simp only [iterator, ok_bind, map_none, eraseAt, hroot]; rfl

/-- **Step lemma for `erase`** of a key that is present: the map loses the entry. -/
theorem erase_refines (R : Refines T m t) (hk : k ∈ m) :
    ∃ T' t', T.erase k = .ok T' ∧ Refines T' (m.erase k) t' := by
  obtain ⟨a, ha, hak, hf, hfind⟩ := find_of_mem R hk
  obtain ⟨T', hrun, R', hcount⟩ := erase_represents R.toRepresents hfind
  rw [hak] at R'
  refine ⟨T', _, hrun, R', R.stores.erase R.wf k, ?_⟩
  rw [hcount, keys_erase, Finset.card_erase_of_mem (mem_keys.mpr hk), R.count]

/-! ### Runs -/

inductive Op (w : Nat) (P : Type) where
  | insert (k : IPNet w) (p : P)
  | erase (k : IPNet w)

/-- The operation on the trie.  The iterator `insert` returns is not kept. -/
def step (T : Trie w P) : Op w P → Except Fault (Trie w P)
  | .insert k p => do pure (← T.insert k p).1
  | .erase k => T.erase k

def run (T : Trie w P) : List (Op w P) → Except Fault (Trie w P)
  | [] => .ok T
  | op :: ops => do (← T.step op).run ops

/-- The same operation on the map. -/
def mapStep (m : Map w P) : Op w P → Map w P
  | .insert k p => m.insert k p
  | .erase k => m.erase k

/-- Only keys that are present are erased. -/
def Legal (m : Map w P) : List (Op w P) → Prop
  | [] => True
  | .insert k p :: ops => Legal (mapStep m (.insert k p)) ops
  | .erase k :: ops => k ∈ m ∧ Legal (mapStep m (.erase k)) ops

theorem run_refines (ops : List (Op w P)) (R : Refines T m t) (hlegal : Legal m ops) :
    ∃ T' t', T.run ops = .ok T' ∧ Refines T' (ops.foldl mapStep m) t' := by
  induction ops generalizing T m t with
  | nil => exact ⟨T, t, rfl, R⟩
  | cons op ops ih =>
    cases op with
    | insert k p =>
      obtain ⟨T', it, t', hstep, R'⟩ := insert_refines R p
      obtain ⟨T'', t'', hrun, R''⟩ := ih R' hlegal
      refine ⟨T'', t'', ?_, R''⟩
      rw [run, step, hstep]
      exact hrun
    | erase k =>
      obtain ⟨T', t', hstep, R'⟩ := erase_refines R hlegal.1
      obtain ⟨T'', t'', hrun, R''⟩ := ih R' hlegal.2
      refine ⟨T'', t'', ?_, R''⟩
      rw [run, step, hstep]
      exact hrun

/-- Key and payload where an iterator stands: nothing at `end()`, and no payload on a node
without one. -/
def entry (T : Trie w P) (it : Iterator w) : Option (Option (IPNet w × Option P)) :=
  it.cur.map fun i => (T.heap.cells i).map fun c => (c.data.k, c.data.p)

/-- What can be observed of the trie is what the map says. -/
structure Agrees (T : Trie w P) (m : Map w P) : Prop where
  lookupNode : ∀ k, (T.lookupNode k).map T.entry
    = .ok ((m.lookup k).map fun p => some (k, some p))
  routeCount : T.routeCount = m.keys.card
  payload : ∀ k p, (∃ i c, T.heap.cells i = some c ∧ c.data.k = k ∧ c.data.p = some p) ↔
    m.lookup k = some p
  /-- no key is stored twice -/
  unique : ∀ i j c d, T.heap.cells i = some c → T.heap.cells j = some d → c.data.k = d.data.k →
    i = j

theorem Refines.lookupNode (R : Refines T m t) (k : IPNet w) :
    (T.lookupNode k).map T.entry = .ok ((m.lookup k).map fun p => some (k, some p)) := by
  by_cases hk : k ∈ m
  · obtain ⟨a, ha, hak, hf, hfind⟩ := find_of_mem R hk
    obtain ⟨cell, hcell, hdata⟩ := R.holds.cell_of_mem ha
    obtain ⟨p, hp⟩ := nodeFull_iff.mp hf
    have hkey : cell.data.k = k := by
      rw [hdata]
      exact hak
    rw [(R.stores k p).mp ⟨a, ha, hak, hp⟩, Trie.lookupNode, find_eq R.holds R.root,
      nodeActive_trieNode, hfind]
    simp only [ok_bind, map_some, Heap.read_eq hcell, hkey, if_true, iterator]
    show Except.ok (entry T ⟨some a.1, cell.data.k⟩) = _
    simp [entry, hcell, hdata, hp, show a.2.k = k from hak]
  · have hend : (T.lookupNode k).map T.entry = .ok none := by
      rw [Trie.lookupNode, find_eq R.holds R.root, nodeActive_trieNode, ok_bind]
      cases hfind : PrefixTree.find nodeKey nodeFull k t with
      | none => rfl
      | some a =>
        have hlong := (PrefixTree.find_eq_some R.wf).mp hfind
        obtain ⟨cell, hcell, hdata⟩ := R.holds.cell_of_mem hlong.mem
        have hne : ¬ cell.data.k = k := by
          intro hc
          rw [hdata] at hc
          exact hk (R.stores.mem_iff.mpr ⟨a, hlong.mem, hc, hlong.stored⟩)
        simp only [map_some, Heap.read_eq hcell, ok_bind, if_neg hne]
        rfl
    rw [hend, lookup_eq_none.mpr hk]
    rfl

theorem Refines.agrees (R : Refines T m t) : Agrees T m where
  lookupNode := R.lookupNode
  routeCount := R.count
  payload := fun k p => R.has_iff.trans (R.stores k p)
  unique := by
    intro i j c d hi hj hk
    obtain ⟨a, ha, rfl, hca⟩ := R.holds.mem_of_cell hi
    obtain ⟨b, hb, rfl, hdb⟩ := R.holds.mem_of_cell hj
    rw [hca, hdb] at hk
    rw [R.wf.eq_of_key_eq ha hb hk]

/-- **A trie is a finite map.**  Whatever entries are inserted and whichever present keys
erased, no operation aborts or follows a bad pointer, the invariant of the node class
holds, and lookup, count and stored entries are those of the map. -/
theorem run_map (ops : List (Op w P)) (hlegal : Legal ∅ ops) :
    ∃ T, empty.run ops = .ok T ∧ Valid T ∧ Agrees T (ops.foldl mapStep ∅) := by
  obtain ⟨T, t, hrun, R⟩ := run_refines ops Refines.empty hlegal
  exact ⟨T, hrun, R.valid, R.agrees⟩

/-- Two halves of a /8 joined by glue, then one of them erased again. -/
theorem run_map_halves : let low : IPNet 32 := IPNet.ofAddr 0x0a000000 9 (by decide)
    let high : IPNet 32 := IPNet.ofAddr 0x0a800000 9 (by decide)
    let ops : List (Op 32 Nat) := [.insert low 1, .insert high 2, .erase low]
    Legal ∅ ops ∧ ∃ T, empty.run ops = .ok T ∧ Valid T ∧ Agrees T (ops.foldl mapStep ∅) := by
  intro low high ops
  have hlegal : Legal ∅ ops := ⟨by simp [mapStep, Finmap.mem_insert], trivial⟩
  exact ⟨hlegal, run_map ops hlegal⟩

end Trie

end Xorp

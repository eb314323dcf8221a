/-
Reference counts.

`Counted` is the invariant of a `RefTrie` in use: the heap is a prefix tree, every
node's count is the number of iterators on it, iterators stand on nodes with a
payload, and a deleted node that is still there is being stood on.  `acquire` and
`release` trade one holder, and every other function of the class is a chain of them
around the node code, so each is specified by what it does to the list of holders and
by `Keeps`: a node that stays held stays in the tree under its key.
-/
import Xorp.RefTrie.RefTrie
import Xorp.Trie.PostOrder
import Xorp.Trie.Shape
import Xorp.Lib.Outcome

namespace Xorp

open Linked Spine List BinTree BitVec Mem

variable {w : Nat} {P : Type}

/-! ### The word -/

/-- How many iterators the word counts. -/
def refs (x : BitVec 32) : Nat := (references x).toNat

section
variable (x : BitVec 32)

theorem refs_eq : refs x = x.toNat % 2 ^ 15 := by
  exact Nat.and_two_pow_sub_one_eq_mod _ 15

theorem deleted_iff : deleted x = true ↔ x.toNat / 2 ^ 15 % 2 = 1 := by
  have hbit : x.getLsbD 15 = decide (x.toNat / 2 ^ 15 % 2 = 1) := by
    rw [← Nat.testBit_eq_decide_div_mod_eq]
    rfl
  have hpow : nodeDeleted = twoPow 32 15 := by decide
  rw [deleted, hpow, and_twoPow, hbit]
  by_cases h : x.toNat / 2 ^ 15 % 2 = 1
  · rw [decide_eq_true h, if_pos rfl]
    exact iff_of_true (by decide) h
  · rw [decide_eq_false h, if_neg (by decide)]
    exact iff_of_false (by decide) h

theorem references_eq_zero : references x = 0 ↔ refs x = 0 := toNat_inj.symm

theorem references_eq_mask : references x = nodeRefsMask ↔ refs x = 2 ^ 15 - 1 :=
  toNat_inj.symm

end

theorem refs_init : refs refTrieNode.init = 0 := by decide

theorem deleted_init : deleted refTrieNode.init = false := by decide

variable {x : BitVec 32}

theorem refs_incr (h : refs x ≠ 2 ^ 15 - 1) : refs (x + 1) = refs x + 1 := by
  rw [refs_eq] at h ⊢
  rw [refs_eq, toNat_add]
  show (x.toNat + 1) % _ % _ = _
  omega

theorem deleted_incr (h : refs x ≠ 2 ^ 15 - 1) : deleted (x + 1) = deleted x := by
  rw [refs_eq] at h
  rw [Bool.eq_iff_iff, deleted_iff, deleted_iff, toNat_add]
  show (x.toNat + 1) % _ / _ % _ = _ ↔ _
  omega

theorem refs_decr (h : refs x ≠ 0) : refs (x - 1) = refs x - 1 := by
  rw [refs_eq] at h ⊢
  rw [refs_eq, toNat_sub]
  show (2 ^ 32 - 1 + x.toNat) % _ % _ = _
  omega

theorem deleted_decr (h : refs x ≠ 0) : deleted (x - 1) = deleted x := by
  rw [refs_eq] at h
  rw [Bool.eq_iff_iff, deleted_iff, deleted_iff, toNat_sub]
  show (2 ^ 32 - 1 + x.toNat) % _ / _ % _ = _ ↔ _
  omega

/-- The mark and the count do not share bits. -/
theorem nodeDeleted_and_nodeRefsMask (i : Nat) (hi : i < 32) :
    (nodeDeleted[i] && nodeRefsMask[i]) = false := by
  rw [← getElem_and, show nodeDeleted &&& nodeRefsMask = 0#32 by decide]
  exact getElem_zero hi

section
variable (x : BitVec 32)

theorem refs_mark : refs (x ||| nodeDeleted) = refs x := by
  have heq : (x ||| nodeDeleted) &&& nodeRefsMask = x &&& nodeRefsMask := by
    ext i hi
    have hd := nodeDeleted_and_nodeRefsMask i hi
    simp only [BitVec.getElem_and, BitVec.getElem_or, Bool.and_or_distrib_right, hd, Bool.or_false]
  exact congrArg BitVec.toNat heq

theorem deleted_mark : deleted (x ||| nodeDeleted) = true := by
  have heq : (x ||| nodeDeleted) &&& nodeDeleted = nodeDeleted := by
    ext i hi
    rw [getElem_and, getElem_or]
    cases x[i] <;> simp
  rw [deleted, heq]
  decide

theorem refs_revive : refs (refTrieNode.revive x) = refs x := by
  have heq : (x ^^^ (x &&& nodeDeleted)) &&& nodeRefsMask = x &&& nodeRefsMask := by
    ext i hi
    have hd := nodeDeleted_and_nodeRefsMask i hi
    simp only [BitVec.getElem_and, BitVec.getElem_xor, Bool.and_xor_distrib_right, Bool.and_assoc,
      hd, Bool.and_false, Bool.xor_false]
  exact congrArg BitVec.toNat heq

theorem deleted_revive : deleted (refTrieNode.revive x) = false := by
  have heq : (x ^^^ (x &&& nodeDeleted)) &&& nodeDeleted = 0#32 := by
    ext i hi
    simp only [BitVec.getElem_and, BitVec.getElem_xor, Bool.and_xor_distrib_right, Bool.and_assoc,
      Bool.and_self, Bool.xor_self, BitVec.getElem_zero]
  show ((x ^^^ (x &&& nodeDeleted)) &&& nodeDeleted != 0) = false
  rw [heq]
  decide

theorem destructible_iff : refTrieNode.destructible x = true ↔ refs x = 0 ∧ deleted x = true := by
  have hmask : (x &&& (nodeDeleted ||| nodeRefsMask)).toNat = x.toNat % 2 ^ 16 := by
    exact Nat.and_two_pow_sub_one_eq_mod _ 16
  show (x &&& (nodeDeleted ||| nodeRefsMask) == nodeDeleted) = true ↔ _
  rw [beq_iff_eq, ← toNat_inj, hmask, refs_eq, deleted_iff]
  show x.toNat % 2 ^ 16 = 2 ^ 15 ↔ _
  omega

end

/-- What the destructor's assertion asks for. -/
theorem destructible_retire (h : refs x = 0) :
    refTrieNode.destructible (refTrieNode.retire x) = true :=
  (destructible_iff _).mpr ⟨(refs_mark x).trans h, deleted_mark x⟩

/-! ### The invariant -/

abbrev RefNode (w : Nat) (P : Type) := Node w P (BitVec 32)

abbrev RefLabel (w : Nat) (P : Type) := Nat × RefNode w P

abbrev RefNodeTree (w : Nat) (P : Type) := BinTree (RefLabel w P)

/-- The heap is this tree, and `hs` are the nodes iterators stand on, each as often as
it has iterators. -/
structure Counts (h : RefMem w P) (hs : List Nat) (t : RefNodeTree w P) : Prop where
  holds : Holds h t
  root : h.root = t.ptr
  wf : PrefixTree.WF nodeKey nodeFull t
  count : ∀ a ∈ t.nodes, refs a.2.x = hs.count a.1
  held : ∀ i ∈ hs, ∃ a ∈ t.nodes, a.1 = i ∧ nodeFull a = true

/-- Between operations, besides, a deleted entry is there only for the iterators on it. -/
structure Counted (h : RefMem w P) (hs : List Nat) (t : RefNodeTree w P) : Prop
    extends Counts h hs t where
  gone : ∀ a ∈ t.nodes, nodeFull a = true → deleted a.2.x = true → a.1 ∈ hs

/-- Is the node an entry that has not been deleted? -/
abbrev stored (a : Nat × RefNode w P) : Bool := Mem.nodeActive refTrieNode a

variable {a : RefLabel w P}

theorem stored_iff : stored a = true ↔ nodeFull a = true ∧ deleted a.2.x = false := by
  rw [stored, nodeActive, Node.active, Bool.and_eq_true, Bool.not_eq_true']
  rfl

/-- The tree has the payload under the key, and it is not deleted. -/
def Lists (t : RefNodeTree w P) (k : IPNet w) (p : P) : Prop :=
  ∃ a ∈ t.nodes, nodeEntry a = (k, some p) ∧ deleted a.2.x = false

/-- The nodes in `ks` stay in the tree, under their keys. -/
def Persists (ks : List Nat) (t t' : RefNodeTree w P) : Prop :=
  ∀ a ∈ t.nodes, a.1 ∈ ks → ∃ b ∈ t'.nodes, b.1 = a.1 ∧ nodeKey b = nodeKey a

/-- What becomes of a tree while only iterators move: besides, no key is new, and what is
deleted is not stored again. -/
structure Keeps (ks : List Nat) (t t' : RefNodeTree w P) : Prop where
  persists : Persists ks t t'
  keys : ∀ b ∈ t'.nodes, ∃ a ∈ t.nodes, nodeKey a = nodeKey b ∧ (stored b = true → stored a = true)

section
variable {ks : List Nat} {t t' t'' : RefNodeTree w P}

theorem Persists.trans (h : Persists ks t t') (h' : Persists ks t' t'') : Persists ks t t'' := by
  intro a ha hk
  obtain ⟨b, hb, hba, hkey⟩ := h a ha hk
  obtain ⟨c, hc, hcb, hkey'⟩ := h' b hb (by rwa [hba])
  exact ⟨c, hc, hcb.trans hba, hkey'.trans hkey⟩

variable {ks' : List Nat}

theorem Persists.mono (h : Persists ks t t') (hsub : ∀ i ∈ ks', i ∈ ks) :
    Persists ks' t t' := fun a ha hk => h a ha (hsub _ hk)

theorem Keeps.refl (t : RefNodeTree w P) : Keeps ks t t :=
  ⟨fun a ha _ => ⟨a, ha, rfl, rfl⟩, fun b hb => ⟨b, hb, rfl, id⟩⟩

theorem Keeps.trans (h : Keeps ks t t') (h' : Keeps ks t' t'') : Keeps ks t t'' := by
  refine ⟨h.persists.trans h'.persists, ?_⟩
  intro c hc
  obtain ⟨b, hb, hkey, hst⟩ := h'.keys c hc
  obtain ⟨a, ha, hkey', hst'⟩ := h.keys b hb
  exact ⟨a, ha, hkey'.trans hkey, fun hs => hst' (hst hs)⟩

theorem Keeps.mono (h : Keeps ks t t') (hsub : ∀ i ∈ ks', i ∈ ks) :
    Keeps ks' t t' := ⟨h.persists.mono hsub, h.keys⟩

/-- The nodes without their counts. -/
def uncounted (t : RefNodeTree w P) : BinTree (Nat × IPNet w × Option P × Bool) :=
  t.map fun a => (a.1, a.2.k, a.2.p, deleted a.2.x)

section
variable (h : uncounted t' = uncounted t)
include h

/-- The nodes correspond one to one, in order. -/
theorem nodes_of_uncounted : t'.nodes.map (fun a => (a.1, a.2.k, a.2.p, deleted a.2.x))
      = t.nodes.map fun a => (a.1, a.2.k, a.2.p, deleted a.2.x) := by
  rw [← nodes_map, ← nodes_map]
  exact congrArg nodes h

/-- A node has its counterpart, at the same place. -/
theorem split_of_uncounted {xs ys : List (RefLabel w P)} (hsplit : t.nodes = xs ++ a :: ys) :
    ∃ xs' b ys', t'.nodes = xs' ++ b :: ys' ∧ b.1 = a.1 ∧ nodeEntry b = nodeEntry a ∧
      deleted b.2.x = deleted a.2.x ∧ ys'.length = ys.length := by
  have hmap := nodes_of_uncounted h
  rw [hsplit, map_append, map_cons, map_eq_append_iff] at hmap
  obtain ⟨xs', zs, hnodes, -, hzs⟩ := hmap
  obtain ⟨b, ys', rfl, hb, hys⟩ := map_eq_cons_iff.mp hzs
  simp only [Prod.mk.injEq] at hb
  exact ⟨xs', b, ys', hnodes, hb.1, Prod.ext hb.2.1 hb.2.2.1, hb.2.2.2, by
    simpa using congrArg List.length hys⟩

theorem mem_of_uncounted {b : RefLabel w P} (hb : b ∈ t'.nodes) :
    ∃ a ∈ t.nodes, a.1 = b.1 ∧ nodeKey a = nodeKey b ∧
      nodeFull a = nodeFull b ∧ deleted a.2.x = deleted b.2.x := by
  obtain ⟨xs, ys, hsplit⟩ := append_of_mem hb
  obtain ⟨xs', a, ys', hnodes, hid, hentry, hdel, -⟩ := split_of_uncounted h.symm hsplit
  refine ⟨a, by simp [hnodes], hid, congrArg Prod.fst hentry, ?_, hdel⟩
  exact congrArg (fun e => e.2.isSome) hentry

theorem Lists.of_uncounted {k : IPNet w} {p : P} (hl : Lists t k p) : Lists t' k p := by
  obtain ⟨a, ha, hentry, hdel⟩ := hl
  obtain ⟨xs, ys, hsplit⟩ := append_of_mem ha
  obtain ⟨xs', b, ys', hnodes, -, hb, hbdel, -⟩ := split_of_uncounted h hsplit
  exact ⟨b, by simp [hnodes], hb.trans hentry, hbdel.trans hdel⟩

theorem shape_of_uncounted : shape t' = shape t := by
  have hforget : ∀ t : RefNodeTree w P,
      shape t = (uncounted t).map fun a => (a.2.1, a.2.2.1) := by
    intro t
    rw [uncounted, BinTree.map_map]
    rfl
  rw [hforget, hforget, h]

/-- Where only counts change, everything is kept. -/
theorem Keeps.of_uncounted : Keeps ks t t' where
  persists := by
    intro a ha _
    obtain ⟨b, hb, hid, hkey, -⟩ := mem_of_uncounted h.symm ha
    exact ⟨b, hb, hid, hkey⟩
  keys := by
    intro b hb
    obtain ⟨a, ha, -, hkey, hfull, hdel⟩ := mem_of_uncounted h hb
    refine ⟨a, ha, hkey, fun hst => ?_⟩
    rw [stored_iff] at hst ⊢
    rw [hfull, hdel]
    exact hst

end

end

section
variable {h : RefMem w P} {hs : List Nat} {t : RefNodeTree w P}
variable {b : RefLabel w P}

theorem Counted.empty : Counted (Heap.empty : RefMem w P) [] .nil where
  holds := Holds.empty
  root := rfl
  wf := trivial
  count := by simp
  held := by simp
  gone := by simp

theorem Counted.perm {hs' : List Nat} (C : Counted h hs t) (hp : hs.Perm hs') :
    Counted h hs' t where
  holds := C.holds
  root := C.root
  wf := C.wf
  count := fun a ha => (C.count a ha).trans (hp.count_eq _)
  held := fun i hi => C.held i (hp.mem_iff.mpr hi)
  gone := fun a ha hf hd => hp.mem_iff.mp (C.gone a ha hf hd)

namespace Counts

variable (C : Counts h hs t) (ha : a ∈ t.nodes)
include C ha

theorem eq_of_id_eq (hb : b ∈ t.nodes) (heq : a.1 = b.1) : a = b :=
  inj_on_of_nodup_map C.holds.nodup ha hb heq

theorem full_of_held (hi : a.1 ∈ hs) : nodeFull a = true := by
  obtain ⟨b, hb, hid, hf⟩ := C.held _ hi
  rwa [C.eq_of_id_eq hb ha hid] at hf

omit ha in
/-- Only nodes with a payload are held, so glue can go any time. -/
theorem disposable : Mem.Disposable refTrieNode t := by
  intro b hb hf
  refine destructible_retire ((C.count b hb).trans (count_eq_zero.mpr fun hm => ?_))
  rw [C.full_of_held hb hm] at hf
  simp at hf

/-- **Another word in one node**, for other holders of it. -/
theorem setWord (x : BitVec 32) (hs' : List Nat)
    (hcount : refs x = hs'.count a.1) (hsame : ∀ i, i ≠ a.1 → hs'.count i = hs.count i)
    (hfull : a.1 ∈ hs' → nodeFull a = true) :
    ∃ h' t', RefMem.setWord h a.1 x = .ok h' ∧ Counts h' hs' t' ∧
      (deleted x = deleted a.2.x → uncounted t' = uncounted t) ∧ shape t' = shape t ∧
      (∀ b, b ∈ t'.nodes ↔ (b ∈ t.nodes ∧ b.1 ≠ a.1) ∨ b = (a.1, { a.2 with x := x })) := by
  obtain ⟨c, l, r, rfl⟩ := exists_plug ha
  have hnodes := fun b => C.holds.mem_relabel (b := b) { a.2 with x := x }
  refine ⟨_, plug c (.node (a.1, { a.2 with x := x }) l r), Heap.modify_eq C.holds.cell _,
    ⟨C.holds.relabel _, ?_, ?_, ?_, ?_⟩, ?_, map_plug_congr rfl, hnodes⟩
  · rw [Heap.root_write, C.root]
    rcases c with _ | ⟨f, c⟩
    · rfl
    · exact congrArg (Option.map Prod.fst) top_plug_cons
  · refine C.wf.exchange ?_ (by simp) ?_
    · exact C.wf.focus
    · intro b hb
      rcases mem_nodes_node.mp hb with rfl | hb
      · exact ⟨a, mem_nodes_node.mpr (.inl rfl), rfl⟩
      · exact ⟨b, mem_nodes_node.mpr (.inr hb), rfl⟩
  · intro b hb
    rcases (hnodes b).mp hb with ⟨hb, hid⟩ | rfl
    · rw [C.count b hb, hsame _ hid]
    · exact hcount
  · intro i hi
    by_cases hid : i = a.1
    · exact ⟨_, (hnodes _).mpr (.inr rfl), hid.symm, hfull (hid ▸ hi)⟩
    · rw [← count_pos_iff, hsame i hid, count_pos_iff] at hi
      obtain ⟨b, hb, rfl, hf⟩ := C.held i hi
      exact ⟨b, (hnodes b).mpr (.inl ⟨hb, hid⟩), rfl, hf⟩
  · intro hdel
    refine map_plug_congr ?_
    simp only [map_node, hdel]

variable {t' : RefNodeTree w P} {ks : List Nat}

omit C ha in
/-- A node that persists is found under its address, with its key. -/
theorem key_eq (C : Counts h hs t') (hp : Persists ks t t') (ha : a ∈ t.nodes) (hk : a.1 ∈ ks)
    (hb : b ∈ t'.nodes) (hid : b.1 = a.1) : nodeKey b = nodeKey a := by
  obtain ⟨c, hc, hca, hkey⟩ := hp a ha hk
  rw [C.eq_of_id_eq hb hc (hid.trans hca.symm)]
  exact hkey

theorem read : ∃ cell, h.read a.1 = .ok cell ∧ cell.data = a.2 := by
  obtain ⟨cell, hcell, hdata⟩ := C.holds.cell_of_mem ha
  exact ⟨cell, Heap.read_eq hcell, hdata⟩

omit ha in
theorem withRoot : Counts { h with root := t.ptr } hs t :=
  ⟨C.holds.withRoot _, rfl, C.wf, C.count, C.held⟩

section
variable (hnodes : ∀ b, b ∈ t'.nodes ↔ (b ∈ t.nodes ∧ b.1 ≠ a.1) ∨ b = (a.1, { a.2 with x := a.2.x ||| nodeDeleted }))
include hnodes

/-- Setting the mark loses nothing but an entry. -/
theorem keeps_of_mark : Keeps ks t t' where
  persists := by
    intro b hb _
    by_cases hid : b.1 = a.1
    · obtain rfl := C.eq_of_id_eq hb ha hid
      exact ⟨_, (hnodes _).mpr (.inr rfl), rfl, rfl⟩
    · exact ⟨b, (hnodes b).mpr (.inl ⟨hb, hid⟩), rfl, rfl⟩
  keys := by
    intro b hb
    rcases (hnodes b).mp hb with ⟨hb, -⟩ | rfl
    · exact ⟨b, hb, rfl, id⟩
    · refine ⟨a, ha, rfl, fun hst => ?_⟩
      exact absurd (stored_iff.mp hst).2 (by simp [deleted_mark])

/-- A node that is marked is no longer listed. -/
theorem lists_mark
    {k : IPNet w} {p : P} : Lists t' k p ↔ Lists t k p ∧ k ≠ nodeKey a := by
  constructor
  · rintro ⟨b, hb, hentry, hdel⟩
    rcases (hnodes b).mp hb with ⟨hb, hid⟩ | rfl
    · refine ⟨⟨b, hb, hentry, hdel⟩, fun hk => hid ?_⟩
      rw [C.wf.eq_of_key_eq hb ha ((congrArg Prod.fst hentry).trans hk)]
    · simp [deleted_mark] at hdel
  · rintro ⟨⟨b, hb, hentry, hdel⟩, hne⟩
    refine ⟨b, (hnodes b).mpr (.inl ⟨hb, fun hid => hne ?_⟩), hentry, hdel⟩
    rw [← C.eq_of_id_eq hb ha hid]
    exact (congrArg Prod.fst hentry).symm

end

/-- `erase` of a node that is being stood on marks it. -/
theorem erase_held (hi : a.1 ∈ hs) :
    ∃ h' t', RefMem.erase h a.1 = .ok (h', t'.ptr) ∧ Counts h' hs t' ∧ shape t' = shape t ∧
      (∀ b, b ∈ t'.nodes ↔
        (b ∈ t.nodes ∧ b.1 ≠ a.1) ∨ b = (a.1, { a.2 with x := a.2.x ||| nodeDeleted })) := by
  obtain ⟨cell, hread, hdata⟩ := C.read ha
  have hcount := C.count a ha
  have hpos : references a.2.x ≠ 0 := by
    rw [Ne, references_eq_zero, hcount]
    exact Nat.ne_of_gt (count_pos_iff.mpr hi)
  obtain ⟨h', t', hset, C', -, hshape, hnodes⟩ := C.setWord ha (a.2.x ||| nodeDeleted) hs
    ((refs_mark _).trans hcount) (fun _ _ => rfl) (fun _ => C.full_of_held ha hi)
  -- the walk to the root starts from the node as it is now
  obtain ⟨c, l, r, rfl⟩ := exists_plug ((hnodes _).mpr (.inr rfl))
  have hlen := length_le_next C'.holds
  have hclimb := climbLoop_eq C'.holds h'.bound (by rw [Heap.bound]; omega)
  refine ⟨h', _, ?_, C', hshape, hnodes⟩
  rw [RefMem.erase, hread]
  simp only [ok_bind, hdata, hset]
  rw [if_pos hpos, hclimb]
  rfl

/-- `erase` of a node that nothing refers to takes the entry out. -/
theorem erase_free (hi : a.1 ∉ hs) :
    ∃ h' t', RefMem.erase h a.1 = .ok (h', t'.ptr) ∧ Counts { h' with root := t'.ptr } hs t' ∧
      Keeps hs t t' ∧ shape t' = (shape t).erase (nodeKey a) ∧
      (∀ b, nodeFull b = true → (b ∈ t'.nodes ↔ b ∈ t.nodes ∧ b.1 ≠ a.1)) := by
  obtain ⟨cell, hread, hdata⟩ := C.read ha
  have hzero : refs a.2.x = 0 := (C.count a ha).trans (count_eq_zero.mpr hi)
  obtain ⟨h₁, t₁, hset, C₁, -, hshape, hnodes⟩ := C.setWord ha (a.2.x ||| nodeDeleted) hs
    ((refs_mark _).trans (C.count a ha)) (fun _ _ => rfl) (fun hm => absurd hm hi)
  have hkeeps : Keeps hs t t₁ := C.keeps_of_mark ha hnodes
  have ha₁ := (hnodes _).mpr (.inr rfl)
  obtain ⟨h', hrun, hholds, -⟩ := eraseNode_erases C₁.holds C₁.wf ha₁ C₁.disposable
    (destructible_retire ((refs_mark _).trans hzero))
  have hkey : ∀ b ∈ t₁.nodes, nodeKey b = nodeKey a ↔ b.1 = a.1 := by
    intro b hb
    constructor
    · intro heq
      have hba := C₁.wf.eq_of_key_eq hb ha₁ (heq.trans (show nodeKey a = nodeKey (a.1, _) from rfl))
      rw [hba]
    · intro heq
      rw [C₁.eq_of_id_eq hb ha₁ heq]
      rfl
  have hfull : ∀ b, nodeFull b = true →
      (b ∈ (eraseTree (nodeKey a) t₁).nodes ↔ b ∈ t.nodes ∧ b.1 ≠ a.1) := by
    intro b hb
    rw [mem_eraseTree C₁.wf hb]
    constructor
    · rintro ⟨hm, hne⟩
      rcases (hnodes b).mp hm with hm' | rfl
      · exact hm'
      · contradiction
    · intro hm
      have hm' := (hnodes b).mpr (.inl hm)
      exact ⟨hm', fun heq => hm.2 ((hkey b hm').mp heq)⟩
  have hcount : ∀ b ∈ (eraseTree (nodeKey a) t₁).nodes, refs b.2.x = hs.count b.1 := by
    intro b hb
    rcases PrefixTree.of_mem_erase hb with hb | ⟨c, hc, -, rfl⟩
    · exact C₁.count b hb
    · exact C₁.count c hc
  refine ⟨h', eraseTree (nodeKey a) t₁, ?_,
    ⟨hholds.withRoot _, rfl, wf_eraseTree C₁.wf, hcount, ?_⟩, ⟨?_, ?_⟩,
    by rw [shape_eraseTree, hshape], hfull⟩
  · rw [RefMem.erase, hread]
    simp only [ok_bind, hdata, hset]
    rw [if_neg (not_not_intro ((references_eq_zero _).mpr hzero))]
    exact hrun
  · intro i him
    obtain ⟨b, hb, rfl, hf⟩ := C.held i him
    exact ⟨b, (hfull b hf).mpr ⟨hb, fun heq => hi (heq ▸ him)⟩, rfl, hf⟩
  · intro b hb him
    have hf := C.full_of_held hb him
    exact ⟨b, (hfull b hf).mpr ⟨hb, fun heq => hi (heq ▸ him)⟩, rfl, rfl⟩
  · intro b hb
    rcases PrefixTree.of_mem_erase hb with hb | ⟨c, hc, -, rfl⟩
    · exact hkeeps.keys b hb
    · obtain ⟨d, hd, heq, -⟩ := hkeeps.keys c hc
      exact ⟨d, hd, heq, fun hst => absurd (stored_iff.mp hst).1 (by simp [nodeFull, Node.hasPayload, Node.clear])⟩

end Counts

end

/-! ### Coming and going -/

/-- The pointer, if it leads anywhere, leads to an entry of the tree. -/
def Entry (t : RefNodeTree w P) (n : Option Nat) : Prop :=
  ∀ i, n = some i → ∃ a ∈ t.nodes, a.1 = i ∧ nodeFull a = true

/-- Some node has as many iterators as its count can hold, give or take the two that an
operation may have under way. -/
def Crowded (hs : List Nat) : Prop := ∃ i, 2 ^ 15 - 3 ≤ hs.count i

/-- The one reason to stop: the overflow guard of a count. -/
def Overflow (hs : List Nat) (e : Fault) : Prop := e = .saturated ∧ Crowded hs

namespace RefTrie

section
variable {T : RefTrie w P} {hs hs₀ : List Nat} {t : RefNodeTree w P}

variable {n : Option Nat}

/-- **`acquire` adds a holder.** -/
theorem acquire_counted (C : Counted T.heap hs t) (hn : Entry t n)
    (hle : ∀ i, hs.count i ≤ hs₀.count i + 2) : Yields (Overflow hs₀)
      (fun T' => ∃ t', Counted T'.heap (n.toList ++ hs) t' ∧ uncounted t' = uncounted t)
      (T.acquire n) := by
  cases n with
  | none => exact ⟨t, C, rfl⟩
  | some i =>
    obtain ⟨a, ha, rfl, hf⟩ := hn i rfl
    obtain ⟨cell, hread, hdata⟩ := C.read ha
    have hcount := C.count a ha
    rw [acquire, RefMem.incrRefcount, hread]
    simp only [ok_bind, hdata]
    by_cases hmask : references a.2.x = nodeRefsMask
    · rw [if_pos hmask]
      have hle := hle a.1
      rw [references_eq_mask] at hmask
      exact ⟨rfl, a.1, by omega⟩
    · rw [if_neg hmask]
      have hne : refs a.2.x ≠ 2 ^ 15 - 1 := fun hc => hmask ((references_eq_mask _).mpr hc)
      obtain ⟨h', t', hset, C', hsame, -, hnodes⟩ := C.setWord ha (a.2.x + 1)
        (a.1 :: hs) (by rw [refs_incr hne, hcount, count_cons_self])
        (fun i hi => count_cons_of_ne hi.symm) (fun _ => hf)
      refine Yields.of_ok (a := { T with heap := h' }) (by rw [hset]; rfl)
        ⟨t', ⟨C', ?_⟩, hsame (deleted_incr hne)⟩
      intro b hb hfb hd
      rcases (hnodes b).mp hb with ⟨hb, -⟩ | rfl
      · exact mem_cons_of_mem _ (C.gone b hb hfb hd)
      · exact mem_cons_self

variable {h : RefMem w P}

theorem references_zero_iff (C : Counts h hs t) (ha : a ∈ t.nodes) :
    references a.2.x = 0 ↔ a.1 ∉ hs := by
  rw [references_eq_zero, C.count a ha, count_eq_zero]

theorem decr_counts {i : Nat} (C : Counted h (i :: hs) t) :
    ∃ h' t', RefMem.decrRefcount h i = .ok h' ∧ Counts h' hs t' ∧ uncounted t' = uncounted t ∧
      (∃ a ∈ t'.nodes, a.1 = i) ∧
      ∀ b ∈ t'.nodes, nodeFull b = true → deleted b.2.x = true → b.1 = i ∨ b.1 ∈ hs := by
  obtain ⟨a, ha, rfl, hf⟩ := C.held i mem_cons_self
  obtain ⟨cell, hread, hdata⟩ := C.read ha
  have hcount : refs a.2.x = hs.count a.1 + 1 := (C.count a ha).trans count_cons_self
  have hne : refs a.2.x ≠ 0 := by omega
  obtain ⟨h', t', hset, C', hsame, -, hnodes⟩ := C.setWord ha (a.2.x - 1) hs
    (by rw [refs_decr hne, hcount]; rfl)
    (fun i hi => (count_cons_of_ne hi.symm).symm) (fun _ => hf)
  refine ⟨h', t', ?_, C', hsame (deleted_decr hne), ⟨_, (hnodes _).mpr (.inr rfl), rfl⟩, ?_⟩
  · rw [RefMem.decrRefcount, hread]
    simp only [ok_bind, hdata]
    rw [if_neg fun hc => hne ((references_eq_zero _).mp hc), hset]
  · intro b hb hfb hd
    rcases (hnodes b).mp hb with ⟨hb, -⟩ | rfl
    · exact mem_cons.mp (C.gone b hb hfb hd)
    · exact .inl rfl

/-- What becomes of the tree when an iterator leaves a node. -/
structure Released (hs : List Nat) (t : RefNodeTree w P) (n : Option Nat)
    (t' : RefNodeTree w P) : Prop where
  keeps : Keeps hs t t'
  /-- the last to leave a deleted node takes the entry out -/
  removes : ∀ a ∈ t.nodes, n = some a.1 → deleted a.2.x = true → a.1 ∉ hs →
    shape t' = (shape t).erase (nodeKey a)
  leaves : (∀ a ∈ t.nodes, n = some a.1 → deleted a.2.x = false) → uncounted t' = uncounted t
  lists : ∀ k p, Lists t' k p ↔ Lists t k p

/-- **`release` gives a holder up**, and cannot fail. -/
theorem release_counted (C : Counted T.heap (n.toList ++ hs) t) :
    ∃ T' t', T.release n = .ok T' ∧ Counted T'.heap hs t' ∧ Released hs t n t' := by
  cases n with
  | none =>
    exact ⟨T, t, rfl, C, Keeps.refl t, fun _ _ hn => absurd hn (by simp), fun _ => rfl,
      fun _ _ => Iff.rfl⟩
  | some i =>
    have C : Counted T.heap (i :: hs) t := C
    obtain ⟨h₁, t₁, hdecr, C₁, hsame, ⟨a, ha, rfl⟩, hgone⟩ := decr_counts C
    obtain ⟨cell, hread, hdata⟩ := C₁.read ha
    have hkeeps : Keeps hs t t₁ := Keeps.of_uncounted hsame
    have hlists : ∀ k p, Lists t₁ k p ↔ Lists t k p :=
      fun k p => ⟨.of_uncounted hsame.symm, .of_uncounted hsame⟩
    -- the node before its count went down
    have hback : ∀ b ∈ t.nodes, b.1 = a.1 →
        nodeKey a = nodeKey b ∧ deleted a.2.x = deleted b.2.x := by
      intro b hb hid
      obtain ⟨b', hb', hid', hkey, -, hdel⟩ := mem_of_uncounted hsame.symm hb
      rw [C₁.eq_of_id_eq ha hb' (hid.symm.trans hid'.symm)]
      exact ⟨hkey, hdel⟩
    rw [release, hdecr]
    simp only [ok_bind, hread, hdata, references_zero_iff C₁ ha]
    by_cases hlast : deleted a.2.x = true ∧ a.1 ∉ hs
    · -- the last to leave a deleted node
      obtain ⟨h', t', herase, C', hkeeps', hshape, hfull⟩ := C₁.erase_free ha hlast.2
      rw [if_pos hlast, herase]
      refine ⟨_, t', rfl, ⟨C', ?_⟩, hkeeps.trans hkeeps', ?_, ?_, fun k p => ?_⟩
      · intro b hb hfb hd
        obtain ⟨hb, hid⟩ := (hfull b hfb).mp hb
        exact (hgone b hb hfb hd).resolve_left hid
      · intro b hb hid _ _
        rw [hshape, shape_of_uncounted hsame, (hback b hb (Option.some.inj hid).symm).1]
      · intro hnot
        obtain ⟨b, hb, hid, -⟩ := mem_of_uncounted hsame ha
        rw [(hback b hb hid).2, hnot b hb (by rw [hid])] at hlast
        exact absurd hlast.1 (by simp)
      · rw [← hlists]
        refine exists_congr fun b => ?_
        refine ⟨fun ⟨hb, he, hd⟩ => ?_, fun ⟨hb, he, hd⟩ => ?_⟩
        all_goals have hfb : nodeFull b = true := congrArg (fun e => e.2.isSome) he
        · exact ⟨((hfull b hfb).mp hb).1, he, hd⟩
        · refine ⟨(hfull b hfb).mpr ⟨hb, fun hid => ?_⟩, he, hd⟩
          rw [C₁.eq_of_id_eq hb ha hid, hlast.1] at hd
          cases hd
    · rw [if_neg hlast]
      refine ⟨_, t₁, rfl, ⟨C₁, ?_⟩, hkeeps, ?_, fun _ => hsame, hlists⟩
      · intro b hb hfb hd
        rcases hgone b hb hfb hd with hid | hm
        · by_contra hout
          rw [C₁.eq_of_id_eq hb ha hid] at hd
          exact hlast ⟨hd, hid ▸ hout⟩
        · exact hm
      · intro b hb hid hd hout
        have hid' := (Option.some.inj hid).symm
        rw [← (hback b hb hid').2] at hd
        exact absurd ⟨hd, hid' ▸ hout⟩ hlast

/-- A local iterator leaves a node the same way, if the node need not be taken out. -/
theorem releaseLocal_counted (C : Counted T.heap (n.toList ++ hs) t)
    (hgone : ∀ a ∈ t.nodes, nodeFull a = true → deleted a.2.x = true → a.1 ∈ hs) :
    ∃ T' t', T.releaseLocal n = .ok T' ∧ Counted T'.heap hs t' ∧ uncounted t' = uncounted t := by
  cases n with
  | none => exact ⟨T, t, rfl, C, rfl⟩
  | some i =>
    have C : Counted T.heap (i :: hs) t := C
    have hf : ∀ a ∈ t.nodes, a.1 = i → nodeFull a = true := by
      intro a ha hi
      exact C.full_of_held ha (by rw [hi]; exact mem_cons_self)
    obtain ⟨h₁, t₁, hdecr, C₁, hsame, ⟨a, ha, rfl⟩, -⟩ := decr_counts C
    obtain ⟨cell, hread, hdata⟩ := C₁.read ha
    have hgone₁ : ∀ b ∈ t₁.nodes, nodeFull b = true → deleted b.2.x = true → b.1 ∈ hs := by
      intro b hb hfb hd
      obtain ⟨c, hc, hid, -, hfull, hdel⟩ := mem_of_uncounted hsame hb
      exact hid ▸ hgone c hc (hfull.trans hfb) (hdel.trans hd)
    have hstay : ¬ (deleted a.2.x = true ∧ a.1 ∉ hs) := by
      rintro ⟨hd, hout⟩
      obtain ⟨c, hc, hid, -, hfull, -⟩ := mem_of_uncounted hsame ha
      exact hout (hgone₁ a ha (hfull.symm.trans (hf c hc hid)) hd)
    rw [releaseLocal, hdecr]
    simp only [ok_bind, hread, hdata, references_zero_iff C₁ ha]
    rw [if_neg hstay]
    exact ⟨_, t₁, rfl, ⟨C₁, hgone₁⟩, hsame⟩

end

end RefTrie

end Xorp

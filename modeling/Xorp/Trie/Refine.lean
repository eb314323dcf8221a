/-
The node code refines the prefix tree.

On a heap that holds a tree, `insertLoop`, the two loops of `erase` and the searches
run to the end without a fault, and what they leave or return is what the functions
of `PrefixTree` compute on the tree itself.  Each loop is followed along a position:
the walk down pushes frames, the walk up pops them, and the update at the end is one
use of `Holds.graft`.
-/
import Xorp.Trie.Node
import Xorp.Trie.PrefixTree

namespace Xorp

open Linked Spine BinTree Heap List PrefixTree IPNet Except Node
open PrefixTree (WF joins prune pruneUp rootContains prune_cases pruneUp_of_ne_nil)

variable {w : Nat} {P X : Type}

/-- A node in memory: its address and what it holds. -/
abbrev Label (w : Nat) (P X : Type) := Nat × Node w P X

abbrev NodeTree (w : Nat) (P X : Type) := BinTree (Label w P X)

/-- The key of a node in memory. -/
def nodeKey (a : Nat × Node w P X) : IPNet w := a.2.k

/-- Does a node in memory have a payload? -/
def nodeFull (a : Nat × Node w P X) : Bool := a.2.hasPayload

namespace Mem

/-- The node an insertion of `x` creates; a glue node is allocated before it. -/
def newNode (C : NodeClass X) (x : IPNet w) (p : P) (next : Nat)
    (t : BinTree (Nat × Node w P X)) : Nat × Node w P X :=
  (if PrefixTree.joins nodeKey x t then next + 1 else next, Node.new C x p)

/-- The tree after an insertion at the next free addresses. -/
def insertTree (C : NodeClass X) (x : IPNet w) (p : P) (next : Nat)
    (t : BinTree (Nat × Node w P X)) : BinTree (Nat × Node w P X) :=
  PrefixTree.insert nodeKey (newNode C x p next t) (fun k => (next, Node.glue C k))
    (fun a => (a.1, a.2.setPayload C p)) x t

variable {l r t : NodeTree w P X} {h : Mem w P X} {C : NodeClass X}
  {out : Mem w P X × Nat × Bool} {x : IPNet w} {a b : Label w P X} {p : P}

variable {c : Spine (Label w P X)} {next : Nat}

theorem mem_insertTree (hw : WF nodeKey nodeFull t) (hb : nodeFull b = true) :
    b ∈ (insertTree C x p next t).nodes ↔ (b ∈ t.nodes ∧ nodeKey b ≠ x) ∨
      (b = newNode C x p next t ∧ ∀ a ∈ t.nodes, nodeKey a ≠ x) ∨
      ∃ a ∈ t.nodes, nodeKey a = x ∧ b = (a.1, a.2.setPayload C p) :=
  mem_insert hw (fun _ => rfl) hb

theorem wf_insertTree (hw : WF nodeKey nodeFull t) :
    WF nodeKey nodeFull (insertTree C x p next t) :=
  hw.insert rfl (fun _ => rfl) (fun _ => rfl) rfl (fun _ => rfl)

/-- What a call of `insertLoop` at a position leaves behind. -/
structure Inserted (C : NodeClass X) (x : IPNet w) (p : P) (h : Mem w P X)
    (c : Spine (Nat × Node w P X)) (t : BinTree (Nat × Node w P X))
    (out : Mem w P X × Nat × Bool) : Prop where
  holds : Holds out.1 (plug c (insertTree C x p h.next t))
  root : out.1.root = if c = [] then (insertTree C x p h.next t).ptr else h.root
  next : h.next ≤ out.1.next
  me : out.2.1 = ((PrefixTree.exact nodeKey x t).getD (newNode C x p h.next t)).1
  replaced : out.2.2 = (PrefixTree.exact nodeKey x t).any fun a => a.2.active C

/-- The null pointer: a leaf goes in. -/
theorem inserted_leaf (H : Holds h (plug c .nil)) : ∃ out, (do
        let h' ← (h.alloc (new C x p) (up c)).store (slot c) (some h.next)
        pure (h', h.next, false)) = ok out ∧ Inserted C x p h c .nil out := by
  have hlt : ∀ i ∈ ids c, i ≠ h.next := by
    intro i hi
    have := H.bound i (mem_ids_plug.mpr (.inl hi))
    omega
  have hlaid : Linked.Laid (h.alloc (new C x p) (up c)) (up c)
      (.node (h.next, new C x p) .nil .nil) := ⟨by simp [cells_alloc], trivial, trivial⟩
  obtain ⟨h', hstore, hholds, hnext, hroot⟩ :=
    H.graft hlaid (by simp) (by simp) (by simp) (by simp)
      (fun i hi hic => by
        rw [cells_alloc, if_neg (by simpa using hi)]
        exact H.free i (by simp [mem_ids_plug, hic]))
      (fun i hi => by rw [cells_alloc, if_neg (hlt i hi)]) rfl
  rw [ptr_node] at hstore
  refine ⟨(h', h.next, false), by rw [hstore]; rfl, hholds, hroot, ?_, rfl, rfl⟩
  rw [hnext, next_alloc]
  omega

/-- The node at the position goes into the frame `f`, whose cells are in place. -/
theorem Inserted.of_wrap {h' : Mem w P X} {me : Nat} {f : Frame (Label w P X)}
    (H : Holds h (plug c (.node a l r))) (F : Holds.Framed h h' c a l r f)
    (ht : insertTree C x p h.next (.node a l r) = f.fill (.node a l r))
    (hexact : exact nodeKey x (.node a l r) = none)
    (hme : me = (newNode C x p h.next (.node a l r)).1) :
    ∃ out, (do let h'' ← h'.store (slot c) (some f.label.1); pure (h'', me, false))
        = ok out ∧ Inserted C x p h c (.node a l r) out := by
  obtain ⟨h'', hstore, hholds, hnext, hroot'⟩ := H.wrap F
  have hlt := F.new f.label.1 (.inl rfl)
  refine ⟨(h'', me, false), by rw [hstore]; rfl, ?_, ?_, ?_, ?_, ?_⟩
  · rw [ht]; exact hholds
  · rw [ht, Frame.ptr_fill]; exact hroot'
  · show h.next ≤ h''.next
    omega
  · rw [hexact]; exact hme
  · rw [hexact]; rfl

section
variable (H : Holds h (plug c (.node a l r)))
include H

theorem lt_next : a.1 < h.next := H.bound _ (mem_ids_plug.mpr (.inr (by simp)))

/-- A new node is made the parent of the node at the position.  `set` writes its child
pointer. -/
theorem alloc_above (d : Node w P X) (set : Cell (Node w P X) → Cell (Node w P X)) :
    ∃ h₁ h₂, (h.alloc d (up c)).modify h.next set = .ok h₁ ∧
      h₁.setUp a.1 (some h.next) = .ok h₂ ∧ h₂.cells h.next = some (set ⟨up c, none, none, d⟩) ∧
      h₂.cells a.1 = some ⟨some h.next, l.ptr, r.ptr, a.2⟩ ∧
      (∀ i, i ≠ h.next → i ≠ a.1 → h₂.cells i = h.cells i) ∧ h₂.root = h.root ∧
      h₂.next = h.next + 1 := by
  have ha := lt_next H
  have hnew : (h.alloc d (up c)).cells h.next = some ⟨up c, none, none, d⟩ := by
    rw [cells_alloc, if_pos rfl]
  have hcell : ((h.alloc d (up c)).write h.next (set ⟨up c, none, none, d⟩)).cells a.1
      = some ⟨up c, l.ptr, r.ptr, a.2⟩ := by
    rw [cells_write, if_neg (by omega), cells_alloc, if_neg (by omega), H.cell]
  refine ⟨_, _, modify_eq hnew _, modify_eq hcell _, ?_, ?_, fun i hi hia => ?_, rfl, rfl⟩
  · rw [cells_write, if_neg (by omega), cells_write, if_pos rfl]
  · rw [cells_write, if_pos rfl]
  · rw [cells_write, if_neg hia, cells_write, if_neg hi, cells_alloc, if_neg hi]

/-- Cases E and F: the node at the position goes under a new node for `x`. -/
theorem inserted_wrap (f : Frame (Label w P X)) (hlabel : f.label = (h.next, new C x p))
    (hother : f.other = .nil) (set : Cell (Node w P X) → Cell (Node w P X))
    (hset : set ⟨up c, none, none, new C x p⟩ = f.cell (up c) (some a.1))
    (ht : insertTree C x p h.next (.node a l r) = f.fill (.node a l r))
    (hexact : exact nodeKey x (.node a l r) = none)
    (hme : (newNode C x p h.next (.node a l r)).1 = h.next) : ∃ out, (do
        let h' ← (h.alloc (new C x p) (up c)).modify h.next set
        let h' ← h'.setUp a.1 (some h.next)
        let h' ← h'.store (slot c) (some h.next)
        pure (h', h.next, false)) = ok out ∧ Inserted C x p h c (.node a l r) out := by
  obtain ⟨h₁, h₂, hnew, hup, hlab, hcell, hsame, hroot, hnext⟩ := alloc_above H (new C x p) set
  have hl : f.label.1 = h.next := by rw [hlabel]
  rw [hnew, ok_bind, hup, ok_bind, ← hl]
  refine Inserted.of_wrap H ⟨hroot, ?_, ?_, ?_, ?_, ?_, ?_, ?_⟩ ht hexact (hl.trans hme.symm)
  · rw [hl, hlab, hset]
  · rw [hother]
    trivial
  · rw [hl, hcell]
  · intro i hi _ hia
    exact hsame i (hl ▸ hi) hia
  · intro i hi
    have hi' : i = h.next := by simpa [hother, hl] using hi
    omega
  · simp [hother]
  · simp [hother]

/-- Cases A and B: the node at the position and a new leaf go under a glue node. -/
theorem inserted_join (f : Frame (Label w P X)) {k : IPNet w}
    (hlabel : f.label = (h.next, glue C k))
    (hother : f.other = .node (h.next + 1, new C x p) .nil .nil)
    (set : Cell (Node w P X) → Cell (Node w P X))
    (set' : Nat → Cell (Node w P X) → Cell (Node w P X))
    (hset : set' (h.next + 1) (set ⟨up c, none, none, glue C k⟩) = f.cell (up c) (some a.1))
    (ht : insertTree C x p h.next (.node a l r) = f.fill (.node a l r))
    (hexact : exact nodeKey x (.node a l r) = none)
    (hme : (newNode C x p h.next (.node a l r)).1 = h.next + 1) : ∃ out, (do
        let h' ← (h.alloc (glue C k) (up c)).modify h.next set
        let h' ← h'.setUp a.1 (some h.next)
        let h'' ← (h'.alloc (new C x p) (some h.next)).modify h.next (set' h'.next)
        let h'' ← h''.store (slot c) (some h.next)
        pure (h'', h'.next, false)) = ok out ∧ Inserted C x p h c (.node a l r) out := by
  obtain ⟨h₁, h₂, hnew, hup, hlab, hcell, hsame, hroot, hnext⟩ := alloc_above H (glue C k) set
  have ha := lt_next H
  have hl : f.label.1 = h.next := by rw [hlabel]
  have hids : f.other.ids = [h.next + 1] := by simp [hother]
  have hglue : (h₂.alloc (new C x p) (some h.next)).cells h.next
      = some (set ⟨up c, none, none, glue C k⟩) := by
    rw [cells_alloc, if_neg (by omega), hlab]
  rw [hnew, ok_bind, hup, ok_bind, modify_eq hglue, ok_bind, hnext, hset, ← hl]
  refine Inserted.of_wrap H ⟨hroot, ?_, ?_, ?_, ?_, ?_, ?_, ?_⟩ ht hexact (by rw [hl, hme])
  · rw [cells_write, if_pos rfl]
  · rw [hother]
    refine ⟨?_, trivial, trivial⟩
    rw [cells_write, if_neg (by omega), cells_alloc, if_pos hnext.symm, hl]
    rfl
  · rw [cells_write, if_neg (by omega), cells_alloc, if_neg (by omega), hcell, hl]
  · intro i hi hio hia
    rw [hids, mem_singleton] at hio
    rw [cells_write, if_neg hi, cells_alloc, if_neg (by omega), hsame i (by omega) hia]
  · intro i hi
    rw [hids, mem_singleton, hl] at hi
    show h.next ≤ i ∧ i < h₂.next + 1
    omega
  · simp [hids]
  · rw [hids, mem_singleton]
    omega

/-- Case 0: the node is there already. -/
theorem inserted_set (hroot : c = [] → h.root = some a.1) (heq : x = nodeKey a) : ∃ out, (do
        let h' ← h.setData a.1 (a.2.setPayload C p)
        let h' ← h'.store (slot c) (some a.1)
        pure (h', a.1, a.2.active C)) = ok out ∧ Inserted C x p h c (.node a l r) out := by
  have hrel := H.relabel (a.2.setPayload C p)
  have hstore := store_same (p := some a.1) hrel.laid_path hroot
  have ht : insertTree C x p h.next (.node a l r) = .node (a.1, a.2.setPayload C p) l r := by
    simp [insertTree, PrefixTree.insert, heq]
  have hexact : PrefixTree.exact nodeKey x (.node a l r) = some a := by
    simp [PrefixTree.exact, heq]
  refine ⟨(h.write a.1 ⟨up c, l.ptr, r.ptr, a.2.setPayload C p⟩, a.1, a.2.active C),
    ?_, ?_, ?_, Nat.le_refl h.next, ?_, ?_⟩
  · rw [Heap.setData, modify_eq H.cell, ok_bind, hstore]
    rfl
  · rw [ht]
    exact hrel
  · rw [ht, ptr_node, root_write]
    by_cases hc : c = []
    · rw [if_pos hc, hroot hc]
    · rw [if_neg hc]
  · rw [hexact]
    rfl
  · rw [hexact]
    rfl

end

/-- An insertion below a child, seen from the node. -/
theorem Inserted.of_child (f : Frame (Label w P X)) (hout : Inserted C x p h (f :: c) t out)
    (hroot : c = [] → h.root = some f.label.1)
    (hnew : newNode C x p h.next (f.fill t) = newNode C x p h.next t)
    (ht : insertTree C x p h.next (f.fill t) = f.fill (insertTree C x p h.next t))
    (hexact : exact nodeKey x (f.fill t) = exact nodeKey x t) :
    Inserted C x p h c (f.fill t) out := by
  refine ⟨?_, ?_, hout.next, ?_, ?_⟩
  · rw [ht]
    exact hout.holds
  · rw [hout.root, if_neg (by simp), ht, Frame.ptr_fill]
    by_cases hc : c = []
    · rw [if_pos hc, hroot hc]
    · rw [if_neg hc]
  · rw [hexact, hnew]
    exact hout.me
  · rw [hexact]
    exact hout.replaced

section
variable (hroot : c = [] → h.root = some a.1) (h0 : x ≠ nodeKey a) (hA : ¬ x.Below (nodeKey a))
  (hB : ¬ (nodeKey a).Below x)
include hroot h0 hA hB

theorem Inserted.left (hout : Inserted C x p h (.left a r :: c) l out)
    (hC : (nodeKey a).InLeft x) : Inserted C x p h c (.node a l r) out := by
  have hnew : newNode C x p h.next (.node a l r) = newNode C x p h.next l := by
    simp [newNode, joins, h0, hA, hB, hC]
  refine of_child (.left a r) hout hroot hnew ?_ ?_
  · show insertTree C x p h.next (.node a l r) = _
    rw [insertTree, PrefixTree.insert, if_neg h0, if_neg hA, if_neg hB, if_pos hC, hnew]
    rfl
  · show PrefixTree.exact nodeKey x (.node a l r) = _
    rw [PrefixTree.exact, if_neg h0, if_pos hC]

theorem Inserted.right (hout : Inserted C x p h (.right a l :: c) r out)
    (hC : ¬ (nodeKey a).InLeft x) (hD : (nodeKey a).InRight x) :
    Inserted C x p h c (.node a l r) out := by
  have hnew : newNode C x p h.next (.node a l r) = newNode C x p h.next r := by
    simp [newNode, joins, h0, hA, hB, hC, hD]
  refine of_child (.right a l) hout hroot hnew ?_ ?_
  · show insertTree C x p h.next (.node a l r) = _
    rw [insertTree, PrefixTree.insert, if_neg h0, if_neg hA, if_neg hB, if_neg hC, if_pos hD, hnew]
    rfl
  · show PrefixTree.exact nodeKey x (.node a l r) = _
    rw [PrefixTree.exact, if_neg h0, if_neg hC, if_pos hD]

end

/-! The turns of the loop, by the position of `x` to the key of the node it is at. -/

section
variable {parent : Option Nat}
variable {fuel : Nat}

section
variable (H : Holds h (plug c (.node a l r)))
include H

section
variable (hroot : c = [] → h.root = some a.1)
include hroot

theorem insertLoop_same (h0 : x = nodeKey a) :
    ∃ out, insertLoop C x p (fuel + 1) h (slot c) parent = .ok out ∧
      Inserted C x p h c (.node a l r) out := by
  rw [insertLoop, load_slot H.laid_path hroot]
  simp only [ptr_node, ok_bind, read_eq H.cell]
  rw [if_pos (show x = a.2.k from h0)]
  exact inserted_set H hroot h0

theorem insertLoop_below (hA : x.Below (nodeKey a)) (h0 : x ≠ nodeKey a) :
    ∃ out, insertLoop C x p (fuel + 1) h (slot c) parent = .ok out ∧
      Inserted C x p h c (.node a l r) out := by
  have hn : (nodeKey a).contains x = false := hA.not_contains'
  have hnew : newNode C x p h.next (.node a l r) = (h.next + 1, new C x p) := by
    simp [newNode, joins, h0, hA]
  rw [insertLoop, load_slot H.laid_path hroot]
  simp only [ptr_node, ok_bind, read_eq H.cell]
  rw [if_neg (show ¬ x = a.2.k from h0), if_pos ((topAddr_lt_iff_below x a.2.k).mpr hA)]
  refine inserted_join H (.right (h.next, glue C (x.commonSubnet (nodeKey a)))
    (.node (h.next + 1, new C x p) .nil .nil)) rfl rfl
    (fun c => { c with right := some a.1 }) (fun n c => { c with left := some n })
    rfl ?_ ?_ (by rw [hnew])
  · rw [insertTree, PrefixTree.insert, if_neg h0, if_pos hA, hnew]
    rfl
  · simp [PrefixTree.exact, h0, IPNet.InLeft, IPNet.InRight, hn]

theorem insertLoop_above (hB : (nodeKey a).Below x) (h0 : x ≠ nodeKey a)
    (hA : ¬ x.Below (nodeKey a)) : ∃ out, insertLoop C x p (fuel + 1) h (slot c) parent = .ok out ∧
      Inserted C x p h c (.node a l r) out := by
  have hn : (nodeKey a).contains x = false := hB.not_contains
  have hnew : newNode C x p h.next (.node a l r) = (h.next + 1, new C x p) := by
    simp [newNode, joins, h0, hB]
  rw [insertLoop, load_slot H.laid_path hroot]
  simp only [ptr_node, ok_bind, read_eq H.cell]
  rw [if_neg (show ¬ x = a.2.k from h0),
    if_neg (fun hc => hA ((topAddr_lt_iff_below x a.2.k).mp hc)),
    if_pos ((topAddr_lt_iff_below a.2.k x).mpr hB)]
  refine inserted_join H (.left (h.next, glue C (x.commonSubnet (nodeKey a)))
    (.node (h.next + 1, new C x p) .nil .nil)) rfl rfl
    (fun c => { c with left := some a.1 }) (fun n c => { c with right := some n })
    rfl ?_ ?_ (by rw [hnew])
  · rw [insertTree, PrefixTree.insert, if_neg h0, if_neg hA, if_pos hB, hnew]
    rfl
  · simp [PrefixTree.exact, h0, IPNet.InLeft, IPNet.InRight, hn]

section
variable (h0 : x ≠ nodeKey a) (hA : ¬ x.Below (nodeKey a)) (hB : ¬ (nodeKey a).Below x)
include h0 hA hB

/-- Cases C to F: the source's address tests, as positions of `x` to the node's key. -/
theorem insertLoop_nested : insertLoop C x p (fuel + 1) h (slot c) parent =
      if (nodeKey a).InLeft x then insertLoop C x p fuel h (.left a.1) (some a.1)
      else if (nodeKey a).InRight x then insertLoop C x p fuel h (.right a.1) (some a.1)
      else if x.InRight (nodeKey a) then do
        let h' ← (h.alloc (new C x p) (up c)).setRight h.next (some a.1)
        let h' ← h'.setUp a.1 (some h.next)
        let h' ← h'.store (slot c) (some h.next)
        pure (h', h.next, false)
      else if x.InLeft (nodeKey a) then do
        let h' ← (h.alloc (new C x p) (up c)).setLeft h.next (some a.1)
        let h' ← h'.setUp a.1 (some h.next)
        let h' ← h'.store (slot c) (some h.next)
        pure (h', h.next, false)
      else .error .abort := by
  rw [insertLoop, load_slot H.laid_path hroot]
  simp only [ptr_node, ok_bind, read_eq H.cell]
  rw [if_neg (show ¬ x = a.2.k from h0),
    if_neg (fun hc => hA ((topAddr_lt_iff_below x a.2.k).mp hc)),
    if_neg (fun hc => hB ((topAddr_lt_iff_below a.2.k x).mp hc))]
  have hC := inLeft_iff_addr (n := a.2.k) (m := x) (Ne.symm h0)
  have hD := inRight_iff_addr (n := a.2.k) (m := x) (Ne.symm h0)
  have hE := inRight_iff_addr (n := x) (m := a.2.k) h0
  have hF := inLeft_iff_addr (n := x) (m := a.2.k) h0
  simp only [hC, hD, hE, hF]
  rfl

theorem insertLoop_around (hC : ¬ (nodeKey a).InLeft x) (hD : ¬ (nodeKey a).InRight x) :
    ∃ out, insertLoop C x p (fuel + 1) h (slot c) parent = .ok out ∧
      Inserted C x p h c (.node a l r) out := by
  have hexact : PrefixTree.exact nodeKey x (.node a l r) = none := by
    rw [PrefixTree.exact, if_neg h0, if_neg hC, if_neg hD]
  have hnew : newNode C x p h.next (.node a l r) = (h.next, new C x p) := by
    simp [newNode, joins, h0, hA, hB, hC, hD]
  rw [insertLoop_nested H hroot h0 hA hB, if_neg hC, if_neg hD]
  by_cases hE : x.InRight (nodeKey a)
  · rw [if_pos hE]
    refine inserted_wrap H (.right (h.next, new C x p) .nil) rfl rfl
      (fun c => { c with right := some a.1 }) rfl ?_ hexact (by rw [hnew])
    rw [insertTree, PrefixTree.insert, if_neg h0, if_neg hA, if_neg hB, if_neg hC, if_neg hD,
      if_pos hE, hnew]
    rfl
  · have hF : x.InLeft (nodeKey a) := by
      have := PrefixTree.position_cases x (nodeKey a)
      tauto
    rw [if_neg hE, if_pos hF]
    refine inserted_wrap H (.left (h.next, new C x p) .nil) rfl rfl
      (fun c => { c with left := some a.1 }) rfl ?_ hexact (by rw [hnew])
    rw [insertTree, PrefixTree.insert, if_neg h0, if_neg hA, if_neg hB, if_neg hC, if_neg hD,
      if_neg hE, hnew]
    rfl

end

end

end

end

/-- **The loop of `insert` inserts.**  It does not abort, it ends, and at the place it was
started from the heap then holds the tree with the key inserted. -/
theorem insertLoop_inserted (fuel : Nat) (h : Mem w P X) (c : Spine (Label w P X))
    (parent : Option Nat) (H : Holds h (plug c t)) (hroot : c = [] → h.root = t.ptr)
    (hparent : t = .nil → parent = up c) (hfuel : t.height < fuel) :
    ∃ out, insertLoop C x p fuel h (slot c) parent = .ok out ∧ Inserted C x p h c t out := by
  induction t generalizing fuel h c parent with
  | nil =>
    obtain ⟨fuel, rfl⟩ := exists_fuel hfuel
    rw [insertLoop, load_slot H.laid_path hroot, hparent rfl]
    exact inserted_leaf H
  | node a l r ihl ihr =>
    obtain ⟨fuel, rfl⟩ := exists_fuel hfuel
    simp only [BinTree.height] at hfuel
    by_cases h0 : x = nodeKey a
    · exact insertLoop_same H hroot h0
    by_cases hA : x.Below (nodeKey a)
    · exact insertLoop_below H hroot hA h0
    by_cases hB : (nodeKey a).Below x
    · exact insertLoop_above H hroot hB h0 hA
    by_cases hC : (nodeKey a).InLeft x
    · rw [insertLoop_nested H hroot h0 hA hB, if_pos hC]
      obtain ⟨out, hrun, hout⟩ := ihl fuel h (.left a r :: c) (some a.1) H (by simp)
        (fun _ => rfl) (by omega)
      exact ⟨out, hrun, .left hroot h0 hA hB hout hC⟩
    by_cases hD : (nodeKey a).InRight x
    · rw [insertLoop_nested H hroot h0 hA hB, if_neg hC, if_pos hD]
      obtain ⟨out, hrun, hout⟩ := ihr fuel h (.right a l :: c) (some a.1) H (by simp)
        (fun _ => rfl) (by omega)
      exact ⟨out, hrun, .right hroot h0 hA hB hout hC hD⟩
    · exact insertLoop_around H hroot h0 hA hB hC hD

theorem insert_inserted (p : P) (H : Holds h t) (hroot : h.root = t.ptr) :
    ∃ out, h.insert C x p = .ok out ∧ Inserted C x p h [] t out := by
  have hle := H.height_le
  exact insertLoop_inserted h.bound h [] none H (fun _ => hroot) (fun _ => rfl)
    (by rw [Heap.bound]; omega)

/-- The node `insert` returns holds the key. -/
theorem Inserted.entry (hout : Inserted C x p h [] t out) (hw : WF nodeKey nodeFull t) :
    ∃ b ∈ (insertTree C x p h.next t).nodes, b.1 = out.2.1 ∧ nodeFull b = true ∧ nodeKey b = x := by
  have hme := hout.me
  cases hex : exact nodeKey x t with
  | none =>
    rw [hex] at hme
    refine ⟨newNode C x p h.next t, (mem_insertTree hw rfl).mpr (.inr (.inl ⟨rfl, ?_⟩)),
      hme.symm, rfl, rfl⟩
    intro a ha hak
    rw [(exact_eq_some hw).mpr ⟨ha, hak⟩] at hex
    simp at hex
  | some a =>
    rw [hex] at hme
    obtain ⟨ha, hak⟩ := (exact_eq_some hw).mp hex
    exact ⟨(a.1, a.2.setPayload C p),
      (mem_insertTree hw rfl).mpr (.inr (.inr ⟨a, ha, hak, rfl⟩)), hme.symm, rfl, hak⟩

/-! ### `erase` -/

/-- A node may be deleted once it has lost its payload. -/
def Disposable (C : NodeClass X) (t : BinTree (Nat × Node w P X)) : Prop :=
  ∀ b ∈ t.nodes, nodeFull b = false → C.destructible (C.retire b.2.x) = true

theorem delete_eq {cell : Cell (Node w P X)} {i : Nat} (hcell : h.cells i = some cell)
    (hp : cell.data.hasPayload = false) (hx : C.destructible (C.retire cell.data.x) = true) :
    delete C h i = .ok (h.drop i) := by
  rw [delete, read_eq hcell, ok_bind, hp]
  simp only [Bool.false_eq_true, if_false, hx, if_true]
  exact free_eq hcell

/-- The walk up from any node of a tree ends at its root. -/
theorem climbLoop_eq (H : Holds h (plug c (.node a l r))) (fuel : Nat) (hfuel : c.length < fuel) :
    climbLoop fuel h (some a.1) = .ok (plug c (.node a l r)).ptr := by
  induction c generalizing a l r fuel with
  | nil =>
    obtain ⟨fuel, rfl⟩ := exists_fuel hfuel
    rw [climbLoop, read_eq H.cell]
    rfl
  | cons f c ih =>
    obtain ⟨fuel, rfl⟩ := exists_fuel hfuel
    rw [climbLoop, read_eq H.cell, ok_bind]
    simp only [length_cons] at hfuel
    cases f with
    | left b s => exact ih (a := b) (l := .node a l r) (r := s) H fuel (by omega)
    | right b s => exact ih (a := b) (l := s) (r := .node a l r) H fuel (by omega)

/-- A node with no payload and at most one child `s`. -/
structure Useless (a : Nat × Node w P X) (l r s : BinTree (Nat × Node w P X)) : Prop where
  empty : nodeFull a = false
  child : (l = .nil ∧ s = r) ∨ (r = .nil ∧ s = l)

section
variable {s : NodeTree w P X}

section
variable (hs : Useless a l r s)
include hs

theorem Useless.cond : a.2.hasPayload = false ∧ (l.ptr = none ∨ r.ptr = none) := by
  refine ⟨hs.empty, ?_⟩
  rcases hs.child with ⟨rfl, -⟩ | ⟨rfl, -⟩
  · exact .inl rfl
  · exact .inr rfl

theorem Useless.ptr : l.ptr.or r.ptr = s.ptr := by
  rcases hs.child with ⟨rfl, rfl⟩ | ⟨rfl, rfl⟩ <;> simp

theorem Useless.laid (H : Holds h (plug c (.node a l r))) : Linked.Laid h (some a.1) s := by
  rcases hs.child with ⟨-, rfl⟩ | ⟨-, rfl⟩
  · exact H.laid_focus.2.2
  · exact H.laid_focus.2.1

theorem Useless.nodup (H : Holds h (plug c (.node a l r))) :
    s.ids.Nodup ∧ a.1 ∉ s.ids ∧ ∀ i ∈ ids c, i ∉ s.ids := H.nodup_child hs.child

theorem Useless.wf (hl : WF nodeKey nodeFull l) (hr : WF nodeKey nodeFull r) :
    WF nodeKey nodeFull s := by
  rcases hs.child with ⟨-, rfl⟩ | ⟨-, rfl⟩
  · exact hr
  · exact hl

theorem Useless.mem (hb : b ∈ s.nodes) : b ∈ (BinTree.node a l r).nodes := by
  rw [mem_nodes_node]
  rcases hs.child with ⟨-, rfl⟩ | ⟨-, rfl⟩
  · exact .inr (.inr hb)
  · exact .inr (.inl hb)

end

/-- One turn of the unlinking loop at the root. -/
theorem unlinkLoop_root (fuel : Nat) (H : Holds h (plug [] (.node a l r)))
    (hs : Useless a l r s) (hx : C.destructible (C.retire a.2.x) = true) :
    ∃ h', unlinkLoop C (fuel + 1) h (some a.1) = unlinkLoop C fuel h' s.ptr ∧
      Holds h' (plug [] s) ∧ h'.next = h.next := by
  obtain ⟨hnd, hna, -⟩ := hs.nodup H
  obtain ⟨h₁, hadopt, hlaid₁, hsame, -, hnext⟩ := Holds.adopt (hs.laid H) hnd none
  have hcell₁ : h₁.cells a.1 = some ⟨none, l.ptr, r.ptr, a.2⟩ := by
    rw [hsame _ hna]
    exact H.cell
  refine ⟨h₁.drop a.1, ?_, ?_, hnext⟩
  · rw [unlinkLoop, read_eq H.cell, ok_bind, if_pos hs.cond]
    simp only [hs.ptr, up, hadopt, ok_bind, delete_eq hcell₁ hs.empty hx]
  · exact H.bypass hs.child (by simp) hlaid₁ (fun i _ hi => hsame i hi) hnext

/-- One turn of the unlinking loop below another node. -/
theorem unlinkLoop_inner {f : Frame (Label w P X)} (fuel : Nat)
    (H : Holds h (plug (f :: c) (.node a l r))) (hs : Useless a l r s)
    (hx : C.destructible (C.retire a.2.x) = true) :
    ∃ h', unlinkLoop C (fuel + 1) h (some a.1) = unlinkLoop C fuel h' (some f.label.1) ∧
      Holds h' (plug (f :: c) s) ∧ h'.next = h.next := by
  obtain ⟨hnd, hna, hdisj⟩ := hs.nodup H
  have hac : a.1 ∉ ids (f :: c) := fun hm => H.nodup_parts.2.2 _ hm (by simp)
  obtain ⟨h₁, hadopt, hlaid₁, hsame, -, hnext⟩ := Holds.adopt (hs.laid H) hnd (some f.label.1)
  have hsame' : ∀ i ∈ ids (f :: c), h₁.cells i = h.cells i := fun i hi => hsame i (hdisj i hi)
  have hpath₁ := H.laid_path.congr hsame'
  -- the parent tells its children apart by address
  have hside : relink h₁ f.label.1 a.1 s.ptr = .ok (h₁.link (slot (f :: c)) s.ptr) := by
    rw [relink, read_eq hpath₁.1, ok_bind, ← store_slot hpath₁ s.ptr]
    cases f with
    | left b t =>
      rw [Frame.cell, ptr_node, if_pos rfl]
      rfl
    | right b t =>
      have hne : t.ptr ≠ some a.1 := by
        intro hc
        refine hac (mem_ids_cons.mpr (.inr (.inl ?_)))
        cases t with
        | nil => simp at hc
        | node d t t' =>
          rw [ptr_node, Option.some_inj] at hc
          simp [Frame.other, hc]
      rw [Frame.cell, if_neg hne]
      rfl
  have hcell₁ : (h₁.link (slot (f :: c)) s.ptr).cells a.1
      = some ⟨some f.label.1, l.ptr, r.ptr, a.2⟩ := by
    rw [cells_link_of_ne fun hc => hac (up_mem_ids hc), hsame _ hna]
    exact H.cell
  refine ⟨(h₁.link (slot (f :: c)) s.ptr).drop a.1, ?_, ?_, ?_⟩
  · rw [unlinkLoop, read_eq H.cell, ok_bind, if_pos hs.cond]
    simp only [hs.ptr, up, hadopt, ok_bind, hside, delete_eq hcell₁ hs.empty hx]
  · refine H.bypass hs.child (cells_link_congr hsame') ?_ ?_ ?_
    · exact hlaid₁.congr fun i hi => cells_link_of_ne fun hc => hdisj i (up_mem_ids hc) hi
    · intro i hic hi
      rw [cells_link_of_ne fun hc => hic (up_mem_ids hc), hsame i hi]
    · rw [next_link, hnext]
  · rw [next_drop, next_link, hnext]

end

/-- The loop stops at a node that is of use. -/
theorem unlinkLoop_stop {fuel : Nat} (H : Holds h (plug c (.node a l r)))
    (huse : nodeFull a = true ∨ (l ≠ .nil ∧ r ≠ .nil)) :
    unlinkLoop C (fuel + 1) h (some a.1) = .ok (h, some a.1) := by
  have hcond : ¬ (a.2.hasPayload = false ∧ (l.ptr = none ∨ r.ptr = none)) := by
    rw [ptr_eq_none, ptr_eq_none]
    rintro ⟨hp, hlr⟩
    rcases huse with hf | ⟨hl, hr⟩
    · rw [nodeFull, hp] at hf
      simp at hf
    · exact hlr.elim hl hr
  rw [unlinkLoop, read_eq H.cell, ok_bind, if_neg hcond]
  rfl

theorem prune_or_useless :
    (prune nodeFull a l r = .node a l r ∧ (nodeFull a = true ∨ (l ≠ .nil ∧ r ≠ .nil))) ∨
      ∃ s, Useless a l r s ∧ prune nodeFull a l r = s := by
  rcases prune_cases nodeFull a l r with h | ⟨hf, hc, heq⟩ | ⟨hf, hc, heq⟩
  · exact .inl h
  · exact .inr ⟨r, ⟨hf, .inl ⟨hc, rfl⟩⟩, heq⟩
  · exact .inr ⟨l, ⟨hf, .inr ⟨hc, rfl⟩⟩, heq⟩

/-- **The unlinking loop prunes**, from the node it starts at up to the root.  It stops
at some node of what is left, or nowhere if nothing is. -/
theorem unlinkLoop_prunes (fuel : Nat) (h : Mem w P X) (a : Label w P X) (l r t₀ : NodeTree w P X)
    (H : Holds h (plug c (.node a l r))) (hwl : WF nodeKey nodeFull l) (hwr : WF nodeKey nodeFull r)
    (hw : WF nodeKey nodeFull (plug c t₀)) (hne : t₀ ≠ .nil)
    (hdisp : Disposable C (plug c (.node a l r))) (hfuel : c.length + 1 < fuel) :
    ∃ h' me c' t', unlinkLoop C fuel h (some a.1) = .ok (h', me) ∧
      pruneUp nodeFull c (prune nodeFull a l r) = plug c' t' ∧
      Holds h' (plug c' t') ∧ me = t'.ptr ∧ (t' = .nil → c' = []) ∧ h'.next = h.next := by
  induction c generalizing fuel h a l r t₀ with
  | nil =>
    obtain ⟨fuel, rfl⟩ : ∃ n, fuel = n + 2 := ⟨fuel - 2, by simp at hfuel; omega⟩
    rcases prune_or_useless with ⟨heq, huse⟩ | ⟨s, hs, heq⟩
    · exact ⟨h, some a.1, [], .node a l r, unlinkLoop_stop H huse, by rw [heq]; rfl, H, rfl,
        by simp, rfl⟩
    · have hx := hdisp a (mem_nodes_node.mpr (.inl rfl)) hs.empty
      obtain ⟨h', hrun, H', hnext⟩ := unlinkLoop_root (fuel + 1) H hs hx
      refine ⟨h', s.ptr, [], s, ?_, heq, H', rfl, fun _ => rfl, hnext⟩
      rw [hrun]
      cases s with
      | nil => rfl
      | node b t t' => exact unlinkLoop_stop (c := []) H' (hs.wf hwl hwr).2.2.1
  | cons f c ih =>
    obtain ⟨fuel, rfl⟩ := exists_fuel hfuel
    rw [length_cons] at hfuel
    rcases prune_or_useless with ⟨heq, huse⟩ | ⟨s, hs, heq⟩
    · refine ⟨h, some a.1, f :: c, .node a l r, unlinkLoop_stop H huse, ?_, H, rfl, by simp, rfl⟩
      rw [heq]
      exact pruneUp_of_ne_nil hw hne (by simp)
    · have hmem : ∀ b, b ∈ (plug (f :: c) s).nodes → b ∈ (plug (f :: c) (.node a l r)).nodes := by
        intro b hb
        rw [nodes_plug, mem_append, mem_append] at hb ⊢
        exact hb.imp_left fun hb => hb.imp_right hs.mem
      have hx : C.destructible (C.retire a.2.x) = true := by
        refine hdisp a ?_ hs.empty
        rw [nodes_plug, mem_append, mem_append]
        exact .inl (.inr (mem_nodes_node.mpr (.inl rfl)))
      have hws := hs.wf hwl hwr
      have hwf := WF.focus (c := c) hw
      obtain ⟨h', hrun, H', hnext⟩ := unlinkLoop_inner fuel H hs hx
      have hdisp' : Disposable C (plug (f :: c) s) := fun b hb => hdisp b (hmem b hb)
      -- the turn after this one starts at the parent, with `s` below it
      obtain ⟨h'', me, c', t', hrun', htree, H'', hme, hnil, hnext'⟩ : ∃ h'' me c' t',
          unlinkLoop C fuel h' (some f.label.1) = .ok (h'', me) ∧
          pruneUp nodeFull (f :: c) s = plug c' t' ∧ Holds h'' (plug c' t') ∧
          me = t'.ptr ∧ (t' = .nil → c' = []) ∧ h''.next = h'.next := by
        cases f with
        | left b t =>
          exact ih fuel h' b s t (.node b t₀ t) H' hws hwf.2.2.2.2 hw (by simp) hdisp' (by omega)
        | right b t =>
          exact ih fuel h' b t s (.node b t t₀) H' hwf.2.2.2.1 hws hw (by simp) hdisp' (by omega)
      refine ⟨h'', me, c', t', by rw [hrun, hrun'], by rw [heq]; exact htree, H'', hme, hnil, ?_⟩
      rw [hnext', hnext]

/-- The tree after the node with key `k` has lost its payload. -/
def eraseTree (k : IPNet w) (t : BinTree (Nat × Node w P X)) : BinTree (Nat × Node w P X) :=
  PrefixTree.erase nodeKey nodeFull (fun a => (a.1, a.2.clear)) k t

theorem mem_eraseTree (hw : WF nodeKey nodeFull t) (hb : nodeFull b = true) :
    b ∈ (eraseTree x t).nodes ↔ b ∈ t.nodes ∧ nodeKey b ≠ x :=
  mem_erase hw (fun _ => rfl) hb

theorem wf_eraseTree (hw : WF nodeKey nodeFull t) : WF nodeKey nodeFull (eraseTree x t) :=
  hw.erase fun _ => rfl

theorem length_le_next (H : Holds h (plug c (.node a l r))) : c.length ≤ h.next := by
  have hle := H.height_le
  have := height_plug_le c (.node a l r)
  omega

/-- **`erase` removes the node's entry** and returns the root of what is left. -/
theorem eraseNode_erases (H : Holds h t) (hw : WF nodeKey nodeFull t) (ha : a ∈ t.nodes)
    (hdisp : Disposable C t) (hx : C.destructible (C.retire a.2.x) = true) :
    ∃ h', eraseNode C h a.1 = .ok (h', (eraseTree (nodeKey a) t).ptr) ∧
      Holds h' (eraseTree (nodeKey a) t) ∧ h'.next = h.next := by
  obtain ⟨c, l, r, rfl⟩ := exists_plug ha
  obtain ⟨-, -, -, hwl, hwr⟩ := hw.focus
  have H₁ := H.relabel a.2.clear
  have hdisp₁ : Disposable C (plug c (.node (a.1, a.2.clear) l r)) := by
    intro b hb hf
    simp only [nodes_plug, nodes_node, mem_append, mem_singleton] at hb
    by_cases hba : b = (a.1, a.2.clear)
    · rw [hba]
      exact hx
    · refine hdisp b ?_ hf
      simp only [nodes_plug, nodes_node, mem_append, mem_singleton]
      tauto
  have htree : eraseTree (nodeKey a) (plug c (.node a l r))
      = pruneUp nodeFull c (prune nodeFull (a.1, a.2.clear) l r) := by
    rw [eraseTree, erase_plug hw (mem_nodes_node.mpr (.inl rfl)), erase, if_pos rfl]
  have hlen := length_le_next H
  obtain ⟨h', me, c', t', hrun, heq, H', hme, hnil, hnext⟩ :=
    unlinkLoop_prunes (Heap.bound (h.write a.1 ⟨up c, l.ptr, r.ptr, a.2.clear⟩)) _
      (a.1, a.2.clear) l r (.node a l r) H₁ hwl hwr hw (by simp) hdisp₁
      (by show c.length + 1 < 2 * h.next + 2; omega)
  have hclimb : climbLoop h'.bound h' me = .ok (plug c' t').ptr := by
    rw [hme]
    cases t' with
    | nil =>
      rw [hnil rfl]
      rfl
    | node b t s =>
      have := length_le_next H'
      exact climbLoop_eq H' _ (by rw [Heap.bound]; omega)
  refine ⟨h', ?_, ?_, hnext⟩
  · rw [eraseNode, modify_eq H.cell, ok_bind]
    simp only [hrun, ok_bind, hclimb, htree, heq]
    rfl
  · rw [htree, heq]
    exact H'

/-! ### The walk down -/

/-- Is a node in memory one that `find` may return? -/
def nodeActive (C : NodeClass X) (a : Nat × Node w P X) : Bool := a.2.active C

theorem ptrContains_eq {u : Option Nat} (ht : Linked.Laid h u t) (key : IPNet w) :
    h.ptrContains key t.ptr = .ok (rootContains nodeKey key t) := by
  cases t with
  | nil => rfl
  | node a l r =>
    rw [ptr_node, ptrContains, read_eq ht.1]
    rfl

/-- The candidate the loop carries is what `find` falls back on. -/
private theorem or_candidate {α : Type} (o : Option (Nat × α)) (a : Nat × α) (b : Bool)
    (cand : Option Nat) : (o.map Prod.fst).or (if b = true then some a.1 else cand)
      = ((o.or (if b = true then some a else none)).map Prod.fst).or cand := by
  cases o <;> cases b <;> rfl

theorem descendLoop_eq (take : Node w P X → Bool) (key : IPNet w) (fuel : Nat) (u cand : Option Nat)
    (ht : Linked.Laid h u t) (hfuel : t.height < fuel) : descendLoop take key fuel h cand t.ptr
      = .ok (((PrefixTree.find nodeKey (fun a => take a.2) key t).map Prod.fst).or cand) := by
  induction t generalizing fuel u cand with
  | nil =>
    obtain ⟨fuel, rfl⟩ := exists_fuel hfuel
    rfl
  | node a l r ihl ihr =>
    obtain ⟨fuel, rfl⟩ := exists_fuel hfuel
    simp only [BinTree.height] at hfuel
    rw [ptr_node, descendLoop, read_eq ht.1, ok_bind, PrefixTree.find]
    by_cases hc : (nodeKey a).contains key = true
    · rw [if_pos (show a.2.k.contains key = true from hc), if_pos hc, ptrContains_eq ht.2.1, ok_bind,
        ihl fuel _ _ ht.2.1 (by omega), ihr fuel _ _ ht.2.2 (by omega)]
      by_cases hl : rootContains nodeKey key l = true
      · rw [if_pos hl, if_pos hl]
        exact congrArg ok (or_candidate _ a (take a.2) cand)
      · rw [if_neg hl, if_neg hl]
        exact congrArg ok (or_candidate _ a (take a.2) cand)
    · rw [if_neg (show ¬ a.2.k.contains key = true from hc), if_neg hc]
      rfl

theorem find_eq (H : Holds h t) (hroot : h.root = t.ptr) (key : IPNet w) :
    h.find C key = .ok ((PrefixTree.find nodeKey (nodeActive C) key t).map Prod.fst) := by
  have hle := H.height_le
  rw [find, hroot, descendLoop_eq _ key _ _ _ H.laid (by rw [Heap.bound]; omega), Option.or_none]
  rfl

/-- The walk that takes any node ends at the deepest one that contains the key. -/
theorem deepest_eq (H : Holds h t) (hroot : h.root = t.ptr) (cand : Option Nat) (key : IPNet w) :
    h.deepest cand key
      = .ok (((PrefixTree.find nodeKey (fun _ => true) key t).map Prod.fst).or cand) := by
  have hle := H.height_le
  rw [deepest, hroot, descendLoop_eq _ key _ _ _ H.laid (by rw [Heap.bound]; omega)]

end Mem

end Xorp

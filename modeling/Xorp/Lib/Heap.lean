/-
Binary trees laid out in memory.

A heap is a partial map from addresses to cells; a cell holds the pointers to its
parent and its two children, and a datum.  `Laid` says that a tree with an address
in every label is what the cells under a pointer spell out, parent pointers
included, and `Holds` that the heap consists of one such tree and nothing else: no
two nodes share an address and no cell has leaked.

Code that walks down or up such a tree is at a position of it.  `laid_plug` takes a
layout apart at a position, and `Holds.refocus` is the one rule by which an update
is justified: whatever the code did to the cells under a position, and to the one
pointer that leads there, the heap holds the tree with that part exchanged.

Every access goes through `read`, so following a null or a freed pointer is a fault
and not a default value.
-/
import Xorp.Lib.BinTree
import Mathlib.Data.BitVec
import Mathlib.Data.List.Perm.Subperm

namespace Linked

open Linked.Frame List Function Option

/-- Why a run stops short. -/
inductive Fault where
  /-- a null or freed pointer was followed -/
  | badPointer
  /-- `abort()` was called -/
  | abort
  /-- an assertion failed -/
  | assertion
  /-- a counter that is guarded against overflow was full -/
  | saturated
  /-- a loop outlived its bound -/
  | outOfFuel
deriving DecidableEq, Repr

@[simp] theorem ok_bind {ε α β : Type} (a : α) (f : α → Except ε β) :
    (Except.ok a >>= f) = f a := rfl

@[simp] theorem error_bind {ε α β : Type} (e : ε) (f : α → Except ε β) :
    (Except.error e >>= f) = .error e := rfl

theorem update_none_iff {α β : Type} [DecidableEq α] {f : α → Option β} {a j : α} {x : β} :
    Function.update f a none j = some x ↔ j ≠ a ∧ f j = some x := by
  by_cases hj : j = a
  · simp [hj]
  · simp [hj]

theorem find?_perm {α : Type} {p : α → Bool} {l : List α} {a : α} (h : l.find? p = some a) :
    l.Perm (a :: l.eraseP p) := by
  induction l with
  | nil => cases h
  | cons b l ih =>
    by_cases hb : p b = true
    · rw [find?_cons_of_pos hb] at h
      rw [eraseP_cons_of_pos hb, some.inj h]
    · rw [find?_cons_of_neg hb] at h
      rw [eraseP_cons_of_neg hb]
      exact ((ih h).cons b).trans (Perm.swap a b _)

/-- A loop that is not yet at its bound has another turn. -/
theorem exists_fuel {n fuel : Nat} (h : n < fuel) : ∃ k, fuel = k + 1 :=
  Nat.exists_eq_succ_of_ne_zero (Nat.ne_zero_of_lt h)

structure Cell (D : Type) where
  up : Option Nat
  left : Option Nat
  right : Option Nat
  data : D

/-- Cells by address, the pointer to the root, and the next address to hand out. -/
structure Heap (D : Type) where
  root : Option Nat
  cells : Nat → Option (Cell D)
  next : Nat

/-- A place that holds a pointer into the tree. -/
inductive Slot where
  | root
  | left (i : Nat)
  | right (i : Nat)

variable {D : Type}

namespace Heap

def empty : Heap D := ⟨none, fun _ => none, 0⟩

section
variable (h : Heap D) (i : Nat)

def read : Except Fault (Cell D) :=
  match h.cells i with
  | some c => .ok c
  | none => .error .badPointer

def write (c : Cell D) : Heap D :=
  { h with cells := Function.update h.cells i (some c) }

def modify (f : Cell D → Cell D) : Except Fault (Heap D) := do
  let c ← h.read i
  pure (h.write i (f c))

def setUp (p : Option Nat) : Except Fault (Heap D) :=
  h.modify i fun c => { c with up := p }

/-- The parent pointer of a node that may not be there. -/
def setUpPtr (p : Option Nat) (q : Option Nat) : Except Fault (Heap D) :=
  match p with
  | some i => h.setUp i q
  | none => .ok h

def setLeft (p : Option Nat) : Except Fault (Heap D) :=
  h.modify i fun c => { c with left := p }

def setRight (p : Option Nat) : Except Fault (Heap D) :=
  h.modify i fun c => { c with right := p }

def setData (d : D) : Except Fault (Heap D) :=
  h.modify i fun c => { c with data := d }

/-- A new cell without children. -/
def alloc (d : D) (up : Option Nat) : Heap D :=
  { h with
    cells := Function.update h.cells h.next (some ⟨up, none, none, d⟩)
    next := h.next + 1 }

def drop : Heap D :=
  { h with cells := Function.update h.cells i none }

/-- Give a cell back.  Freeing what is not there is a fault. -/
def free : Except Fault (Heap D) := do
  let _ ← h.read i
  pure (h.drop i)

def load : Slot → Except Fault (Option Nat)
  | .root => .ok h.root
  | .left i => do pure (← h.read i).left
  | .right i => do pure (← h.read i).right

def store : Slot → Option Nat → Except Fault (Heap D)
  | .root, p => .ok { h with root := p }
  | .left i, p => h.setLeft i p
  | .right i, p => h.setRight i p

/-- What `store` leaves behind when the slot is there. -/
def link : Slot → Option Nat → Heap D
  | .root, p => { h with root := p }
  | .left i, p =>
      { h with cells := Function.update h.cells i ((h.cells i).map fun c => { c with left := p }) }
  | .right i, p =>
      { h with cells := Function.update h.cells i ((h.cells i).map fun c => { c with right := p }) }

/-- More steps than any walk in the tree takes. -/
def bound : Nat := 2 * h.next + 2

end

variable {h : Heap D} {i j : Nat} {c : Cell D} {d : D} {up : Option Nat}

section
variable (hi : h.cells i = some c)
include hi

theorem read_eq : h.read i = .ok c := by
  rw [read, hi]

theorem modify_eq (f : Cell D → Cell D) : h.modify i f = .ok (h.write i (f c)) := by
  rw [modify, read_eq hi]
  rfl

theorem free_eq : h.free i = .ok (h.drop i) := by
  rw [free, read_eq hi]
  rfl

end

theorem cells_write : (h.write i c).cells j = if j = i then some c else h.cells j := by
  simp [write, update_apply]

theorem cells_alloc :
    (h.alloc d up).cells j = if j = h.next then some ⟨up, none, none, d⟩ else h.cells j := by
  simp [alloc, update_apply]

theorem cells_drop : (h.drop i).cells j = if j = i then none else h.cells j := by
  simp [drop, update_apply]

@[simp] theorem root_write : (h.write i c).root = h.root := rfl

@[simp] theorem next_write : (h.write i c).next = h.next := rfl

@[simp] theorem root_alloc : (h.alloc d up).root = h.root := rfl

@[simp] theorem next_alloc : (h.alloc d up).next = h.next + 1 := rfl

@[simp] theorem root_drop : (h.drop i).root = h.root := rfl

@[simp] theorem next_drop : (h.drop i).next = h.next := rfl

end Heap

/-! ### Layout -/

/-- The address of the root of a tree. -/
def BinTree.ptr (t : BinTree (Nat × D)) : Option Nat := t.top.map Prod.fst

/-- The addresses of a tree. -/
def BinTree.ids (t : BinTree (Nat × D)) : List Nat := t.nodes.map Prod.fst

variable {l r t : BinTree (Nat × D)} {h h' : Heap D} {a : Nat × D} {f : Frame (Nat × D)}
  {u : Option Nat} {i : Nat}

@[simp] theorem BinTree.ptr_nil : (BinTree.nil : BinTree (Nat × D)).ptr = none := rfl

@[simp] theorem BinTree.ptr_node : (BinTree.node a l r).ptr = some a.1 := rfl

@[simp] theorem BinTree.ids_nil : (BinTree.nil : BinTree (Nat × D)).ids = [] := rfl

@[simp] theorem BinTree.ids_node : (BinTree.node a l r).ids = l.ids ++ r.ids ++ [a.1] := by
  simp [BinTree.ids]

theorem BinTree.ptr_eq_none : t.ptr = none ↔ t = .nil := by
  cases t <;> simp

/-- The cells spell out this tree, under this parent pointer. -/
def Laid (h : Heap D) (u : Option Nat) : BinTree (Nat × D) → Prop
  | .nil => True
  | .node a l r =>
      h.cells a.1 = some ⟨u, l.ptr, r.ptr, a.2⟩ ∧ Laid h (some a.1) l ∧ Laid h (some a.1) r

theorem Laid.congr (ht : Laid h u t) (heq : ∀ i ∈ t.ids, h'.cells i = h.cells i) : Laid h' u t := by
  induction t generalizing u with
  | nil => trivial
  | node a l r ihl ihr =>
    obtain ⟨ha, hl, hr⟩ := ht
    simp only [BinTree.ids_node, mem_append, mem_singleton] at heq
    exact ⟨(heq _ (.inr rfl)).trans ha, ihl hl fun i hi => heq i (by simp [hi]),
      ihr hr fun i hi => heq i (by simp [hi])⟩

/-- A tree handed to another parent: only its root cell changes. -/
theorem Laid.reparent {u' : Option Nat} (ht : Laid h u (.node a l r))
    (hnd : (BinTree.node a l r).ids.Nodup) (hroot : h'.cells a.1 = some ⟨u', l.ptr, r.ptr, a.2⟩)
    (heq : ∀ i ∈ (BinTree.node a l r).ids, i ≠ a.1 → h'.cells i = h.cells i) :
    Laid h' u' (.node a l r) := by
  obtain ⟨-, hl, hr⟩ := ht
  simp only [BinTree.ids_node, nodup_append, mem_append, mem_singleton] at hnd heq
  refine ⟨hroot, hl.congr fun i hi => heq i (by simp [hi]) ?_,
    hr.congr fun i hi => heq i (by simp [hi]) ?_⟩
  · exact hnd.2.2 i (.inl hi) _ rfl
  · exact hnd.2.2 i (.inr hi) _ rfl

/-- The cell of a frame, given the pointer above it and the one into its hole. -/
def Frame.cell (u p : Option Nat) : Frame (Nat × D) → Cell D
  | .left a r => ⟨u, p, r.ptr, a.2⟩
  | .right a l => ⟨u, l.ptr, p, a.2⟩

@[simp] theorem Frame.data_cell {p : Option Nat} : (f.cell u p).data = f.label.2 := by
  cases f <;> rfl

theorem Frame.ptr_fill : (f.fill t).ptr = some f.label.1 := by
  cases f <;> rfl

theorem Frame.mem_ids_fill : i ∈ (f.fill t).ids ↔ i = f.label.1 ∨ i ∈ f.other.ids ∨ i ∈ t.ids := by
  cases f
  · simp only [fill, label, other, BinTree.ids_node, mem_append, mem_singleton]
    tauto
  · simp only [fill, label, other, BinTree.ids_node, mem_append, mem_singleton]
    tauto

theorem Frame.laid_fill : Laid h u (f.fill t) ↔ h.cells f.label.1 = some (f.cell u t.ptr) ∧
      Laid h (some f.label.1) f.other ∧ Laid h (some f.label.1) t := by
  cases f
  · simp only [fill, label, other, cell, Laid]
    tauto
  · simp only [fill, label, other, cell, Laid]

theorem Frame.nodup_fill :
    (f.fill t).ids.Nodup ↔ f.label.1 ∉ f.other.ids ∧ f.label.1 ∉ t.ids ∧ f.other.ids.Nodup ∧
      t.ids.Nodup ∧ ∀ i ∈ f.other.ids, i ∉ t.ids := by
  cases f
  · simp only [fill, label, other, BinTree.ids_node, nodup_append, mem_append,
      mem_singleton, nodup_singleton]
    grind
  · simp only [fill, label, other, BinTree.ids_node, nodup_append, mem_append,
      mem_singleton, nodup_singleton]
    grind

namespace Spine

/-- The addresses on and beside a path. -/
def ids (c : Spine (Nat × D)) : List Nat := (before c ++ after c).map Prod.fst

/-- The address of the node above the hole. -/
def up : Spine (Nat × D) → Option Nat
  | [] => none
  | f :: _ => some f.label.1

/-- The place the pointer into the hole is kept. -/
def slot : Spine (Nat × D) → Slot
  | [] => .root
  | .left a _ :: _ => .left a.1
  | .right a _ :: _ => .right a.1

/-- The cells spell out this path, with this pointer in the hole. -/
def Laid (h : Heap D) (p : Option Nat) : Spine (Nat × D) → Prop
  | [] => True
  | f :: c =>
      h.cells f.label.1 = some (f.cell (up c) p) ∧ Linked.Laid h (some f.label.1) f.other ∧
        Laid h (some f.label.1) c

@[simp] theorem ids_nil : ids ([] : Spine (Nat × D)) = [] := rfl

variable {c : Spine (Nat × D)} {p q : Option Nat}

theorem mem_ids_cons : i ∈ ids (f :: c) ↔ i = f.label.1 ∨ i ∈ f.other.ids ∨ i ∈ ids c := by
  cases f <;> simp only [ids, before, after, Frame.before, Frame.after, Frame.label, Frame.other,
      BinTree.ids, map_append, mem_append, map_cons, map_nil,
      mem_singleton, append_nil] <;>
    tauto

theorem mem_ids_plug : i ∈ (plug c t).ids ↔ i ∈ ids c ∨ i ∈ t.ids := by
  simp only [BinTree.ids, ids, nodes_plug, map_append, mem_append]
  tauto

theorem ids_plug_perm (t : BinTree (Nat × D)) : (plug c t).ids.Perm (ids c ++ t.ids) := by
  simp only [BinTree.ids, ids, nodes_plug, map_append]
  refine (List.Perm.append_right _ perm_append_comm).trans ?_
  rw [append_assoc]
  exact perm_append_comm

theorem Laid.congr (hc : Laid h p c) (heq : ∀ i ∈ ids c, h'.cells i = h.cells i) : Laid h' p c := by
  induction c generalizing p with
  | nil => trivial
  | cons f c ih =>
    have hf : h'.cells f.label.1 = h.cells f.label.1 := heq _ (mem_ids_cons.mpr (.inl rfl))
    have ho : ∀ i ∈ f.other.ids, h'.cells i = h.cells i := fun i hi =>
      heq i (mem_ids_cons.mpr (.inr (.inl hi)))
    have hrest : ∀ i ∈ ids c, h'.cells i = h.cells i := fun i hi =>
      heq i (mem_ids_cons.mpr (.inr (.inr hi)))
    exact ⟨hf.trans hc.1, hc.2.1.congr ho, ih hc.2.2 hrest⟩

/-- A layout taken apart at a position. -/
theorem laid_plug : Linked.Laid h none (plug c t) ↔ Laid h t.ptr c ∧ Linked.Laid h (up c) t := by
  induction c generalizing t with
  | nil => simp [Laid, up]
  | cons f c ih =>
    rw [plug_cons, ih, laid_fill, ptr_fill]
    simp only [Laid, up]
    tauto

section
variable (hc : Laid h p c)
include hc

/-- The pointer that leads to a position, as the code reads it. -/
theorem load_slot (hroot : c = [] → h.root = p) : h.load (slot c) = .ok p := by
  rcases c with _ | ⟨f, c⟩
  · rw [slot, Heap.load, hroot rfl]
  · cases f with
    | left a r | right a l =>
      have hcell : h.cells a.1 = _ := hc.1
      rw [slot, Heap.load, Heap.read_eq hcell]
      rfl

theorem store_slot (q : Option Nat) : h.store (slot c) q = .ok (h.link (slot c) q) := by
  rcases c with _ | ⟨f, c⟩
  · rfl
  · cases f with
    | left a r =>
      have hcell : h.cells a.1 = _ := hc.1
      rw [slot, Heap.store, Heap.setLeft, Heap.modify_eq hcell, Heap.link, hcell]
      rfl
    | right a l =>
      have hcell : h.cells a.1 = _ := hc.1
      rw [slot, Heap.store, Heap.setRight, Heap.modify_eq hcell, Heap.link, hcell]
      rfl

theorem cells_link_same : (h.link (slot c) p).cells = h.cells := by
  rcases c with _ | ⟨f, c⟩
  · rfl
  · have hcell := hc.1
    cases f <;> simp only [label, cell] at hcell <;>
      simp only [slot, Heap.link, hcell, map_some] <;>
      rw [← hcell, update_eq_self]

theorem store_same (hroot : c = [] → h.root = p) : h.store (slot c) p = .ok h := by
  have hcells := cells_link_same hc
  rw [store_slot hc]
  rcases c with _ | ⟨_ | _, c⟩
  · simp only [slot, Heap.link, ← hroot rfl]
  · simp only [slot, Heap.link] at hcells ⊢
    rw [hcells]
  · simp only [slot, Heap.link] at hcells ⊢
    rw [hcells]

end

@[simp] theorem next_link : (h.link (slot c) q).next = h.next := by
  rcases c with _ | ⟨_ | _, c⟩ <;> rfl

theorem root_link_cons : (h.link (slot (f :: c)) q).root = h.root := by
  cases f <;> rfl

/-- Linking touches the node above the hole and no other. -/
theorem cells_link_of_ne (hi : up c ≠ some i) :
    (h.link (slot c) q).cells i = h.cells i := by
  rcases c with _ | ⟨f, c⟩
  · rfl
  · have hne : i ≠ f.label.1 := fun hc => hi (by rw [up, hc])
    cases f <;> exact update_of_ne hne _ _

theorem cells_link_congr (heq : ∀ i ∈ ids c, h'.cells i = h.cells i) :
    ∀ i ∈ ids c, (h'.link (slot c) q).cells i = (h.link (slot c) q).cells i := by
  intro i hi
  rcases c with _ | ⟨f, c⟩
  · exact heq i hi
  · have hf := heq _ (mem_ids_cons.mpr (.inl rfl))
    cases f <;> simp only [label] at hf <;> simp only [slot, Heap.link, update_apply, heq i hi, hf]

theorem up_mem_ids (hi : up c = some i) : i ∈ ids c := by
  rcases c with _ | ⟨f, c⟩
  · simp [up] at hi
  · rw [mem_ids_cons]
    exact .inl (some.inj hi).symm

/-- A path whose hole is given another pointer. -/
theorem Laid.relink (hc : Laid h p c) (hnd : (ids c).Nodup)
    (heq : ∀ i ∈ ids c, h'.cells i = (h.link (slot c) q).cells i) : Laid h' q c := by
  rcases c with _ | ⟨f, c⟩
  · trivial
  · have hnd' := (ids_plug_perm (f.fill .nil)).nodup_iff.mp
      ((ids_plug_perm .nil).nodup_iff.mpr (by simpa using hnd))
    rw [nodup_append, nodup_fill] at hnd'
    obtain ⟨-, ⟨hother, -⟩, hdisj⟩ := hnd'
    have hrest : f.label.1 ∉ ids c := fun hm =>
      hdisj _ hm f.label.1 (mem_ids_fill.mpr (.inl rfl)) rfl
    -- beside the frame's own cell nothing moves
    have hsame : ∀ i ∈ ids (f :: c), i ≠ f.label.1 → h'.cells i = h.cells i := by
      intro i hi hne
      rw [heq i hi, cells_link_of_ne]
      intro hup
      exact hne (some.inj hup).symm
    have ho : ∀ i ∈ f.other.ids, h'.cells i = h.cells i := fun i hi =>
      hsame i (mem_ids_cons.mpr (.inr (.inl hi))) fun hc => hother (hc ▸ hi)
    have hr : ∀ i ∈ ids c, h'.cells i = h.cells i := fun i hi =>
      hsame i (mem_ids_cons.mpr (.inr (.inr hi))) fun hc => hrest (hc ▸ hi)
    refine ⟨?_, hc.2.1.congr ho, hc.2.2.congr hr⟩
    rw [heq _ (mem_ids_cons.mpr (.inl rfl))]
    have hcell := hc.1
    cases f <;> simp only [label] at hcell <;>
      simp only [slot, Heap.link, label, update_self, hcell, map_some, cell]

end Spine

/-! ### A heap that holds one tree -/

/-- A cell that can be reached from the root. -/
inductive Heap.Reach (h : Heap D) : Nat → Prop
  | root {i : Nat} (hi : h.root = some i) : h.Reach i
  | left {i j : Nat} {c : Cell D} (hi : h.Reach i) (hc : h.cells i = some c)
      (hj : c.left = some j) : h.Reach j
  | right {i j : Nat} {c : Cell D} (hi : h.Reach i) (hc : h.cells i = some c)
      (hj : c.right = some j) : h.Reach j

/-- The heap consists of the nodes of this tree. -/
structure Holds (h : Heap D) (t : BinTree (Nat × D)) : Prop where
  laid : Laid h none t
  nodup : t.ids.Nodup
  bound : ∀ i ∈ t.ids, i < h.next
  /-- nothing has leaked -/
  free : ∀ i, i ∉ t.ids → h.cells i = none

namespace Holds

open Spine

theorem empty : Holds (Heap.empty : Heap D) .nil where
  laid := trivial
  nodup := nodup_nil
  bound := by simp
  free := fun _ _ => rfl

section
variable {c : Spine (Nat × D)} {t' : BinTree (Nat × D)}

theorem withRoot (H : Holds h t) (p : Option Nat) : Holds { h with root := p } t :=
  ⟨H.laid.congr fun _ _ => rfl, H.nodup, H.bound, H.free⟩

section
variable (H : Holds h (plug c t))
include H

theorem nodup_parts : (ids c).Nodup ∧ t.ids.Nodup ∧ ∀ i ∈ ids c, i ∉ t.ids := by
  have := (ids_plug_perm t).nodup_iff.mp H.nodup
  rw [nodup_append] at this
  exact ⟨this.1, this.2.1, fun i hi hi' => this.2.2 i hi i hi' rfl⟩

theorem laid_path : Spine.Laid h t.ptr c := (laid_plug.mp H.laid).1

theorem laid_focus : Linked.Laid h (up c) t := (laid_plug.mp H.laid).2

end

theorem reach_of_plug (c : Spine (Nat × D)) {t : BinTree (Nat × D)} (H : Holds h (plug c t))
    (hroot : h.root = (plug c t).ptr) (hi : t.ptr = some i) : h.Reach i := by
  induction c generalizing t i with
  | nil => exact .root (hroot.trans hi)
  | cons f c ih =>
    have hup : h.Reach f.label.1 := ih H hroot ptr_fill
    have hcell := H.laid_path.1
    cases f with
    | left a r => exact .left hup hcell hi
    | right a l => exact .right hup hcell hi

theorem cell (H : Holds h (plug c (.node a l r))) :
    h.cells a.1 = some ⟨up c, l.ptr, r.ptr, a.2⟩ := H.laid_focus.1

section
variable (H : Holds h t)
include H

theorem cell_of_mem (ha : a ∈ t.nodes) : ∃ cell, h.cells a.1 = some cell ∧ cell.data = a.2 := by
  obtain ⟨c, l, r, rfl⟩ := exists_plug ha
  exact ⟨_, H.cell, rfl⟩

/-- Every cell of the heap is a node of the tree, at some position. -/
theorem exists_of_cell {cell : Cell D} (hi : h.cells i = some cell) :
    ∃ c a l r, t = plug c (.node a l r) ∧ a.1 = i ∧ cell = ⟨up c, l.ptr, r.ptr, a.2⟩ := by
  have hmem : i ∈ t.ids := by
    by_contra hn
    rw [H.free i hn] at hi
    simp at hi
  obtain ⟨a, ha, rfl⟩ := mem_map.mp hmem
  obtain ⟨c, l, r, rfl⟩ := exists_plug ha
  refine ⟨c, a, l, r, rfl, rfl, ?_⟩
  rw [H.cell] at hi
  exact (some.inj hi).symm

theorem mem_of_cell {cell : Cell D} (hi : h.cells i = some cell) :
    ∃ a ∈ t.nodes, a.1 = i ∧ cell.data = a.2 := by
  obtain ⟨c, a, l, r, rfl, rfl, rfl⟩ := H.exists_of_cell hi
  refine ⟨a, ?_, rfl, rfl⟩
  rw [nodes_plug, mem_append, mem_append]
  exact .inl (.inr (BinTree.mem_nodes_node.mpr (.inl rfl)))

/-- Every cell can be reached, and nothing else. -/
theorem reach_iff (hroot : h.root = t.ptr) : h.Reach i ↔ h.cells i ≠ none := by
  constructor
  · intro hi
    have hcell : ∀ {t' : BinTree (Nat × D)} {u j}, Linked.Laid h u t' → t'.ptr = some j →
        h.cells j ≠ none := by
      intro t' u j ht' hj
      cases t' with
      | nil => simp at hj
      | node a l r => simp [← some.inj hj, ht'.1]
    cases hi with
    | root hi => exact hcell H.laid (hroot.symm.trans hi)
    | left hi hc hj =>
      obtain ⟨c, a, l, r, rfl, rfl, rfl⟩ := H.exists_of_cell hc
      exact hcell H.laid_focus.2.1 hj
    | right hi hc hj =>
      obtain ⟨c, a, l, r, rfl, rfl, rfl⟩ := H.exists_of_cell hc
      exact hcell H.laid_focus.2.2 hj
  · intro hi
    obtain ⟨cell, hcell⟩ := ne_none_iff_exists'.mp hi
    obtain ⟨c, a, l, r, rfl, rfl, -⟩ := H.exists_of_cell hcell
    exact reach_of_plug c H hroot rfl

theorem length_le : t.ids.length ≤ h.next := by
  have hsub : t.ids ⊆ List.range h.next := fun i hi => mem_range.mpr (H.bound i hi)
  have hlen := (subperm_of_subset H.nodup hsub).length_le
  rwa [length_range] at hlen

theorem height_le : t.height ≤ h.next := by
  have hlen := H.length_le
  rw [BinTree.ids, length_map] at hlen
  exact Nat.le_trans BinTree.height_le_length hlen

end

section
variable (H : Holds h (plug c t)) (hlaid : Linked.Laid h' (up c) t') (hnodup : t'.ids.Nodup)
  (hids : ∀ i ∈ t'.ids, i ∈ t.ids ∨ h.next ≤ i) (hbound : ∀ i ∈ t'.ids, i < h'.next)
  (hnext : h.next ≤ h'.next) (hfree : ∀ i, i ∉ t'.ids → i ∉ ids c → h'.cells i = none)
include H hlaid hnodup hids hbound hnext hfree

/-- **Exchange of a subtree.**  The nodes under the hole may be new or reused and
the rest freed; beside them only the pointer into the hole may have changed. -/
theorem refocus (hpath : ∀ i ∈ ids c, h'.cells i = (h.link (slot c) t'.ptr).cells i) :
    Holds h' (plug c t') := by
  obtain ⟨hcnd, -, hdisj⟩ := H.nodup_parts
  have hcb : ∀ i ∈ ids c, i < h.next := fun i hi => H.bound i (mem_ids_plug.mpr (.inl hi))
  refine ⟨laid_plug.mpr ⟨H.laid_path.relink hcnd hpath, hlaid⟩, ?_, ?_, ?_⟩
  · rw [(ids_plug_perm t').nodup_iff, nodup_append]
    refine ⟨hcnd, hnodup, ?_⟩
    rintro i hi j hj rfl
    rcases hids i hj with hold | hnew
    · exact hdisj i hi hold
    · exact absurd (hcb i hi) (by omega)
  · intro i hi
    rcases mem_ids_plug.mp hi with hi | hi
    · exact Nat.lt_of_lt_of_le (hcb i hi) hnext
    · exact hbound i hi
  · intro i hi
    rw [mem_ids_plug, not_or] at hi
    exact hfree i hi.2 hi.1

/-- The same rule for code that first builds the new part and then stores the pointer
to it. -/
theorem graft (hsame : ∀ i ∈ ids c, h'.cells i = h.cells i) (hroot : h'.root = h.root) :
    ∃ h'', h'.store (slot c) t'.ptr = .ok h'' ∧ Holds h'' (plug c t') ∧ h''.next = h'.next ∧
      h''.root = if c = [] then t'.ptr else h.root := by
  have hstore := store_slot (H.laid_path.congr hsame) t'.ptr
  -- the hole is not among the nodes that go into it
  have hup : ∀ i, i ∈ t'.ids → up c ≠ some i := by
    intro i hi hc
    have hic := up_mem_ids hc
    rcases hids i hi with hold | hnew
    · exact H.nodup_parts.2.2 i hic hold
    · exact absurd (H.bound i (mem_ids_plug.mpr (.inl hic))) (by omega)
  refine ⟨_, hstore, H.refocus ?_ hnodup hids ?_ ?_ ?_ (cells_link_congr hsame), next_link, ?_⟩
  · exact hlaid.congr fun i hi => cells_link_of_ne (hup i hi)
  · intro i hi
    rw [next_link]
    exact hbound i hi
  · rw [next_link]
    exact hnext
  · intro i hi hic
    rw [cells_link_of_ne fun hc => hic (up_mem_ids hc)]
    exact hfree i hi hic
  · rcases c with _ | ⟨f, c⟩
    · rfl
    · rw [root_link_cons, hroot, if_neg (by simp)]

end

/-- A new frame around the node at a position, with its cells in place. -/
structure Framed (h h' : Heap D) (c : Spine (Nat × D)) (a : Nat × D) (l r : BinTree (Nat × D))
    (f : Frame (Nat × D)) : Prop where
  root : h'.root = h.root
  label : h'.cells f.label.1 = some (f.cell (up c) (some a.1))
  other : Linked.Laid h' (some f.label.1) f.other
  cell : h'.cells a.1 = some ⟨some f.label.1, l.ptr, r.ptr, a.2⟩
  same : ∀ i, i ≠ f.label.1 → i ∉ f.other.ids → i ≠ a.1 → h'.cells i = h.cells i
  new : ∀ i, i = f.label.1 ∨ i ∈ f.other.ids → h.next ≤ i ∧ i < h'.next
  nodup : f.other.ids.Nodup
  fresh : f.label.1 ∉ f.other.ids

variable {s : BinTree (Nat × D)}

/-- A subtree handed to another parent, if there is one. -/
theorem adopt (hs : Linked.Laid h u s) (hnd : s.ids.Nodup) (u' : Option Nat) :
    ∃ h₁, h.setUpPtr s.ptr u' = .ok h₁ ∧ Linked.Laid h₁ u' s ∧
      (∀ i, i ∉ s.ids → h₁.cells i = h.cells i) ∧ h₁.root = h.root ∧ h₁.next = h.next := by
  cases s with
  | nil => exact ⟨h, rfl, trivial, fun _ _ => rfl, rfl, rfl⟩
  | node a l r =>
    refine ⟨h.write a.1 ⟨u', l.ptr, r.ptr, a.2⟩, ?_, ?_, ?_, rfl, rfl⟩
    · rw [BinTree.ptr_node, Heap.setUpPtr, Heap.setUp, Heap.modify_eq hs.1]
    · refine hs.reparent hnd ?_ ?_
      · rw [Heap.cells_write, if_pos rfl]
      · intro i _ hi
        rw [Heap.cells_write, if_neg hi]
    · intro i hi
      rw [Heap.cells_write, if_neg fun hc => hi (by simp [hc])]

section
variable (H : Holds h (plug c (.node a l r)))
include H

/-- Another datum in the node at a position. -/
theorem relabel (d : D) :
    Holds (h.write a.1 ⟨up c, l.ptr, r.ptr, d⟩) (plug c (.node (a.1, d) l r)) := by
  obtain ⟨-, hnd, hdisj⟩ := H.nodup_parts
  have hsame : ∀ i, i ≠ a.1 → (h.write a.1 ⟨up c, l.ptr, r.ptr, d⟩).cells i = h.cells i := by
    intro i hi
    rw [Heap.cells_write, if_neg hi]
  have hc : ∀ i ∈ ids c, i ≠ a.1 := fun i hi hia => hdisj i hi (by simp [hia])
  refine H.refocus ?_ (by simpa using hnd) (fun i hi => .inl (by simpa using hi)) ?_
    (Nat.le_refl _) ?_ ?_
  · have hl := H.laid_focus
    rw [BinTree.ids_node, nodup_append] at hnd
    refine ⟨by rw [Heap.cells_write, if_pos rfl], hl.2.1.congr fun i hi => hsame i ?_,
      hl.2.2.congr fun i hi => hsame i ?_⟩
    · exact hnd.2.2 i (mem_append_left _ hi) _ (mem_singleton_self _)
    · exact hnd.2.2 i (mem_append_right _ hi) _ (mem_singleton_self _)
  · intro i hi
    exact H.bound i (mem_ids_plug.mpr (.inr (by simpa using hi)))
  · intro i hi hic
    have hia : i ≠ a.1 := fun hia => hi (by simp [hia])
    rw [hsame i hia]
    exact H.free i fun hm => (mem_ids_plug.mp hm).elim hic fun hm => hi (by simpa using hm)
  · intro i hi
    rw [hsame i (hc i hi)]
    exact (congrFun (cells_link_same H.laid_path) i).symm

theorem mem_relabel {b : Nat × D} (d : D) :
    b ∈ (plug c (.node (a.1, d) l r)).nodes ↔
      (b ∈ (plug c (.node a l r)).nodes ∧ b.1 ≠ a.1) ∨ b = (a.1, d) := by
  obtain ⟨-, hnd, hdisj⟩ := H.nodup_parts
  simp only [BinTree.ids_node, nodup_append, mem_append, mem_singleton] at hnd hdisj
  have hother : b ∈ before c ++ after c ∨ b ∈ l.nodes ∨ b ∈ r.nodes → b.1 ≠ a.1 := by
    rintro (hb | hb | hb) hid
    · exact hdisj b.1 (mem_map_of_mem hb) (.inr hid)
    · exact hnd.2.2 b.1 (.inl (mem_map_of_mem hb)) a.1 rfl hid
    · exact hnd.2.2 b.1 (.inr (mem_map_of_mem hb)) a.1 rfl hid
  have hsplit : ∀ e : Nat × D, b ∈ (plug c (.node e l r)).nodes ↔
      (b ∈ before c ++ after c ∨ b ∈ l.nodes ∨ b ∈ r.nodes) ∨ b = e := by
    intro e
    simp only [nodes_plug, BinTree.nodes_node, mem_append, mem_singleton]
    tauto
  rw [hsplit, hsplit]
  constructor
  · rintro (hb | hb)
    · exact .inl ⟨.inl hb, hother hb⟩
    · exact .inr hb
  · rintro (⟨hb | rfl, hid⟩ | hb)
    · exact .inl hb
    · contradiction
    · exact .inr hb

theorem nodup_child (hs : (l = .nil ∧ s = r) ∨ (r = .nil ∧ s = l)) :
    s.ids.Nodup ∧ a.1 ∉ s.ids ∧ ∀ i ∈ ids c, i ∉ s.ids := by
  obtain ⟨-, hnd, hdisj⟩ := H.nodup_parts
  simp only [BinTree.ids_node, nodup_append, mem_append, mem_singleton] at hnd hdisj
  rcases hs with ⟨rfl, rfl⟩ | ⟨rfl, rfl⟩
  · exact ⟨hnd.1.2.1, fun hm => hnd.2.2 _ (.inr hm) _ rfl rfl, fun i hi hm =>
      hdisj i hi (.inl (.inr hm))⟩
  · exact ⟨hnd.1.1, fun hm => hnd.2.2 _ (.inl hm) _ rfl rfl, fun i hi hm =>
      hdisj i hi (.inl (.inl hm))⟩

/-- A node with at most one child taken out, the child in its place. -/
theorem bypass (hs : (l = .nil ∧ s = r) ∨ (r = .nil ∧ s = l))
    (hpath : ∀ i ∈ ids c, h'.cells i = (h.link (slot c) s.ptr).cells i)
    (hlaid : Linked.Laid h' (up c) s) (hsame : ∀ i, i ∉ ids c → i ∉ s.ids → h'.cells i = h.cells i)
    (hnext : h'.next = h.next) : Holds (h'.drop a.1) (plug c s) := by
  have hdisj := H.nodup_parts.2.2
  obtain ⟨hnd, hna, -⟩ := H.nodup_child hs
  have hmem : ∀ i, i ∈ (BinTree.node a l r).ids ↔ i = a.1 ∨ i ∈ s.ids := by
    intro i
    rcases hs with ⟨rfl, rfl⟩ | ⟨rfl, rfl⟩ <;>
      simp only [BinTree.ids_node, BinTree.ids_nil, mem_append, mem_singleton,
        not_mem_nil, false_or, or_false] <;>
      exact or_comm
  have hbound : ∀ i ∈ s.ids, i < h.next := fun i hi =>
    H.bound i (mem_ids_plug.mpr (.inr ((hmem i).mpr (.inr hi))))
  refine H.refocus ?_ hnd ?_ ?_ ?_ ?_ ?_
  · refine hlaid.congr fun i hi => ?_
    have hne : i ≠ a.1 := fun hc => hna (hc ▸ hi)
    rw [Heap.cells_drop, if_neg hne]
  · exact fun i hi => .inl ((hmem i).mpr (.inr hi))
  · intro i hi
    rw [Heap.next_drop, hnext]
    exact hbound i hi
  · show h.next ≤ h'.next
    omega
  · intro i hi hic
    rw [Heap.cells_drop]
    by_cases hia : i = a.1
    · rw [if_pos hia]
    · rw [if_neg hia, hsame i hic hi]
      exact H.free i fun hm => (mem_ids_plug.mp hm).elim hic fun hm =>
        ((hmem i).mp hm).elim hia hi
  · intro i hi
    have hne : i ≠ a.1 := fun hc => hdisj i hi ((hmem i).mpr (.inl hc))
    rw [Heap.cells_drop, if_neg hne]
    exact hpath i hi

/-- A new node, and what else is new, above the node at a position. -/
theorem wrap (F : Framed h h' c a l r f) : ∃ h'', h'.store (slot c) (some f.label.1) = .ok h'' ∧
      Holds h'' (plug c (f.fill (.node a l r))) ∧ h''.next = h'.next ∧
      h''.root = if c = [] then some f.label.1 else h.root := by
  obtain ⟨-, hnodup, hdisj⟩ := H.nodup_parts
  have hbound : ∀ i ∈ (plug c (.node a l r)).ids, i < h.next := H.bound
  -- an old address is not among the new ones
  have hfresh : ∀ i ∈ (plug c (.node a l r)).ids, i ≠ f.label.1 ∧ i ∉ f.other.ids := by
    intro i hi
    have hlt := hbound i hi
    refine ⟨fun hc => ?_, fun hc => ?_⟩
    · have := (F.new i (.inl hc)).1
      omega
    · have := (F.new i (.inr hc)).1
      omega
  have hold : ∀ i ∈ (BinTree.node a l r).ids, i ∈ (plug c (.node a l r)).ids := fun i hi =>
    mem_ids_plug.mpr (.inr hi)
  rw [← ptr_fill]
  refine H.graft ?_ ?_ ?_ ?_ ?_ ?_ ?_ F.root
  · refine laid_fill.mpr ⟨F.label, F.other, H.laid_focus.reparent hnodup F.cell ?_⟩
    intro i hi hne'
    have hf := hfresh i (hold i hi)
    exact F.same i hf.1 hf.2 hne'
  · refine nodup_fill.mpr ⟨F.fresh, fun hc => ?_, F.nodup, hnodup, fun i hi hc => ?_⟩
    · exact (hfresh _ (hold _ hc)).1 rfl
    · exact (hfresh _ (hold _ hc)).2 hi
  · intro i hi
    rcases mem_ids_fill.mp hi with hi | hi | hi
    · exact .inr (F.new i (.inl hi)).1
    · exact .inr (F.new i (.inr hi)).1
    · exact .inl hi
  · intro i hi
    have hlt := F.new f.label.1 (.inl rfl)
    rcases mem_ids_fill.mp hi with hi | hi | hi
    · exact (F.new i (.inl hi)).2
    · exact (F.new i (.inr hi)).2
    · have := hbound i (hold i hi)
      omega
  · have hlt := F.new f.label.1 (.inl rfl)
    omega
  · intro i hi hic
    simp only [mem_ids_fill, not_or] at hi
    rw [F.same i hi.1 hi.2.1 fun hc => hi.2.2 (by rw [hc]; simp)]
    exact H.free i fun hm => (mem_ids_plug.mp hm).elim hic hi.2.2
  · intro i hi
    have hf := hfresh i (mem_ids_plug.mpr (.inl hi))
    refine F.same i hf.1 hf.2 fun hc => hdisj i hi ?_
    rw [hc]
    simp

end

end

end Holds

end Linked

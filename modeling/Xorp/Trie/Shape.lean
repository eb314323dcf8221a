/-
Keys and payloads, without addresses.

The tree a heap holds has an address and an extra word in every label.  What the
searches return does not depend on either: it is a function of the keys and payloads
and of how they hang together, the tree's shape.  The functions of `PrefixTree` commute
with a change of labels, and so insertion, removal and lookup on the nodes in memory are
insertion, removal and lookup on the shape.
-/
import Xorp.Trie.Refine

namespace Xorp

open Linked BinTree PrefixTree

variable {w : Nat} {P X : Type} {α β : Type}

namespace PrefixTree

section
variable {key : α → IPNet w} {full : α → Bool} {key' : β → IPNet w} {full' : β → Bool} {f : α → β}

theorem wf_map (hkey : ∀ a, key' (f a) = key a) (hfull : ∀ a, full' (f a) = full a)
    (t : BinTree α) : WF key' full' (t.map f) ↔ WF key full t := by
  induction t with
  | nil => exact Iff.rfl
  | node a l r ihl ihr =>
    simp only [map_node, WF, nodes_map, List.mem_map, forall_exists_index, and_imp,
      forall_apply_eq_imp_iff₂, hkey, hfull, ne_eq, map_eq_nil, ihl, ihr]

theorem rootContains_map (hkey : ∀ a, key' (f a) = key a) (k : IPNet w) (t : BinTree α) :
    rootContains key' k (t.map f) = rootContains key k t := by
  cases t with
  | nil => rfl
  | node a l r => exact congrArg (·.contains k) (hkey a)

variable {l r : BinTree α} {Q : α → Prop} {a : α}

section
variable (h : ∀ b ∈ (BinTree.node a l r).nodes, Q b)
include h

/-- The hypotheses of the nodes of a tree, for its subtrees. -/
theorem forall_left : ∀ b ∈ l.nodes, Q b := fun b hb =>
  h b (mem_nodes_node.mpr (.inr (.inl hb)))

theorem forall_right : ∀ b ∈ r.nodes, Q b := fun b hb =>
  h b (mem_nodes_node.mpr (.inr (.inr hb)))

theorem forall_root : Q a := h a (mem_nodes_node.mpr (.inl rfl))

end

theorem find_map {sel : α → Bool} {sel' : β → Bool} (hkey : ∀ a, key' (f a) = key a)
    (k : IPNet w) (t : BinTree α) (hsel : ∀ a ∈ t.nodes, sel' (f a) = sel a) :
    find key' sel' k (t.map f) = (find key sel k t).map f := by
  induction t with
  | nil => rfl
  | node a l r ihl ihr =>
    simp only [map_node, find, hkey, forall_root hsel, rootContains_map hkey,
      ihl (forall_left hsel), ihr (forall_right hsel)]
    split_ifs <;> simp

theorem insert_map {leaf : α} {glue : IPNet w → α} {set : α → α} {set' : β → β}
    (hkey : ∀ a, key' (f a) = key a) (hset : ∀ a, f (set a) = set' (f a)) (x : IPNet w)
    (t : BinTree α) : (insert key leaf glue set x t).map f
      = insert key' (f leaf) (fun k => f (glue k)) set' x (t.map f) := by
  induction t with
  | nil => rfl
  | node a l r ihl ihr =>
    simp only [map_node, insert, hkey]
    split_ifs <;> simp only [map_node, map_nil, hset, ihl, ihr]

theorem prune_map (hfull : ∀ a, full' (f a) = full a) :
    (prune full a l r).map f = prune full' (f a) (l.map f) (r.map f) := by
  simp only [prune, hfull]
  split_ifs
  · rfl
  · cases l <;> cases r <;> rfl

theorem erase_map {clear : α → α} {clear' : β → β} (hkey : ∀ a, key' (f a) = key a)
    (hfull : ∀ a, full' (f a) = full a) (hclear : ∀ a, f (clear a) = clear' (f a)) (x : IPNet w)
    (t : BinTree α) :
    (erase key full clear x t).map f = erase key' full' clear' x (t.map f) := by
  induction t with
  | nil => rfl
  | node a l r ihl ihr =>
    simp only [map_node, erase, hkey]
    split_ifs
    · rw [prune_map hfull, hclear]
    · rw [prune_map hfull, ihl]
    · rw [prune_map hfull, ihr]
    · rfl

end

end PrefixTree

/-- A prefix tree of keys and payloads. -/
abbrev Shape (w : Nat) (P : Type) := BinTree (IPNet w × Option P)

namespace Shape

def full (e : IPNet w × Option P) : Bool := e.2.isSome

def WF (s : Shape w P) : Prop := PrefixTree.WF Prod.fst full s

def insert (k : IPNet w) (p : P) (s : Shape w P) : Shape w P :=
  PrefixTree.insert Prod.fst (k, some p) (fun k => (k, none)) (fun e => (e.1, some p)) k s

/-- Removal of the entry at a key. -/
def erase (k : IPNet w) (s : Shape w P) : Shape w P :=
  PrefixTree.erase Prod.fst full (fun e => (e.1, none)) k s

/-- The longest match. -/
def find (k : IPNet w) (s : Shape w P) : Option (IPNet w × Option P) :=
  PrefixTree.find Prod.fst full k s

theorem WF.insert {s : Shape w P} (h : WF s) (k : IPNet w) (p : P) : WF (s.insert k p) :=
  PrefixTree.WF.insert h rfl (fun _ => rfl) (fun _ => rfl) rfl (fun _ => rfl)

theorem WF.erase {s : Shape w P} (h : WF s) (k : IPNet w) : WF (s.erase k) :=
  PrefixTree.WF.erase h fun _ => rfl

end Shape

/-- The key and payload of a node in memory. -/
def nodeEntry (a : Nat × Node w P X) : IPNet w × Option P := (a.2.k, a.2.p)

/-- The shape of a tree in memory. -/
def shape (t : BinTree (Nat × Node w P X)) : Shape w P := t.map nodeEntry

section
variable {t : NodeTree w P X}

theorem wf_shape : Shape.WF (shape t) ↔ PrefixTree.WF nodeKey nodeFull t :=
  wf_map (fun _ => rfl) (fun _ => rfl) t

theorem shape_insertTree (C : NodeClass X) (x : IPNet w) (p : P) (next : Nat) :
    shape (Mem.insertTree C x p next t) = (shape t).insert x p := by
  refine insert_map ?_ ?_ x t
  · intro a
    rfl
  · intro a
    rfl

theorem shape_eraseTree (x : IPNet w) : shape (Mem.eraseTree x t) = (shape t).erase x := by
  refine erase_map ?_ ?_ ?_ x t
  · intro a
    rfl
  · intro a
    rfl
  · intro a
    rfl

theorem find_shape (k : IPNet w) : (shape t).find k = (find nodeKey nodeFull k t).map nodeEntry :=
  find_map (fun _ => rfl) k t fun _ _ => rfl

end

end Xorp

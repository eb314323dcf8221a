/-
Labelled binary trees and positions in them.

A tree is its labels in post-order plus the links between them.  A position is a
path: the frames from a subtree up to the root, innermost first, so that going to
a child pushes a frame and going to the parent pops one.  `nodes_plug` is what ties
the two together: the labels before a position, those under it, and those after it
make up the whole post-order.
-/
import Mathlib.Data.List.Nodup
import Mathlib.Tactic.Common

namespace Linked

open List

universe u v

/-- A binary tree with a label at every node. -/
inductive BinTree (α : Type u) where
  | nil
  | node (a : α) (l r : BinTree α)
deriving DecidableEq, Repr

variable {α : Type u}

namespace BinTree

variable {β : Type v} {f : α → β} {a b : α} {l r t : BinTree α}

/-- The labels in post-order: left subtree, right subtree, node. -/
def nodes : BinTree α → List α
  | nil => []
  | node a l r => l.nodes ++ r.nodes ++ [a]

@[simp] theorem nodes_nil : (nil : BinTree α).nodes = [] := rfl

@[simp] theorem nodes_node : (node a l r).nodes = l.nodes ++ r.nodes ++ [a] := rfl

theorem nodes_eq_nil : t.nodes = [] ↔ t = nil := by
  cases t <;> simp

theorem mem_nodes_node : b ∈ (node a l r).nodes ↔ b = a ∨ b ∈ l.nodes ∨ b ∈ r.nodes := by
  simp only [nodes_node, mem_append, mem_singleton]
  tauto

theorem forall_nodes_node {Q : α → Prop} :
    (∀ b ∈ (node a l r).nodes, Q b) ↔ Q a ∧ (∀ b ∈ l.nodes, Q b) ∧ ∀ b ∈ r.nodes, Q b := by
  simp only [mem_nodes_node, or_imp, forall_and, forall_eq]

/-- The label at the root. -/
def top : BinTree α → Option α
  | nil => none
  | node a _ _ => some a

@[simp] theorem top_nil : (nil : BinTree α).top = none := rfl

@[simp] theorem top_node : (node a l r).top = some a := rfl

/-- The same tree under other labels. -/
def map (f : α → β) : BinTree α → BinTree β
  | nil => nil
  | node a l r => node (f a) (l.map f) (r.map f)

@[simp] theorem map_nil : (nil : BinTree α).map f = nil := rfl

@[simp] theorem map_node : (node a l r).map f = node (f a) (l.map f) (r.map f) := rfl

theorem nodes_map : (t.map f).nodes = t.nodes.map f := by
  induction t with
  | nil => rfl
  | node a l r ihl ihr => simp [ihl, ihr]

theorem top_isSome : t.top.isSome = true ↔ t ≠ .nil := by
  cases t with
  | nil => simp
  | node a l r => simp

theorem top_map : (t.map f).top = t.top.map f := by
  cases t <;> rfl

theorem map_eq_nil : t.map f = nil ↔ t = nil := by
  cases t <;> simp

theorem map_map {γ : Type*} {g : β → γ} : (t.map f).map g = t.map (g ∘ f) := by
  induction t with
  | nil => rfl
  | node a l r ihl ihr => simp [ihl, ihr]

def height : BinTree α → Nat
  | nil => 0
  | node _ l r => max l.height r.height + 1

theorem height_le_length : t.height ≤ t.nodes.length := by
  induction t with
  | nil => exact Nat.le_refl _
  | node a l r ihl ihr =>
    simp only [height, nodes_node, length_append, length_singleton]
    omega

/-- Where a walk to the left ends: the first label of the post-order. -/
def leftmost : BinTree α → Option α
  | nil => none
  | node a nil nil => some a
  | node _ nil (node b l r) => (node b l r).leftmost
  | node _ (node b l r) _ => (node b l r).leftmost

theorem leftmost_eq_head? : t.leftmost = t.nodes.head? := by
  induction t with
  | nil => rfl
  | node a l r ihl ihr =>
    rcases l with _ | ⟨b, l, l'⟩
    · rcases r with _ | ⟨b, r, r'⟩
      · rfl
      · rw [leftmost, ihr]
        simp
    · rw [leftmost, ihl]
      simp

theorem mem_of_leftmost {f : α} (hf : t.leftmost = some f) : f ∈ t.nodes := by
  rw [leftmost_eq_head?] at hf
  exact mem_of_mem_head? hf

theorem exists_leftmost (hne : t ≠ nil) : ∃ f, t.leftmost = some f := by
  cases hf : t.leftmost with
  | some f => exact ⟨f, rfl⟩
  | none =>
    rw [leftmost_eq_head?, head?_eq_none_iff, nodes_eq_nil] at hf
    contradiction

end BinTree

/-! ### Positions -/

/-- One step from a subtree to its parent: the parent's label and the other subtree. -/
inductive Frame (α : Type u) where
  | left (a : α) (r : BinTree α)
  | right (a : α) (l : BinTree α)

/-- The frames from a subtree to the root, innermost first. -/
abbrev Spine (α : Type u) := List (Frame α)

variable {f : Frame α} {c : Spine α} {t t' : BinTree α}

namespace Frame

def label : Frame α → α
  | left a _ => a
  | right a _ => a

/-- The subtree on the other side. -/
def other : Frame α → BinTree α
  | left _ r => r
  | right _ l => l

def fill : Frame α → BinTree α → BinTree α
  | left a r, t => .node a t r
  | right a l, t => .node a l t

/-- The labels the post-order meets before the hole. -/
def before : Frame α → List α
  | left _ _ => []
  | right _ l => l.nodes

/-- The labels the post-order meets after the hole. -/
def after : Frame α → List α
  | left a r => r.nodes ++ [a]
  | right a _ => [a]

theorem nodes_fill : (f.fill t).nodes = f.before ++ t.nodes ++ f.after := by
  cases f <;> simp [fill, before, after]

end Frame

namespace Spine

def plug : Spine α → BinTree α → BinTree α
  | [], t => t
  | f :: c, t => plug c (f.fill t)

def before : Spine α → List α
  | [] => []
  | f :: c => before c ++ f.before

def after : Spine α → List α
  | [] => []
  | f :: c => f.after ++ after c

@[simp] theorem plug_nil : plug [] t = t := rfl

@[simp] theorem plug_cons : plug (f :: c) t = plug c (f.fill t) := rfl

/-- **A position splits the post-order**: what comes before it, what lies under it,
what comes after it. -/
theorem nodes_plug : (plug c t).nodes = before c ++ t.nodes ++ after c := by
  induction c generalizing t with
  | nil => simp [before, after]
  | cons f c ih => rw [plug_cons, ih, Frame.nodes_fill]; simp [before, after]

/-- Off the root, the hole does not show in the root label. -/
theorem top_plug_cons : (plug (f :: c) t).top = (plug (f :: c) t').top := by
  induction c generalizing f t t' with
  | nil => cases f <;> rfl
  | cons g c ih => exact ih

theorem map_plug_congr {f : α → β} (h : t.map f = t'.map f) :
    (plug c t).map f = (plug c t').map f := by
  induction c generalizing t t' with
  | nil => exact h
  | cons g c ih =>
    refine ih ?_
    cases g with
    | left a r => simp only [Frame.fill, BinTree.map_node, h]
    | right a l => simp only [Frame.fill, BinTree.map_node, h]

theorem height_plug_le (c : Spine α) (t : BinTree α) : c.length + t.height ≤ (plug c t).height := by
  induction c generalizing t with
  | nil => simp
  | cons f c ih =>
    have hfill : t.height + 1 ≤ (f.fill t).height := by
      cases f <;> simp only [Frame.fill, BinTree.height] <;> omega
    have := ih (f.fill t)
    simp only [plug_cons, length_cons]
    omega

/-- Every label of a tree sits at some position. -/
theorem exists_plug {a : α} (h : a ∈ t.nodes) : ∃ c l r, t = plug c (.node a l r) := by
  suffices hs : ∀ c₀ : Spine α, ∃ c l r, plug c₀ t = plug c (.node a l r) from hs []
  induction t with
  | nil => simp at h
  | node b l r ihl ihr =>
    intro c₀
    rw [BinTree.mem_nodes_node] at h
    rcases h with rfl | h | h
    · exact ⟨c₀, l, r, rfl⟩
    · exact ihl h (.left b r :: c₀)
    · exact ihr h (.right b l :: c₀)

end Spine

end Linked

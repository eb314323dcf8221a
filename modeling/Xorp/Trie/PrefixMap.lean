/-
A table of routes by prefix.

The tables of the rib keep their routes in tries.  A `PrefixMap` is such a trie without its
memory: the shape, with the proof that it is well formed.  Two of its operations deserve
care.  `erase` takes out the longest match of the key it is given, which is the entry of
that key only if there is one, and `find` returns the longest match.  Every operation here
is the one of the trie in memory; the tables of BGP are `RefTrie`s, of which the same holds
as long as they are not empty (`RefTrie.Shaped.get` and the theorems after it).
-/
import Xorp.Trie.Queries

namespace Xorp

open Linked PrefixTree Option Function

variable {w : Nat} {P : Type}

/-- A well-formed shape. -/
structure PrefixMap (w : Nat) (P : Type) where
  shape : Shape w P
  wf : shape.WF

theorem Shape.WF.step {s : Shape w P} (h : s.WF) (op : Trie.Op w P) : (s.step op).WF := by
  cases op with
  | insert k p => exact WF.insert h k p
  | erase k =>
    rw [Shape.step]
    split
    · exact h
    · exact WF.erase h _

variable {m : PrefixMap w P}

namespace PrefixMap

def empty : PrefixMap w P := ⟨.nil, trivial⟩

section
variable (m : PrefixMap w P)

/-- `lookup_node`. -/
def get (k : IPNet w) : Option P := (m.shape.lookup k).bind Prod.snd

def insert (k : IPNet w) (p : P) : PrefixMap w P :=
  ⟨m.shape.step (.insert k p), m.wf.step _⟩

/-- `erase(key)`. -/
def erase (k : IPNet w) : PrefixMap w P :=
  ⟨m.shape.step (.erase k), m.wf.step _⟩

/-- `find(key)`: the longest match, with its key. -/
def find (k : IPNet w) : Option (IPNet w × P) :=
  (m.shape.find k).bind Shape.entry

def findAddr (a : BitVec w) : Option (IPNet w × P) := m.find (.host a)

def routeCount : Nat := m.shape.nodes.countP fun e => e.2.isSome

end

variable {k : IPNet w} {p : P}

theorem get_eq_some : m.get k = some p ↔ (k, some p) ∈ m.shape.nodes := by
  unfold get
  rw [bind_eq_some_iff]
  constructor
  · rintro ⟨e, he, hp⟩
    obtain ⟨hmem, -, rfl⟩ := (lookup_eq_some m.wf).mp he
    exact hp ▸ hmem
  · intro hmem
    exact ⟨(k, some p), (lookup_eq_some m.wf).mpr ⟨hmem, rfl, rfl⟩, rfl⟩

@[simp] theorem get_empty : (empty : PrefixMap w P).get k = none := rfl

theorem get_insert (k' : IPNet w) :
    (m.insert k p).get k' = if k' = k then some p else m.get k' := by
  have hmem : ∀ q, (k', some q) ∈ (m.insert k p).shape.nodes ↔
      ((k', some q) ∈ m.shape.nodes ∧ k' ≠ k) ∨ (k', some q) = (k, some p) := by
    intro q
    refine (mem_insert m.wf (fun _ => rfl) rfl).trans (or_congr Iff.rfl ?_)
    constructor
    · rintro (⟨heq, -⟩ | ⟨a, -, rfl, heq⟩)
      · exact heq
      · exact heq
    · intro heq
      by_cases hall : ∀ a ∈ m.shape.nodes, a.1 ≠ k
      · exact .inl ⟨heq, hall⟩
      · push Not at hall
        obtain ⟨a, ha, rfl⟩ := hall
        exact .inr ⟨a, ha, rfl, heq⟩
  apply ext
  intro q
  rw [get_eq_some, hmem]
  by_cases hk : k' = k
  · simp [hk, eq_comm]
  · rw [if_neg hk, get_eq_some]
    simp [hk]

/-- The count is 0 for an empty table only. -/
theorem routeCount_eq_zero : m.routeCount = 0 ↔ ∀ k, m.get k = none := by
  rw [routeCount, List.countP_eq_zero]
  constructor
  · intro h k
    rw [eq_none_iff_forall_ne_some]
    intro p hp
    exact h _ (get_eq_some.mp hp) rfl
  · rintro h ⟨k, _ | p⟩ he
    · exact Bool.false_ne_true
    · exact absurd ((h k).symm.trans (get_eq_some.mpr he)) (some_ne_none p).symm

/-- A key that is present is its own longest match. -/
theorem find_of_get (h : m.get k = some p) : m.shape.find k = some (k, some p) := by
  refine (find_eq_some m.wf).mpr ⟨get_eq_some.mp h, rfl, IPNet.contains_refl, ?_⟩
  intro b _ _ hb
  exact hb

/-- **`erase` of a key that is present** takes out its entry. -/
theorem get_erase (h : m.get k = some p) (k' : IPNet w) :
    (m.erase k).get k' = if k' = k then none else m.get k' := by
  have hshape : (m.erase k).shape = m.shape.erase k := by
    show m.shape.step (.erase k) = _
    rw [Shape.step, find_of_get h]
  apply ext
  intro q
  rw [get_eq_some, hshape]
  have hmem : (k', some q) ∈ (m.shape.erase k).nodes ↔ (k', some q) ∈ m.shape.nodes ∧ k' ≠ k :=
    mem_erase m.wf (fun _ => rfl) rfl
  rw [hmem]
  by_cases hk : k' = k
  · simp [hk]
  · rw [if_neg hk, get_eq_some]
    simp [hk]

theorem get_insert_eq_update : (m.insert k p).get = update m.get k (some p) := by
  funext k'
  rw [get_insert, update_apply]

theorem get_erase_eq_update (h : m.get k = some p) :
    (m.erase k).get = update m.get k none := by
  funext k'
  rw [get_erase h, update_apply]

end PrefixMap

/-- What `lookup_node` shows. -/
theorem PrefixMap.lookup_map (k : IPNet w) :
    (m.shape.lookup k).map some = (m.get k).map fun p => some (k, some p) := by
  rw [get]
  cases hl : m.shape.lookup k with
  | none => rfl
  | some e =>
    obtain ⟨-, hfull, rfl⟩ := (lookup_eq_some m.wf).mp hl
    obtain ⟨n, _ | p⟩ := e
    · cases hfull
    · rfl

/-! ### The trie in memory -/

namespace Trie

variable {T : Trie w P}

section
variable (h : Shaped T m.shape) (k : IPNet w)
include h

theorem Shaped.get :
    (T.lookupNode k).map T.entry = .ok ((m.get k).map fun p => some (k, some p)) := by
  obtain ⟨t, R, hs⟩ := h
  rw [lookupNode_entry R, hs, PrefixMap.lookup_map]

theorem Shaped.insert (p : P) :
    ∃ T', T.step (.insert k p) = .ok T' ∧ Shaped T' (m.insert k p).shape :=
  step_shaped h (.insert k p)

theorem Shaped.erase : ∃ T', T.step (.erase k) = .ok T' ∧ Shaped T' (m.erase k).shape :=
  step_shaped h (.erase k)

end

end Trie

end Xorp

/-
Circular doubly linked chains.

Every node points to the next and to the previous one, and going on from the last one leads
back to the first.  `IsRing L h t` says that the nodes `h :: t` are such a chain, in that
order.  The head is only a way to write it down: `IsRing.rotate` turns the chain to any of
its nodes, so a node is put in or taken out at the head and the chain turned back.
-/
import Mathlib.Data.List.Chain
import Mathlib.Data.List.Nodup

namespace Ring

open Function List

variable {κ : Type}

/-! ### Rings -/

structure Links (κ : Type) where
  next : κ → κ
  prev : κ → κ

def Links.Adjacent (L : Links κ) (x y : κ) : Prop := L.next x = y ∧ L.prev y = x

/-- The nodes `h :: t` are a chain, and its last one leads back to `h`. -/
structure IsRing (L : Links κ) (h : κ) (t : List κ) : Prop where
  nodup : (h :: t).Nodup
  chain : List.IsChain L.Adjacent (h :: (t ++ [h]))

variable {L L' : Links κ} {h x : κ} {t : List κ}

/-- A chain reads what comes after all but its last node, and what comes before all but its
first. -/
theorem isChain_congr {l : List κ} (hl : l.IsChain L.Adjacent)
    (hnext : ∀ z ∈ l.dropLast, L'.next z = L.next z) (hprev : ∀ z ∈ l.tail, L'.prev z = L.prev z) :
    l.IsChain L'.Adjacent := by
  induction l with
  | nil => exact .nil
  | cons a l ih =>
    cases l with
    | nil => exact .singleton a
    | cons b l =>
      obtain ⟨hab, hl⟩ := isChain_cons_cons.mp hl
      refine isChain_cons_cons.mpr ⟨⟨?_, ?_⟩, ih hl ?_ ?_⟩
      · rw [hnext a mem_cons_self]
        exact hab.1
      · rw [hprev b mem_cons_self]
        exact hab.2
      · intro z hz
        exact hnext z (mem_cons_of_mem a hz)
      · intro z hz
        exact hprev z (mem_cons_of_mem b hz)

variable {post pre : List κ}

namespace IsRing

/-- Links that agree on the nodes make the same chain. -/
theorem congr (hr : IsRing L h t) (hnext : ∀ z ∈ h :: t, L'.next z = L.next z)
    (hprev : ∀ z ∈ h :: t, L'.prev z = L.prev z) : IsRing L' h t := by
  refine ⟨hr.nodup, isChain_congr hr.chain ?_ ?_⟩
  · intro z hz
    rw [← cons_append, dropLast_concat] at hz
    exact hnext z hz
  · intro z hz
    rw [tail_cons, mem_append, mem_singleton] at hz
    exact hprev z (mem_cons.mpr hz.symm)

theorem perm_rotate (h x : κ) (pre post : List κ) :
    (h :: (pre ++ x :: post)).Perm (x :: (post ++ h :: pre)) := by
  rw [← cons_append, ← cons_append]
  exact perm_append_comm

/-- The chain read from another of its nodes. -/
theorem rotate (hr : IsRing L h (pre ++ x :: post)) : IsRing L x (post ++ h :: pre) := by
  constructor
  · exact (perm_rotate h x pre post).nodup hr.nodup
  · have hchain := hr.chain
    rw [append_assoc, cons_append, isChain_cons_split] at hchain
    rw [append_assoc, cons_append, isChain_cons_split]
    exact ⟨hchain.2, hchain.1⟩

section
variable (hr : IsRing L h t)
include hr

theorem next_head : L.next h = (t ++ [h]).head (by simp) := by
  have hchain := hr.chain
  cases t with
  | nil => exact (isChain_cons_cons.mp hchain).1.1
  | cons a t => exact (isChain_cons_cons.mp hchain).1.1

theorem prev_head : L.prev h = (h :: t).getLast (by simp) := by
  have hchain := hr.chain
  rw [← cons_append] at hchain
  have hlast := (isChain_append.mp hchain).2.2 _ (List.getLast?_eq_getLast_of_ne_nil (by simp))
    h rfl
  exact hlast.2

theorem next_head_mem : L.next h ∈ h :: t := by
  rw [hr.next_head]
  have hmem := head_mem (l := t ++ [h]) (by simp)
  rw [mem_append, mem_singleton] at hmem
  exact mem_cons.mpr hmem.symm

theorem prev_head_mem : L.prev h ∈ h :: t := by
  rw [hr.prev_head]
  exact getLast_mem _

/-- The only node of its chain is the one that comes after itself, -/
theorem next_eq_self : L.next h = h ↔ t = [] := by
  rw [hr.next_head]
  cases t with
  | nil => simp
  | cons a t =>
    have hne : h ≠ a := fun he => (nodup_cons.mp hr.nodup).1 (he ▸ mem_cons_self)
    simp [hne.symm]

/-- and that comes before itself. -/
theorem prev_eq_self : L.prev h = h ↔ t = [] := by
  rw [hr.prev_head]
  cases t with
  | nil => simp
  | cons a t =>
    have hne : (a :: t).getLast (by simp) ≠ h := by
      intro he
      exact (nodup_cons.mp hr.nodup).1 (he ▸ getLast_mem _)
    simp [hne]

/-- The links of a chain stay in it. -/
theorem links_mem (hx : x ∈ h :: t) : L.next x ∈ h :: t ∧ L.prev x ∈ h :: t := by
  rcases mem_cons.mp hx with rfl | hx
  · exact ⟨hr.next_head_mem, hr.prev_head_mem⟩
  · obtain ⟨pre, post, rfl⟩ := append_of_mem hx
    have hperm := perm_rotate h x pre post
    exact ⟨hperm.mem_iff.mpr hr.rotate.next_head_mem, hperm.mem_iff.mpr hr.rotate.prev_head_mem⟩

end

end IsRing

variable [DecidableEq κ]

namespace Links

/-- `x` on its own. -/
def alone (L : Links κ) (x : κ) : Links κ :=
  ⟨Function.update L.next x x, Function.update L.prev x x⟩

/-- `x` put in after `p`. -/
def insertAfter (L : Links κ) (p x : κ) : Links κ :=
  ⟨Function.update (Function.update L.next x (L.next p)) p x,
    Function.update (Function.update L.prev x p) (L.next p) x⟩

/-- `x` taken out.  Its own pointers stay. -/
def unchain (L : Links κ) (x : κ) : Links κ :=
  ⟨Function.update L.next (L.prev x) (L.next x), Function.update L.prev (L.next x) (L.prev x)⟩

end Links

namespace IsRing

theorem alone (L : Links κ) (x : κ) : IsRing (L.alone x) x [] := by
  refine ⟨nodup_singleton x, isChain_pair.mpr ⟨?_, ?_⟩⟩
  · exact update_self ..
  · exact update_self ..

theorem insertAfter (hr : IsRing L h t) (hx : x ∉ h :: t) :
    IsRing (L.insertAfter h x) h (x :: t) := by
  have hxh : x ≠ h := fun he => hx (he ▸ mem_cons_self)
  have hxt : x ∉ t := fun hmem => hx (mem_cons_of_mem h hmem)
  obtain ⟨hht, hnd⟩ := nodup_cons.mp hr.nodup
  have hnext := hr.next_head
  have htail : (t ++ [h]).IsChain (L.insertAfter h x).Adjacent := by
    refine isChain_congr (isChain_cons.mp hr.chain).2 ?_ ?_
    · intro z hz
      rw [dropLast_concat] at hz
      have hzh : z ≠ h := fun he => hht (he ▸ hz)
      have hzx : z ≠ x := fun he => hxt (he ▸ hz)
      simp only [Links.insertAfter, update_of_ne hzh, update_of_ne hzx]
    · intro z hz
      have hzmem : z ∈ t ++ [h] := mem_of_mem_tail hz
      have hzx : z ≠ x := by
        intro he
        rw [he, mem_append, mem_singleton] at hzmem
        exact hx (mem_cons.mpr hzmem.symm)
      have hnd' : (t ++ [h]).Nodup := (perm_append_singleton h t).symm.nodup hr.nodup
      have hzn : z ≠ L.next h := by
        intro he
        rw [← cons_head_tail (l := t ++ [h]) (by simp)] at hnd'
        refine (nodup_cons.mp hnd').1 ?_
        rw [← hnext, ← he]
        exact hz
      simp only [Links.insertAfter, update_of_ne hzn, update_of_ne hzx]
  constructor
  · refine nodup_cons.mpr ⟨?_, nodup_cons.mpr ⟨hxt, hnd⟩⟩
    rw [mem_cons, not_or]
    exact ⟨Ne.symm hxh, hht⟩
  · refine isChain_cons_cons.mpr ⟨⟨update_self .., ?_⟩, ?_⟩
    · have hxn : x ≠ L.next h := fun he => hx (he ▸ hr.next_head_mem)
      simp only [Links.insertAfter, update_of_ne hxn, update_self]
    · rw [isChain_cons]
      refine ⟨?_, htail⟩
      intro y hy
      have hyn : y = L.next h := by
        rw [hnext]
        exact (head_of_mem_head? hy).symm
      rw [hyn]
      refine ⟨?_, update_self ..⟩
      simp only [Links.insertAfter, update_of_ne hxh, update_self]

theorem unchain_head {a : κ} (hr : IsRing L h (a :: t)) : IsRing (L.unchain h) a t := by
  obtain ⟨hha, hnd⟩ := nodup_cons.mp hr.nodup
  have hnext : L.next h = a := hr.next_head
  have hprev : L.prev h = (a :: t).getLast (by simp) := by
    rw [hr.prev_head, getLast_cons]
  have hchain : (a :: t).IsChain L.Adjacent := by
    have hall := (isChain_cons.mp hr.chain).2
    exact (isChain_append.mp hall).1
  refine ⟨hnd, ?_⟩
  rw [← cons_append, isChain_append]
  refine ⟨isChain_congr hchain ?_ ?_, .singleton a, ?_⟩
  · intro z hz
    have hzl : z ≠ L.prev h := by
      intro he
      rw [← dropLast_append_getLast (l := a :: t) (by simp)] at hnd
      refine disjoint_of_nodup_append hnd hz ?_
      rw [he, hprev]
      exact mem_singleton_self _
    simp only [Links.unchain, update_of_ne hzl]
  · intro z hz
    have hza : z ≠ L.next h := by
      intro he
      rw [hnext] at he
      exact (nodup_cons.mp hnd).1 (he ▸ hz)
    simp only [Links.unchain, update_of_ne hza]
  · intro y hy b hb
    have hyl : y = L.prev h := by
      rw [hprev]
      exact (getLast_of_mem_getLast? hy).symm
    have hba : b = L.next h := by
      rw [hnext]
      exact (Option.some.inj hb).symm
    rw [hyl, hba]
    exact ⟨update_self .., update_self ..⟩

theorem unchain (hr : IsRing L h (pre ++ x :: post)) : IsRing (L.unchain x) h (pre ++ post) := by
  have hx := hr.rotate
  cases post with
  | nil =>
    rw [append_nil]
    exact hx.unchain_head
  | cons b post =>
    have hout := hx.unchain_head
    exact hout.rotate

theorem insertAfter_mem {p : κ} (hr : IsRing L h (pre ++ p :: post))
    (hx : x ∉ h :: (pre ++ p :: post)) : IsRing (L.insertAfter p x) h (pre ++ p :: x :: post) := by
  have hp := hr.rotate
  have hxp : x ∉ p :: (post ++ h :: pre) := by
    intro hmem
    exact hx ((perm_rotate h p pre post).mem_iff.mpr hmem)
  have hin := hp.insertAfter hxp
  exact hin.rotate

/-- Nodes outside the chain keep their links when one is put in, -/
theorem insertAfter_off (hr : IsRing L h t) {p z : κ} (hp : p ∈ h :: t) (hz : z ∉ h :: t)
    (hzx : z ≠ x) :
    (L.insertAfter p x).next z = L.next z ∧ (L.insertAfter p x).prev z = L.prev z := by
  have hzp : z ≠ p := fun he => hz (he ▸ hp)
  have hzn : z ≠ L.next p := fun he => hz (he ▸ (hr.links_mem hp).1)
  simp only [Links.insertAfter, update_of_ne hzp, update_of_ne hzx, update_of_ne hzn, and_self]

/-- and when one is taken out. -/
theorem unchain_off (hr : IsRing L h t) {z : κ} (hx : x ∈ h :: t) (hz : z ∉ h :: t) :
    (L.unchain x).next z = L.next z ∧ (L.unchain x).prev z = L.prev z := by
  have hzp : z ≠ L.prev x := fun he => hz (he ▸ (hr.links_mem hx).2)
  have hzn : z ≠ L.next x := fun he => hz (he ▸ (hr.links_mem hx).1)
  simp only [Links.unchain, update_of_ne hzp, update_of_ne hzn, and_self]

end IsRing

end Ring

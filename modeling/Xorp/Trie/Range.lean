/-
What `find_bounds` computes.

The range that shares the route of an address `a` ends just before the nearest stored
prefix on either side of `a`, within the longest match.  The walk of `bounds` decides both
ends at the deepest node that contains `a`, from the labels under it, and otherwise keeps
the bounds it came with.  So an end is right when the labels under that node lie on both
sides, and when the walk has recorded the prefixes it passed on the way down.
-/
import Xorp.Trie.Bounds

namespace Xorp

open Linked Spine BinTree IPNet List BitVec

variable {w : Nat} {α : Type}

variable {n : IPNet w}

namespace IPNet

theorem topAddr_lt_iff (a : BitVec w) : n.topAddr < a ↔ n.lo + n.size ≤ a.toNat := by
  have := n.size_pos
  rw [lt_def, toNat_topAddr]
  omega

theorem toNat_topAddr_add_one {a : BitVec w} (ha : n.topAddr < a) :
    (n.topAddr + 1).toNat = n.lo + n.size := by
  have hpos := n.size_pos
  rw [topAddr_lt_iff] at ha
  rw [toNat_add, toNat_topAddr, show (1 : BitVec w).toNat = 1 % 2 ^ w from
    toNat_ofNat 1 w, Nat.add_mod_mod, Nat.mod_eq_of_lt (by omega)]
  omega

section
variable (n : IPNet w) (a : BitVec w)

theorem lt_maskedAddr_iff : a < n.maskedAddr ↔ a.toNat < n.lo := lt_def

theorem contains_host_iff :
    n.contains (host a) = true ↔ n.lo ≤ a.toNat ∧ a.toNat < n.lo + n.size := by
  rw [← containsAddr_eq_contains_host, containsAddr_iff]

/-- The tests of the walk: an address is before a prefix, in it or after it. -/
theorem contains_host_eq : n.contains (host a) = true ↔ ¬ a < n.maskedAddr ∧ a ≤ n.topAddr := by
  rw [contains_host_iff, lt_maskedAddr_iff, ← BitVec.not_lt, topAddr_lt_iff]
  omega

end

variable {m : IPNet w}

theorem topAddr_le_of_contains (h : n.contains m = true) : m.topAddr ≤ n.topAddr := by
  have := m.size_pos
  rw [contains_iff] at h
  rw [le_def, toNat_topAddr, toNat_topAddr]
  omega

theorem maskedAddr_le_of_contains (h : n.contains m = true) : n.maskedAddr ≤ m.maskedAddr :=
  le_def.mpr (contains_iff.mp h).1

theorem Below.topAddr_le (h : n.Below m) : n.topAddr ≤ m.topAddr := by
  rw [Below] at h
  rw [le_def, toNat_topAddr, toNat_topAddr]
  omega

theorem Below.maskedAddr_le (h : n.Below m) : n.maskedAddr ≤ m.maskedAddr := by
  rw [Below] at h
  show n.lo ≤ m.lo
  omega

end IPNet

namespace PrefixTree

section
variable (key : α → IPNet w) (full : α → Bool) (a : BitVec w)

/-- `v` is just past the highest stored prefix below `a`. -/
def PastHighest (xs : List α) (v : BitVec w) : Prop :=
  ∃ d ∈ xs, full d = true ∧ (key d).topAddr < a ∧ v = (key d).topAddr + 1 ∧
    ∀ e ∈ xs, full e = true → (key e).topAddr < a → (key e).topAddr ≤ (key d).topAddr

/-- `v` is just before the lowest stored prefix above `a`. -/
def BeforeLowest (xs : List α) (v : BitVec w) : Prop :=
  ∃ d ∈ xs, full d = true ∧ a < (key d).maskedAddr ∧ v = (key d).maskedAddr - 1 ∧
    ∀ e ∈ xs, full e = true → a < (key e).maskedAddr → (key d).maskedAddr ≤ (key e).maskedAddr

/-- The labels under the deepest node that contains `a`. -/
def beneath : BinTree α → List α
  | .nil => []
  | .node _ l r =>
      if rootContains key (IPNet.host a) l then beneath l
      else if rootContains key (IPNet.host a) r then beneath r
      else l.nodes ++ r.nodes

end

section
variable {key : α → IPNet w} {full : α → Bool} {a : BitVec w} {xs ys : List α} {v v' : BitVec w}

theorem PastHighest.unique (h : PastHighest key full a xs v) (h' : PastHighest key full a xs v') :
    v = v' := by
  obtain ⟨d, hd, hfd, had, rfl, hmax⟩ := h
  obtain ⟨e, he, hfe, hae, rfl, hmax'⟩ := h'
  rw [BitVec.le_antisymm (hmax' d hd hfd had) (hmax e he hfe hae)]

/-- Labels that are lower, or not below `a` at all, do not count. -/
theorem PastHighest.extend (h : PastHighest key full a xs v) (hsub : ∀ d ∈ xs, d ∈ ys)
    (hlow : ∀ e ∈ ys, (key e).topAddr < a → e ∈ xs ∨ ∀ d ∈ xs, (key e).topAddr ≤ (key d).topAddr) :
    PastHighest key full a ys v := by
  obtain ⟨d, hd, hfd, had, rfl, hmax⟩ := h
  refine ⟨d, hsub d hd, hfd, had, rfl, fun e he hfe hae => ?_⟩
  rcases hlow e he hae with hin | hle
  · exact hmax e hin hfe hae
  · exact hle d hd

theorem BeforeLowest.extend (h : BeforeLowest key full a xs v) (hsub : ∀ d ∈ xs, d ∈ ys)
    (hhigh : ∀ e ∈ ys, a < (key e).maskedAddr →
      e ∈ xs ∨ ∀ d ∈ xs, (key d).maskedAddr ≤ (key e).maskedAddr) :
    BeforeLowest key full a ys v := by
  obtain ⟨d, hd, hfd, had, rfl, hmin⟩ := h
  refine ⟨d, hsub d hd, hfd, had, rfl, fun e he hfe hae => ?_⟩
  rcases hhigh e he hae with hin | hle
  · exact hmin e hin hfe hae
  · exact hle d hd

/-! ### The extent of a subtree -/

variable {l r t : BinTree α} {sel : α → Bool} {e x : α} {k : IPNet w}

section
variable (h : WF key full t)
include h

section
variable (hne : t ≠ .nil)
include hne

/-- `high` is the top of the highest stored prefix. -/
theorem WF.exists_high : ∃ d ∈ t.nodes, full d = true ∧ high key full t = (key d).topAddr ∧
      ∀ e ∈ t.nodes, full e = true → (key e).topAddr ≤ (key d).topAddr := by
  induction t with
  | nil => contradiction
  | node b l r ihl ihr =>
    rw [high]
    by_cases hf : full b = true
    · rw [if_pos hf]
      exact ⟨b, by simp, hf, rfl, fun e he _ =>
        topAddr_le_of_contains (h.root_contains he)⟩
    · have hr : r ≠ .nil := (h.2.2.1.resolve_left hf).2
      obtain ⟨d, hd, hfd, hhigh, hmax⟩ := ihr h.2.2.2.2 hr
      rw [if_neg hf, if_pos (top_isSome.mpr hr)]
      refine ⟨d, mem_nodes_node.mpr (.inr (.inr hd)), hfd, hhigh, fun e he hfe => ?_⟩
      rcases mem_nodes_node.mp he with rfl | hel | her
      · contradiction
      · exact ((h.1 e hel).below (h.2.1 d hd)).topAddr_le
      · exact hmax e her hfe

/-- `low` is the start of the lowest one. -/
theorem WF.exists_low : ∃ d ∈ t.nodes, full d = true ∧ low key full t = (key d).maskedAddr ∧
      ∀ e ∈ t.nodes, full e = true → (key d).maskedAddr ≤ (key e).maskedAddr := by
  induction t with
  | nil => contradiction
  | node b l r ihl ihr =>
    rw [low]
    by_cases hf : full b = true
    · rw [if_pos hf]
      exact ⟨b, by simp, hf, rfl, fun e he _ =>
        maskedAddr_le_of_contains (h.root_contains he)⟩
    · have hl : l ≠ .nil := (h.2.2.1.resolve_left hf).1
      obtain ⟨d, hd, hfd, hlow, hmin⟩ := ihl h.2.2.2.1 hl
      rw [if_neg hf, if_pos (top_isSome.mpr hl)]
      refine ⟨d, mem_nodes_node.mpr (.inr (.inl hd)), hfd, hlow, fun e he hfe => ?_⟩
      rcases mem_nodes_node.mp he with rfl | hel | her
      · contradiction
      · exact hmin e hel hfe
      · exact ((h.1 d hd).below (h.2.1 e her)).maskedAddr_le

theorem WF.pastHighest_high (hlow : ∀ b ∈ t.nodes, (key b).topAddr < a) :
    PastHighest key full a t.nodes (high key full t + 1) := by
  obtain ⟨d, hd, hfd, hhigh, hmax⟩ := h.exists_high hne
  exact ⟨d, hd, hfd, hlow d hd, by rw [hhigh], fun e he hfe _ => hmax e he hfe⟩

theorem WF.beforeLowest_low (hhigh : ∀ b ∈ t.nodes, a < (key b).maskedAddr) :
    BeforeLowest key full a t.nodes (low key full t - 1) := by
  obtain ⟨d, hd, hfd, hlow, hmin⟩ := h.exists_low hne
  exact ⟨d, hd, hfd, hhigh d hd, by rw [hlow], fun e he hfe _ => hmin e he hfe⟩

end

/-! ### One step of the walk -/

theorem WF.below_of_root (hx : t.top = some x) (hlow : (key x).topAddr < a) :
    ∀ b ∈ t.nodes, (key b).topAddr < a := by
  cases t with
  | nil => simp
  | node y l r =>
    intro b hb
    rw [top_node, Option.some_inj] at hx
    subst hx
    have hle := le_def.mp (topAddr_le_of_contains (h.root_contains hb))
    exact lt_def.mpr (Nat.lt_of_le_of_lt hle (lt_def.mp hlow))

theorem WF.above_of_root (hx : t.top = some x) (hhigh : a < (key x).maskedAddr) :
    ∀ b ∈ t.nodes, a < (key b).maskedAddr := by
  cases t with
  | nil => simp
  | node y l r =>
    intro b hb
    rw [top_node, Option.some_inj] at hx
    subst hx
    have hle := le_def.mp (maskedAddr_le_of_contains (h.root_contains hb))
    exact lt_def.mpr (Nat.lt_of_lt_of_le (lt_def.mp hhigh) hle)

end

theorem WF.above_right (h : WF key full (.node x l r))
    (hl : rootContains key (host a) l = true) : ∀ b ∈ r.nodes, a < (key b).maskedAddr := by
  intro b hb
  have hbelow := (h.inLeft hl).below (h.2.1 b hb)
  rw [Below, lo_host, size_host] at hbelow
  rw [lt_maskedAddr_iff]
  omega

theorem WF.below_left (h : WF key full (.node x l r))
    (hr : rootContains key (host a) r = true) : ∀ b ∈ l.nodes, (key b).topAddr < a := by
  intro b hb
  have hbelow := (h.1 b hb).below (h.inRight hr)
  rw [Below, lo_host] at hbelow
  rw [topAddr_lt_iff]
  omega

variable {raise : Bool}

theorem bounds_left (hl : rootContains key (host a) l = true) (b : BitVec w × BitVec w) :
    bounds key full raise a b (.node x l r) = bounds key full raise a b l := by
  cases l with
  | nil => simp [rootContains] at hl
  | node y ll lr =>
    rw [rootContains, contains_host_eq] at hl
    rw [bounds]
    cases r with
    | nil => simp only [top_node, top_nil, hl.1, hl.2, if_true, if_false]
    | node z rl rr => simp only [top_node, hl.1, hl.2, if_true, if_false]

theorem bounds_right (h : WF key full (.node x l r)) (hr : rootContains key (host a) r = true)
    (b : BitVec w × BitVec w) : bounds key full raise a b (.node x l r) = bounds key full raise a
      (if raise && l.top.isSome then high key full l + 1 else b.1, b.2) r := by
  cases r with
  | nil => simp [rootContains] at hr
  | node z rl rr =>
    have hlow := h.below_left hr
    rw [rootContains, contains_host_eq] at hr
    rw [bounds]
    cases l with
    | nil => simp only [top_node, top_nil, hr.1, hr.2, if_true, if_false]; simp
    | node y ll lr =>
      have hy : (key y).topAddr < a := hlow y (by simp)
      have h1 : ¬ a < (key y).maskedAddr := by
        have := (key y).size_pos
        rw [topAddr_lt_iff] at hy
        rw [lt_maskedAddr_iff]
        omega
      have h2 : ¬ a ≤ (key y).topAddr := BitVec.not_le.mpr hy
      simp only [top_node, hr.1, hr.2, h1, h2, if_true, if_false, Option.isSome_some, Bool.and_true]

/-- What one end of the walk amounts to: with labels only on the far side the bound stays,
and otherwise the nearest label decides. -/
structure Ends (key : α → IPNet w) (full : α → Bool) (a : BitVec w) (b : BitVec w × BitVec w)
    (near labels : List α) (out : BitVec w × BitVec w) : Prop where
  lo_kept : (∀ x ∈ near, a < (key x).maskedAddr) → out.1 = b.1
  lo_set : ¬ (∀ x ∈ near, a < (key x).maskedAddr) → PastHighest key full a labels out.1
  hi_kept : (∀ x ∈ near, (key x).topAddr < a) → out.2 = b.2
  hi_set : ¬ (∀ x ∈ near, (key x).topAddr < a) → BeforeLowest key full a labels out.2

theorem not_above_of_below (h : n.topAddr < a) : ¬ a < n.maskedAddr := by
  rw [topAddr_lt_iff] at h
  rw [lt_maskedAddr_iff]
  omega

section
variable {b : BitVec w × BitVec w}

theorem Ends.above (habove : ∀ x ∈ xs, a < (key x).maskedAddr)
    (hv : BeforeLowest key full a xs v) : Ends key full a b xs xs (b.1, v) where
  lo_kept _ := rfl
  lo_set hnot := absurd habove hnot
  hi_kept hall := by
    obtain ⟨d, hd, -⟩ := hv
    exact absurd (habove d hd) (not_above_of_below (hall d hd))
  hi_set _ := hv

theorem Ends.below (hbelow : ∀ x ∈ xs, (key x).topAddr < a)
    (hv : PastHighest key full a xs v) : Ends key full a b xs xs (v, b.2) where
  lo_kept hall := by
    obtain ⟨d, hd, -⟩ := hv
    exact absurd (hall d hd) (not_above_of_below (hbelow d hd))
  lo_set _ := hv
  hi_kept _ := rfl
  hi_set hnot := absurd hbelow hnot

theorem Ends.between (hv : PastHighest key full a xs v) (hv' : BeforeLowest key full a xs v') :
    Ends key full a b xs xs (v, v') where
  lo_kept hall := by
    obtain ⟨d, hd, -, had, -⟩ := hv
    exact absurd (hall d hd) (not_above_of_below had)
  lo_set _ := hv
  hi_kept hall := by
    obtain ⟨d, hd, -, had, -⟩ := hv'
    exact absurd had (not_above_of_below (hall d hd))
  hi_set _ := hv'

end

theorem topAddr_lt_of_not_contains (hc : n.contains (host a) = false) (h : ¬ a < n.maskedAddr) :
    n.topAddr < a := by
  by_contra hle
  rw [(contains_host_eq n a).mpr ⟨h, BitVec.not_lt.mp hle⟩] at hc
  simp at hc

/-- The last step, at a node none of whose children contains `a`. -/
theorem bounds_end (h : WF key full (.node x l r)) (hl : rootContains key (host a) l = false)
    (hr : rootContains key (host a) r = false) (b : BitVec w × BitVec w) :
    Ends key full a b (l.nodes ++ r.nodes) (l.nodes ++ r.nodes)
      (bounds key full raise a b (.node x l r)) := by
  obtain ⟨hinl, hinr, -, hwl, hwr⟩ := h
  -- at an only child
  have hone : ∀ {y : α} {yl yr : BinTree α}, WF key full (.node y yl yr) →
      rootContains key (host a) (.node y yl yr) = false →
      Ends key full a b (node y yl yr).nodes (node y yl yr).nodes
        (if a < (key y).maskedAddr then (b.1, low key full (.node y yl yr) - 1)
        else if a ≤ (key y).topAddr then bounds key full raise a b (.node y yl yr)
        else (high key full (.node y yl yr) + 1, b.2)) := by
    intro y yl yr hw hy
    by_cases h1 : a < (key y).maskedAddr
    · rw [if_pos h1]
      have habove := hw.above_of_root rfl h1
      exact .above habove (hw.beforeLowest_low (by simp) habove)
    · have h2 := topAddr_lt_of_not_contains hy h1
      rw [if_neg h1, if_neg (BitVec.not_le.mpr h2)]
      have hbelow := hw.below_of_root rfl h2
      exact .below hbelow (hw.pastHighest_high (by simp) hbelow)
  rw [bounds]
  rcases l with _ | ⟨y, ll, lr⟩
  · rcases r with _ | ⟨z, rl, rr⟩
    · exact ⟨fun _ => rfl, fun hnot => absurd (by simp) hnot, fun _ => rfl,
        fun hnot => absurd (by simp) hnot⟩
    · exact hone hwr hr
  · rcases r with _ | ⟨z, rl, rr⟩
    · rw [nodes_nil, append_nil]
      exact hone hwl hl
    · simp only [top_node]
      generalize hL : node y ll lr = L at hwl hinl
      generalize hR : node z rl rr = R at hwr hinr
      have hLR : ∀ d ∈ L.nodes, ∀ e ∈ R.nodes, (key d).Below (key e) := fun d hd e he =>
        (hinl d hd).below (hinr e he)
      have hyL : L.top = some y := by rw [← hL]; rfl
      have hzR : R.top = some z := by rw [← hR]; rfl
      have hLne : L ≠ .nil := by rw [← hL]; simp
      have hRne : R ≠ .nil := by rw [← hR]; simp
      have hyz : (key y).Below (key z) := hLR y (by rw [← hL]; simp) z (by rw [← hR]; simp)
      by_cases h1 : a < (key y).maskedAddr
      · -- both children are above `a`
        rw [if_pos h1]
        have hz : a < (key z).maskedAddr :=
          BitVec.lt_def.mpr (Nat.lt_of_lt_of_le (BitVec.lt_def.mp h1) (BitVec.le_def.mp hyz.maskedAddr_le))
        have haL := hwl.above_of_root hyL h1
        have haR := hwr.above_of_root hzR hz
        refine .above (forall_mem_append.mpr ⟨haL, haR⟩)
          ((hwl.beforeLowest_low hLne haL).extend (fun d hd => mem_append_left _ hd) ?_)
        exact forall_mem_append.mpr ⟨fun e he _ => .inl he,
          fun e he _ => .inr fun d hd => (hLR d hd e he).maskedAddr_le⟩
      have h2 := topAddr_lt_of_not_contains hl h1
      have hbL := hwl.below_of_root hyL h2
      rw [if_neg h1, if_neg (BitVec.not_le.mpr h2)]
      by_cases h3 : a < (key z).maskedAddr
      · -- `a` is between the children
        rw [if_pos h3]
        have haR := hwr.above_of_root hzR h3
        refine .between ((hwl.pastHighest_high hLne hbL).extend
          (fun d hd => mem_append_left _ hd) ?_) ((hwr.beforeLowest_low hRne haR).extend
          (fun d hd => mem_append_right _ hd) ?_)
        · exact forall_mem_append.mpr ⟨fun e he _ => .inl he,
            fun e he hea => absurd (haR e he) (not_above_of_below hea)⟩
        · exact forall_mem_append.mpr
            ⟨fun e he hea => absurd hea (not_above_of_below (hbL e he)), fun e he _ => .inl he⟩
      · -- both children are below `a`
        have h4 := topAddr_lt_of_not_contains hr h3
        have hbR := hwr.below_of_root hzR h4
        rw [if_neg h3, if_neg (BitVec.not_le.mpr h4)]
        refine .below (forall_mem_append.mpr ⟨hbL, hbR⟩)
          ((hwr.pastHighest_high hRne hbR).extend (fun d hd => mem_append_right _ hd) ?_)
        exact forall_mem_append.mpr ⟨fun e he _ => .inr fun d hd => (hLR e he d hd).topAddr_le,
          fun e he _ => .inl he⟩

/-! ### The whole walk -/

/-- A label that contains `a` is on neither side of it. -/
theorem not_below_of_contains (h : n.contains (host a) = true) : ¬ n.topAddr < a := fun hlt =>
  BitVec.not_le.mpr hlt ((contains_host_eq n a).mp h).2

theorem not_above_of_contains (h : n.contains (host a) = true) :
    ¬ a < n.maskedAddr := ((contains_host_eq n a).mp h).1

section
variable (h : WF key full (.node x l r))
include h

section
variable (hx : (key x).contains (IPNet.host a) = true)
include hx

/-- Of the labels below `a`, those to the right of a left turn do not count. -/
theorem WF.mem_left_of_below (hr : ∀ b ∈ r.nodes, a < (key b).maskedAddr)
    (he : e ∈ (node x l r).nodes) (hea : (key e).topAddr < a) : e ∈ l.nodes := by
  rcases mem_nodes_node.mp he with rfl | he | he
  · exact absurd hea (not_below_of_contains hx)
  · exact he
  · exact absurd (hr e he) (not_above_of_below hea)

theorem WF.mem_right_of_above (hl : ∀ b ∈ l.nodes, (key b).topAddr < a)
    (he : e ∈ (node x l r).nodes) (hea : a < (key e).maskedAddr) : e ∈ r.nodes := by
  rcases mem_nodes_node.mp he with rfl | he | he
  · exact absurd hea (not_above_of_contains hx)
  · exact absurd hea (not_above_of_below (hl e he))
  · exact he

theorem PastHighest.of_left (hr : ∀ b ∈ r.nodes, a < (key b).maskedAddr)
    (hv : PastHighest key full a l.nodes v) : PastHighest key full a (node x l r).nodes v :=
  hv.extend (fun _ hd => mem_nodes_node.mpr (.inr (.inl hd)))
    fun _ he hea => .inl (h.mem_left_of_below hx hr he hea)

theorem PastHighest.of_right (hv : PastHighest key full a r.nodes v) :
    PastHighest key full a (node x l r).nodes v := by
  refine hv.extend (fun _ hd => mem_nodes_node.mpr (.inr (.inr hd))) ?_
  intro e he hea
  rcases mem_nodes_node.mp he with rfl | he | he
  · exact absurd hea (not_below_of_contains hx)
  · exact .inr fun d hd => ((h.1 e he).below (h.2.1 d hd)).topAddr_le
  · exact .inl he

theorem BeforeLowest.of_right (hl : ∀ b ∈ l.nodes, (key b).topAddr < a)
    (hv : BeforeLowest key full a r.nodes v) :
    BeforeLowest key full a (node x l r).nodes v :=
  hv.extend (fun _ hd => mem_nodes_node.mpr (.inr (.inr hd)))
    fun _ he hea => .inl (h.mem_right_of_above hx hl he hea)

theorem BeforeLowest.of_left (hv : BeforeLowest key full a l.nodes v) :
    BeforeLowest key full a (node x l r).nodes v := by
  refine hv.extend (fun _ hd => mem_nodes_node.mpr (.inr (.inl hd))) ?_
  intro e he hea
  rcases mem_nodes_node.mp he with rfl | he | he
  · exact absurd hea (not_above_of_contains hx)
  · exact .inl he
  · exact .inr fun d hd => ((h.1 d hd).below (h.2.1 e he)).maskedAddr_le

end

end

/-- At the end of the walk the node itself does not count either. -/
theorem Ends.of_children {b out : BitVec w × BitVec w} (hx : (key x).contains (host a) = true)
    (hE : Ends key full a b (l.nodes ++ r.nodes) (l.nodes ++ r.nodes) out) :
    Ends key full a b (l.nodes ++ r.nodes) (node x l r).nodes out := by
  have hsub : ∀ d ∈ l.nodes ++ r.nodes, d ∈ (node x l r).nodes := fun d hd =>
    mem_nodes_node.mpr (.inr (mem_append.mp hd))
  have hback : ∀ e ∈ (node x l r).nodes, e = x ∨ e ∈ l.nodes ++ r.nodes := fun e he =>
    (mem_nodes_node.mp he).imp_right mem_append.mpr
  refine ⟨hE.lo_kept, fun hnot => (hE.lo_set hnot).extend hsub fun e he hea => ?_, hE.hi_kept,
    fun hnot => (hE.hi_set hnot).extend hsub fun e he hea => ?_⟩
  · rcases hback e he with rfl | he
    · exact absurd hea (not_below_of_contains hx)
    · exact .inl he
  · rcases hback e he with rfl | he
    · exact absurd hea (not_above_of_contains hx)
    · exact .inl he

/-- **The walk that raises nothing.**  Each end is decided by the labels under the deepest
node that contains `a`. -/
theorem bounds_false_ends (h : WF key full t) (hc : rootContains key (host a) t = true)
    (b : BitVec w × BitVec w) :
    Ends key full a b (beneath key a t) t.nodes (bounds key full false a b t) := by
  induction t generalizing b with
  | nil => simp [rootContains] at hc
  | node x l r ihl ihr =>
    rw [beneath]
    by_cases hl : rootContains key (host a) l = true
    · rw [if_pos hl, bounds_left hl]
      have hE := ihl h.2.2.2.1 hl b
      exact ⟨hE.lo_kept, fun hnot => (hE.lo_set hnot).of_left h hc (h.above_right hl),
        hE.hi_kept, fun hnot => (hE.hi_set hnot).of_left h hc⟩
    · by_cases hr : rootContains key (host a) r = true
      · rw [if_neg hl, if_pos hr, bounds_right h hr]
        have hE := ihr h.2.2.2.2 hr b
        exact ⟨hE.lo_kept, fun hnot => (hE.lo_set hnot).of_right h hc,
          hE.hi_kept, fun hnot => (hE.hi_set hnot).of_right h hc (h.below_left hr)⟩
      · rw [if_neg hl, if_neg hr]
        exact (bounds_end h (Bool.not_eq_true _ ▸ hl) (Bool.not_eq_true _ ▸ hr) b).of_children hc

/-- The upper bound does not depend on what happens to the lower one. -/
theorem bounds_snd (lo lo' hi : BitVec w) :
    (bounds key full true a (lo, hi) t).2 = (bounds key full false a (lo', hi) t).2 := by
  induction t generalizing lo lo' with
  | nil => rfl
  | node x l r ihl ihr =>
    rw [bounds, bounds]
    cases l.top with
    | none =>
      cases r.top with
      | none => rfl
      | some z =>
        simp only
        split_ifs
        · rfl
        · exact ihr lo lo'
        · rfl
    | some y =>
      cases r.top with
      | none =>
        simp only
        split_ifs
        · rfl
        · exact ihl lo lo'
        · rfl
      | some z =>
        simp only [if_true, Bool.false_eq_true, if_false]
        split_ifs
        · rfl
        · exact ihl lo lo'
        · rfl
        · exact ihr _ lo'
        · rfl

/-- **The walk that raises the lower bound** gets it right. -/
theorem bounds_true_fst (h : WF key full t) (hc : rootContains key (host a) t = true)
    (b : BitVec w × BitVec w) : PastHighest key full a t.nodes (bounds key full true a b t).1 ∨
      ((bounds key full true a b t).1 = b.1 ∧
        ∀ d ∈ t.nodes, full d = true → ¬ (key d).topAddr < a) := by
  induction t generalizing b with
  | nil => simp [rootContains] at hc
  | node x l r ihl ihr =>
    by_cases hl : rootContains key (host a) l = true
    · rw [bounds_left hl]
      rcases ihl h.2.2.2.1 hl b with hv | ⟨hkept, hnone⟩
      · exact .inl (hv.of_left h hc (h.above_right hl))
      · exact .inr ⟨hkept, fun d hd hf hlow =>
          hnone d (h.mem_left_of_below hc (h.above_right hl) hd hlow) hf hlow⟩
    · by_cases hr : rootContains key (host a) r = true
      · rw [bounds_right h hr, Bool.true_and]
        have hbelow := h.below_left hr
        rcases ihr h.2.2.2.2 hr _ with hv | ⟨hkept, hnone⟩
        · exact .inl (hv.of_right h hc)
        · -- nothing under the right child counts: what the turn has set stands
          rw [hkept]
          cases l with
          | nil =>
            refine .inr ⟨rfl, fun d hd hf => ?_⟩
            rcases mem_nodes_node.mp hd with rfl | hd | hd
            · exact not_below_of_contains hc
            · simp at hd
            · exact hnone d hd hf
          | node y ll lr =>
            refine .inl ?_
            obtain ⟨d, hd, hfd, hlow, hv, hmax⟩ := h.2.2.2.1.pastHighest_high (by simp) hbelow
            refine ⟨d, mem_nodes_node.mpr (.inr (.inl hd)), hfd, hlow, hv, ?_⟩
            intro e he hfe hlowe
            rcases mem_nodes_node.mp he with rfl | he | he
            · exact absurd hlowe (not_below_of_contains hc)
            · exact hmax e he hfe hlowe
            · exact absurd hlowe (hnone e he hfe)
      · have hE : Ends key full a b (l.nodes ++ r.nodes) (node x l r).nodes
            (bounds key full true a b (.node x l r)) :=
          (bounds_end h (Bool.not_eq_true _ ▸ hl) (Bool.not_eq_true _ ▸ hr) b).of_children hc
        by_cases hall : ∀ d ∈ l.nodes ++ r.nodes, a < (key d).maskedAddr
        · refine .inr ⟨hE.lo_kept hall, fun d hd _ => ?_⟩
          rcases mem_nodes_node.mp hd with rfl | hd
          · exact not_below_of_contains hc
          · exact fun hlow => not_above_of_below hlow (hall d (mem_append.mpr hd))
        · exact .inl (hE.lo_set hall)

/-! ### From the longest match -/

theorem rootContains_of_descend (hne : descend key sel k t ≠ .nil) :
    rootContains key k t = true := by
  cases t with
  | nil => contradiction
  | node x l r =>
    by_contra hc
    exact hne (if_neg hc)

/-- Where the walk down to the longest match ends: at the root, or under a child that
contains the key. -/
theorem descend_cases (hne : descend key sel k (.node x l r) ≠ .nil) :
    descend key sel k (.node x l r) = .node x l r ∨
      (rootContains key k l = true ∧ descend key sel k (.node x l r) = descend key sel k l) ∨
      (rootContains key k l = false ∧ rootContains key k r = true ∧
        descend key sel k (.node x l r) = descend key sel k r) := by
  have hx : (key x).contains k = true := rootContains_of_descend hne
  rw [descend_node, if_pos hx] at hne ⊢
  cases hd : descend key sel k (if rootContains key k l then l else r) with
  | nil =>
    simp only [hd] at hne ⊢
    exact .inl (if_pos (by_contra fun hs => hne (if_neg hs)))
  | node e el er =>
    by_cases hl : rootContains key k l = true
    · rw [if_pos hl] at hd
      exact .inr (.inl ⟨hl, hd.symm⟩)
    · rw [if_neg hl] at hd
      exact .inr (.inr ⟨Bool.not_eq_true _ ▸ hl, rootContains_of_descend (by rw [hd]; simp), hd.symm⟩)

theorem beneath_descend (hne : descend key sel (host a) t ≠ .nil) :
    beneath key a (descend key sel (host a) t) = beneath key a t := by
  induction t with
  | nil => contradiction
  | node x l r ihl ihr =>
    rcases descend_cases hne with heq | ⟨hl, heq⟩ | ⟨hl, hr, heq⟩
    · rw [heq]
    · rw [heq] at hne ⊢
      rw [ihl hne]
      exact (if_pos hl).symm
    · rw [heq] at hne ⊢
      rw [ihr hne, beneath, if_neg (by simp [hl]), if_pos hr]

/-- The labels at and under the longest match are those it contains. -/
theorem WF.mem_descend (h : WF key full t) {el er : BinTree α}
    (hd : descend key sel k t = .node e el er) :
    ∀ d, d ∈ (node e el er).nodes ↔ d ∈ t.nodes ∧ (key e).contains (key d) = true := by
  induction t with
  | nil => simp [descend] at hd
  | node x l r ihl ihr =>
    rcases descend_cases (show descend key sel k (.node x l r) ≠ .nil by rw [hd]; simp) with
      heq | ⟨-, heq⟩ | ⟨-, -, heq⟩
    · rw [heq] at hd
      obtain ⟨rfl, rfl, rfl⟩ := node.inj hd
      exact fun d => ⟨fun hmem => ⟨hmem, h.root_contains hmem⟩, And.left⟩
    · have ih := ihl h.2.2.2.1 (heq ▸ hd)
      intro d
      rw [ih, mem_nodes_node]
      constructor
      · exact fun hmem => ⟨.inr (.inl hmem.1), hmem.2⟩
      · rintro ⟨hmem, hcont⟩
        have hin := (h.1 e ((ih e).mp (by simp)).1).of_contains hcont
        rcases hmem with rfl | hmem | hmem
        · exact absurd rfl hin.ne
        · exact ⟨hmem, hcont⟩
        · exact absurd (h.2.1 d hmem) hin.not_inRight
    · have ih := ihr h.2.2.2.2 (heq ▸ hd)
      intro d
      rw [ih, mem_nodes_node]
      constructor
      · exact fun hmem => ⟨.inr (.inr hmem.1), hmem.2⟩
      · rintro ⟨hmem, hcont⟩
        have hin := (h.2.1 e ((ih e).mp (by simp)).1).of_contains hcont
        rcases hmem with rfl | hmem | hmem
        · exact absurd rfl hin.ne
        · exact absurd hin (h.1 d hmem).not_inRight
        · exact ⟨hmem, hcont⟩

/-- The longest match, or else the whole space. -/
def cover (key : α → IPNet w) (full : α → Bool) (a : BitVec w) (t : BinTree α) : IPNet w :=
  ((find key full (IPNet.host a) t).map key).getD (IPNet.any w)

theorem cover_contains_iff : (cover key full a t).contains n = true ↔
    ∀ e, find key full (host a) t = some e → (key e).contains n = true := by
  rw [cover]
  cases find key full (host a) t with
  | none => simp [any_contains]
  | some e => simp

/-- The walk starts at the longest match, or else at the root. -/
theorem findBounds_walk (h : WF key full t) (hc : rootContains key (host a) t = true) :
    ∃ u, WF key full u ∧ rootContains key (host a) u = true ∧ beneath key a u = beneath key a t ∧
      (∀ d, d ∈ u.nodes ↔ d ∈ t.nodes ∧ (cover key full a t).contains (key d) = true) ∧
      ∀ raise, findBounds key full raise a t = bounds key full raise a
        ((cover key full a t).maskedAddr, (cover key full a t).topAddr) u := by
  unfold findBounds cover
  cases hd : descend key full (host a) t with
  | node e el er =>
    have hne : descend key full (host a) t ≠ .nil := by rw [hd]; simp
    have hfind : find key full (host a) t = some e := by rw [← top_descend, hd]; rfl
    obtain ⟨c, hplug⟩ := exists_descend (host a) t hne
    have hsub : WF key full (.node e el er) := by
      rw [hplug, hd] at h
      exact h.focus
    rw [hfind]
    exact ⟨_, hsub, (find_longest h hfind).contains, hd ▸ beneath_descend hne, h.mem_descend hd,
      fun _ => rfl⟩
  | nil =>
    have hfind : find key full (host a) t = none := by rw [← top_descend, hd]; rfl
    rw [hfind]
    refine ⟨t, h, hc, rfl, fun d => (and_iff_left any_contains).symm, fun raise => ?_⟩
    cases t with
    | nil => simp [rootContains] at hc
    | node x l r => exact bounds_left (x := x) (r := .nil) hc (_, _)

/-- An address outside the root is on one side of everything. -/
theorem findBounds_beside (hc : ¬ rootContains key (host a) (.node x l r) = true) :
    findBounds key full raise a (.node x l r) = if a < (key x).maskedAddr then
        ((any w).maskedAddr, low key full (.node x l r) - 1)
      else (high key full (.node x l r) + 1, (any w).topAddr) := by
  have hd : descend key full (host a) (.node x l r) = .nil := by
    rw [descend, if_neg (show ¬ (key x).contains (host a) = true from hc)]
  have hE := not_and.mp ((contains_host_eq (key x) a).not.mp hc)
  rw [findBounds, hd]
  simp only [defaultBounds]
  rw [bounds]
  by_cases h1 : a < (key x).maskedAddr
  · simp only [top_node, top_nil, h1, if_true]
  · simp only [top_node, top_nil, h1, hE h1, if_false]

/-! ### Where the two walks differ -/

/-- The walk that does not raise the lower bound leaves it too low: it keeps the bound it
started with, under the deepest node that contains `a`, and has passed a stored prefix
below `a` that lies in the longest match. -/
def MissesLow (key : α → IPNet w) (full : α → Bool) (a : BitVec w) (t : BinTree α) : Prop :=
  rootContains key (IPNet.host a) t = true ∧
    (∀ x ∈ beneath key a t, a < (key x).maskedAddr) ∧
    ∃ d ∈ t.nodes, full d = true ∧ (key d).topAddr < a ∧
      ∀ e, find key full (IPNet.host a) t = some e → (key e).contains (key d) = true

theorem topAddr_add_one_ne {lo : BitVec w} (ha : n.topAddr < a) (hlo : lo ≤ n.maskedAddr) :
    n.topAddr + 1 ≠ lo := by
  intro hc
  have hpos := n.size_pos
  have hle : lo.toNat ≤ n.lo := le_def.mp hlo
  rw [← hc, toNat_topAddr_add_one ha] at hle
  omega

theorem bounds_agree_iff (h : WF key full t) (hc : rootContains key (host a) t = true)
    (b : BitVec w × BitVec w) (hb : ∀ d ∈ t.nodes, b.1 ≤ (key d).maskedAddr) :
    bounds key full true a b t = bounds key full false a b t ↔
      ¬ ((∀ x ∈ beneath key a t, a < (key x).maskedAddr) ∧
        ∃ d ∈ t.nodes, full d = true ∧ (key d).topAddr < a) := by
  rw [Prod.ext_iff, and_iff_left (bounds_snd b.1 b.1 b.2)]
  have hE := bounds_false_ends h hc b
  by_cases hall : ∀ x ∈ beneath key a t, a < (key x).maskedAddr
  · rw [hE.lo_kept hall]
    rcases bounds_true_fst h hc b with ⟨d, hd, hfd, hlow, hv, -⟩ | ⟨hkept, hnone⟩
    · rw [hv]
      exact iff_of_false (topAddr_add_one_ne hlow (hb d hd)) fun hnot =>
        hnot ⟨hall, d, hd, hfd, hlow⟩
    · exact iff_of_true hkept fun ⟨_, d, hd, hfd, hlow⟩ => hnone d hd hfd hlow
  · refine iff_of_true ?_ fun hboth => hall hboth.1
    have hset := hE.lo_set hall
    rcases bounds_true_fst h hc b with hv | ⟨-, hnone⟩
    · exact hv.unique hset
    · obtain ⟨d, hd, hfd, hlow, -⟩ := hset
      exact absurd hlow (hnone d hd hfd)

/-- **The two walks differ exactly where the lower bound is missed.** -/
theorem findBounds_agree_iff (h : WF key full t) (a : BitVec w) :
    findBounds key full true a t = findBounds key full false a t ↔ ¬ MissesLow key full a t := by
  unfold MissesLow
  by_cases hc : rootContains key (host a) t = true
  · obtain ⟨u, hu, hcu, hbeneath, hmem, hwalk⟩ := findBounds_walk h hc
    rw [hwalk, hwalk, bounds_agree_iff hu hcu _ fun d hd =>
      maskedAddr_le_of_contains ((hmem d).mp hd).2, hbeneath]
    simp only [hmem, cover_contains_iff, hc, true_and]
    refine not_congr (and_congr_right' (exists_congr fun d => ?_))
    constructor
    · rintro ⟨⟨hd, hcont⟩, hfd, hlow⟩
      exact ⟨hd, hfd, hlow, hcont⟩
    · rintro ⟨hd, hfd, hlow, hcont⟩
      exact ⟨⟨hd, hcont⟩, hfd, hlow⟩
  · refine iff_of_true ?_ fun hm => hc hm.1
    cases t with
    | nil => rfl
    | node x l r => rw [findBounds_beside hc, findBounds_beside hc]

end

end PrefixTree

end Xorp

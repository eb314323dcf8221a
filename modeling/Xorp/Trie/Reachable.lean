/-
The answers of every trie that can come about.

After any insertions and removals the tree of a `Trie` is a prefix tree, and each search
is a function of it.  What a caller knows is only which prefixes are stored.  In those
terms `find` and `find_less_specific` are longest matches, and the iterations visit what
lies inside their key, in order.  `lower_bound` is another matter: it never looks at the
nodes it climbs through, so it finds the next stored prefix only if that is not one of
them.  The tree itself says no more than its entries: it does not depend on the order of
the calls, and it has less than two nodes for each entry.
-/
import Xorp.Trie.Queries

namespace Xorp

open Linked Spine PrefixTree BinTree IPNet Option List

variable {w : Nat} {P : Type} {α : Type}

/-! ### Longest matches -/

section
variable {n k : IPNet w} (hk : k.prefixLen ≠ 0)
include hk

theorem parentKey_contains : (parentKey k).contains k = true := by
  have hlen : (parentKey k).prefixLen = k.prefixLen - 1 := rfl
  rw [IPNet.contains, if_neg (by omega), if_neg (by omega)]
  exact beq_self_eq_true _

theorem contains_parentKey :
    n.contains (parentKey k) = true ↔ n.contains k = true ∧ n.prefixLen < k.prefixLen := by
  have hlen : (parentKey k).prefixLen = k.prefixLen - 1 := rfl
  constructor
  · intro h
    refine ⟨contains_trans h (parentKey_contains hk), ?_⟩
    by_cases heq : n = parentKey k
    · rw [heq, hlen]
      omega
    · have hlt := prefixLen_lt_of_contains h heq
      omega
  · rintro ⟨h, hlt⟩
    rcases contains_or_contains h (parentKey_contains hk) with hn | hp
    · exact hn
    · by_cases heq : parentKey k = n
      · rw [heq, contains_refl]
      · have hlt' := prefixLen_lt_of_contains hp heq
        omega

end

namespace Trie

/-- The entry of the longest stored prefix of a kind, if there is one. -/
def IsLongest (T : Trie w P) (Q : IPNet w → Prop) : Option (IPNet w × P) → Prop
  | none => ∀ n p, T.Has n p → ¬ Q n
  | some (n, p) =>
      T.Has n p ∧ Q n ∧ ∀ m q, T.Has m q → Q m → m ≠ n → m.prefixLen < n.prefixLen

section
variable {T : Trie w P} {s : Shape w P} {k : IPNet w} {p : P}

theorem Shaped.wf (h : Shaped T s) : s.WF := by
  obtain ⟨t, R, rfl⟩ := h
  exact wf_shape.mpr R.wf

theorem Shaped.has_iff (h : Shaped T s) : T.Has k p ↔ (k, some p) ∈ s.nodes := by
  obtain ⟨t, R, rfl⟩ := h
  rw [R.has_iff, shape, nodes_map, List.mem_map]
  simp only [nodeEntry, Prod.mk.injEq]
  rfl

/-- `find` gives a node with a payload, or nothing. -/
theorem Shaped.isLongest_find (h : Shaped T s) {Q : IPNet w → Prop}
    (hQ : ∀ n, n.contains k = true ↔ Q n) :
    ∃ o, (s.find k).map some = o.map (fun e => some (e.1, some e.2)) ∧ T.IsLongest Q o := by
  cases hf : s.find k with
  | none =>
    refine ⟨none, rfl, ?_⟩
    intro n p hn hq
    have hno := (find_eq_none h.wf).mp hf _ (h.has_iff.mp hn) rfl
    exact absurd ((hQ n).mpr hq) (by rw [hno]; simp)
  | some e =>
    have hl := find_longest h.wf hf
    obtain ⟨n, _ | p⟩ := e
    · exact absurd hl.stored (by simp [Shape.full])
    refine ⟨some (n, p), rfl, h.has_iff.mpr hl.mem, (hQ n).mp hl.contains, ?_⟩
    intro m q hm hq hne
    exact prefixLen_lt_of_contains (hl.longest _ (h.has_iff.mp hm) rfl ((hQ m).mpr hq)) hne

end

/-- What insertions and removals leave behind, whichever keys they name. -/
theorem exists_run (ops : List (Op w P)) :
    ∃ T, empty.run ops = .ok T ∧ Shaped T (Shape.run .nil ops) :=
  run_shaped ops ⟨.nil, Represents.empty, rfl⟩

/-- **The lookups are longest-prefix matches**, in every trie that can come about. -/
theorem run_longest (ops : List (Op w P)) : ∃ T, empty.run ops = .ok T ∧ ∀ k,
    (∃ o, (T.find k).map T.entry = .ok (o.map fun e => some (e.1, some e.2)) ∧
      T.IsLongest (fun n => n.contains k = true) o) ∧
    ∃ o, (T.findLessSpecific k).map T.entry = .ok (o.map fun e => some (e.1, some e.2)) ∧
      T.IsLongest (fun n => n.contains k = true ∧ n.prefixLen < k.prefixLen) o := by
  obtain ⟨T, hrun, hT⟩ := exists_run ops
  refine ⟨T, hrun, fun k => ?_⟩
  obtain ⟨t, R, hs⟩ := id hT
  rw [find_entry R, findLessSpecific_entry R, hs, Shape.findLessSpecific]
  simp only [Except.ok.injEq]
  refine ⟨hT.isLongest_find fun n => Iff.rfl, ?_⟩
  by_cases hk : k.prefixLen = 0
  · refine ⟨none, by rw [if_pos hk]; rfl, ?_⟩
    intro n p _ hq
    omega
  · rw [if_neg hk]
    exact hT.isLongest_find fun n => contains_parentKey hk

end Trie

/-! ### Iterations -/

namespace PrefixTree

section
variable {key : α → IPNet w} {full : α → Bool} {k : IPNet w} {t : BinTree α} {b : α}

/-- What lies inside the key is all in one subtree. -/
theorem WF.mem_subtreeAt (h : WF key full t) (hb : b ∈ t.nodes) (hkb : k.contains (key b) = true) :
    b ∈ (subtreeAt key k t).nodes := by
  induction t with
  | nil => simp at hb
  | node a l r ihl ihr =>
    obtain ⟨hl, hr, -, hwl, hwr⟩ := id h
    rw [subtreeAt]
    by_cases hka : k.contains (key a) = true
    · rw [if_pos hka]
      exact hb
    have hab := h.root_contains hb
    have hak : (key a).contains k = true := (contains_or_contains hab hkb).resolve_right hka
    -- the key, and so what is inside it, lies in one half
    rw [if_neg hka, if_pos hak]
    rcases mem_nodes_node.mp hb with rfl | hb | hb
    · contradiction
    · have hk : ¬ (key a).InRight k := fun hk => (hl b hb).not_inRight (hk.of_contains hkb)
      by_cases hcl : rootContains key k l = true
      · rw [if_pos hcl]
        exact ihl hwl hb
      · rw [if_neg hcl, if_neg fun hcr => hk (h.inRight hcr),
          if_pos (hwl.rootInside_of_mem (Bool.eq_false_iff.mpr hcl) hb hkb)]
        exact hb
    · have hk : ¬ (key a).InLeft k := fun hk => (hk.of_contains hkb).not_inRight (hr b hb)
      have hkr : (key a).InRight k :=
        (inLeft_or_inRight hak fun heq => hka (heq ▸ contains_refl)).resolve_left hk
      rw [if_neg fun hcl => hk (h.inLeft hcl)]
      by_cases hcr : rootContains key k r = true
      · rw [if_pos hcr]
        exact ihr hwr hb
      · have hil : ¬ rootInside key k l = true := by
          intro hil
          cases l with
          | nil => simp [rootInside] at hil
          | node x _ _ =>
            exact (hl x (mem_nodes_node.mpr (.inl rfl))).not_inRight (hkr.of_contains hil)
        rw [if_neg hcr, if_neg hil,
          if_pos (hwr.rootInside_of_mem (Bool.eq_false_iff.mpr hcr) hb hkb)]
        exact hb

theorem rootInside_subtreeAt (hne : subtreeAt key k t ≠ .nil) :
    rootInside key k (subtreeAt key k t) = true := by
  induction t with
  | nil => contradiction
  | node a l r ihl ihr =>
    rw [subtreeAt] at hne ⊢
    split_ifs at hne ⊢ with hka hak hcl hcr hil hir
    · exact hka
    · exact ihl hne
    · exact ihr hne
    · exact hil
    · exact hir
    all_goals contradiction

/-- **An iteration of the key visits what is stored inside it.** -/
theorem WF.mem_visits (h : WF key full t) : b ∈ visits key full k t (subtreeStart key k t) ↔
    b ∈ t.nodes ∧ full b = true ∧ k.contains (key b) = true := by
  rw [subtreeStart]
  by_cases hne : subtreeAt key k t = .nil
  · have hno : b ∈ t.nodes → ¬ k.contains (key b) = true := by
      intro hb hkb
      have hmem := h.mem_subtreeAt hb hkb
      rw [hne] at hmem
      simp at hmem
    rw [hne]
    exact ⟨fun hb => absurd hb (by simp [visits, leftmost]), fun hb => absurd hb.2.2 (hno hb.1)⟩
  obtain ⟨c, hplug, -⟩ := exists_subtreeAt hne
  obtain ⟨f, hf⟩ := exists_leftmost hne
  obtain ⟨rest, hsub⟩ : ∃ rest, (subtreeAt key k t).nodes = f :: rest :=
    head?_eq_some_iff.mp (leftmost_eq_head? ▸ hf)
  have hw : WF key full (subtreeAt key k t) := (hplug ▸ h : WF key full (plug c _)).focus
  have hin := fun d (hd : d ∈ f :: rest) =>
    hw.inside_of_rootInside (rootInside_subtreeAt hne) (hsub ▸ hd)
  have hsplit : t.nodes = before c ++ f :: (rest ++ after c) := by
    rw [hplug, nodes_plug, hsub]
    simp
  rw [hf, h.visits_split hsplit, takeWhile_append_of_pos fun d hd =>
    hin d (mem_cons_of_mem f hd), mem_cons, mem_filter, mem_append]
  constructor
  · rintro (rfl | ⟨hb | hb, hfull⟩)
    · exact ⟨by simp [hsplit], hw.full_of_first hsub, hin b mem_cons_self⟩
    · exact ⟨by simp [hsplit, hb], hfull, hin b (mem_cons_of_mem f hb)⟩
    · have hmem := ( takeWhile_prefix _).subset hb
      have hkb := mem_takeWhile_imp hb
      exact ⟨by simp [hsplit, hmem], hfull, hkb⟩
  · rintro ⟨hb, hfull, hkb⟩
    have hmem := h.mem_subtreeAt hb hkb
    rw [hsub, mem_cons] at hmem
    exact hmem.imp_right fun hm => ⟨.inl hm, hfull⟩

theorem WF.visits_sorted (h : WF key full t) (start : Option α) :
    (visits key full k t start).Pairwise fun a b => (key a).lt (key b) = true := by
  cases start with
  | none => exact .nil
  | some f =>
    have hdrop := h.sorted.sublist (dropWhile_sublist fun b => key b ≠ key f)
    rw [visits]
    cases hd : t.nodes.dropWhile fun b => key b ≠ key f with
    | nil => exact .nil
    | cons a rest =>
      rw [hd] at hdrop
      exact hdrop.sublist ((filter_sublist.trans (takeWhile_sublist _)).cons_cons a)

end

end PrefixTree

namespace Trie

/-- `begin()`. -/
def begin (T : Trie w P) : Except Fault (Iterator w) := T.subtreeIterator (IPNet.any w) T.heap.root

/-- The key sequence of the whole trie. -/
def allKeys (T : Trie w P) : Except Fault (List (IPNet w)) := do
  T.keysLoop T.heap.bound (← T.begin)

/-- It is the subtree of the default route. -/
theorem allKeys_eq {T : Trie w P} {t : BinTree (Nat × Node w P Unit)} (R : Represents T t) :
    T.allKeys = T.subtreeKeys (IPNet.any w) := by
  rw [allKeys, subtreeKeys, begin, searchSubtree, Mem.findSubtree_eq R.holds R.root, R.root]
  cases t with
  | nil => rfl
  | node a l r =>
    rw [subtreeAt, if_pos any_contains]
    rfl

theorem Shaped.subtreeKeys_spec {T : Trie w P} {s : Shape w P} (h : Shaped T s) (k : IPNet w) :
    ∃ ks, T.subtreeKeys k = .ok ks ∧ ks.Pairwise (fun m n => m.lt n = true) ∧
      ∀ n, n ∈ ks ↔ k.contains n = true ∧ ∃ p, T.Has n p := by
  obtain ⟨t, R, hs⟩ := id h
  refine ⟨_, subtreeKeys_eq R k, ?_, fun n => ?_⟩
  · rw [hs, Shape.subtreeKeys, pairwise_map]
    exact h.wf.visits_sorted _
  · rw [hs, Shape.subtreeKeys, List.mem_map]
    simp only [h.has_iff, h.wf.mem_visits]
    constructor
    · rintro ⟨⟨n, _ | p⟩, ⟨hm, hf, hk⟩, rfl⟩
      · simp [Shape.full] at hf
      · exact ⟨hk, p, hm⟩
    · rintro ⟨hk, p, hm⟩
      exact ⟨_, ⟨hm, rfl, hk⟩, rfl⟩

/-- **The iterations are complete and in order**, in every trie that can come about. -/
theorem run_iterates (ops : List (Op w P)) : ∃ T, empty.run ops = .ok T ∧
    (∀ k, ∃ ks, T.subtreeKeys k = .ok ks ∧ ks.Pairwise (fun m n => m.lt n = true) ∧
      ∀ n, n ∈ ks ↔ k.contains n = true ∧ ∃ p, T.Has n p) ∧
    ∃ ks, T.allKeys = .ok ks ∧ ks.Pairwise (fun m n => m.lt n = true) ∧
      ∀ n, n ∈ ks ↔ ∃ p, T.Has n p := by
  obtain ⟨T, hrun, hT⟩ := exists_run ops
  refine ⟨T, hrun, hT.subtreeKeys_spec, ?_⟩
  obtain ⟨t, R, -⟩ := id hT
  rw [allKeys_eq R]
  obtain ⟨ks, hks, hsorted, hmem⟩ := hT.subtreeKeys_spec (IPNet.any w)
  refine ⟨ks, hks, hsorted, fun n => ?_⟩
  rw [hmem, any_contains]
  simp

end Trie

/-! ### `lower_bound` -/

namespace PrefixTree

section
variable (key : α → IPNet w) (full : α → Bool) (k : IPNet w)

/-- The first stored label that is not before the key. -/
def nextStored (t : BinTree α) : Option α := (t.nodes.filter full).find? fun b => !(key b).lt k

/-- Down into the child around the key, as long as there is one. -/
def around : BinTree α → BinTree α
  | .nil => .nil
  | .node x l r =>
      if rootContains key k l then around l else if rootContains key k r then around r
      else .node x l r

/-- Does the root of this tree come after the key? -/
def rootAfter (t : BinTree α) : Bool := t.top.any fun b => k.lt (key b)

/-- Where `lower_bound` goes right.  The key's own node is stored, or there is none, and at the node
where the way down to the key ends a child comes after the key; or else that node is the root, and
not stored or before the key, or it is another one without children. -/
def BoundFound (t : BinTree α) : Prop :=
  match lookup key (fun _ => true) k t with
  | some d => full d = true
  | none =>
      match around key k t with
      | .nil => False
      | .node g l r => (rootAfter key k l || rootAfter key k r) = true ∨
          if t.top.map key = some (key g) then full g = true → (key g).lt k = true
          else l = .nil ∧ r = .nil

end

section
variable {key : α → IPNet w} {full : α → Bool} {k : IPNet w} {t u l r : BinTree α} {g x : α}

theorem beside_eq : beside key k l r = if rootAfter key k l then l.leftmost
    else if rootAfter key k r then r.leftmost else none := rfl

theorem nextStored_node : nextStored key full k (.node x l r) = (nextStored key full k l).or
    ((nextStored key full k r).or (if full x && !(key x).lt k then some x else none)) := by
  cases hx : full x <;> simp [nextStored, hx, find?_singleton]

theorem nextStored_eq_none (h : ∀ b ∈ t.nodes, (key b).lt k = true) :
    nextStored key full k t = none := by
  rw [nextStored, find?_eq_none]
  intro b hb
  simp [h b (mem_of_mem_filter hb)]

/-- A subtree that does not reach around the key comes after it as a whole, or before it. -/
theorem WF.aside (h : WF key full u) (hc : rootContains key k u = false)
    (hk : ∀ b ∈ u.nodes, key b ≠ k) :
    (rootAfter key k u = true ∧ ∃ f, u.leftmost = some f ∧ nextStored key full k u = some f) ∨
    (rootAfter key k u = false ∧ ∀ b ∈ u.nodes, (key b).lt k = true) := by
  cases u with
  | nil => simp [rootAfter]
  | node y l r =>
    rcases lt_trichotomy (key y) k with hlt | heq | hlt
    · refine .inr ⟨lt_asymm hlt, fun b hb => ?_⟩
      by_cases hyb : key y = key b
      · rw [← hyb, hlt]
      · exact lt_trans (lt_of_strict (h.root_contains hb) hyb) hlt
    · exact absurd heq (hk y (by simp))
    · have hbelow : k.Below (key y) := by
        rcases nested_or_disjoint (key y) k with hyk | hky | hb | hb
        · simp [rootContains, hyk] at hc
        · exact absurd (lt_asymm hlt) (by simp [lt_of_strict hky (hk y (by simp)).symm])
        · exact absurd (lt_asymm hlt) (by simp [hb.lt])
        · exact hb
      obtain ⟨f, hf⟩ := exists_leftmost (t := node y l r) (by simp)
      obtain ⟨rest, hrest⟩ := head?_eq_some_iff.mp (leftmost_eq_head? ▸ hf)
      have hfk : k.lt (key f) = true := Below.lt (Nat.le_trans hbelow
        (contains_iff.mp (h.root_contains (mem_of_leftmost hf))).1)
      exact .inl ⟨hlt, f, hf, by simp [nextStored, hrest, h.full_of_first hrest, lt_asymm hfk]⟩

/-- At a node with no child around the key. -/
theorem WF.nextStored_end (h : WF key full (.node g l r)) (hl : rootContains key k l = false)
    (hr : rootContains key k r = false) (hk : ∀ b ∈ (node g l r).nodes, key b ≠ k) :
    nextStored key full k (.node g l r) = (beside key k l r).or
      (if full g && !(key g).lt k then some g else none) ∧
    (rootAfter key k l || rootAfter key k r) = (beside key k l r).isSome ∧
    (beside key k l r = none → ∀ b ∈ l.nodes ++ r.nodes, (key b).lt k = true) := by
  have hkl := h.2.2.2.1.aside hl fun b hb => hk b (by simp [hb])
  have hkr := h.2.2.2.2.aside hr fun b hb => hk b (by simp [hb])
  rw [nextStored_node, beside_eq]
  rcases hkl with ⟨hal, f, hf, hn⟩ | ⟨hal, hlb⟩
  · simp [hal, hf, hn]
  rw [nextStored_eq_none hlb]
  rcases hkr with ⟨har, f, hf, hn⟩ | ⟨har, hrb⟩
  · simp [hal, har, hf, hn]
  · rw [nextStored_eq_none hrb]
    simp only [hal, har, mem_append]
    exact ⟨rfl, rfl, fun _ b hb => hb.elim (hlb b) (hrb b)⟩

/-- The node where the way down to the key ends, and the climb from there. -/
structure StopsAt (key : α → IPNet w) (full : α → Bool) (k : IPNet w) (t : BinTree α) (g : α)
    (l r : BinTree α) : Prop where
  stop : around key k t = .node g l r
  wf : WF key full (.node g l r)
  left : rootContains key k l = false
  right : rootContains key k r = false
  mem : ∀ b ∈ (BinTree.node g l r).nodes, b ∈ t.nodes
  climb : (t = .node g l r ∧ upward key k t = beside key k l r) ∨
    (t.top.map key ≠ some (key g) ∧ k.lt (key g) = true ∧
      upward key k t = (beside key k l r).or (BinTree.node g l r).leftmost ∧
      ∃ z, nextStored key full k t = (nextStored key full k (.node g l r)).or z)

theorem StopsAt.up (hE : StopsAt key full k u g l r) (hd : around key k t = around key k u)
    (hsub : ∀ b ∈ u.nodes, b ∈ t.nodes ∧ t.top.map key ≠ some (key b))
    (hu : rootAfter key k u = true) (hup : upward key k t = (upward key k u).or u.leftmost)
    {z : Option α} (hz : nextStored key full k t = (nextStored key full k u).or z) :
    StopsAt key full k t g l r := by
  obtain ⟨f, hf⟩ := exists_leftmost (t := node g l r) (by simp)
  refine ⟨hd.trans hE.stop, hE.wf, hE.left, hE.right, fun b hb => (hsub b (hE.mem b hb)).1,
    .inr ⟨(hsub g (hE.mem g (by simp))).2, ?_⟩⟩
  rcases hE.climb with ⟨rfl, hc⟩ | ⟨-, hg, hc, z', hz'⟩
  · exact ⟨hu, by rw [hup, hc], z, hz⟩
  · exact ⟨hg, by rw [hup, hc, Option.or_assoc, hf, Option.some_or], z'.or z,
      by rw [hz, hz', Option.or_assoc]⟩

theorem WF.exists_stopsAt (h : WF key full t) (hne : t ≠ .nil) (hk : ∀ b ∈ t.nodes, key b ≠ k) :
    ∃ g l r, StopsAt key full k t g l r := by
  induction t with
  | nil => contradiction
  | node x l r ihl ihr =>
    by_cases hl : rootContains key k l = true
    · cases l with
      | nil => simp [rootContains] at hl
      | node y yl yr =>
      have hy : rootAfter key k (node y yl yr) = true := lt_of_strict hl (hk y (by simp))
      obtain ⟨g, gl, gr, hE⟩ := ihl h.2.2.2.1 (by simp) fun b hb =>
        hk b (mem_nodes_node.mpr (.inr (.inl hb)))
      refine ⟨g, gl, gr, hE.up (by rw [around, if_pos hl]) (fun b hb => ⟨?_, fun heq => ?_⟩)
        hy (by simp [upward, hl, beside_eq, hy]) nextStored_node⟩
      · exact mem_nodes_node.mpr (.inr (.inl hb))
      · exact (h.1 b hb).ne (some.inj heq)
    by_cases hr : rootContains key k r = true
    · cases r with
      | nil => simp [rootContains] at hr
      | node y yl yr =>
      have hy : rootAfter key k (node y yl yr) = true := lt_of_strict hr (hk y (by simp))
      have hbefore := fun b hb => ((h.1 b hb).below (h.inRight hr)).lt
      have hnot : rootAfter key k l = false := by
        cases l with
        | nil => rfl
        | node a _ _ => exact lt_asymm (hbefore a (by simp))
      obtain ⟨g, gl, gr, hE⟩ := ihr h.2.2.2.2 (by simp) fun b hb =>
        hk b (mem_nodes_node.mpr (.inr (.inr hb)))
      refine ⟨g, gl, gr, hE.up (by rw [around, if_neg hl, if_pos hr])
        (fun b hb => ⟨?_, fun heq => ?_⟩) hy (by simp [upward, hl, hr, beside_eq, hy, hnot])
        (nextStored_node.trans (by rw [nextStored_eq_none hbefore, none_or]))⟩
      · exact mem_nodes_node.mpr (.inr (.inr hb))
      · exact (h.2.1 b hb).ne (some.inj heq)
    · exact ⟨x, l, r, by rw [around, if_neg hl, if_neg hr], h, by simpa using hl,
        by simpa using hr, fun _ => id, .inl ⟨rfl, by simp [upward, hl, hr]⟩⟩

theorem StopsAt.upward_iff (hE : StopsAt key full k t g l r) (hk : ∀ b ∈ t.nodes, key b ≠ k) :
    upward key k t = nextStored key full k t ↔ (rootAfter key k l || rootAfter key k r) = true ∨
      if t.top.map key = some (key g) then full g = true → (key g).lt k = true
      else l = .nil ∧ r = .nil := by
  obtain ⟨hend, hafter, hbefore⟩ :=
    hE.wf.nextStored_end hE.left hE.right fun b hb => hk b (hE.mem b hb)
  rw [hafter]
  rcases hE.climb with ⟨rfl, hc⟩ | ⟨htop, hg, hc, z, hz⟩
  · rw [hc, hend]
    cases beside key k l r <;> simp
  rw [hc, if_neg htop]
  cases hb : beside key k l r with
  | some f => simp [hz, hend, hb]
  | none =>
    obtain ⟨f, hf⟩ := exists_leftmost (t := node g l r) (by simp)
    rw [hf, none_or, or_iff_right (by simp)]
    constructor
    · intro heq
      have hfk := find?_some heq.symm
      have hout : f ∉ l.nodes ++ r.nodes := fun hm => by simp [hbefore hb f hm] at hfk
      cases l with
      | node y a b =>
        exact absurd (mem_append_left _ (mem_of_leftmost (t := node y a b) hf)) hout
      | nil =>
        cases r with
        | node y a b =>
          exact absurd (mem_append_right _ (mem_of_leftmost (t := node y a b) hf)) hout
        | nil => exact ⟨rfl, rfl⟩
    · rintro ⟨rfl, rfl⟩
      obtain rfl : g = f := some.inj hf
      simp [hz, hend, hb, lt_asymm hg, hE.wf.2.2.1.resolve_right (by simp)]

/-- From a node that is not stored the search starts over, and ends before the key. -/
theorem WF.tail_ne_nextStored (h : WF key full t) (hg : g ∈ t.nodes) (hf : ¬ full g = true) :
    t.nodes.tail.find? full ≠ nextStored key full (key g) t := by
  obtain ⟨c, l, r, rfl⟩ := exists_plug hg
  obtain ⟨-, -, hglue, hwl, hwr⟩ := h.focus
  obtain ⟨hl, hr⟩ := hglue.resolve_left hf
  obtain ⟨d, hd⟩ := exists_leftmost hr
  obtain ⟨hdr, hfd⟩ := hwr.leftmost_mem hd
  obtain ⟨b, xs, hxs⟩ : ∃ b xs, before c ++ l.nodes = b :: xs :=
    exists_cons_of_ne_nil (by simp [nodes_eq_nil, hl])
  have hnodes : (plug c (node g l r)).nodes = b :: (xs ++ r.nodes) ++ g :: after c := by
    rw [nodes_plug, nodes_node, ← cons_append, ← hxs]
    simp
  have hsorted := h.sorted
  rw [hnodes, pairwise_append] at hsorted
  intro heq
  rw [hnodes, cons_append, tail_cons, find?_append] at heq
  cases hfind : (xs ++ r.nodes).find? full with
  | none => exact absurd hfd (find?_eq_none.mp hfind d (mem_append_right _ hdr))
  | some e =>
    rw [hfind, some_or] at heq
    have hlt := hsorted.2.2 e (mem_cons_of_mem b (mem_of_find?_eq_some hfind)) g (by simp)
    simpa [hlt] using find?_some heq.symm

/-- **`lower_bound` goes right exactly there.** -/
theorem WF.lowerBound_iff (h : WF key full t) (hne : t ≠ .nil) :
    lowerBound key full k t = nextStored key full k t ↔ BoundFound key full k t := by
  rw [lowerBound, BoundFound]
  cases hlook : lookup key (fun _ => true) k t with
  | some d =>
    obtain ⟨hd, -, rfl⟩ := (lookup_eq_some h).mp hlook
    by_cases hf : full d = true
    · simp only [hf, if_true, iff_true]
      obtain ⟨xs, ys, hxy⟩ := append_of_mem hd
      have hsorted := h.sorted
      rw [hxy, pairwise_append] at hsorted
      rw [nextStored, hxy, filter_append, find?_append, find?_eq_none.mpr fun b hb =>
        by simp [hsorted.2.2 b (mem_of_mem_filter hb) d (by simp)]]
      simp [hf, lt_irrefl]
    · simp only [hf, Bool.false_eq_true, if_false, iff_false]
      exact h.tail_ne_nextStored hd hf
  | none =>
    have hk : ∀ b ∈ t.nodes, key b ≠ k := fun b hb hbk => by
      rw [(lookup_eq_some h).mpr ⟨hb, rfl, hbk⟩] at hlook
      cases hlook
    obtain ⟨g, l, r, hE⟩ := h.exists_stopsAt hne hk
    rw [hE.upward_iff hk, hE.stop]

/-- An iteration of the default route visits all that is stored. -/
theorem WF.visits_any (h : WF key full t) :
    visits key full (any w) t (subtreeStart key (any w) t) = t.nodes.filter full := by
  cases t with
  | nil => rfl
  | node a l r =>
    obtain ⟨f, hf⟩ := exists_leftmost (t := node a l r) (by simp)
    obtain ⟨rest, hrest⟩ := head?_eq_some_iff.mp (leftmost_eq_head? ▸ hf)
    rw [subtreeStart, subtreeAt, if_pos any_contains, hf,
      h.visits_split (show _ = [] ++ f :: rest from hrest), hrest,
      filter_cons_of_pos (h.full_of_first hrest),
      takeWhile_eq_self_iff.mpr fun b _ => any_contains]

/-! ### The tree in memory -/

section
variable {a b : α} (h : WF key full (.node a l r))
include h

/-- The root is the least prefix around what is stored. -/
theorem WF.root_least
    (hk : ∀ b ∈ (node a l r).nodes, full b = true → k.contains (key b) = true) :
    k.contains (key a) = true := by
  obtain ⟨hl, hr, hf | ⟨hnl, hnr⟩, hwl, hwr⟩ := h
  · exact forall_root hk hf
  · obtain ⟨x, hx, hfx, -⟩ := hwl.exists_high hnl
    obtain ⟨y, hy, hfy, -⟩ := hwr.exists_high hnr
    have hkx := forall_left hk x hx hfx
    have hky := forall_right hk y hy hfy
    by_contra hka
    have hak := (contains_or_contains hkx (hl x hx).contains).resolve_left hka
    have hne : key a ≠ k := fun he => hka (he ▸ contains_refl)
    -- `k` would lie in one half, with a stored prefix of the other
    rcases inLeft_or_inRight hak hne with hin | hin
    · exact (hin.of_contains hky).not_inRight (hr y hy)
    · exact (hl x hx).not_inRight (hin.of_contains hkx)

theorem WF.mem_left_iff : b ∈ l.nodes ↔ b ∈ (node a l r).nodes ∧ (key a).InLeft (key b) := by
  rw [mem_nodes_node]
  refine ⟨fun hb => ⟨.inr (.inl hb), h.1 b hb⟩, ?_⟩
  rintro ⟨rfl | hb | hb, hin⟩
  · exact absurd rfl hin.ne
  · exact hb
  · exact absurd (h.2.1 b hb) hin.not_inRight

theorem WF.mem_right_iff : b ∈ r.nodes ↔ b ∈ (node a l r).nodes ∧ (key a).InRight (key b) := by
  rw [mem_nodes_node]
  refine ⟨fun hb => ⟨.inr (.inr hb), h.2.1 b hb⟩, ?_⟩
  rintro ⟨rfl | hb | hb, hin⟩
  · exact absurd rfl hin.ne
  · exact absurd hin (h.1 b hb).not_inRight
  · exact hb

end

/-- **A tree is determined by what it stores**, if the labels that store nothing are. -/
theorem WF.ext (h : WF key full t) (h' : WF key full u)
    (hs : ∀ b, full b = true → (b ∈ t.nodes ↔ b ∈ u.nodes))
    (hglue : ∀ a b, full a = false → full b = false → key a = key b → a = b) : t = u := by
  induction t generalizing u with
  | nil =>
    by_contra hne
    obtain ⟨d, hd, hf, -⟩ := h'.exists_high (Ne.symm hne)
    cases (hs d hf).mpr hd
  | node a l r ihl ihr =>
    cases u with
    | nil =>
      obtain ⟨d, hd, hf, -⟩ := h.exists_high (by simp)
      cases (hs d hf).mp hd
    | node b l' r' =>
      have hkey : key a = key b := by
        refine contains_antisymm ?_ ?_
        · exact h'.root_least fun d hd hf => h.root_contains ((hs d hf).mpr hd)
        · exact h.root_least fun d hd hf => h'.root_contains ((hs d hf).mp hd)
      have hroot : a = b := by
        have ha : a ∈ (node a l r).nodes := by simp
        have hb : b ∈ (node b l' r').nodes := by simp
        cases hfa : full a with
        | true => exact h'.eq_of_key_eq ((hs a hfa).mp ha) hb hkey
        | false =>
          cases hfb : full b with
          | true => exact h.eq_of_key_eq ha ((hs b hfb).mpr hb) hkey
          | false => exact hglue a b hfa hfb hkey
      have hleft : l = l' := by
        refine ihl h.2.2.2.1 h'.2.2.2.1 fun d hf => ?_
        rw [h.mem_left_iff, h'.mem_left_iff, hs d hf, hkey]
      have hright : r = r' := by
        refine ihr h.2.2.2.2 h'.2.2.2.2 fun d hf => ?_
        rw [h.mem_right_iff, h'.mem_right_iff, hs d hf, hkey]
      rw [hroot, hleft, hright]

/-- Every node that stores nothing joins two others. -/
theorem WF.length_le (h : WF key full t) :
    t.nodes.length ≤ 2 * (t.nodes.filter full).length - 1 := by
  induction t with
  | nil => simp
  | node a l r ihl ihr =>
    obtain ⟨-, -, hjoin, hwl, hwr⟩ := h
    have hl := ihl hwl
    have hr := ihr hwr
    simp only [nodes_node, filter_append, length_append, length_singleton]
    rcases hjoin with hf | ⟨hnl, hnr⟩
    · simp only [filter_singleton, hf, cond_true, length_singleton]
      omega
    · have := length_pos_iff.mpr (nodes_eq_nil.not.mpr hnl)
      have := length_pos_iff.mpr (nodes_eq_nil.not.mpr hnr)
      omega

end

end PrefixTree

namespace Trie

/-- **`lower_bound` goes to the first prefix of the iteration that is not before the key**, where
it goes right. -/
theorem run_lowerBound_iff (ops : List (Op w P)) (k : IPNet w) :
    ∃ T ks, empty.run ops = .ok T ∧ T.allKeys = .ok ks ∧
      ((∃ o : Option (IPNet w × P),
          (T.lowerBound k).map T.entry = .ok (o.map fun e => some (e.1, some e.2)) ∧
          o.map Prod.fst = ks.find? fun n => !n.lt k) ↔
        BoundFound Prod.fst Shape.full k (Shape.run .nil ops)) := by
  obtain ⟨T, hrun, hT⟩ := exists_run ops
  obtain ⟨t, R, hs⟩ := id hT
  refine ⟨T, _, hrun, (allKeys_eq R).trans (subtreeKeys_eq R _), ?_⟩
  rw [← hs] at hT ⊢
  rw [Shape.subtreeKeys, hT.wf.visits_any, find?_map]
  cases t with
  | nil =>
    rw [lowerBound_nil R]
    simp [BoundFound, PrefixTree.lookup, PrefixTree.find, around, shape]
  | node a l r =>
    rw [lowerBound_entry R (by simp), ← hT.wf.lowerBound_iff (by simp [shape]),
      Shape.lowerBound]
    cases hb : PrefixTree.lowerBound Prod.fst Shape.full k (shape (node a l r)) with
    | none => simp [nextStored, @eq_comm _ none]
    | some e =>
      obtain ⟨hmem, hfull⟩ := hT.wf.lowerBound_mem hb
      obtain ⟨n, _ | p⟩ := e
      · simp [Shape.full] at hfull
      constructor
      · rintro ⟨o, ho, heq⟩
        obtain rfl : o = some (n, p) := by
          cases o with
          | none => cases ho
          | some e => cases ho; rfl
        obtain ⟨e, he, hen⟩ := Option.map_eq_some_iff.mp heq.symm
        have hmem' := mem_of_mem_filter (mem_of_find?_eq_some he)
        rw [hT.wf.eq_of_key_eq hmem hmem' hen.symm]
        exact he.symm
      · intro heq
        exact ⟨some (n, p), rfl, congrArg (Option.map Prod.fst) heq⟩

/-- With only `10.0.0.0/8` stored, the search for `10.1.0.0/16` ends at the end. -/
theorem lowerBound_misses_root : let net : IPNet 32 := IPNet.ofAddr 0x0a000000 8 (by decide)
    let k : IPNet 32 := IPNet.ofAddr 0x0a010000 16 (by decide)
    (empty.run [.insert net ()] >>= allKeys) = .ok [net] ∧ net.lt k = false ∧
      (empty.run [.insert net ()] >>= fun T => (T.lowerBound k).map T.entry) = .ok none := by
  decide +kernel

/-- **The tree does not depend on the history**: two tries store the same entries exactly if
their nodes hang together in the same way. -/
theorem run_canonical (ops ops' : List (Op w P)) :
    ∃ T T', empty.run ops = .ok T ∧ empty.run ops' = .ok T' ∧
      ((∀ k p, T.Has k p ↔ T'.Has k p) ↔ ∃ s, Shaped T s ∧ Shaped T' s) := by
  obtain ⟨T, hrun, hT⟩ := exists_run ops
  obtain ⟨T', hrun', hT'⟩ := exists_run ops'
  refine ⟨T, T', hrun, hrun', fun hsame => ⟨_, hT, ?_⟩, ?_⟩
  · have heq : Shape.run .nil ops = Shape.run .nil ops' := by
      refine hT.wf.ext hT'.wf ?_ ?_
      · rintro ⟨k, _ | p⟩ hf
        · cases hf
        · rw [← hT.has_iff, ← hT'.has_iff, hsame]
      · rintro ⟨k, _ | p⟩ ⟨k', _ | p'⟩ hf hf' hk
        · rw [show k = k' from hk]
        · cases hf'
        · cases hf
        · cases hf
    rw [heq]
    exact hT'
  · rintro ⟨s, hs, hs'⟩ k p
    rw [hs.has_iff, hs'.has_iff]

/-- **Memory**: no cell is left behind, and there are less than two for each stored prefix. -/
theorem run_space (ops : List (Op w P)) : ∃ T ks, ∃ ids : List Nat, empty.run ops = .ok T ∧
    T.allKeys = .ok ks ∧ ids.Nodup ∧ (∀ i, T.heap.cells i ≠ none ↔ i ∈ ids) ∧
    (∀ i, T.heap.Reach i ↔ i ∈ ids) ∧ ids.length ≤ 2 * ks.length - 1 := by
  obtain ⟨T, hrun, t, R, hs⟩ := exists_run ops
  have hwf := wf_shape.mpr R.wf
  have hids : ∀ i, T.heap.cells i ≠ none ↔ i ∈ t.ids := by
    intro i
    refine ⟨not_imp_comm.mp (R.holds.free i), fun hi => ?_⟩
    obtain ⟨a, ha, rfl⟩ := mem_map.mp hi
    obtain ⟨cell, hcell, -⟩ := R.holds.cell_of_mem ha
    rw [hcell]
    simp
  refine ⟨T, _, t.ids, hrun, (allKeys_eq R).trans (subtreeKeys_eq R _), R.holds.nodup, hids,
    fun i => (R.holds.reach_iff R.root).trans (hids i), ?_⟩
  rw [Shape.subtreeKeys, hwf.visits_any, length_map]
  have hlen : t.ids.length = (shape t).nodes.length := by
    rw [shape, nodes_map, length_map, BinTree.ids, length_map]
  rw [hlen]
  exact hwf.length_le

end Trie

end Xorp

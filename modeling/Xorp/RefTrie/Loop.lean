/-
A loop over a trie that changes under it.

`for (it = begin(); it != end(); ++it)` visits a key each time the comparison finds the
iterator on a node.  Between the calls of the loop anything may happen to the trie and
to other iterators.  The loop variable's key never goes back, and `force_valid()` and
`++` pass over no key that is stored: so the keys visited increase, each is stored when
it is visited, and none that is stored all the time is missed.
-/
import Xorp.RefTrie.Iterators

namespace Xorp

open Linked Spine IPNet List Option Except Bool

variable {w : Nat} {P : Type}

namespace RefTrie

/-- There is an entry for the key, and it has not been deleted. -/
def Stored (T : RefTrie w P) (k : IPNet w) : Prop :=
  ∃ i c, T.heap.cells i = some c ∧ c.data.k = k ∧ c.data.active refTrieNode = true

theorem stored_iff_mem {T : RefTrie w P} {hs : List Nat} {t : RefNodeTree w P}
    (C : Counts T.heap hs t) (k : IPNet w) :
    Stored T k ↔ ∃ a ∈ t.nodes, nodeKey a = k ∧ stored a = true := by
  constructor
  · intro ⟨i, c, hc, hk, hact⟩
    obtain ⟨a, ha, rfl, hdata⟩ := C.holds.mem_of_cell hc
    rw [hdata] at hk hact
    exact ⟨a, ha, hk, hact⟩
  · intro ⟨a, ha, hk, hact⟩
    obtain ⟨c, hc, hdata⟩ := C.holds.cell_of_mem ha
    exact ⟨a.1, c, hc, by rw [hdata]; exact hk, by rw [hdata]; exact hact⟩

namespace Machine

/-- Where a comparison with `end()` finds the iterator, unless the last comparison has found
it there already. -/
def found (checked : Bool) (M M' : Machine w P) (j : Nat) : List (Machine w P × IPNet w) :=
  if checked = true ∧ M'.position j = M.position j then []
  else ((M'.position j).toList).map fun k => (M', k)

/-- A loop among the calls of a program, with `j` as its variable.  Before each `++` the
variable is compared with `end()`, once or more often; `checked` says that this has been done.
The calls in between do what they like but move the variable, and the loop may go on with a
copy of the variable.  Collected are the keys where the comparisons find it, each with the
machine at that time. -/
inductive Drives : Nat → Bool → Machine w P → List (Op w P) → List (Machine w P × IPNet w) →
    Nat → Machine w P → Prop
  | done {j : Nat} {checked : Bool} {M : Machine w P} : Drives j checked M [] [] j M
  | other {j j' : Nat} {checked : Bool} {M M' N : Machine w P} {op : Op w P} {ops : List (Op w P)}
      {vs : List (Machine w P × IPNet w)} (hj : j ∉ moves op) (hstep : M.step op = .ok M')
      (rest : Drives j checked M' ops vs j' N) : Drives j checked M (op :: ops) vs j' N
  | check {j j' : Nat} {checked : Bool} {M M' N : Machine w P} {ops : List (Op w P)}
      {vs : List (Machine w P × IPNet w)} (hstep : M.step (.neEnd j) = .ok M')
      (rest : Drives j true M' ops vs j' N) :
      Drives j checked M (.neEnd j :: ops) (found checked M M' j ++ vs) j' N
  | inc {j j' : Nat} {M M' N : Machine w P} {ops : List (Op w P)}
      {vs : List (Machine w P × IPNet w)} (hstep : M.step (.inc j) = .ok M')
      (rest : Drives j false M' ops vs j' N) : Drives j true M (.inc j :: ops) vs j' N
  | postInc {j j' : Nat} {M M' N : Machine w P} {ops : List (Op w P)}
      {vs : List (Machine w P × IPNet w)} (hstep : M.step (.postInc j) = .ok M')
      (rest : Drives j false M' ops vs j' N) : Drives j true M (.postInc j :: ops) vs j' N
  | assign {i j j' : Nat} {checked : Bool} {M M' N : Machine w P} {ops : List (Op w P)}
      {vs : List (Machine w P × IPNet w)} (hij : i ≠ j) (hstep : M.step (.assign i j) = .ok M')
      (rest : Drives i checked M' ops vs j' N) : Drives j checked M (.assign i j :: ops) vs j' N
  | copy {j j' : Nat} {checked : Bool} {M M' N : Machine w P} {ops : List (Op w P)}
      {vs : List (Machine w P × IPNet w)} (hstep : M.step (.copy j) = .ok M')
      (rest : Drives M.iters.length checked M' ops vs j' N) :
      Drives j checked M (.copy j :: ops) vs j' N

/-- The key is stored before and after each of the calls. -/
def Throughout (M : Machine w P) (ops : List (Op w P)) (k : IPNet w) : Prop :=
  ∀ pre post M', ops = pre ++ post → M.run pre = .ok M' → Stored M'.trie k

/-- The key is still ahead: after the iterator, or where it stands if the loop has yet to
look there. -/
def Ahead (checked : Bool) : Option (IPNet w) → IPNet w → Prop
  | none, _ => False
  | some c, k => if checked then c.lt k = true else k.lt c = false

variable {ops : List (Op w P)} {M M' : Machine w P} {op : Op w P} {k : IPNet w}

theorem Throughout.start (h : Throughout M ops k) : Stored M.trie k := h [] ops M rfl rfl

theorem Throughout.tail (h : Throughout M (op :: ops) k) (hstep : M.step op = .ok M') :
    Throughout M' ops k := by
  intro pre post N hops hrun
  refine h (op :: pre) post N (by rw [hops]; rfl) ?_
  rw [run, hstep]
  exact hrun

section
variable {t t' : RefNodeTree w P} {j : Nat} {it : Iterator w}

theorem position_eq {hs : List Nat} (C : Counts M.trie.heap hs t) {a : RefLabel w P}
    (ha : a ∈ t.nodes) (hnode : M.node j = some a.1) : M.position j = some (nodeKey a) := by
  obtain ⟨c, hc, hdata⟩ := C.holds.cell_of_mem ha
  rw [position, hnode, bind_some, hc, map_some, hdata]
  rfl

theorem position_none (hnode : M.node j = none) : M.position j = none := by
  rw [position, hnode]
  rfl

/-- A call that does not move the iterator leaves it at its key. -/
theorem Moved.position_eq {js : List Nat} (h : Moved js M t M' t')
    (C : Counted M.trie.heap M.holders t) (hj : j ∉ js) (hlt : j < M.iters.length) :
    M'.position j = M.position j := by
  have hnode := h.node_eq hj hlt
  cases hn : M.node j with
  | none => rw [position_none hn, position_none (hnode.trans hn)]
  | some i =>
    obtain ⟨a, ha, rfl, -⟩ := C.held i (mem_holders hn)
    obtain ⟨b, hb, hid, hkey⟩ := h.persists j a.1 hj hn a ha (mem_singleton_self _)
    rw [Machine.position_eq C.toCounts ha hn,
      Machine.position_eq h.counted.toCounts hb ((hnode.trans hn).trans (by rw [hid])), hkey]

theorem lt_of_not_lt {a b c : IPNet w} (hab : a.lt b = true) (hcb : c.lt b = false) :
    a.lt c = true := by
  rcases lt_trichotomy b c with h | h | h
  · exact lt_trans hab h
  · rw [← h]
    exact hab
  · rw [hcb] at h
    simp at h

section
variable (C : Counted M.trie.heap M.holders t) (hit : M.iters[j]? = some (some it)) (hany : it.root = any w)
include C hit hany

/-- **`++` passes over no entry.** -/
theorem inc_ahead (hl : M.legal (.inc j) = true) (hstep : M.step (.inc j) = .ok M') :
    ∃ t' it', Counted M'.trie.heap M'.holders t' ∧ M'.iters[j]? = some (some it') ∧
      it'.root = any w ∧
      (∀ k, Ahead false (M'.position j) k → Ahead true (M.position j) k) ∧
      (∀ k, Stored M.trie k → Ahead true (M.position j) k → Ahead false (M'.position j) k) := by
  have hout := step_inc C hl
  rw [hstep] at hout
  obtain ⟨it₀, a, xs, ys, t', hit₀, hcur, hsplit, hit', hkeeps, hmoved⟩ := hout
  obtain rfl : it₀ = it := by
    rw [hit] at hit₀
    exact (some.inj (some.inj hit₀)).symm
  have ha : a ∈ t.nodes := by simp [hsplit]
  obtain ⟨hafter, hmem, hsorted⟩ := sides C.wf hsplit
  have hpos : M.position j = some (nodeKey a) :=
    position_eq C.toCounts ha ((node_eq hit).trans hcur)
  have hnode' := node_eq hit'
  have hpos' : M'.position j = (Mem.scan it₀.root ys).map nodeKey := by
    cases hscan : Mem.scan it₀.root ys with
    | none => exact position_none (by rw [hnode', hscan]; rfl)
    | some b =>
      have hn : M'.node j = some b.1 := by rw [hnode', hscan]; rfl
      obtain ⟨d, hd, hid, hkey⟩ := hkeeps.persists b (by simp [hsplit, (scan_mem hscan).1])
        (mem_holders hn)
      rw [position_eq hmoved.counted.toCounts hd (by rw [hn, hid]), hkey]
      rfl
  refine ⟨t', _, hmoved.counted, hit', hany, ?_, ?_⟩
  · intro k hk
    rw [hpos'] at hk
    rw [hpos]
    cases hscan : Mem.scan it₀.root ys with
    | none =>
      rw [hscan] at hk
      contradiction
    | some b =>
      rw [hscan] at hk
      exact lt_of_not_lt (hafter b (scan_mem hscan).1) hk
  · intro k hst hk
    rw [hpos] at hk
    obtain ⟨d, hd, rfl, hstd⟩ := (stored_iff_mem C.toCounts k).mp hst
    obtain ⟨b, hscan, hge⟩ := scan_any hsorted (hmem d hd hk) (stored_iff.mp hstd).1
    rw [hpos', hany, hscan]
    exact hge

/-- **`!= end()` finds the next stored key**, or the end. -/
theorem neEnd_ahead (hstep : M.step (.neEnd j) = .ok M') :
    ∃ t' it', Counted M'.trie.heap M'.holders t' ∧ M'.iters[j]? = some (some it') ∧
      it'.root = any w ∧
      (∀ k ∈ M'.position j, Stored M'.trie k ∧ Ahead false (M.position j) k) ∧
      (∀ k, Stored M'.trie k → Ahead false (M.position j) k →
        ∃ c, M'.position j = some c ∧ k.lt c = false) := by
  have hlive : M.live j = true := by
    rw [live, hit]
    rfl
  have hout : Yields (Overflow M.holders) _ (M.force j) := force_moved C hlive fun i => by omega
  rw [show M.force j = .ok M' from hstep] at hout
  obtain ⟨it₀, out, t', hit₀, rfl, F, hmoved⟩ := hout
  obtain rfl : it₀ = it := by
    rw [hit] at hit₀
    exact (some.inj (some.inj hit₀)).symm
  have hit' : (M.put j out).iters[j]? = some (some out.2) := getElem?_set_self (lt_of_get hit)
  have hnode' : (M.put j out).node j = out.2.cur := node_eq hit'
  have hstored := fun k => stored_iff_mem hmoved.counted.toCounts k
  have hpos' : ∀ b ∈ t'.nodes, out.2.cur = some b.1 → (M.put j out).position j = some (nodeKey b) :=
    fun b hb hcur => position_eq hmoved.counted.toCounts hb (hnode'.trans hcur)
  refine ⟨t', out.2, hmoved.counted, hit', F.root.trans hany, ?_, ?_⟩
  · intro k hk
    cases hcur : out.2.cur with
    | none =>
      rw [position_none (hnode'.trans hcur)] at hk
      simp at hk
    | some i =>
      obtain ⟨b, hb, rfl, -⟩ := hmoved.counted.held i (mem_holders (hnode'.trans hcur))
      rw [hpos' b hb hcur, mem_some_iff] at hk
      subst hk
      refine ⟨(hstored _).mpr ⟨b, hb, rfl, F.stored b hb hcur⟩, ?_⟩
      cases hc : it₀.cur with
      | none => exact absurd (hcur.symm.trans (F.rest hc)) (by simp)
      | some i₀ =>
        obtain ⟨a, ha, rfl, -⟩ := entry_of_held C hit i₀ hc
        rw [position_eq C.toCounts ha ((node_eq hit).trans hc)]
        exact F.onward a ha hc b hb hcur
  · intro k hst hk
    obtain ⟨d, hd, rfl, hstd⟩ := (hstored k).mp hst
    cases hc : it₀.cur with
    | none =>
      rw [position_none ((node_eq hit).trans hc)] at hk
      contradiction
    | some i₀ =>
      obtain ⟨a, ha, rfl, -⟩ := entry_of_held C hit i₀ hc
      rw [position_eq C.toCounts ha ((node_eq hit).trans hc)] at hk
      obtain ⟨b, hb, hcur, hge⟩ := F.least hany a ha hc d hd hstd hk
      exact ⟨nodeKey b, hpos' b hb hcur, hge⟩

end

/-! ### The whole loop -/

section
variable {checked : Bool} {o : Option (IPNet w)} {c v : IPNet w}

theorem Ahead.weaken (h : Ahead checked o k) : Ahead false o k := by
  cases o with
  | none => exact h
  | some c =>
    cases checked with
    | false => exact h
    | true => exact lt_asymm h

theorem Ahead.of_ne (h : Ahead false o k) (hne : checked = true → o ≠ some k) :
    Ahead checked o k := by
  cases o with
  | none => exact h
  | some c =>
    cases checked with
    | false => exact h
    | true =>
      rcases lt_trichotomy c k with hlt | rfl | hlt
      · exact hlt
      · exact absurd rfl (hne rfl)
      · exact absurd (hlt.symm.trans h) (by simp)

theorem Ahead.trans (h : Ahead checked o c) (hlt : c.lt v = true) : Ahead checked o v := by
  cases o with
  | none => exact h
  | some c₀ =>
    cases checked with
    | false =>
      show v.lt c₀ = false
      rw [eq_false_iff]
      intro hv
      exact absurd ((IPNet.lt_trans hlt hv).symm.trans h) (by simp)
    | true => exact IPNet.lt_trans h hlt

end

/-- What the rest of a loop visits, from where it is. -/
structure Rest (j : Nat) (checked : Bool) (M : Machine w P) (ops : List (Op w P))
    (vs : List (Machine w P × IPNet w)) (j' : Nat) (N : Machine w P) : Prop where
  ahead : ∀ v ∈ vs, Ahead checked (M.position j) v.2
  /-- a key that is visited is stored at that time -/
  stored : ∀ v ∈ vs, Stored v.1.trie v.2
  sorted : vs.Pairwise fun v v' => v.2.lt v'.2 = true
  complete : N.node j' = none → ∀ k, Throughout M ops k → Ahead checked (M.position j) k →
    k ∈ vs.map Prod.snd

section
variable {i j' : Nat} {checked checked' : Bool} {N : Machine w P}
  {vs : List (Machine w P × IPNet w)}

/-- A call that is not a comparison.  What is ahead of the variable stays ahead. -/
theorem Rest.moved (hstep : M.step op = .ok M')
    (hback : ∀ k, Ahead checked' (M'.position i) k → Ahead checked (M.position j) k)
    (hnext : ∀ k, Stored M.trie k → Ahead checked (M.position j) k →
      Ahead checked' (M'.position i) k)
    (h : Rest i checked' M' ops vs j' N) : Rest j checked M (op :: ops) vs j' N where
  ahead := fun v hv => hback v.2 (h.ahead v hv)
  stored := h.stored
  sorted := h.sorted
  complete := fun hend k hk hahead =>
    h.complete hend k (hk.tail hstep) (hnext k hk.start hahead)

/-- A call that leaves the variable, or the copy the loop goes on with, where it is. -/
theorem Rest.stay (hstep : M.step op = .ok M') (hpos : M'.position i = M.position j)
    (h : Rest i checked M' ops vs j' N) : Rest j checked M (op :: ops) vs j' N := by
  refine h.moved hstep (fun k hk => ?_) fun k _ hk => ?_
  · rwa [hpos] at hk
  · rwa [hpos]

theorem Rest.check (hstep : M.step (.neEnd j) = .ok M')
    (hfound : ∀ k ∈ M'.position j, Stored M'.trie k ∧ Ahead false (M.position j) k)
    (hstored : ∀ k, Stored M'.trie k → Ahead false (M.position j) k →
      ∃ c, M'.position j = some c ∧ k.lt c = false) (h : Rest j true M' ops vs j' N) :
    Rest j checked M (.neEnd j :: ops) (found checked M M' j ++ vs) j' N := by
  unfold found
  split_ifs with hsame
  · obtain ⟨rfl, hpos⟩ := hsame
    exact h.stay hstep hpos
  cases hpos : M'.position j with
  | none =>
    -- at the end there is nothing left, and so there was nothing
    have hnil : vs = [] := by
      rw [eq_nil_iff_forall_not_mem]
      intro v hv
      have := h.ahead v hv
      rwa [hpos] at this
    subst hnil
    refine ⟨by simp, by simp, by simp, ?_⟩
    intro _ k hk hahead
    obtain ⟨c, hc, -⟩ := hstored k (hk.tail hstep).start hahead.weaken
    rw [hpos] at hc
    simp at hc
  | some c =>
    obtain ⟨hst, hc⟩ := hfound c hpos
    rw [hpos] at hsame
    have hc : Ahead checked (M.position j) c := hc.of_ne fun hch hp => hsame ⟨hch, hp.symm⟩
    have hafter : ∀ v ∈ vs, c.lt v.2 = true := by
      intro v hv
      have := h.ahead v hv
      rwa [hpos] at this
    show Rest j checked M _ ((M', c) :: vs) j' N
    refine ⟨?_, ?_, pairwise_cons.mpr ⟨hafter, h.sorted⟩, ?_⟩
    · intro v hv
      rcases mem_cons.mp hv with rfl | hv
      · exact hc
      · exact hc.trans (hafter v hv)
    · intro v hv
      rcases mem_cons.mp hv with rfl | hv
      · exact hst
      · exact h.stored v hv
    · intro hend k hk hahead
      obtain ⟨c', hc', hge⟩ := hstored k (hk.tail hstep).start hahead.weaken
      obtain rfl : c = c' := some.inj (hpos.symm.trans hc')
      rw [map_cons, mem_cons]
      rcases lt_trichotomy c k with hlt | rfl | hlt
      · refine .inr (h.complete hend k (hk.tail hstep) ?_)
        rw [hpos]
        exact hlt
      · exact .inl rfl
      · exact absurd (hge.symm.trans hlt) (by simp)

end

theorem legalRun_cons (hl : M.legalRun (op :: ops) = true) (hstep : M.step op = .ok M') :
    M.legal op = true ∧ M'.legalRun ops = true := by
  rwa [legalRun, and_eq_true_iff, hstep] at hl

theorem moved_of_step (C : Counted M.trie.heap M.holders t) (hl : M.legal op = true)
    (hstep : M.step op = .ok M') : ∃ t', Moved (moves op) M t M' t' := by
  have hout := step_moved C op hl fun hop hnull => by
    cases (step_null C hop hnull).symm.trans hstep
  rwa [Moves, hstep] at hout

/-- Another iterator on the same node is at the same key. -/
theorem position_congr {i : Nat} (h : M.iters[i]? = M.iters[j]?) : M.position i = M.position j := by
  rw [position, position, node, node, h]

/-- `it++` is a copy and a `++`. -/
theorem step_postInc_eq (hit : M.iters[j]? = some (some it)) :
    M.step (.postInc j) = M.step (.copy j) >>= fun M' => M'.step (.inc j) := by
  have hget : M.get j = .ok it := by rw [get, hit]
  rw [step, step, hget, ok_bind, ok_bind, LawfulMonad.bind_assoc]
  congr 1
  funext T
  have hget' : (M.push (T, it)).get j = .ok it := by
    rw [get, push, getElem?_append_left (lt_of_get hit), hit]
  rw [pure_bind, step, hget', ok_bind]
  congr 1
  funext out
  simp [put, push, set_append_left _ _ (lt_of_get hit)]

/-- What a copy of an iterator leaves as it was. -/
theorem copy_same (C : Counted M.trie.heap M.holders t) (hit : M.iters[j]? = some (some it))
    (hstep : M.step (.copy j) = .ok M') :
    ∃ t', Moved [] M t M' t' ∧ M'.iters[M.iters.length]? = some (some it) ∧
      ∀ k, Stored M.trie k → Stored M'.trie k := by
  have hlive : M.live j = true := by
    rw [live, hit]
    rfl
  have hout := step_copy C hlive
  rw [hstep] at hout
  obtain ⟨t', hsame, hmoved⟩ := hout
  have hget : M.get j = .ok it := by rw [get, hit]
  rw [step, hget, ok_bind] at hstep
  obtain ⟨T, -, hM'⟩ := bind_eq_ok.mp hstep
  obtain rfl : M.push (T, it) = M' := ok.inj hM'
  refine ⟨t', hmoved, by simp [push], fun k hk => ?_⟩
  obtain ⟨a, ha, rfl, hst⟩ := (stored_iff_mem C.toCounts k).mp hk
  obtain ⟨b, hb, -, hkey, hfull, hdel⟩ := mem_of_uncounted hsame.symm ha
  obtain ⟨hf, hd⟩ := stored_iff.mp hst
  exact (stored_iff_mem hmoved.counted.toCounts _).mpr
    ⟨b, hb, hkey, stored_iff.mpr ⟨hfull.trans hf, hdel.trans hd⟩⟩

/-- What an assignment leaves in the iterator it is made to. -/
theorem assign_same {i : Nat} (hit : M.iters[j]? = some (some it))
    (hstep : M.step (.assign i j) = .ok M') : M'.iters[i]? = some (some it) := by
  have hget : M.get j = .ok it := by rw [get, hit]
  obtain ⟨x, hx, hstep⟩ := bind_eq_ok.mp hstep
  rw [hget, ok_bind] at hstep
  obtain ⟨out, hout, hM'⟩ := bind_eq_ok.mp hstep
  obtain ⟨T₁, -, hrel⟩ := bind_eq_ok.mp hout
  obtain ⟨T₂, -, hpair⟩ := bind_eq_ok.mp hrel
  obtain rfl : (T₂, it) = out := ok.inj hpair
  obtain rfl : M.put i (T₂, it) = M' := ok.inj hM'
  have hlt : i < M.iters.length := by
    by_contra hge
    rw [get, getElem?_eq_none (Nat.le_of_not_lt hge)] at hx
    simp at hx
  exact getElem?_set_self hlt

/-- **The loop, by induction on its calls.** -/
theorem Drives.rest {ops : List (Op w P)} {checked : Bool} {vs : List (Machine w P × IPNet w)}
    {j' : Nat} {N : Machine w P} (hd : Drives j checked M ops vs j' N)
    (C : Counted M.trie.heap M.holders t) (hit : M.iters[j]? = some (some it))
    (hany : it.root = any w) (hl : M.legalRun ops = true) : Rest j checked M ops vs j' N := by
  induction hd generalizing t it with
  | done =>
    refine ⟨by simp, by simp, by simp, ?_⟩
    intro hend k _ hahead
    rw [position_none hend] at hahead
    contradiction
  | other hj hstep _ ih =>
    obtain ⟨t', hmoved⟩ := moved_of_step C (legalRun_cons hl hstep).1 hstep
    exact (ih hmoved.counted ((hmoved.iters _ hj (lt_of_get hit)).trans hit) hany
      (legalRun_cons hl hstep).2).stay hstep (hmoved.position_eq C hj (lt_of_get hit))
  | check hstep _ ih =>
    obtain ⟨t', it', C', hit', hany', hfound, hstored⟩ := neEnd_ahead C hit hany hstep
    exact (ih C' hit' hany' (legalRun_cons hl hstep).2).check hstep hfound hstored
  | inc hstep _ ih =>
    obtain ⟨hl, hl'⟩ := legalRun_cons hl hstep
    obtain ⟨t', it', C', hit', hany', hback, hnext⟩ := inc_ahead C hit hany hl hstep
    exact (ih C' hit' hany' hl').moved hstep hback hnext
  | @postInc j _ M M' _ _ _ hstep _ ih =>
    obtain ⟨hl, hl'⟩ := legalRun_cons hl hstep
    obtain ⟨M₁, hcopy, hinc⟩ := bind_eq_ok.mp ((step_postInc_eq hit).symm.trans hstep)
    obtain ⟨t₁, hmoved, -, hstored⟩ := copy_same C hit hcopy
    have hit₁ := (hmoved.iters j (by simp) (lt_of_get hit)).trans hit
    have hpos : M₁.position j = M.position j := hmoved.position_eq C (by simp) (lt_of_get hit)
    have hl₁ : M₁.legal (.inc j) = true := by
      rw [legal, hmoved.node_eq (by simp) (lt_of_get hit)]
      exact hl
    obtain ⟨t', it', C', hit', hany', hback, hnext⟩ := inc_ahead hmoved.counted hit₁ hany hl₁ hinc
    rw [hpos] at hback hnext
    exact (ih C' hit' hany' hl').moved hstep hback fun k hk => hnext k (hstored k hk)
  | @assign i j _ _ M M' _ _ _ hij hstep _ ih =>
    obtain ⟨hl, hl'⟩ := legalRun_cons hl hstep
    obtain ⟨t', hmoved⟩ := moved_of_step C hl hstep
    have hj : j ∉ moves (.assign i j : Op w P) := by simpa [moves] using Ne.symm hij
    have hit' := assign_same hit hstep
    have hsame : M'.iters[i]? = M'.iters[j]? := by
      rw [hit', hmoved.iters j hj (lt_of_get hit), hit]
    exact (ih hmoved.counted hit' hany hl').stay hstep
      ((position_congr hsame).trans (hmoved.position_eq C hj (lt_of_get hit)))
  | @copy j _ _ M M' _ _ _ hstep _ ih =>
    obtain ⟨t', hmoved, hit', -⟩ := copy_same C hit hstep
    have hsame : M'.iters[M.iters.length]? = M'.iters[j]? := by
      rw [hit', hmoved.iters j (by simp) (lt_of_get hit), hit]
    exact (ih hmoved.counted hit' hany (legalRun_cons hl hstep).2).stay hstep
      ((position_congr hsame).trans (hmoved.position_eq C (by simp) (lt_of_get hit)))

/-- **`begin()` starts before everything that is stored.** -/
theorem begin_ahead (C : Counted M.trie.heap M.holders t) (hstep : M.step .begin = .ok M') :
    ∃ t' it, Counted M'.trie.heap M'.holders t' ∧ M'.iters[M.iters.length]? = some (some it) ∧
      it.root = any w ∧
      ∀ k, Stored M'.trie k → Ahead false (M'.position M.iters.length) k := by
  obtain ⟨out, hbegin, hout⟩ := bind_eq_ok.mp hstep
  obtain rfl : M.push out = M' := ok.inj hout
  have hit : (M.push out).iters[M.iters.length]? = some (some out.2) := by simp [push]
  have hnode := node_eq hit
  unfold begin at hbegin
  cases hroot : M.trie.heap.root with
  | none =>
    -- no root, no nodes
    rw [hroot] at hbegin
    obtain rfl : (M.trie, ⟨none, any w⟩) = out := ok.inj hbegin
    have hnil : t = .nil := BinTree.ptr_eq_none.mp (C.root.symm.trans hroot)
    have C' : Counted M.trie.heap (M.push (M.trie, ⟨none, any w⟩)).holders t := by
      simpa [holders, push] using C
    refine ⟨t, _, C', hit, rfl, ?_⟩
    intro k hk
    obtain ⟨d, hd, -⟩ := (stored_iff_mem C'.toCounts k).mp hk
    rw [hnil] at hd
    simp at hd
  | some i =>
    obtain ⟨a, ha, rfl⟩ := mem_of_root C.toCounts hroot
    obtain ⟨b, rest, hnodes, hleft⟩ := Mem.iterBegin_any C.holds ha
    rw [hroot, subtreeIterator] at hbegin
    simp only [hleft, ok_bind] at hbegin
    obtain ⟨T', hacq, hT'⟩ := bind_eq_ok.mp hbegin
    obtain rfl : (T', ⟨some b.1, any w⟩) = out := ok.inj hT'
    have hb : b ∈ t.nodes := by simp [hnodes]
    have hcounted : Yields (Overflow M.holders) _ (M.trie.acquire (some b.1)) := acquire_counted C
      (fun i hi => ⟨b, hb, some.inj hi, C.wf.full_of_first hnodes⟩)
      fun i => Nat.le_add_right _ _
    rw [hacq] at hcounted
    obtain ⟨t', C₁, hsame⟩ := hcounted
    have C' : Counted T'.heap (M.push (T', ⟨some b.1, any w⟩)).holders t' := by
      refine C₁.perm ?_
      simp only [holders, push, filterMap_append]
      exact perm_append_comm
    obtain ⟨b', hb', hid, hkey, -⟩ := mem_of_uncounted hsame.symm hb
    refine ⟨t', _, C', hit, rfl, ?_⟩
    intro k hk
    obtain ⟨d', hd', rfl, -⟩ := (stored_iff_mem C'.toCounts k).mp hk
    obtain ⟨d, hd, -, hkeyd, -⟩ := mem_of_uncounted hsame hd'
    rw [position_eq C'.toCounts hb' (hnode.trans (by rw [hid]))]
    rw [← hkeyd, hkey]
    have hsorted := C.wf.sorted
    rw [hnodes, pairwise_cons] at hsorted
    rw [hnodes] at hd
    rcases mem_cons.mp hd with rfl | hd
    · exact lt_irrefl _
    · exact lt_asymm (hsorted.1 d hd)

end

/-! ### All calls together -/

/-- What a loop that started at `M` and ended at `N` has done. -/
structure Looped (M : Machine w P) (body : List (Op w P)) (vs : List (Machine w P × IPNet w))
    (j' : Nat) (N : Machine w P) : Prop where
  /-- the keys increase, so none is visited twice -/
  increasing : vs.Pairwise fun v v' => v.2.lt v'.2 = true
  /-- a key that is visited is stored at that time -/
  stored : ∀ v ∈ vs, Stored v.1.trie v.2
  /-- a loop that has reached the end has visited what was stored all the time -/
  complete : N.node j' = none → ∀ k, Throughout M body k → (vs.map Prod.snd).count k = 1

theorem legalRun_append {pre post : List (Op w P)} (hl : M.legalRun (pre ++ post) = true)
    (hrun : M.run pre = .ok M') : M.legalRun pre = true ∧ M'.legalRun post = true := by
  induction pre generalizing M with
  | nil =>
    obtain rfl : M = M' := ok.inj hrun
    exact ⟨rfl, hl⟩
  | cons op pre ih =>
    obtain ⟨N, hstep, hrun⟩ := bind_eq_ok.mp hrun
    obtain ⟨hop, hl⟩ := legalRun_cons hl hstep
    obtain ⟨h₁, h₂⟩ := ih hl hrun
    refine ⟨?_, h₂⟩
    rw [legalRun, and_eq_true_iff, hstep]
    exact ⟨hop, h₁⟩

/-- **Iterators live through updates.**  Whatever calls a program makes, they return, or stop
at the guard of a full count or at the null root of an empty trie.  When they return, every
node that is referred to is linked, every count is the number of iterators on the node, and no
iterator is left on a freed node; the assertion of the destructor has not failed.  And a loop
from `begin()` that is anywhere among the calls visits what it should. -/
theorem iterators_survive (ops : List (Op w P)) (hl : (empty : Machine w P).legalRun ops = true) :
    ((∃ M, empty.run ops = .ok M ∧ Sound M) ∨ Stops empty ops) ∧
    ∀ pre body (M₀ M N : Machine w P) vs j', ops = pre ++ .begin :: body →
      empty.run pre = .ok M₀ → M₀.step .begin = .ok M →
      Drives M₀.iters.length false M body vs j' N → Looped M body vs j' N := by
  refine ⟨?_, ?_⟩
  · rcases run_inv ops Inv.empty hl with ⟨M, hrun, hinv⟩ | hstop
    · exact Or.inl ⟨M, hrun, hinv.sound⟩
    · exact Or.inr hstop
  · intro pre body M₀ M N vs j' hops hpre hbegin hd
    rw [hops] at hl
    obtain ⟨hlpre, hlrest⟩ := legalRun_append hl hpre
    obtain ⟨t₀, C₀⟩ := inv_of_run Inv.empty hlpre hpre
    obtain ⟨t, it, C, hit, hany, hstart⟩ := begin_ahead C₀ hbegin
    have hrest := hd.rest C hit hany (legalRun_cons hlrest hbegin).2
    refine ⟨hrest.sorted, hrest.stored, fun hend k hk => ?_⟩
    have hmem := hrest.complete hend k hk (hstart k hk.start)
    have hsorted : (vs.map Prod.snd).Pairwise fun k k' => k.lt k' = true :=
      pairwise_map.mpr hrest.sorted
    have hnd : (vs.map Prod.snd).Nodup := hsorted.imp fun {a b} hlt heq => by
      rw [heq, IPNet.lt_irrefl] at hlt
      simp at hlt
    exact count_eq_one_of_mem hnd hmem

/-- The machine a run that returns ends in. -/
def result (r : Except Fault (Machine w P)) : Machine w P := r.toOption.getD empty

theorem eq_result {r : Except Fault (Machine w P)} (h : r.toOption.isSome = true) :
    r = .ok (result r) := by
  cases r with
  | ok M => rfl
  | error e => simp [Except.toOption] at h

/-- A loop over two halves of a /8.  Its variable is declared first and then assigned from
`begin()`, and the first half is erased while the loop is there. -/
theorem iterators_survive_halves : let low : IPNet 32 := IPNet.ofAddr 0x0a000000 9 (by decide)
    let high : IPNet 32 := IPNet.ofAddr 0x0a800000 9 (by decide)
    let pre : List (Op 32 Nat) := [.insert low 1, .insert high 2, .destroy 0, .destroy 1, .end']
    let body : List (Op 32 Nat) := [.assign 2 3, .destroy 3, .neEnd 2, .erase low, .postInc 2,
      .destroy 4, .neEnd 2, .inc 2, .neEnd 2]
    let M₀ : Machine 32 Nat := result (empty.run pre)
    let M : Machine 32 Nat := result (M₀.step .begin)
    empty.legalRun (pre ++ .begin :: body) = true ∧ ∃ vs N, Drives 3 false M body vs 2 N ∧
      Looped M body vs 2 N ∧ vs.map Prod.snd = [low, high] ∧ N.node 2 = none := by
  intro low high pre body M₀ M
  have hl : (empty : Machine 32 Nat).legalRun (pre ++ .begin :: body) = true := by decide +kernel
  have hpre : empty.run pre = .ok M₀ := eq_result (by decide +kernel)
  have hbegin : M₀.step .begin = .ok M := eq_result (by decide +kernel)
  have hlen : M₀.iters.length = 3 := by decide +kernel
  have hd : Drives 3 false M body _ 2 _ :=
    .assign (by decide) (eq_result (by decide +kernel)) <|
    .other (by decide) (eq_result (by decide +kernel)) <|
    .check (eq_result (by decide +kernel)) <|
    .other (by decide) (eq_result (by decide +kernel)) <|
    .postInc (eq_result (by decide +kernel)) <|
    .other (by decide) (eq_result (by decide +kernel)) <|
    .check (eq_result (by decide +kernel)) <|
    .inc (eq_result (by decide +kernel)) <|
    .check (eq_result (by decide +kernel)) .done
  have hloop := (iterators_survive _ hl).2 pre body M₀ M _ _ 2 rfl hpre hbegin (by rw [hlen]; exact hd)
  exact ⟨hl, _, _, hd, hloop, by decide +kernel, by decide +kernel⟩

end Machine

end RefTrie

end Xorp

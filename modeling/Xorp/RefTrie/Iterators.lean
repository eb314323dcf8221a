/-
Iterators that live through updates.

A program that uses a `RefTrie` holds iterators: it makes, copies, assigns, moves,
compares and destroys them, in any order with insertions and removals.  `Machine` is
the trie with the iterators a program holds, and `step` one call of the program.

`step_moved` says of every call that it returns, or stops at the guard of a count that
is full; that afterwards every count is again the number of iterators; and that an
iterator the call does not move stays on its node, under its key.  The calls that follow
`_root` stop at it if it is null.  From all that follows what a loop with `++` and
`!= end()` visits, whatever else goes on meanwhile.
-/
import Xorp.RefTrie.Ops

namespace Xorp

open Linked Spine List Nat Option

variable {w : Nat} {P : Type}

namespace RefTrie

/-- The trie and the iterators of a program; one that is destroyed leaves a gap. -/
structure Machine (w : Nat) (P : Type) where
  trie : RefTrie w P
  iters : List (Option (Iterator w))

/-- A call.  Iterators go by their place in the list; a call that returns one adds it at
the end. -/
inductive Op (w : Nat) (P : Type) where
  | insert (k : IPNet w) (p : P)
  | erase (k : IPNet w)
  | eraseAt (j : Nat)
  | begin
  | end'
  | find (k : IPNet w)
  | lookupNode (k : IPNet w)
  | findLessSpecific (k : IPNet w)
  | lowerBound (k : IPNet w)
  | searchSubtree (k : IPNet w)
  | copy (j : Nat)
  | assign (j i : Nat)
  | inc (j : Nat)
  | postInc (j : Nat)
  | destroy (j : Nat)
  | ne (j i : Nat)
  | neEnd (j : Nat)

namespace Machine

def empty : Machine w P := ⟨RefTrie.empty, []⟩

section
variable (M : Machine w P)

def get (j : Nat) : Except Fault (Iterator w) :=
  match M.iters[j]? with
  | some (some it) => .ok it
  | _ => .error .badPointer

def put (j : Nat) (out : RefTrie w P × Iterator w) : Machine w P :=
  ⟨out.1, M.iters.set j (some out.2)⟩

def push (out : RefTrie w P × Iterator w) : Machine w P :=
  ⟨out.1, M.iters ++ [some out.2]⟩

/-- Both comparison operators start with `force_valid()`. -/
def force (j : Nat) : Except Fault (Machine w P) := do
  let it ← M.get j
  pure (M.put j (← RefTrie.forceValid M.trie.heap.bound M.trie it))

def step : Op w P → Except Fault (Machine w P)
  | .insert k p => do pure (M.push (← M.trie.insert k p))
  | .erase k => do pure { M with trie := ← M.trie.erase k }
  | .eraseAt j => do
      let it ← M.get j
      -- the parameter is a copy
      let T ← M.trie.acquire it.cur
      let T ← T.eraseAt it
      pure { M with trie := ← T.release it.cur }
  | .begin => do pure (M.push (← M.trie.begin))
  | .end' => do pure (M.push (← M.trie.iterator none))
  | .find k => do pure (M.push (← M.trie.find k))
  | .lookupNode k => do pure (M.push (← M.trie.lookupNode k))
  | .findLessSpecific k => do pure (M.push (← M.trie.findLessSpecific k))
  | .lowerBound k => do pure (M.push (← M.trie.lowerBound k))
  | .searchSubtree k => do pure (M.push (← M.trie.searchSubtree k))
  | .copy j => do
      let it ← M.get j
      pure (M.push (← M.trie.acquire it.cur, it))
  | .assign j i => do
      let it ← M.get j
      let x ← M.get i
      pure (M.put j (← M.trie.assign it x))
  | .inc j => do
      let it ← M.get j
      pure (M.put j (← M.trie.next it))
  | .postInc j => do
      let it ← M.get j
      let T ← M.trie.acquire it.cur
      let out ← T.next it
      pure ((M.put j out).push (out.1, it))
  | .destroy j => do
      let it ← M.get j
      pure ⟨← M.trie.release it.cur, M.iters.set j none⟩
  | .ne j i => do (← M.force j).force i
  -- `end()` has no node to leave
  | .neEnd j => M.force j

def run (M : Machine w P) : List (Op w P) → Except Fault (Machine w P)
  | [] => .ok M
  | op :: ops => do (← M.step op).run ops

def live (j : Nat) : Bool := (M.iters[j]?.join).isSome

/-- The node an iterator stands on. -/
def node (j : Nat) : Option Nat := (M.iters[j]?.join).bind (·.cur)

/-- What a caller has to see to: the iterators it names are there, and `++` is not applied at
the end. -/
def legal : Op w P → Bool
  | .eraseAt j | .copy j | .destroy j | .neEnd j => M.live j
  | .assign j i | .ne j i => M.live j && M.live i
  | .inc j | .postInc j => (M.node j).isSome
  | _ => true

/-- The calls that follow `_root` without a look whether it is null. -/
def followsRoot : Op w P → Bool
  | .erase _ | .find _ | .lookupNode _ | .lowerBound _ | .searchSubtree _ => true
  | .findLessSpecific k => k.prefixLen != 0
  | _ => false

def legalRun (M : Machine w P) : List (Op w P) → Bool
  | [] => true
  | op :: ops =>
      M.legal op && match M.step op with
        | .ok M' => M'.legalRun ops
        | .error _ => true

/-- The nodes that are stood on, each as often as there are live iterators on it. -/
def holders : List Nat := M.iters.filterMap fun o => o.bind (·.cur)

/-- The key where an iterator stands. -/
def position (j : Nat) : Option (IPNet w) :=
  (M.node j).bind fun i => (M.trie.heap.cells i).map fun c => c.data.k

end

/-- The iterators a call moves. -/
def moves : Op w P → List Nat
  | .assign j _ | .inc j | .postInc j | .destroy j | .neEnd j => [j]
  | .ne j i => [j, i]
  | _ => []

/-! ### The list of iterators -/

variable {out : RefTrie w P × Iterator w} {i : Nat}

variable {M : Machine w P} {j : Nat} {it : Iterator w}

theorem get_of_live (h : M.live j = true) :
    ∃ it, M.get j = .ok it ∧ M.iters[j]? = some (some it) := by
  unfold live at h
  cases hj : M.iters[j]? with
  | none =>
    rw [hj] at h
    simp at h
  | some o =>
    cases o with
    | none =>
      rw [hj] at h
      simp at h
    | some it =>
      refine ⟨it, ?_, rfl⟩
      rw [get, hj]

theorem live_of_node (h : (M.node j).isSome = true) : M.live j = true := by
  unfold node at h
  unfold live
  cases hj : M.iters[j]?.join with
  | none =>
    rw [hj] at h
    simp at h
  | some it => rfl

theorem node_eq (h : M.iters[j]? = some (some it)) : M.node j = it.cur := by
  rw [node, h]
  rfl

theorem lt_of_get (h : M.iters[j]? = some (some it)) : j < M.iters.length :=
  (List.getElem?_eq_some_iff.mp h).1

/-- The nodes the other iterators stand on. -/
def others (M : Machine w P) (j : Nat) : List Nat :=
  (M.iters.set j none).filterMap fun o => o.bind (·.cur)

theorem filterMap_set_perm (l : List (Option (Iterator w))) (o : Option (Iterator w)) (j : Nat)
    (hj : j < l.length) : ((l.set j o).filterMap fun o => o.bind (·.cur)).Perm
      ((o.bind (·.cur)).toList ++ (l.set j none).filterMap fun o => o.bind (·.cur)) := by
  induction l generalizing j with
  | nil => simp at hj
  | cons x l ih =>
    cases j with
    | zero =>
      cases ho : o.bind (·.cur) with
      | none => simp [ho]
      | some i => simp [ho]
    | succ j =>
      have hperm := ih j (by simpa using hj)
      cases hx : x.bind (·.cur) with
      | none =>
        simp only [set_cons_succ, filterMap_cons, hx]
        exact hperm
      | some i =>
        simp only [set_cons_succ, filterMap_cons, hx]
        exact (hperm.cons i).trans perm_middle.symm

theorem holders_perm (h : M.iters[j]? = some (some it)) :
    M.holders.Perm (it.cur.toList ++ M.others j) := by
  have hset : M.iters.set j (some it) = M.iters := by
    obtain ⟨hj, heq⟩ := List.getElem?_eq_some_iff.mp h
    rw [← heq, set_getElem_self]
  have hperm := filterMap_set_perm M.iters (some it) j (lt_of_get h)
  rw [hset] at hperm
  exact hperm

theorem mem_holders (h : M.node j = some i) : i ∈ M.holders := by
  unfold node at h
  cases hj : M.iters[j]? with
  | none =>
    rw [hj] at h
    simp at h
  | some o =>
    rw [hj] at h
    exact mem_filterMap.mpr ⟨o, mem_of_getElem? hj, h⟩

theorem mem_others {j' : Nat} (h : M.node j' = some i) (hne : j' ≠ j) : i ∈ M.others j := by
  have hnode : Machine.node ⟨M.trie, M.iters.set j none⟩ j' = some i := by
    rw [node, getElem?_set_ne (Ne.symm hne)]
    exact h
  exact mem_holders hnode

theorem count_others_le (h : M.iters[j]? = some (some it)) (i : Nat) :
    (M.others j).count i ≤ M.holders.count i := by
  rw [(holders_perm h).count_eq, count_append]
  exact le_add_left _ _

/-! ### One call -/

/-- What a call leaves behind: the counts are right, and the iterators it does not move
are on their nodes. -/
structure Moved (js : List Nat) (M : Machine w P) (t : RefNodeTree w P)
    (M' : Machine w P) (t' : RefNodeTree w P) : Prop where
  counted : Counted M'.trie.heap M'.holders t'
  length : M.iters.length ≤ M'.iters.length
  iters : ∀ j, j ∉ js → j < M.iters.length → M'.iters[j]? = M.iters[j]?
  persists : ∀ j i, j ∉ js → M.node j = some i → Persists [i] t t'

section
variable {M M' : Machine w P} {t t' : RefNodeTree w P}

theorem lt_of_node (h : M.node j = some i) : j < M.iters.length := by
  by_contra hge
  rw [node, getElem?_eq_none (Nat.le_of_not_lt hge)] at h
  simp at h

variable {extra : List (Option (Iterator w))} {T : RefTrie w P} {js : List Nat}

theorem Moved.node_eq (h : Moved js M t M' t') (hj : j ∉ js) (hlt : j < M.iters.length) :
    M'.node j = M.node j := by
  rw [node, node, h.iters j hj hlt]

theorem Moved.trans {js' : List Nat} {M'' : Machine w P} {t'' : RefNodeTree w P}
    (h : Moved js M t M' t') (h' : Moved js' M' t' M'' t'') : Moved (js ++ js') M t M'' t'' where
  counted := h'.counted
  length := le_trans h.length h'.length
  iters := by
    intro j hj hlt
    rw [mem_append, not_or] at hj
    rw [h'.iters j hj.2 (lt_of_lt_of_le hlt h.length), h.iters j hj.1 hlt]
  persists := by
    intro j i hj hnode
    rw [mem_append, not_or] at hj
    have hnode' := (h.node_eq hj.1 (lt_of_node hnode)).trans hnode
    exact (h.persists j i hj.1 hnode).trans (h'.persists j i hj.2 hnode')

/-- A call that moves no iterator, and may return one. -/
theorem Moved.of_append
    (C : Counted T.heap ((extra.filterMap fun o => o.bind (·.cur)) ++ M.holders) t')
    (hp : Persists M.holders t t') : Moved [] M t ⟨T, M.iters ++ extra⟩ t' where
  counted := by
    refine C.perm ?_
    show (_ ++ M.holders).Perm ((M.iters ++ extra).filterMap _)
    rw [filterMap_append]
    exact perm_append_comm
  length := by simp
  iters := fun j _ hlt => getElem?_append_left hlt
  persists := by
    intro j i _ hnode
    refine hp.mono fun i' hi' => ?_
    rw [mem_singleton.mp hi']
    exact mem_holders hnode

/-- A call that moves one iterator, and may return one. -/
theorem Moved.of_set {o : Option (Iterator w)} (hj : j < M.iters.length)
    (C : Counted T.heap ((extra.filterMap fun o => o.bind (·.cur)) ++
      ((o.bind (·.cur)).toList ++ M.others j)) t') (hp : Persists (M.others j) t t') :
    Moved [j] M t ⟨T, M.iters.set j o ++ extra⟩ t' where
  counted := by
    refine C.perm ?_
    show (_ ++ (_ ++ M.others j)).Perm ((M.iters.set j o ++ extra).filterMap _)
    rw [filterMap_append]
    exact perm_append_comm.trans ((filterMap_set_perm M.iters o j hj).symm.append_right _)
  length := by simp
  iters := by
    intro j' hj' hlt
    rw [getElem?_append_left (by simpa using hlt), getElem?_set_ne (fun h => hj' (by simp [h]))]
  persists := by
    intro j' i hj' hnode
    refine hp.mono fun i' hi' => ?_
    rw [mem_singleton.mp hi']
    exact mem_others hnode fun h => hj' (by simp [h])

theorem Moved.push (C : Counted out.1.heap (out.2.cur.toList ++ M.holders) t')
    (hp : Persists M.holders t t') : Moved [] M t (M.push out) t' := by
  refine Moved.of_append ?_ hp
  cases hcur : out.2.cur with
  | none => simpa [hcur] using C
  | some i => simpa [hcur] using C

theorem Moved.put (hj : j < M.iters.length)
    (C : Counted out.1.heap (out.2.cur.toList ++ M.others j) t') (hp : Persists (M.others j) t t') :
    Moved [j] M t (M.put j out) t' := by
  have h : Moved [j] M t ⟨out.1, M.iters.set j (some out.2) ++ []⟩ t' :=
    Moved.of_set hj (by simpa using C) hp
  rwa [append_nil] at h

theorem force_moved (C : Counted M.trie.heap M.holders t) (hj : M.live j = true) {hs₀ : List Nat}
    (hle : ∀ i, M.holders.count i + 1 ≤ hs₀.count i + 2) :
    Yields (Overflow hs₀) (fun M' => ∃ it out t', M.iters[j]? = some (some it) ∧
      M' = M.put j out ∧ Forced (M.others j) t it out t' ∧ Moved [j] M t M' t') (M.force j) := by
  obtain ⟨it, hget, hit⟩ := get_of_live hj
  have C' := C.perm (holders_perm hit)
  rw [force, hget, ok_bind]
  refine (forceValid_forced _ C' (fun a _ _ => ahead_lt_bound C.toCounts _) ?_ ?_).bind
    fun out hout => ?_
  · rw [Heap.bound]
    omega
  · intro i
    have h₁ := hle i
    have h₂ := count_others_le hit i
    omega
  · obtain ⟨t', F⟩ := hout
    exact ⟨it, out, t', hit, rfl, F, Moved.put (lt_of_get hit) F.counted F.keeps.persists⟩

end

section
variable {t : RefNodeTree w P}

/-- A call that moves the iterators in `js`, unless a count is at its end. -/
abbrev Moves (js : List Nat) (M : Machine w P) (t : RefNodeTree w P) (op : Op w P) :=
  Yields (Overflow M.holders) (fun M' => ∃ t', Moved js M t M' t') (M.step op)

theorem moved_of_made {r : Except Fault (RefTrie w P × Iterator w)}
    (h : Yields (Overflow M.holders) (Made M.holders t) r) :
    Yields (Overflow M.holders) (fun M' => ∃ t', Moved [] M t M' t')
      (r >>= fun out => pure (M.push out)) :=
  h.bind fun _ ⟨t', C, hp⟩ => ⟨t', Moved.push C hp⟩

section
variable (C : Counted M.trie.heap M.holders t)
include C

theorem entry_of_held (h : M.iters[j]? = some (some it)) : Entry t it.cur := by
  intro i hi
  exact C.held i (mem_holders ((node_eq h).trans hi))

theorem step_eraseAt (hj : M.live j = true) : Moves [] M t (.eraseAt j) := by
  obtain ⟨it, hget, hit⟩ := get_of_live hj
  rw [Moves, step, hget, ok_bind]
  refine (acquire_counted C (entry_of_held C hit) fun i => le_add_right _ _).bind fun T₁ hT₁ => ?_
  obtain ⟨t₁, C₁, hsame⟩ := hT₁
  obtain ⟨T₂, t₂, hrun₂, C₂, hp₂, -⟩ := eraseAt_counted C₁ (fun i (hi : it.cur = some i) => by simp [hi])
  obtain ⟨T₃, t₃, hrun₃, C₃, hleft⟩ := release_counted C₂
  rw [hrun₂, ok_bind, hrun₃, ok_bind]
  have hp : Persists M.holders t t₃ := ((Keeps.of_uncounted hsame).persists.trans
      (hp₂.mono fun i hi => mem_append_right _ hi)).trans hleft.keeps.persists
  have h : Moved [] M t ⟨T₃, M.iters ++ []⟩ t₃ := Moved.of_append C₃ hp
  rw [append_nil] at h
  exact ⟨t₃, h⟩

theorem step_copy (hj : M.live j = true) : Yields (Overflow M.holders)
      (fun M' => ∃ t', uncounted t' = uncounted t ∧ Moved [] M t M' t') (M.step (.copy j)) := by
  obtain ⟨it, hget, hit⟩ := get_of_live hj
  rw [step, hget, ok_bind]
  refine (acquire_counted C (entry_of_held C hit) fun i => le_add_right _ _).bind fun T₁ hT₁ => ?_
  obtain ⟨t₁, C₁, hsame⟩ := hT₁
  exact ⟨t₁, hsame, Moved.push C₁ (Keeps.of_uncounted hsame).persists⟩

theorem step_assign (hj : M.live j = true) (hi : M.live i = true) : Moves [j] M t (.assign j i) := by
  obtain ⟨it, hget, hit⟩ := get_of_live hj
  obtain ⟨x, hget', hx⟩ := get_of_live hi
  rw [Moves, step, hget, ok_bind, hget', ok_bind, assign]
  refine Yields.bind (Q := fun out => out.2 = x ∧ ∃ t', Counted out.1.heap (x.cur.toList ++ M.others j) t' ∧
    Persists (M.others j) t t') ?_ fun out hout => ?_
  · refine (acquire_counted C (entry_of_held C hx) fun i => le_add_right _ _).bind
      fun T₁ hT₁ => ?_
    obtain ⟨t₁, C₁, hsame⟩ := hT₁
    have C₁' : Counted T₁.heap (it.cur.toList ++ (x.cur.toList ++ M.others j)) t₁ := by
      refine C₁.perm (((holders_perm hit).append_left _).trans ?_)
      rw [← append_assoc, ← append_assoc]
      exact perm_append_comm.append_right _
    obtain ⟨T₂, t₂, hrun₂, C₂, hleft⟩ := release_counted C₁'
    rw [hrun₂, ok_bind]
    exact ⟨rfl, t₂, C₂, (Keeps.of_uncounted hsame).persists.trans
      (hleft.keeps.persists.mono fun i hi => mem_append_right _ hi)⟩
  · obtain ⟨rfl, t', C', hp⟩ := hout
    exact ⟨t', Moved.put (lt_of_get hit) C' hp⟩

theorem step_inc (hj : (M.node j).isSome = true) : Yields (Overflow M.holders)
      (fun M' => ∃ it a xs ys t', M.iters[j]? = some (some it) ∧ it.cur = some a.1 ∧
        t.nodes = xs ++ a :: ys ∧
        M'.iters[j]? = some (some { it with cur := (Mem.scan it.root ys).map Prod.fst }) ∧
        Keeps M'.holders t t' ∧ Moved [j] M t M' t') (M.step (.inc j)) := by
  obtain ⟨it, hget, hit⟩ := get_of_live (live_of_node hj)
  obtain ⟨i, hi⟩ := isSome_iff_exists.mp hj
  have hcur : it.cur = some i := (node_eq hit).symm.trans hi
  obtain ⟨a, ha, rfl, -⟩ := entry_of_held C hit i hcur
  obtain ⟨xs, ys, hsplit⟩ := append_of_mem ha
  have C' : Counted M.trie.heap (a.1 :: M.others j) t := by
    have hperm := holders_perm hit
    rw [hcur] at hperm
    exact C.perm hperm
  rw [step, hget, ok_bind]
  refine (next_counted C' hcur hsplit fun i => ?_).bind fun out hout => ?_
  · have hcount := (holders_perm hit).count_eq i
    rw [hcur] at hcount
    rw [hcount]
    exact le_add_right _ _
  · obtain ⟨hout, t', C'', hkeeps, -⟩ := hout
    have hmoved := Moved.put (lt_of_get hit) C'' (hkeeps.persists.mono fun i hi => mem_append_right _ hi)
    refine ⟨it, a, xs, ys, t', hit, hcur, hsplit, ?_, ?_, hmoved⟩
    · show (M.iters.set j (some out.2))[j]? = _
      rw [getElem?_set_self (lt_of_get hit), hout]
    · refine hkeeps.mono fun i hi => ?_
      exact (filterMap_set_perm M.iters (some out.2) j (lt_of_get hit)).mem_iff.mp hi

theorem step_postInc (hj : (M.node j).isSome = true) : Moves [j] M t (.postInc j) := by
  obtain ⟨it, hget, hit⟩ := get_of_live (live_of_node hj)
  obtain ⟨i, hi⟩ := isSome_iff_exists.mp hj
  have hcur : it.cur = some i := (node_eq hit).symm.trans hi
  have hperm := holders_perm hit
  rw [Moves, step, hget, ok_bind]
  refine (acquire_counted C (entry_of_held C hit) fun i => le_add_right _ _).bind fun T₁ hT₁ => ?_
  obtain ⟨t₁, C₁, hsame⟩ := hT₁
  rw [hcur] at C₁
  obtain ⟨a, ha, rfl, -⟩ := C₁.held i (by simp)
  obtain ⟨xs, ys, hsplit⟩ := append_of_mem ha
  refine (next_counted C₁ hcur hsplit fun i => ?_).bind fun out hout => ?_
  · show (a.1 :: M.holders).count i ≤ _
    rw [count_cons]
    split_ifs <;> omega
  · obtain ⟨-, t', C', hkeeps, -⟩ := hout
    have hsub : ∀ i ∈ M.others j, i ∈ out.2.cur.toList ++ M.holders := fun i hi =>
      mem_append_right _ (hperm.mem_iff.mpr (mem_append_right _ hi))
    refine ⟨t', Moved.of_set (lt_of_get hit) (C'.perm ?_)
      ((Keeps.of_uncounted hsame).persists.trans (hkeeps.persists.mono hsub))⟩
    -- the old position is now the returned iterator's
    refine (hperm.append_left _).trans ?_
    simp only [toList_some, filterMap_cons, filterMap_nil, bind_some, hcur]
    exact perm_middle

theorem step_destroy (hj : M.live j = true) : Moves [j] M t (.destroy j) := by
  obtain ⟨it, hget, hit⟩ := get_of_live hj
  obtain ⟨T', t', hrun, C', hleft⟩ := release_counted (C.perm (holders_perm hit))
  rw [Moves, step, hget, ok_bind, hrun, ok_bind]
  have h : Moved [j] M t ⟨T', M.iters.set j none ++ []⟩ t' :=
    Moved.of_set (lt_of_get hit) C' hleft.keeps.persists
  rw [append_nil] at h
  exact ⟨t', h⟩

end

theorem live_put (hi : M.live i = true) : (M.put j out).live i = true := by
  unfold live at hi ⊢
  show ((M.iters.set j (some out.2))[i]?.join).isSome = true
  by_cases hji : j = i
  · subst hji
    by_cases hlt : j < M.iters.length
    · rw [getElem?_set_self hlt]
      rfl
    · rw [getElem?_eq_none (Nat.le_of_not_lt hlt)] at hi
      simp at hi
  · rw [getElem?_set_ne hji]
    exact hi

/-- Moving an iterator puts at most one more on any node. -/
theorem count_put_le (hit : M.iters[j]? = some (some it)) :
    (M.put j out).holders.count i ≤ M.holders.count i + 1 := by
  have hperm := filterMap_set_perm M.iters (some out.2) j (lt_of_get hit)
  have hle := count_others_le hit i
  show ((M.iters.set j (some out.2)).filterMap _).count i ≤ _
  rw [hperm.count_eq, count_append]
  have hone : (out.2.cur.toList).count i ≤ 1 := by
    cases out.2.cur with
    | none => exact zero_le 1
    | some k =>
      show [k].count i ≤ 1
      exact count_le_length
  show (out.2.cur.toList).count i + (M.others j).count i ≤ _
  omega

theorem step_ne (C : Counted M.trie.heap M.holders t) (hj : M.live j = true) (hi : M.live i = true) :
    Moves [j, i] M t (.ne j i) := by
  refine (force_moved C hj fun i => by omega).bind fun M₁ hM₁ => ?_
  obtain ⟨it, out, t₁, hit, rfl, -, hmoved⟩ := hM₁
  refine (force_moved hmoved.counted (live_put hi) fun k => ?_).mono fun M₂ hM₂ => ?_
  · have hput : (M.put j out).holders.count k ≤ M.holders.count k + 1 := count_put_le hit
    omega
  · obtain ⟨-, -, t₂, -, -, -, hmoved'⟩ := hM₂
    exact ⟨t₂, hmoved.trans hmoved'⟩

/-- A call that follows a null `_root`. -/
theorem step_null (C : Counted M.trie.heap M.holders t) {op : Op w P} (hop : followsRoot op = true)
    (hroot : M.trie.heap.root = none) : M.step op = .error .badPointer := by
  have hderef : M.trie.heap.deref = .error .badPointer := if_pos hroot
  have hfind : ∀ k, M.trie.find k = .error .badPointer := fun k => by
    rw [find, hderef]
    rfl
  cases op with
  | erase k => rw [step, RefTrie.erase, hfind]; rfl
  | find k => rw [step, hfind]; rfl
  | lookupNode k => rw [step, RefTrie.lookupNode, hderef]; rfl
  | findLessSpecific k =>
    rw [step, RefTrie.findLessSpecific, if_neg (by simpa [followsRoot] using hop), hfind]
    rfl
  | lowerBound k =>
    have hnil : t = .nil := BinTree.ptr_eq_none.mp (C.root.symm.trans hroot)
    rw [step, RefTrie.lowerBound, lowerBoundNode, Mem.deepest_eq C.holds C.root, hroot, hnil]
    rfl
  | searchSubtree k => rw [step, RefTrie.searchSubtree, hderef]; rfl
  | _ => cases hop

/-- **What one call does**, with any number of iterators around. -/
theorem step_moved (C : Counted M.trie.heap M.holders t) (op : Op w P) (hl : M.legal op = true)
    (hroot : followsRoot op = true → M.trie.heap.root ≠ none) : Moves (moves op) M t op := by
  have hle : ∀ i, M.holders.count i ≤ M.holders.count i + 2 := fun i => le_add_right _ _
  cases op with
  | insert k p => exact moved_of_made (insert_made C k p hle)
  | erase k =>
    refine (erase_counted C hle (hroot rfl)).bind fun T' hT' => ?_
    obtain ⟨t', C', hp⟩ := hT'
    have h : Moved [] M t ⟨T', M.iters ++ []⟩ t' := Moved.of_append C' hp
    rw [append_nil] at h
    exact ⟨t', h⟩
  | eraseAt j => exact step_eraseAt C hl
  | begin =>
    exact moved_of_made (subtreeIterator_made C hle _ fun _ hi => mem_of_root C.toCounts hi)
  | end' => exact moved_of_made (iterator_made C hle entry_none)
  | find k => exact moved_of_made (find_made C hle k (hroot rfl))
  | lookupNode k => exact moved_of_made (lookupNode_made C hle k (hroot rfl))
  | findLessSpecific k =>
    exact moved_of_made (findLessSpecific_made C hle k fun hk => hroot (by simpa [followsRoot] using hk))
  | lowerBound k => exact moved_of_made (lowerBound_made C k (hroot rfl) fun i => by omega)
  | searchSubtree k => exact moved_of_made (searchSubtree_made C hle k (hroot rfl))
  | copy j =>
    refine (step_copy C hl).mono fun M' hM' => ?_
    obtain ⟨t', -, hmoved⟩ := hM'
    exact ⟨t', hmoved⟩
  | assign j i =>
    have hl := Bool.and_eq_true_iff.mp hl
    exact step_assign C hl.1 hl.2
  | inc j =>
    refine (step_inc C hl).mono fun M' hM' => ?_
    obtain ⟨-, -, -, -, t', -, -, -, -, -, hmoved⟩ := hM'
    exact ⟨t', hmoved⟩
  | postInc j => exact step_postInc C hl
  | destroy j => exact step_destroy C hl
  | ne j i =>
    have hl := Bool.and_eq_true_iff.mp hl
    exact step_ne C hl.1 hl.2
  | neEnd j =>
    refine (force_moved C hl fun i => by omega).mono fun M' hM' => ?_
    obtain ⟨-, -, t', -, -, -, hmoved⟩ := hM'
    exact ⟨t', hmoved⟩

end

/-! ### Runs -/

/-- The run of calls so far has left a trie with the right counts. -/
def Inv (M : Machine w P) : Prop := ∃ t, Counted M.trie.heap M.holders t

theorem Inv.empty : Inv (empty : Machine w P) := ⟨.nil, Counted.empty⟩

/-- One of the calls stops at the overflow guard, or follows a null `_root`. -/
def Stops (M : Machine w P) (ops : List (Op w P)) : Prop :=
  ∃ pre op post M', ops = pre ++ op :: post ∧ M.run pre = .ok M' ∧
    ((Crowded M'.holders ∧ M.run ops = .error .saturated) ∨
      (followsRoot op = true ∧ M'.trie.heap.root = none ∧ M.run ops = .error .badPointer))

variable {M : Machine w P}

theorem run_inv (ops : List (Op w P)) (hinv : Inv M) (hl : M.legalRun ops = true) :
    (∃ M', M.run ops = .ok M' ∧ Inv M') ∨ Stops M ops := by
  induction ops generalizing M with
  | nil => exact .inl ⟨M, rfl, hinv⟩
  | cons op ops ih =>
    obtain ⟨t, C⟩ := hinv
    rw [legalRun, Bool.and_eq_true_iff] at hl
    by_cases hnull : followsRoot op = true ∧ M.trie.heap.root = none
    · refine .inr ⟨[], op, ops, M, rfl, rfl, .inr ⟨hnull.1, hnull.2, ?_⟩⟩
      rw [run, step_null C hnull.1 hnull.2]
      rfl
    rcases (step_moved C op hl.1 fun hop hroot => hnull ⟨hop, hroot⟩).ok_or with
      ⟨M', hstep, t', hmoved⟩ | ⟨e, hstep, rfl, hcrowd⟩
    · have hrest := hl.2
      rw [hstep] at hrest
      have hrun : M.run (op :: ops) = M'.run ops := by
        rw [run, hstep]
        rfl
      rcases ih ⟨t', hmoved.counted⟩ hrest with ⟨M'', hM'', hinv''⟩ | hstop
      · exact .inl ⟨M'', hrun.trans hM'', hinv''⟩
      · obtain ⟨pre, op', post, N, rfl, hpre, herr⟩ := hstop
        refine .inr ⟨op :: pre, op', post, N, rfl, ?_, by rwa [hrun]⟩
        rw [run, hstep]
        exact hpre
    · refine .inr ⟨[], op, ops, M, rfl, rfl, .inl ⟨hcrowd, ?_⟩⟩
      rw [run, hstep]
      rfl

/-- A run that returned left the counts right. -/
theorem inv_of_run {ops : List (Op w P)} {M' : Machine w P} (hinv : Inv M) (hl : M.legalRun ops = true)
    (hrun : M.run ops = .ok M') : Inv M' := by
  rcases run_inv ops hinv hl with ⟨N, hN, hinv'⟩ | ⟨_, _, _, _, -, -, ⟨-, herr⟩ | ⟨-, -, herr⟩⟩
  · obtain rfl : N = M' := Except.ok.inj (hN.symm.trans hrun)
    exact hinv'
  · cases herr.symm.trans hrun
  · cases herr.symm.trans hrun

/-! ### What the counts guarantee -/

/-- What the class promises of its nodes and of the iterators on them. -/
structure Sound (M : Machine w P) : Prop where
  /-- a node that is referred to is linked in the tree, as every node is -/
  linked : ∀ i c, M.trie.heap.cells i = some c → refs c.data.x ≠ 0 → M.trie.heap.Reach i
  /-- the count of a node is the number of iterators on it -/
  counts : ∀ i c, M.trie.heap.cells i = some c → refs c.data.x = M.holders.count i
  /-- no iterator is on a node that has been freed -/
  live : ∀ j i, M.node j = some i → ∃ c, M.trie.heap.cells i = some c

theorem Inv.sound (h : Inv M) : Sound M := by
  obtain ⟨t, C⟩ := h
  refine ⟨?_, ?_, ?_⟩
  · intro i c hi _
    exact (C.holds.reach_iff C.root).mpr (by simp [hi])
  · intro i c hi
    obtain ⟨a, ha, rfl, hdata⟩ := C.holds.mem_of_cell hi
    rw [hdata]
    exact C.count a ha
  · intro j i hi
    obtain ⟨a, ha, rfl, -⟩ := C.held i (mem_holders hi)
    obtain ⟨c, hc, -⟩ := C.holds.cell_of_mem ha
    exact ⟨c, hc⟩

end Machine

end RefTrie

end Xorp

/-
The computation finds the shortest paths.

The set of tentative nodes is ordered by weights that change, so most of what there is to show is
that the set and the weights agree whenever the set is looked at: the nodes in it are those that
are valid, tentative and have a weight, and a weight changes only while its node is out of the set.
With that, one round of the loop settles the nearest vertex of the frontier and looks at its edges
(`ShortestPath.Frontier`).
-/
import Xorp.Libproto.Spt
import Xorp.Lib.ShortestPath

namespace Xorp.Libproto

open Linked ShortestPath OrderedSet List Node Nat Function

variable {A : Type} {obj obj' : Objects A} {T T' : Search A} {o me n r u v : Ref} {weight w : Nat}
  {queue : List Ref}

theorem modify_self (f : Node A → Node A) : obj.modify r f r = f (obj r) := update_self ..

theorem modify_of_ne (f : Node A → Node A) (h : v ≠ r) :
    obj.modify r f v = obj v := update_of_ne h ..

variable {f : Node A → Node A}

/-- What the change does not touch is the same everywhere. -/
theorem modify_same {β : Type} (g : Node A → β)
    (hf : g (f (obj r)) = g (obj r)) (v : Ref) : g (obj.modify r f v) = g (obj v) := by
  by_cases hv : v = r
  · rw [hv, modify_self, hf]
  · rw [modify_of_ne _ hv]

theorem ready_iff : ready obj v = true ↔
    (obj v).valid = true ∧ (obj v).tentative = true ∧ (obj v).current.valid = true := by
  simp only [ready, Bool.and_eq_true, and_assoc]

/-! ### The queue -/

theorem lweight_injective : Function.Injective (lweight obj) := fun _ _ h =>
  congrArg (fun p : Nat ×ₗ Nat => (ofLex p).2) h

theorem le_of_lweight_le (h : lweight obj u ≤ lweight obj v) :
    (obj u).current.pathLength ≤ (obj v).current.pathLength := by
  rcases Prod.Lex.le_iff.mp h with h | h
  · exact le_of_lt h
  · exact le_of_eq h.1

/-- In a queue in order, a node is found where it is. -/
theorem eraseFrom_eq (hs : OrderedSet.Sorted (lweight obj) queue) (hn : n ∈ queue) :
    eraseFrom obj n queue = erase n queue := by
  induction queue with
  | nil => cases hn
  | cons m rest ih =>
    obtain ⟨hm, hrest⟩ := pairwise_cons.mp hs
    unfold eraseFrom
    by_cases hmn : m = n
    · subst hmn
      rw [if_neg (lt_irrefl _), if_neg (lt_irrefl _), erase_cons_head]
      exact (OrderedSet.Sorted.erase_head hs).symm
    · have hin : n ∈ rest := (mem_cons.mp hn).resolve_left (Ne.symm hmn)
      rw [if_pos (hm n hin), ih hrest hin]
      exact (filter_cons_of_pos (by simpa using hmn)).symm

/-- The queue holds the nodes that are valid, tentative and have a weight, in order. -/
structure InQueue (obj : Objects A) (queue : List Ref) : Prop where
  sorted : OrderedSet.Sorted (lweight obj) queue
  mem : ∀ v, v ∈ queue ↔ ready obj v = true

section
variable (h : InQueue obj queue)
include h

theorem InQueue.congr (hw : ∀ v, lweight obj' v = lweight obj v)
    (hr : ∀ v, ready obj' v = ready obj v) : InQueue obj' queue := by
  constructor
  · rw [funext hw]
    exact h.sorted
  · intro v
    rw [hr]
    exact h.mem v

theorem InQueue.takeOut (hv : (obj n).valid = true)
    (ht : (obj n).tentative = true) : takeOut obj queue n = .ok (erase n queue) := by
  unfold Libproto.takeOut
  by_cases hc : (obj n).current.valid = true
  · have hready : ready obj n = true := ready_iff.mpr ⟨hv, ht, hc⟩
    have hall : (n :: queue).all (ready obj) = true := by
      rw [all_eq_true]
      exact forall_mem_cons.mpr ⟨hready, fun m => (h.mem m).mp⟩
    rw [if_pos hc, if_pos hall, eraseFrom_eq h.sorted ((h.mem n).mpr hready)]
  · have hout : n ∉ queue := fun hn => hc (ready_iff.mp ((h.mem n).mp hn)).2.2
    rw [if_neg hc]
    apply congrArg Except.ok
    apply Eq.symm
    apply filter_eq_self.mpr
    intro m hm
    exact decide_eq_true fun heq => hout (heq ▸ hm)

/-- Only the node `n` may have moved. -/
theorem InQueue.erase
    (hne : ∀ m, m ≠ n → lweight obj' m = lweight obj m ∧ ready obj' m = ready obj m) :
    OrderedSet.Sorted (lweight obj') (erase n queue) ∧
      ∀ v, v ∈ erase n queue ↔ ready obj' v = true ∧ v ≠ n := by
  constructor
  · refine List.Pairwise.imp_of_mem ?_ (h.sorted.erase n)
    intro a b ha hb hab
    rw [(hne a (mem_erase.mp ha).2).1, (hne b (mem_erase.mp hb).2).1]
    exact hab
  · intro v
    rw [mem_erase, h.mem]
    refine and_congr_left fun hv => ?_
    rw [(hne v hv).2]

/-- The node goes back with a weight of its own, and the others have not moved. -/
theorem InQueue.reinsert (obj' : Objects A)
    (hne : ∀ m, m ≠ n → lweight obj' m = lweight obj m ∧ ready obj' m = ready obj m)
    (hn : ready obj' n = true) : putIn obj' (OrderedSet.erase n queue) n =
        .ok (OrderedSet.insert (lweight obj') n (OrderedSet.erase n queue)) ∧
      InQueue obj' (OrderedSet.insert (lweight obj') n (OrderedSet.erase n queue)) := by
  obtain ⟨hsorted, hmem⟩ := h.erase hne
  refine ⟨?_, hsorted.insert lweight_injective n, fun v => ?_⟩
  · unfold putIn
    rw [if_pos]
    rw [all_eq_true]
    exact forall_mem_cons.mpr ⟨hn, fun m hm => ((hmem m).mp hm).1⟩
  · rw [mem_insert fun _ _ h => lweight_injective h, hmem]
    by_cases hv : v = n
    · exact iff_of_true (.inl hv) (hv ▸ hn)
    · exact ⟨fun hor => (hor.resolve_left hv).1, fun hr => .inr ⟨hr, hv⟩⟩

end

/-- What `add` leaves of the objects. -/
def added (obj : Objects A) (me n : Ref) (weight : Nat) : Objects A :=
  if accepts obj n weight then (obj.modify n (·.setWeight weight)).modify n (·.setLastHop me)
  else obj

theorem added_of_ne (hv : v ≠ n) : added obj me n weight v = obj v := by
  unfold added
  split_ifs
  · rw [modify_of_ne _ hv, modify_of_ne _ hv]
  · rfl

theorem InQueue.add (h : InQueue T.obj T.queue) (me : Ref) (weight : Nat)
    (hv : (T.obj n).valid = true) (ht : (T.obj n).tentative = true) :
    ∃ queue, T.add me n weight = .ok ⟨added T.obj me n weight, queue⟩ ∧
      InQueue (added T.obj me n weight) queue := by
  unfold Search.add added
  rw [h.takeOut hv ht, ok_bind, if_neg (not_not_intro ht)]
  by_cases hacc : accepts T.obj n weight = true
  · obtain ⟨hput, hin⟩ := h.reinsert (T.obj.modify n (·.setWeight weight))
      (fun m hm => by unfold lweight ready; rw [modify_of_ne _ hm]; exact ⟨rfl, rfl⟩)
      (by rw [ready_iff, modify_self]; exact ⟨hv, ht, rfl⟩)
    rw [if_pos hacc, if_pos hacc]
    dsimp only
    rw [hput, ok_bind]
    refine ⟨_, rfl, hin.congr ?_ ?_⟩
    · intro v
      exact congrArg (fun l => toLex (l, v)) (modify_same (·.current.pathLength) rfl v)
    · intro v
      exact modify_same (fun x => x.valid && x.tentative && x.current.valid) rfl v
  · -- The node had a weight, and goes back with it.
    have hc : (T.obj n).current.valid = true := by
      by_contra hc
      apply hacc
      unfold accepts
      rw [Bool.eq_false_iff.mpr hc]
      rfl
    obtain ⟨hput, hin⟩ := h.reinsert T.obj (fun _ _ => ⟨rfl, rfl⟩) (ready_iff.mpr ⟨hv, ht, hc⟩)
    rw [if_neg hacc, if_neg hacc, hput, ok_bind]
    exact ⟨_, rfl, hin⟩

/-! ### Looking at edges -/

/-- The edges that the computation follows: those that lead to a valid node. -/
def EdgeTo (G : Objects A) (u v : Ref) (w : Nat) : Prop :=
  ∃ a, (a, Edge.mk v w) ∈ (G u).adjacencies ∧ (G v).valid = true

/-- An edge with the name that it is known by. -/
def NamedEdge (G : Objects A) (u : Ref) (a : A) (v : Ref) (w : Nat) : Prop :=
  (a, Edge.mk v w) ∈ (G u).adjacencies ∧ (G v).valid = true

theorem edgeTo_iff : EdgeTo obj u v w ↔ ∃ a, NamedEdge obj u a v w := Iff.rfl

/-- The edges of one node change. -/
theorem namedEdge_modify {a : A} {s : Ref} (g : List (A × Edge) → List (A × Edge)) :
    NamedEdge (obj.modify s fun x => { x with adjacencies := g x.adjacencies }) u a v w ↔
      (a, Edge.mk v w) ∈ (if u = s then g (obj u).adjacencies else (obj u).adjacencies) ∧
        (obj v).valid = true := by
  unfold NamedEdge
  rw [modify_same valid rfl]
  refine and_congr_left fun _ => ?_
  by_cases hu : u = s
  · rw [hu, modify_self, if_pos rfl]
  · rw [modify_of_ne _ hu, if_neg hu]

/-- What the objects say about the vertices. -/
def labels (o : Ref) (obj : Objects A) (queue : List Ref) : Labels Ref where
  settled v := v = o ∨ ((obj v).valid = true ∧ (obj v).tentative = false)
  queued v := v ∈ queue
  dist v := if v = o then 0 else (obj v).current.pathLength
  last v := (obj v).current.lastHop.getD o
  first v := (obj v).current.firstHop.getD o

/-- The computation on the graph `G`, with the edges in `rest` still to be looked at. -/
structure Searching (G : Objects A) (o : Ref) (rest : Ref → Ref → Nat → Prop) (T : Search A) :
    Prop where
  valid_eq : ∀ v, (T.obj v).valid = (G v).valid
  adjacencies_eq : ∀ v, (T.obj v).adjacencies = (G v).adjacencies
  queue : InQueue T.obj T.queue
  origin : (T.obj o).tentative = false
  lastHop : ∀ {v}, (T.obj v).valid = true → v ≠ o → (T.obj v).current.valid = true →
    (T.obj v).current.lastHop.isSome = true
  settled : ∀ {v}, (T.obj v).valid = true → v ≠ o → (T.obj v).tentative = false →
    (T.obj v).current.valid = true ∧ (T.obj v).current.firstHop.isSome = true
  frontier : Frontier (EdgeTo G) o rest (labels o T.obj T.queue)

/-- What a search says about the vertices. -/
abbrev Search.labels (T : Search A) (o : Ref) : Labels Ref :=
  Libproto.labels o T.obj T.queue

variable {G : Objects A} {rest rest' : Ref → Ref → Nat → Prop}

theorem added_accepted (h : accepts obj n weight = true) :
    added obj me n weight n = ((obj n).setWeight weight).setLastHop me := by
  unfold added
  rw [if_pos h, modify_self, modify_self]

theorem added_refused (h : ¬ accepts obj n weight = true) : added obj me n weight = obj := by
  unfold added
  rw [if_neg h]

/-- `add` leaves the graph and the permanent nodes as they are. -/
theorem added_same {β : Type} (g : Node A → β)
    (hg : g (((obj n).setWeight weight).setLastHop me) = g (obj n)) (v : Ref) :
    g (added obj me n weight v) = g (obj v) := by
  by_cases hv : v = n
  · subst hv
    by_cases hacc : accepts obj v weight = true
    · rw [added_accepted hacc, hg]
    · rw [added_refused hacc]
  · rw [added_of_ne hv]

theorem accepts_eq_false (h : ¬ accepts obj n weight = true) :
    (obj n).current.valid = true ∧ (obj n).current.pathLength ≤ weight := by
  unfold accepts at h
  simp only [Bool.or_eq_true, Bool.not_eq_true', decide_eq_true_eq, not_or, not_lt] at h
  exact ⟨Bool.eq_true_of_not_eq_false h.1, h.2⟩

theorem le_of_accepts (h : accepts obj n weight = true) (hc : (obj n).current.valid = true) :
    weight ≤ (obj n).current.pathLength := by
  unfold accepts at h
  simp only [hc, Bool.not_true, Bool.false_or, decide_eq_true_eq] at h
  exact le_of_lt h

/-- The node is in the queue now. -/
theorem InQueue.mem_added {queue' : List Ref} (h : InQueue obj queue)
    (h' : InQueue (added obj me n weight) queue') (hv : (obj n).valid = true)
    (ht : (obj n).tentative = true) (x : Ref) : x ∈ queue' ↔ x = n ∨ x ∈ queue := by
  rw [h'.mem, h.mem]
  by_cases hx : x = n
  · subst hx
    refine ⟨fun _ => .inl rfl, fun _ => ?_⟩
    rw [ready_iff, added_same valid rfl, added_same tentative rfl]
    refine ⟨hv, ht, ?_⟩
    by_cases hacc : accepts obj x weight = true
    · rw [added_accepted hacc]
      rfl
    · rw [added_refused hacc]
      exact (accepts_eq_false hacc).1
  · unfold ready
    rw [added_of_ne hx]
    exact ⟨.inr, fun hor => hor.resolve_left hx⟩

section
variable (h : Searching G o rest T) (hme : (T.labels o).settled me) (he : EdgeTo G me n w)
  (ht : (T.obj n).tentative = true) (hweight : weight = (T.labels o).dist me + w)
  (hrest : ∀ {x y m}, rest x y m → rest' x y m ∨ (x = me ∧ y = n ∧ m = w))
include h ht

theorem Searching.ne_origin : n ≠ o := by
  rintro rfl
  rw [h.origin] at ht
  cases ht

include hme he hweight hrest

/-- The edge is relaxed. -/
theorem Searching.frontier_added (hin : InQueue (added T.obj me n weight) queue) :
    Frontier (EdgeTo G) o rest' (labels o (added T.obj me n weight) queue) := by
  have hno := h.ne_origin ht
  have hv : (T.obj n).valid = true := by
    rw [h.valid_eq, he.choose_spec.2]
  refine h.frontier.relax hme he ?_ ?_ ?_ (h.queue.mem_added hin hv ht) ?_ ?_ hrest
  · rintro (heq | ⟨-, hfalse⟩)
    · exact hno heq
    · rw [ht] at hfalse
      cases hfalse
  · funext v
    simp only [labels]
    rw [added_same valid rfl, added_same tentative rfl]
  · funext v
    simp only [labels]
    rw [added_same (·.current.firstHop) rfl]
  · intro x hx
    simp only [labels]
    rw [added_of_ne hx]
    exact ⟨rfl, rfl⟩
  · have hdist : (T.labels o).dist n = (T.obj n).current.pathLength := if_neg hno
    by_cases hacc : accepts T.obj n weight = true
    · refine .inl ⟨?_, ?_, fun hq => ?_⟩
      · rw [← hweight]
        simp only [labels]
        rw [added_accepted hacc, if_neg hno]
        rfl
      · simp only [labels]
        rw [added_accepted hacc]
        rfl
      · rw [hdist, ← hweight]
        exact le_of_accepts hacc (ready_iff.mp ((h.queue.mem n).mp hq)).2.2
    · obtain ⟨hc, hle⟩ := accepts_eq_false hacc
      refine .inr ⟨(h.queue.mem n).mpr (ready_iff.mpr ⟨hv, ht, hc⟩), ?_, ?_, ?_⟩
      · rw [hdist, ← hweight]
        exact hle
      · simp only [labels]
        rw [added_refused hacc]
      · simp only [labels]
        rw [added_refused hacc]

/-- An edge to a tentative node. -/
theorem Searching.add :
    ∃ T', T.add me n weight = .ok T' ∧ Searching G o rest' T' ∧
      (∀ v, (T'.obj v).tentative = (T.obj v).tentative) ∧ ∀ v, v ≠ n → T'.obj v = T.obj v := by
  have hv : (T.obj n).valid = true := by
    rw [h.valid_eq, he.choose_spec.2]
  obtain ⟨queue, hrun, hin⟩ := h.queue.add me weight hv ht
  have hsame : ∀ v, (added T.obj me n weight v).tentative = (T.obj v).tentative :=
    added_same tentative rfl
  refine ⟨_, hrun, ⟨fun v => ?_, fun v => ?_, hin, ?_, ?_, ?_,
    h.frontier_added hme he ht hweight hrest hin⟩, hsame, fun v hv => added_of_ne hv⟩
  · rw [added_same valid rfl, h.valid_eq]
  · rw [added_same adjacencies rfl, h.adjacencies_eq]
  · rw [hsame, h.origin]
  · intro v hvv hvo hvc
    dsimp only at hvv hvc ⊢
    by_cases hvn : v = n
    · subst hvn
      by_cases hacc : accepts T.obj v weight = true
      · rw [added_accepted hacc]
        rfl
      · rw [added_refused hacc] at hvc ⊢
        exact h.lastHop hv hvo hvc
    · rw [added_of_ne hvn] at hvv hvc ⊢
      exact h.lastHop hvv hvo hvc
  · intro v hvv hvo hvt
    dsimp only at hvv hvt ⊢
    rw [hsame] at hvt
    have hvn : v ≠ n := by
      rintro rfl
      rw [ht] at hvt
      cases hvt
    rw [added_of_ne hvn] at hvv ⊢
    exact h.settled hvv hvo hvt

end

/-- An edge that needs no look: its node is not valid, or is permanent. -/
theorem Searching.skip (h : Searching G o rest T)
    (hno : ¬ ((T.obj n).valid && (T.obj n).tentative) = true)
    (hrest : ∀ {x y m}, rest x y m → rest' x y m ∨ y = n) : Searching G o rest' T := by
  refine { h with frontier := h.frontier.weaken fun {x y m} he hr => ?_ }
  rcases hrest hr with hr | rfl
  · exact .inr hr
  · -- The edge is followed, so that its node is valid.
    obtain ⟨-, -, hvalid⟩ := he
    rw [h.valid_eq, hvalid, Bool.true_and, Bool.not_eq_true] at hno
    exact .inl (.inr ⟨by rw [h.valid_eq, hvalid], hno⟩)

/-- The edges of a node that are in a list. -/
def EdgesIn (me : Ref) (es : List (A × Edge)) : Ref → Ref → Nat → Prop :=
  fun x y m => x = me ∧ ∃ a, (a, Edge.mk y m) ∈ es

/-- The weight of a simple path from the origin fits. -/
def Fits (G : Objects A) (o : Ref) : Prop := ∀ p n, Route (EdgeTo G) o p n → n < 2 ^ 31

/-- Nothing that is added up overflows. -/
theorem Searching.fits (h : Searching G o rest T) (hfit : Fits G o)
    (hme : (T.labels o).settled me) (he : EdgeTo G me n w)
    (hn : ¬ (T.labels o).settled n) :
    (T.labels o).dist me + w < 2 ^ 31 := by
  obtain ⟨p, hp, hall, -⟩ := h.frontier.route hme
  refine hfit _ _ (hp.step he fun hin => hn ?_)
  rcases mem_cons.mp hin with rfl | hin
  · exact hme
  · exact hall n hin

theorem Searching.setAdjacentWeights {es : List (A × Edge)} (hfit : Fits G o)
    (h : Searching G o (EdgesIn me es) T) (hme : (T.labels o).settled me)
    (hweight : weight = (T.labels o).dist me)
    (hes : ∀ e ∈ es, e ∈ (G me).adjacencies) :
    ∃ T', T.setAdjacentWeights me weight es = .ok T' ∧ Searching G o NoRest T' ∧
      ∀ v, (T'.obj v).tentative = (T.obj v).tentative := by
  induction es generalizing T with
  | nil =>
    refine ⟨T, rfl, { h with frontier := ?_ }, fun _ => rfl⟩
    exact h.frontier.weaken fun _ hr => absurd hr.2.choose_spec not_mem_nil
  | cons e es ih =>
    obtain ⟨a, n, w⟩ := e
    have hsub : ∀ e ∈ es, e ∈ (G me).adjacencies := fun e he => hes e (mem_cons_of_mem _ he)
    unfold Search.setAdjacentWeights
    by_cases hlook : ((T.obj n).valid && (T.obj n).tentative) = true
    · rw [if_pos hlook]
      rw [Bool.and_eq_true] at hlook
      have he : EdgeTo G me n w := ⟨a, hes _ mem_cons_self, by rw [← h.valid_eq]; exact hlook.1⟩
      have hn : ¬ (T.labels o).settled n := by
        rintro (rfl | ⟨-, hfalse⟩)
        · rw [h.origin] at hlook
          exact Bool.false_ne_true hlook.2
        · rw [hfalse] at hlook
          exact Bool.false_ne_true hlook.2
      have hrest : ∀ {x y m}, EdgesIn me ((a, Edge.mk n w) :: es) x y m →
          EdgesIn me es x y m ∨ (x = me ∧ y = n ∧ m = w) := by
        rintro x y m ⟨rfl, b, hb⟩
        rcases mem_cons.mp hb with heq | hb
        · cases heq
          exact .inr ⟨rfl, rfl, rfl⟩
        · exact .inl ⟨rfl, b, hb⟩
      have hlt := h.fits hfit hme he hn
      rw [← hweight] at hlt
      rw [if_neg (not_le.mpr hlt)]
      obtain ⟨T₁, hrun, hT₁, htent, hkeep⟩ := h.add hme he hlook.2 (congrArg (· + w) hweight) hrest
      rw [hrun, ok_bind]
      have hne : me ≠ n := fun heq => hn (heq ▸ hme)
      have hme₁ : (T₁.labels o).settled me := by
        simp only [labels] at hme ⊢
        rw [hkeep me hne]
        exact hme
      have hweight₁ : weight = (T₁.labels o).dist me := by
        simp only [labels] at hweight ⊢
        rw [hkeep me hne]
        exact hweight
      obtain ⟨T₂, hrun₂, hT₂, htent₂⟩ := ih hT₁ hme₁ hweight₁ hsub
      exact ⟨T₂, hrun₂, hT₂, fun v => (htent₂ v).trans (htent v)⟩
    · rw [if_neg hlook]
      refine ih (h.skip hlook ?_) hme hweight hsub
      rintro x y m ⟨rfl, b, hb⟩
      rcases mem_cons.mp hb with heq | hb
      · cases heq
        exact .inr rfl
      · exact .inl ⟨rfl, b, hb⟩

/-! ### A round of the loop -/

theorem InQueue.pop (h : InQueue obj (n :: queue)) (hn : ready obj' n = false)
    (hne : ∀ m, m ≠ n → lweight obj' m = lweight obj m ∧ ready obj' m = ready obj m) :
    InQueue obj' queue := by
  obtain ⟨hsorted, hmem⟩ := h.erase hne
  rw [h.sorted.erase_head] at hsorted hmem
  refine ⟨hsorted, fun v => ?_⟩
  rw [hmem v, and_iff_left_iff_imp]
  rintro hv rfl
  exact Bool.false_ne_true (hn.symm.trans hv)

/-- What is left of the objects when a node has been made permanent. -/
def permanent (obj : Objects A) (n : Ref) (hop : Option Ref) : Objects A :=
  (obj.modify n fun x => { x with tentative := false }).modify n (·.setFirstHop hop)

theorem permanent_self (obj : Objects A) (n : Ref) (hop : Option Ref) :
    permanent obj n hop n = setFirstHop { obj n with tentative := false } hop := by
  unfold permanent
  rw [modify_self, modify_self]

theorem permanent_of_ne (hop : Option Ref) (h : v ≠ n) : permanent obj n hop v = obj v := by
  unfold permanent
  rw [modify_of_ne _ h, modify_of_ne _ h]

theorem permanent_same {β : Type} (g : Node A → β) (hop : Option Ref)
    (hg : g (setFirstHop { obj n with tentative := false } hop) = g (obj n)) :
    g (permanent obj n hop v) = g (obj v) := by
  by_cases hv : v = n
  · rw [hv, permanent_self, hg]
  · rw [permanent_of_ne _ hv]

section
variable (h : Searching G o rest T) (hq : T.queue = n :: queue)
include h hq

theorem Searching.head : n ∈ T.queue ∧ n ≠ o ∧ (T.obj n).valid = true ∧ (T.obj n).tentative = true ∧
      (T.obj n).current.valid = true := by
  have hn : n ∈ T.queue := by rw [hq]; exact mem_cons_self
  exact ⟨hn, fun heq => h.frontier.apart hn (.inl heq), ready_iff.mp ((h.queue.mem n).mp hn)⟩

/-- The first node of the queue is the nearest. -/
theorem Searching.nearest (hv : v ∈ T.queue) : (T.labels o).dist n ≤ (T.labels o).dist v := by
  have hmin := h.queue.sorted.le_of_head? (y := n) (by rw [hq]; rfl)
  have hle := le_of_lweight_le (hmin.2 v hv)
  have hno : n ≠ o := fun heq => h.frontier.apart hmin.1 (.inl heq)
  have hvo : v ≠ o := fun heq => h.frontier.apart hv (.inl heq)
  simp only [labels]
  rw [if_neg hno, if_neg hvo]
  exact hle

end

section
variable (h : Searching G o NoRest T) (hq : T.queue = n :: queue)
include h hq

/-- The first node of the queue is made permanent, with the first hop of the node before it. -/
theorem Searching.permanent {hop : Ref} (hdirect : (T.labels o).last n = o → hop = n)
    (hvia : (T.labels o).last n ≠ o →
      hop = (T.labels o).first ((T.labels o).last n)) :
    Searching G o (fun x _ _ => x = n) ⟨permanent T.obj n (some hop), queue⟩ := by
  obtain ⟨hn, hno, hvalid, htent, hcur⟩ := h.head hq
  have hself := permanent_self T.obj n (some hop)
  have hother : ∀ v, v ≠ n → Libproto.permanent T.obj n (some hop) v = T.obj v :=
    fun v hv => permanent_of_ne (some hop) hv
  have hin : InQueue T.obj (n :: queue) := hq ▸ h.queue
  have hqueue : InQueue (Libproto.permanent T.obj n (some hop)) queue := by
    refine hin.pop ?_ fun m hm => ?_
    · unfold ready
      rw [hself]
      simp [setFirstHop]
    · unfold lweight ready
      rw [hother m hm]
      exact ⟨rfl, rfl⟩
  have hmem : ∀ x, x ∈ queue ↔ x ∈ T.queue ∧ x ≠ n := by
    intro x
    rw [hq, ← mem_erase, hin.sorted.erase_head]
  refine ⟨fun v => ?_, fun v => ?_, hqueue, ?_, ?_, ?_, ?_⟩
  · exact (permanent_same valid _ rfl).trans (h.valid_eq v)
  · exact (permanent_same adjacencies _ rfl).trans (h.adjacencies_eq v)
  · dsimp only
    rw [hother o (Ne.symm hno), h.origin]
  · intro v hvv hvo hvc
    dsimp only at hvv hvc ⊢
    by_cases hv : v = n
    · subst hv
      rw [hself]
      exact h.lastHop hvalid hvo hcur
    · rw [hother v hv] at hvv hvc ⊢
      exact h.lastHop hvv hvo hvc
  · intro v hvv hvo hvt
    dsimp only at hvv hvt ⊢
    by_cases hv : v = n
    · subst hv
      rw [hself]
      exact ⟨hcur, rfl⟩
    · rw [hother v hv] at hvv hvt ⊢
      exact h.settled hvv hvo hvt
  · refine h.frontier.settle hn (fun v hv => h.nearest hq hv) ?_ hmem ?_ ?_ ?_ ?_ ?_
    · intro x
      simp only [labels]
      by_cases hx : x = n
      · subst hx
        rw [hself]
        exact ⟨fun _ => .inl rfl, fun _ => .inr ⟨hvalid, rfl⟩⟩
      · rw [hother x hx]
        exact ⟨.inr, fun hor => hor.resolve_left hx⟩
    · funext x
      simp only [labels]
      rw [permanent_same (·.current.pathLength) (some hop) rfl]
    · funext x
      simp only [labels]
      rw [permanent_same (·.current.lastHop) (some hop) rfl]
    · intro x hx
      simp only [labels]
      rw [hother x hx]
    · intro hl
      simp only [labels]
      rw [hself]
      exact hdirect hl
    · intro hl
      simp only [labels]
      rw [hself]
      exact hvia hl

theorem Searching.makePermanent :
    ∃ hop, T.makePermanent o n queue = .ok ⟨Libproto.permanent T.obj n (some hop), queue⟩ ∧
      Searching G o (fun x _ _ => x = n) ⟨Libproto.permanent T.obj n (some hop), queue⟩ := by
  obtain ⟨hn, hno, hvalid, -, hcur⟩ := h.head hq
  have hnot : ¬ (T.labels o).settled n := h.frontier.apart hn
  obtain ⟨prev, hprev⟩ := Option.isSome_iff_exists.mp (h.lastHop hvalid hno hcur)
  have hlast : (T.labels o).last n = prev := by
    simp only [labels]
    rw [hprev]
    rfl
  have hset : (T.labels o).settled prev := hlast ▸ (h.frontier.best hn).1
  have hpn : prev ≠ n := fun heq => hnot (heq ▸ hset)
  unfold Search.makePermanent
  dsimp only
  rw [modify_self]
  rw [hprev]
  dsimp only
  by_cases hpo : prev = o
  · rw [if_pos hpo]
    refine ⟨n, rfl, h.permanent hq (fun _ => rfl) fun hne => ?_⟩
    rw [hlast] at hne
    contradiction
  · obtain ⟨hpv, hpt⟩ := hset.resolve_left hpo
    obtain ⟨hpc, hpf⟩ := h.settled hpv hpo hpt
    obtain ⟨f, hf⟩ := Option.isSome_iff_exists.mp hpf
    rw [if_neg hpo, modify_of_ne _ hpn, if_neg (not_not_intro hpc), hf]
    refine ⟨f, rfl, h.permanent hq (fun heq => ?_) fun _ => ?_⟩
    · rw [hlast] at heq
      contradiction
    · rw [hlast]
      simp only [labels]
      rw [hf]
      rfl

end

/-! ### The loop -/

/-- The number of tentative nodes. -/
def tentatives (nodes : List (A × Ref)) (obj : Objects A) : Nat :=
  (nodes.filter fun e => (obj e.2).tentative).length

variable {nodes : List (A × Ref)}

theorem tentatives_lt {a : A} (hn : (a, n) ∈ nodes) (hold : (obj n).tentative = true)
    (hnew : (obj' n).tentative = false)
    (hsame : ∀ v, v ≠ n → (obj' v).tentative = (obj v).tentative) :
    tentatives nodes obj' < tentatives nodes obj := by
  have himp : ∀ e : A × Ref, (obj' e.2).tentative = true → (obj e.2).tentative = true := by
    intro e he
    by_cases hv : e.2 = n
    · rw [hv, hnew] at he
      cases he
    · rw [← hsame _ hv]
      exact he
  have hsub : (nodes.filter fun e => (obj' e.2).tentative).Sublist
      (nodes.filter fun e => (obj e.2).tentative) := monotone_filter_right nodes himp
  refine lt_of_le_of_ne hsub.length_le fun heq => ?_
  have hin : (a, n) ∈ nodes.filter fun e => (obj e.2).tentative := mem_filter.mpr ⟨hn, hold⟩
  rw [← hsub.eq_of_length heq, mem_filter, hnew] at hin
  cases hin.2

/-- Every valid node is among the nodes that are found by name. -/
def Listed (G : Objects A) (nodes : List (A × Ref)) : Prop :=
  ∀ v, (G v).valid = true → ∃ a, (a, v) ∈ nodes

theorem Searching.loop {fuel : Nat} (hfit : Fits G o) (hlisted : Listed G nodes)
    (h : Searching G o (fun x _ _ => x = me) T) (hme : (T.labels o).settled me)
    (hweight : weight = (T.labels o).dist me) (hfuel : tentatives nodes T.obj < fuel) :
    ∃ T', Search.loop o fuel T me weight = .ok T' ∧ Searching G o NoRest T' ∧ T'.queue = [] := by
  induction fuel generalizing T me weight with
  | zero => omega
  | succ fuel ih =>
    have hedges : Searching G o (EdgesIn me (T.obj me).adjacencies) T := by
      refine { h with frontier := h.frontier.weaken fun {x y m} he hx => .inr ?_ }
      obtain ⟨a, ha, -⟩ := he
      subst hx
      exact ⟨rfl, a, by rw [h.adjacencies_eq]; exact ha⟩
    obtain ⟨T₁, hrun, hT₁, htent⟩ := hedges.setAdjacentWeights hfit hme hweight
      fun e he => by rw [← h.adjacencies_eq]; exact he
    unfold Search.loop
    rw [hrun, ok_bind]
    rcases hq : T₁.queue with _ | ⟨n, queue⟩
    · exact ⟨T₁, rfl, hT₁, hq⟩
    · obtain ⟨-, hno, hvalid, hold, hcur⟩ := hT₁.head hq
      dsimp only
      rw [if_neg (not_not_intro (ready_iff.mpr ⟨hvalid, hold, hcur⟩))]
      obtain ⟨hop, hmake, hT₂⟩ := hT₁.makePermanent hq
      rw [hmake, ok_bind]
      have hself := permanent_self T₁.obj n (some hop)
      refine ih hT₂ ?_ ?_ ?_
      · refine .inr ⟨?_, ?_⟩
        · dsimp only
          rw [hself]
          exact hvalid
        · dsimp only
          rw [hself]
          rfl
      · simp only [labels]
        rw [if_neg hno, hself]
        rfl
      · rw [hT₁.valid_eq] at hvalid
        obtain ⟨a, ha⟩ := hlisted n hvalid
        have hless : tentatives nodes (Libproto.permanent T₁.obj n (some hop)) <
            tentatives nodes T₁.obj := by
          refine tentatives_lt ha hold ?_ fun v hv => ?_
          · rw [hself]
            rfl
          · rw [permanent_of_ne _ hv]
        have hsame : tentatives nodes T₁.obj = tentatives nodes T.obj := by
          unfold tentatives
          simp only [htent]
        dsimp only
        omega

/-! ### The whole computation -/

/-- What does not change for the nodes that stay: the paths that were found. -/
structure Kept (obj obj' : Objects A) : Prop where
  valid_eq : ∀ v, (obj' v).valid = (obj v).valid
  current_eq : ∀ v, (obj v).valid = true → (obj' v).current = (obj v).current

theorem Kept.refl (obj : Objects A) : Kept obj obj := ⟨fun _ => rfl, fun _ _ => rfl⟩

theorem Kept.trans {obj'' : Objects A} (h : Kept obj obj') (h' : Kept obj' obj'') :
    Kept obj obj'' where
  valid_eq v := (h'.valid_eq v).trans (h.valid_eq v)
  current_eq v hv := (h'.current_eq v (by rw [h.valid_eq, hv])).trans (h.current_eq v hv)

theorem Kept.modify (hf : (f (obj r)).valid = (obj r).valid)
    (hc : (obj r).valid = true → (f (obj r)).current = (obj r).current) :
    Kept obj (obj.modify r f) := by
  constructor
  · exact modify_same valid hf
  · intro v hvalid
    by_cases hv : v = r
    · subst hv
      rw [modify_self, hc hvalid]
    · rw [modify_of_ne _ hv]

/-- `init_dijkstra` leaves the graph as it is, and nothing of the previous computation. -/
theorem foldl_init (nodes : List (A × Ref)) (obj : Objects A) (v : Ref) :
    let f := fun (obj : Objects A) (e : A × Ref) => obj.modify e.2 fun x =>
      { x with tentative := true, current := { x.current with valid := false } }
    (nodes.foldl f obj v).valid = (obj v).valid ∧
      (nodes.foldl f obj v).adjacencies = (obj v).adjacencies ∧
      ((∃ a, (a, v) ∈ nodes) ∨ ((obj v).tentative = true ∧ (obj v).current.valid = false) →
        (nodes.foldl f obj v).tentative = true ∧ (nodes.foldl f obj v).current.valid = false) := by
  intro f
  induction nodes generalizing obj with
  | nil =>
    refine ⟨rfl, rfl, fun h => h.resolve_left ?_⟩
    rintro ⟨a, ha⟩
    cases ha
  | cons e nodes ih =>
    obtain ⟨hvalid, hadj, hreset⟩ := ih (f obj e)
    by_cases hv : v = e.2
    · have hself : f obj e v =
          { obj v with tentative := true, current := { (obj v).current with valid := false } } := by
        rw [hv]
        exact modify_self ..
      rw [hself] at hvalid hadj hreset
      exact ⟨hvalid, hadj, fun _ => hreset (.inr ⟨rfl, rfl⟩)⟩
    · have hother : f obj e v = obj v := modify_of_ne _ hv
      rw [hother] at hvalid hadj hreset
      refine ⟨hvalid, hadj, fun h => hreset (h.imp_left ?_)⟩
      rintro ⟨a, ha⟩
      rcases mem_cons.mp ha with heq | ha
      · exact absurd (congrArg Prod.snd heq) hv
      · exact ⟨a, ha⟩

variable {S : Spt A}

theorem Searching.init (hlisted : Listed S.obj S.nodes) (o : Ref) :
    Searching S.obj o (fun x _ _ => x = o)
      ⟨S.initDijkstra.modify o fun x => { x with tentative := false }, []⟩ := by
  set obj := S.initDijkstra.modify o fun x => { x with tentative := false }
  have hinit := foldl_init S.nodes S.obj
  have hother : ∀ v, v ≠ o → obj v = S.initDijkstra v := fun v hv => modify_of_ne _ hv
  have hself : obj o = { S.initDijkstra o with tentative := false } := modify_self ..
  have hvalid : ∀ v, (obj v).valid = (S.obj v).valid := fun v => (modify_same valid rfl v).trans (hinit v).1
  have hfresh : ∀ v, v ≠ o → (S.obj v).valid = true →
      (obj v).tentative = true ∧ (obj v).current.valid = false := by
    intro v hv hvv
    rw [hother v hv]
    exact (hinit v).2.2 (.inl (hlisted v hvv))
  have hready : ∀ v, ready obj v = false := by
    intro v
    unfold ready
    by_cases hv : v = o
    · subst hv
      rw [hself, Bool.and_false, Bool.false_and]
    · rw [hvalid v]
      cases hvv : (S.obj v).valid with
      | false => rw [Bool.false_and, Bool.false_and]
      | true => rw [(hfresh v hv hvv).2, Bool.and_false]
  refine ⟨hvalid, fun v => ?_, ⟨List.Pairwise.nil, fun v => ?_⟩, ?_, ?_, ?_, ?_⟩
  · exact (modify_same adjacencies rfl v).trans (hinit v).2.1
  · rw [hready v]
    exact ⟨fun h => absurd h not_mem_nil, fun h => absurd h Bool.false_ne_true⟩
  · dsimp only
    rw [hself]
  · intro v hvv hvo hvc
    rw [hvalid v] at hvv
    rw [(hfresh v hvo hvv).2] at hvc
    cases hvc
  · intro v hvv hvo hvt
    rw [hvalid v] at hvv
    rw [(hfresh v hvo hvv).1] at hvt
    cases hvt.symm
  · refine Frontier.init (fun x => ?_) (fun x hx => not_mem_nil hx) (if_pos rfl)
    refine ⟨fun hx => ?_, .inl⟩
    by_contra hxo
    obtain ⟨hvv, hvt⟩ := hx.resolve_left hxo
    rw [hvalid x] at hvv
    rw [(hfresh x hxo hvv).1] at hvt
    cases hvt.symm

theorem dijkstra_spec (hlisted : Listed S.obj S.nodes) (hfit : Fits S.obj o) :
    ∃ T, S.dijkstra o = .ok T ∧ Searching S.obj o NoRest T ∧ T.queue = [] := by
  have hinit := Searching.init hlisted o
  refine hinit.loop hfit hlisted hinit.frontier.origin hinit.frontier.dist_origin.symm ?_
  exact lt_succ_of_le (length_filter_le _ _)

/-- A node that has a weight has its hops. -/
def HopsKnown (o : Ref) (obj : Objects A) : Prop :=
  ∀ v, (obj v).valid = true → v ≠ o → (obj v).current.valid = true →
    (obj v).current.firstHop.isSome = true ∧ (obj v).current.lastHop.isSome = true

theorem delta_ok (h : HopsKnown o obj) (hr : r ≠ o) : ∃ cmd, Spt.delta obj r = .ok cmd := by
  unfold Spt.delta
  by_cases hvalid : (obj r).valid = true
  · rw [if_neg (not_not_intro hvalid)]
    by_cases hcur : (obj r).current.valid = true
    · obtain ⟨hf, hl⟩ := h r hvalid hr hcur
      obtain ⟨f, hf⟩ := Option.isSome_iff_exists.mp hf
      obtain ⟨l, hl⟩ := Option.isSome_iff_exists.mp hl
      unfold Spt.deltaReached
      dsimp only
      rw [hf, hl]
      split_ifs
      · exact ⟨_, rfl⟩
      · exact ⟨_, rfl⟩
      · exact ⟨_, rfl⟩
    · rw [if_pos hcur]
      exact ⟨_, rfl⟩
  · rw [if_pos hvalid]
    exact ⟨_, rfl⟩

theorem HopsKnown.kept (h : HopsKnown o obj) (hk : Kept obj obj') : HopsKnown o obj' := by
  intro v hv hvo hc
  rw [hk.valid_eq] at hv
  rw [hk.current_eq v hv] at hc ⊢
  exact h v hv hvo hc

theorem deltas_ok (h : HopsKnown o obj) :
    ∃ obj' cmds, Spt.deltas o obj nodes = .ok (obj', cmds) ∧ Kept obj obj' := by
  induction nodes generalizing obj with
  | nil => exact ⟨obj, [], rfl, .refl obj⟩
  | cons e nodes ih =>
    obtain ⟨a, r⟩ := e
    unfold Spt.deltas
    split_ifs with hr hv
    · exact ih h
    · obtain ⟨cmd, hcmd⟩ := delta_ok h hr
      have hk : Kept obj (obj.modify r fun x => { x with previous := x.current }) :=
        Kept.modify rfl fun _ => rfl
      obtain ⟨obj', cmds, hrun, hkept⟩ := ih (h.kept hk)
      rw [hcmd, ok_bind]
      dsimp only
      rw [hrun, ok_bind]
      exact ⟨obj', _, rfl, hk.trans hkept⟩
    · obtain ⟨cmd, hcmd⟩ := delta_ok h hr
      obtain ⟨obj', cmds, hrun, hkept⟩ := ih h
      rw [hcmd, ok_bind]
      dsimp only
      rw [hrun, ok_bind]
      exact ⟨obj', _, rfl, hkept⟩

/-- Clearing nodes that are not valid. -/
theorem kept_clear (dead : List (A × Edge)) (hdead : ∀ e ∈ dead, (obj e.2.dst).valid = false) :
    Kept obj (dead.foldl (fun o e => o.modify e.2.dst clear) obj) := by
  induction dead generalizing obj with
  | nil => exact .refl obj
  | cons e dead ih =>
    have he := hdead e mem_cons_self
    have hk : Kept obj (obj.modify e.2.dst clear) :=
      Kept.modify rfl fun h => absurd (he.symm.trans h) Bool.false_ne_true
    refine hk.trans (ih fun e' he' => ?_)
    rw [hk.valid_eq]
    exact hdead e' (mem_cons_of_mem _ he')

theorem kept_collect : Kept obj (Spt.collect obj r) := by
  unfold Spt.collect
  refine (kept_clear _ fun e he => ?_).trans (Kept.modify rfl fun _ => rfl)
  have hdead := (mem_filter.mp he).2
  rw [Bool.not_eq_true'] at hdead
  exact hdead

theorem kept_garbageCollect (S : Spt A) : Kept S.obj S.garbageCollect.obj := by
  unfold Spt.garbageCollect
  generalize S.nodes.filter (fun e => (S.obj e.2).valid) = nodes
  generalize S.obj = obj
  induction nodes generalizing obj with
  | nil => exact .refl obj
  | cons e nodes ih => exact kept_collect.trans (ih _)

/-- What a computation leaves: the valid nodes, with what the search found. -/
theorem compute_spec (hlisted : Listed S.obj S.nodes) (ho : S.origin = some o)
    (hfit : Fits S.obj o) :
    ∃ S' cmds T, S.compute = .ok (S', some cmds) ∧ Searching S.obj o NoRest T ∧ T.queue = [] ∧
      Kept T.obj S'.obj ∧ S'.nodes = S.nodes.filter fun e => (S.obj e.2).valid := by
  obtain ⟨T, hrun, hT, hq⟩ := dijkstra_spec hlisted hfit
  have hhops : HopsKnown o T.obj := by
    intro v hv hvo hc
    refine ⟨?_, hT.lastHop hv hvo hc⟩
    -- The queue is empty, so that the node is permanent.
    cases ht : (T.obj v).tentative with
    | false => exact (hT.settled hv hvo ht).2
    | true =>
      have hin : v ∈ T.queue := (hT.queue.mem v).mpr (ready_iff.mpr ⟨hv, ht, hc⟩)
      rw [hq] at hin
      cases hin
  obtain ⟨obj', cmds, hdeltas, hkept⟩ := deltas_ok hhops
  refine ⟨_, cmds, T, ?_, hT, hq, hkept.trans (kept_garbageCollect { S with obj := obj' }), ?_⟩
  · unfold Spt.compute
    rw [ho]
    dsimp only
    rw [hrun, ok_bind, hdeltas, ok_bind]
  · have hvalid : ∀ v, (obj' v).valid = (S.obj v).valid := fun v =>
      (hkept.valid_eq v).trans (hT.valid_eq v)
    show S.nodes.filter (fun e => (obj' e.2).valid) = _
    simp only [hvalid]

namespace Spt

variable [LinearOrder A]

/-! ### Runs -/

/-- The calls.  A call that can make a node says at which address. -/
inductive Op (A : Type)
  | addNode (a : A) (r : Ref)
  | removeNode (a : A)
  | addEdge (src : A) (weight : Nat) (dst : A) (r : Ref)
  | updateEdgeWeight (src : A) (weight : Nat) (dst : A)
  | removeEdge (src dst : A)
  | setOrigin (a : A)
  | compute

def step (S : Spt A) : Op A → Except Fault (Spt A)
  | .addNode a r => .ok (S.addNode a r)
  | .removeNode a => .ok (S.removeNode a)
  | .addEdge src weight dst r => .ok (S.addEdge src weight dst r)
  | .updateEdgeWeight src weight dst => .ok (S.updateEdgeWeight src weight dst)
  | .removeEdge src dst => .ok (S.removeEdge src dst)
  | .setOrigin a => .ok (S.setOrigin a)
  | .compute => do
      let (S, _) ← S.compute
      .ok S

/-- The address of a new node has not been given to another one, and what a computation adds up
fits. -/
def Legal (S : Spt A) : Op A → Prop
  | .addNode _ r => r ∉ S.allocated
  | .addEdge _ _ _ r => r ∉ S.allocated
  | .compute => ∀ o, S.origin = some o → Fits S.obj o
  | _ => True

/-- The graphs that calls can build, from an empty one. -/
inductive Reach : Spt A → Prop
  | init (obj : Objects A) (h : ∀ r, (obj r).valid = false) : Reach ⟨obj, [], none, []⟩
  | step {S S' : Spt A} (op : Op A) : Reach S → S.Legal op → S.step op = .ok S' → Reach S'

end Spt

/-- A node that is found is changed. -/
theorem Listed.modify (h : Listed obj nodes) (hr : ∃ a, (a, r) ∈ nodes) :
    Listed (obj.modify r f) nodes := by
  intro v hv
  by_cases hvr : v = r
  · rw [hvr]
    exact hr
  · rw [modify_of_ne _ hvr] at hv
    exact h v hv

section Runs

variable [LinearOrder A] {S S' : Spt A}

theorem listed_of_findNode {a : A} (h : S.findNode a = some n) : ∃ b, (b, n) ∈ S.nodes := by
  obtain ⟨e, he, rfl⟩ := Option.map_eq_some_iff.mp h
  exact ⟨e.1, mem_of_find?_eq_some he⟩

theorem nodes_addNode {e : A × Ref} (a : A) (he : e ∈ S.nodes) : e ∈ (S.addNode a r).nodes := by
  unfold Spt.addNode
  split
  · split_ifs
    · exact he
    · exact he
  · exact mem_insert_of_mem he

section
variable (h : Listed S.obj S.nodes)
include h

theorem Listed.addNode (a : A) (r : Ref) : Listed (S.addNode a r).obj (S.addNode a r).nodes := by
  unfold Spt.addNode
  split
  · rename_i n hfind
    split_ifs
    · exact h
    · exact h.modify (listed_of_findNode hfind)
  · rename_i hfind
    intro v hv
    dsimp only at hv ⊢
    by_cases hvr : v = r
    · subst hvr
      unfold Spt.findNode at hfind
      rw [Option.map_eq_none_iff, List.find?_eq_none] at hfind
      exact ⟨a, (mem_insert fun e he heq => absurd (decide_eq_true heq) (hfind e he)).mpr (.inl rfl)⟩
    · rw [update_of_ne hvr] at hv
      obtain ⟨b, hb⟩ := h v hv
      exact ⟨b, mem_insert_of_mem hb⟩

theorem Listed.addEdge (src : A) (weight : Nat) (dst : A) (r : Ref) :
    Listed (S.addEdge src weight dst r).obj (S.addEdge src weight dst r).nodes := by
  unfold Spt.addEdge
  split
  · exact h
  · rename_i s hs
    dsimp only
    set T := if S.findNode dst = none then S.addNode dst r else S with hdef
    have hT : Listed T.obj T.nodes ∧ ∃ b, (b, s) ∈ T.nodes := by
      obtain ⟨b, hb⟩ := listed_of_findNode hs
      rw [hdef]
      split_ifs
      · exact ⟨h.addNode dst r, b, nodes_addNode dst hb⟩
      · exact ⟨h, b, hb⟩
    split
    · exact hT.1
    · split_ifs
      · exact hT.1
      · exact hT.1.modify hT.2

theorem Listed.changeEdges (src dst : A) (f : A → List (A × Edge) → List (A × Edge)) :
    Listed (S.changeEdges src dst f).obj (S.changeEdges src dst f).nodes := by
  unfold Spt.changeEdges
  split
  · rename_i s d hs hd
    exact h.modify (listed_of_findNode hs)
  · exact h

theorem Listed.compute (hlegal : S.Legal .compute)
    (hrun : S.step .compute = .ok S') : Listed S'.obj S'.nodes := by
  unfold Spt.step at hrun
  cases ho : S.origin with
  | none =>
    unfold Spt.compute at hrun
    rw [ho] at hrun
    cases hrun
    exact h
  | some o =>
    obtain ⟨S₁, cmds, T, hcompute, hT, -, hkept, hnodes⟩ := compute_spec h ho (hlegal o ho)
    rw [hcompute] at hrun
    cases hrun
    intro v hv
    have hvalid : (S.obj v).valid = true := by
      rw [← hT.valid_eq, ← hkept.valid_eq]
      exact hv
    obtain ⟨a, ha⟩ := h v hvalid
    rw [hnodes]
    exact ⟨a, mem_filter.mpr ⟨ha, hvalid⟩⟩

end

/-- Every valid node is found by its name. -/
theorem Spt.Reach.listed (h : S.Reach) : Listed S.obj S.nodes := by
  induction h with
  | init obj hnone =>
    intro v hv
    rw [hnone v] at hv
    cases hv
  | @step S S' op _ hlegal hrun ih =>
    cases op with
    | addNode a r =>
      cases hrun
      exact ih.addNode a r
    | removeNode a =>
      cases hrun
      unfold Spt.removeNode
      split
      · exact ih
      · rename_i n hfind
        exact ih.modify (listed_of_findNode hfind)
    | addEdge src weight dst r =>
      cases hrun
      exact ih.addEdge src weight dst r
    | updateEdgeWeight src weight dst | removeEdge src dst =>
      cases hrun
      exact ih.changeEdges src dst _
    | setOrigin a =>
      cases hrun
      unfold Spt.setOrigin
      split
      · exact ih
      · exact ih
    | compute => exact ih.compute hlegal hrun

/-- **The computation finds the shortest paths.**  It returns for every graph that calls can build
and every origin, if no simple path is too long for its weight.  A valid node other than the origin
then has a weight if and only if it can be reached through valid nodes, the weight is that of a
simple path and least among all walks, and the first hop is the first node on such a path. -/
theorem compute_finds_shortest (h : S.Reach) (ho : S.origin = some o) (hfit : Fits S.obj o) :
    ∃ S' cmds, S.compute = .ok (S', some cmds) ∧ ∀ v, (S.obj v).valid = true → v ≠ o →
        ((S'.obj v).current.valid = true ↔ ∃ n, Walk (EdgeTo S.obj) o v n) ∧
        ((S'.obj v).current.valid = true →
          (∀ n, Walk (EdgeTo S.obj) o v n → (S'.obj v).current.pathLength ≤ n) ∧
          ∃ f p, (S'.obj v).current.firstHop = some f ∧
            Route (EdgeTo S.obj) o (v :: p) (S'.obj v).current.pathLength ∧
            FirstHop o (v :: p) f) := by
  obtain ⟨S', cmds, T, hrun, hT, hq, hkept, -⟩ := compute_spec h.listed ho hfit
  refine ⟨S', cmds, hrun, fun v hv hvo => ?_⟩
  have hvalid : (T.obj v).valid = true := by rw [hT.valid_eq, hv]
  rw [hkept.current_eq v hvalid]
  have hempty : ∀ x, ¬ (T.labels o).queued x := by
    intro x hx
    have hx : x ∈ T.queue := hx
    rw [hq] at hx
    exact not_mem_nil hx
  -- With the queue empty, a node has a weight when it is permanent.
  have hweight : (T.obj v).current.valid = true ↔ (T.labels o).settled v := by
    constructor
    · intro hc
      cases ht : (T.obj v).tentative with
      | false => exact .inr ⟨hvalid, ht⟩
      | true =>
        have hin : v ∈ T.queue := (hT.queue.mem v).mpr (ready_iff.mpr ⟨hvalid, ht, hc⟩)
        exact absurd hin (hempty v)
    · intro hs
      exact (hT.settled hvalid hvo (hs.resolve_left hvo).2).1
  refine ⟨hweight.trans (hT.frontier.settled_iff hempty), fun hc => ?_⟩
  have hs := hweight.mp hc
  have hdist : (T.labels o).dist v = (T.obj v).current.pathLength := if_neg hvo
  rw [← hdist]
  refine ⟨fun n hn => hT.frontier.least hs hn, ?_⟩
  obtain ⟨p, hp, -, hfirst⟩ := hT.frontier.route hs
  obtain ⟨f, hf⟩ := Option.isSome_iff_exists.mp (hT.settled hvalid hvo (hs.resolve_left hvo).2).2
  refine ⟨f, p, hf, hp, ?_⟩
  have hlabel : (T.labels o).first v = f := by
    simp only [labels]
    rw [hf]
    rfl
  rw [← hlabel]
  exact hfirst hvo

/-! ### What the calls do to the edges -/

section
variable {a src dst : A} {s d : Ref}

theorem namedEdge_removeNode {b : A} (hn : S.findNode b = some n) :
    NamedEdge (S.removeNode b).obj u a v w ↔ NamedEdge S.obj u a v w ∧ v ≠ n := by
  unfold Spt.removeNode NamedEdge
  rw [hn]
  dsimp only
  rw [modify_same adjacencies rfl, and_assoc]
  refine and_congr_right fun _ => ?_
  by_cases hv : v = n
  · simp [hv, modify_self]
  · simp [hv, modify_of_ne]

variable (hs : S.findNode src = some s) (hd : S.findNode dst = some d)
include hs hd

theorem namedEdge_addEdge (hnew : Spt.hasEdge (S.obj s) (S.obj d).nodename = false) :
    NamedEdge (S.addEdge src weight dst r).obj u a v w ↔ NamedEdge S.obj u a v w ∨
      (u = s ∧ a = (S.obj d).nodename ∧ v = d ∧ w = weight ∧ (S.obj v).valid = true) := by
  have hfresh : ∀ e ∈ (S.obj s).adjacencies, e.1 ≠ (S.obj d).nodename := by
    simpa [Spt.hasEdge] using hnew
  unfold Spt.addEdge
  rw [hs, hd]
  dsimp only
  rw [if_neg (Option.some_ne_none d), hd]
  dsimp only
  rw [if_neg (Bool.eq_false_iff.mp hnew), namedEdge_modify]
  unfold NamedEdge
  by_cases hu : u = s
  · rw [if_pos hu, hu, mem_insert fun e he heq => absurd heq (hfresh e he)]
    simp only [Prod.mk.injEq, Edge.mk.injEq]
    tauto
  · simp [hu]

theorem namedEdge_changeEdges (g : A → List (A × Edge) → List (A × Edge)) :
    NamedEdge (S.changeEdges src dst g).obj u a v w ↔ (a, Edge.mk v w) ∈
      (if u = s then g (S.obj d).nodename (S.obj u).adjacencies else (S.obj u).adjacencies) ∧
        (S.obj v).valid = true := by
  unfold Spt.changeEdges
  rw [hs, hd]
  exact namedEdge_modify _

theorem namedEdge_updateEdgeWeight : NamedEdge (S.updateEdgeWeight src weight dst).obj u a v w ↔
    ∃ w', NamedEdge S.obj u a v w' ∧ w = if u = s ∧ a = (S.obj d).nodename then weight else w' := by
  refine (namedEdge_changeEdges hs hd _).trans ?_
  unfold NamedEdge
  by_cases hu : u = s
  · rw [if_pos hu, hu, mem_map]
    constructor
    · rintro ⟨⟨⟨b, e⟩, hmem, heq⟩, hv⟩
      split_ifs at heq with hb
      all_goals cases heq
      · exact ⟨_, ⟨hmem, hv⟩, (if_pos ⟨rfl, hb⟩).symm⟩
      · exact ⟨_, ⟨hmem, hv⟩, (if_neg fun h => hb h.2).symm⟩
    · rintro ⟨w', ⟨hmem, hv⟩, rfl⟩
      refine ⟨⟨_, hmem, ?_⟩, hv⟩
      split_ifs <;> simp_all
  · simp [hu]

theorem namedEdge_removeEdge : NamedEdge (S.removeEdge src dst).obj u a v w ↔
    NamedEdge S.obj u a v w ∧ ¬ (u = s ∧ a = (S.obj d).nodename) := by
  refine (namedEdge_changeEdges hs hd _).trans ?_
  unfold NamedEdge
  by_cases hu : u = s
  · simp [hu, mem_filter]
    tauto
  · simp [hu]

end

end Runs

/-! ### A triangle -/

/-- No nodes. -/
def noNodes : Spt Nat := ⟨fun _ => ⟨0, false, [], false, .empty, .empty⟩, [], none, []⟩

/-- The direct edge from 0 to 1 has weight 5, and the way through 2 has weight 2. -/
def triangle : Spt Nat :=
  ((((noNodes.addNode 0 10).addEdge 0 5 1 11).addEdge 0 1 2 12).addEdge 2 1 1 13).setOrigin 0

theorem triangle_reach : triangle.Reach := by
  have h0 : noNodes.Reach := .init _ fun _ => rfl
  have h1 := h0.step (.addNode 0 10) (show 10 ∉ [] by decide) rfl
  have h2 := h1.step (.addEdge 0 5 1 11) (show 11 ∉ [10] by decide) rfl
  have h3 := h2.step (.addEdge 0 1 2 12) (show 12 ∉ [11, 10] by decide) rfl
  have h4 := h3.step (.addEdge 2 1 1 13) (show 13 ∉ [12, 11, 10] by decide) rfl
  exact h4.step (.setOrigin 0) trivial rfl

theorem triangle_edges (h : EdgeTo triangle.obj u v w) :
    (u = 10 ∧ v = 11 ∧ w = 5) ∨ (u = 10 ∧ v = 12 ∧ w = 1) ∨ (u = 12 ∧ v = 11 ∧ w = 1) := by
  obtain ⟨a, hmem, -⟩ := h
  have hadj : (triangle.obj u).adjacencies = if u = 10 then [(1, ⟨11, 5⟩), (2, ⟨12, 1⟩)]
      else if u = 12 then [(1, ⟨11, 1⟩)] else [] := by
    by_cases h10 : u = 10
    · subst h10
      rfl
    by_cases h12 : u = 12
    · subst h12
      rfl
    by_cases h11 : u = 11
    · subst h11
      rfl
    · have hobj : triangle.obj u = noNodes.obj u :=
        (update_of_ne h12 ..).trans <| (update_of_ne h10 ..).trans <| (update_of_ne h12 ..).trans <|
          (update_of_ne h10 ..).trans <| (update_of_ne h11 ..).trans <| update_of_ne h10 ..
      rw [hobj, if_neg h10, if_neg h12]
      rfl
  rw [hadj] at hmem
  split_ifs at hmem with h10 h12
  · grind
  · grind
  · cases hmem

theorem triangle_fits : Fits triangle.obj 10 := by
  intro p n hroute
  have hlen : ∀ v, Walk (EdgeTo triangle.obj) 10 v n → n ≤ 5 := by
    intro v hwalk
    refine le_trans (hwalk.le_potential (fun v => if v = 11 then 5 else if v = 12 then 1 else 0)
      fun {u v w} he => ?_) ?_
    · rcases triangle_edges he with ⟨rfl, rfl, rfl⟩ | ⟨rfl, rfl, rfl⟩ | ⟨rfl, rfl, rfl⟩ <;> decide
    · split_ifs <;> decide
  obtain ⟨v, q, rfl⟩ := exists_cons_of_ne_nil (ne_nil_of_mem hroute.origin_mem)
  exact lt_of_le_of_lt (hlen v hroute.walk) (by decide)

theorem compute_finds_shortest_triangle : ∃ S' cmds, triangle.compute = .ok (S', some cmds) ∧
      ((S'.obj 11).current.valid = true ↔ ∃ n, Walk (EdgeTo triangle.obj) 10 11 n) := by
  obtain ⟨S', cmds, hrun, hall⟩ := compute_finds_shortest triangle_reach rfl triangle_fits
  exact ⟨S', cmds, hrun, (hall 11 rfl (by decide)).1⟩

example : (triangle.compute.toOption.map fun r => (r.1.obj 11).current) =
    some ⟨true, some 12, some 12, 2⟩ := by decide

end Xorp.Libproto

/-
The order in which a filter runs its policies.

A protocol has a list of import policies, and every peer may have one of its own, whose policies
first look whether the route is of that peer.  The lists are linked with those of the peers first, in
order to make them override the protocol's, and each from its first policy on.  The text keeps this
order and so does the filter that reads it.  The interpreter takes the policies from the last one to
the first.

Whether that matters is a question of the policies and the route.  It does not where the policies
commute; and where only a policy that decides about the route writes to it, the verdict and what is
written are those of the last that decides instead of the first.
-/
import Xorp.Lib.Outcome
import Xorp.Policy.CodeGenerator

namespace Xorp.Policy

open List Except

variable {V E : Type}

structure PolicyList (E : Type) where
  mod : Option (Expr E)
  policies : List String

/-- `PolicyList::create_mod`: go on to the next policy unless the modifier holds. -/
def modTerm (mod : Expr E) : Term E :=
  ⟨"__mod", [.expr (.un .not mod)], [], [.next .policy]⟩

/-- The policies of a list with the term for its modifier, as `compile_import` has them compiled. -/
def PolicyList.statement (l : PolicyList E) (ps : PolicyStatement E) : PolicyStatement E :=
  { ps with terms := (l.mod.map modTerm).toList ++ ps.terms }

/-- `filter::Filter` -/
inductive FilterKind
  | importing | sourceMatch | exporting
  deriving DecidableEq, Repr

/-- `Code::Target` -/
structure Target where
  protocol : String
  filter : FilterKind
  deriving DecidableEq, Repr

structure Code (E : Type) extends Refs E where
  target : Target
  code : Text E

/-- `Code::operator+=` -/
def Code.append (c rhs : Code E) : Code E :=
  if c.target ≠ rhs.target then c
  else { c.toRefs.append rhs.toRefs with target := c.target, code := c.code ++ rhs.code }

/-- What is compiled from one policy of a list. -/
abbrev Fragment (E : Type) := PolicyInstr E × Refs E

def Fragment.code (protocol : String) (f : Fragment E) : Code E :=
  { f.2 with target := ⟨protocol, .importing⟩, code := f.1.text }

section Link

variable (vm : VarMap) (protocol : String) (pm : PolicyMap E) (n : Nat)

/-- `PolicyList::compile_import` -/
def compileImport (l : PolicyList E) (name : String) : Except Fault (Fragment E) := do
  let ps ← orThrow (pm.find name)
  let code ← genPolicy vm protocol (l.statement ps)
  let refs ← genRefs vm protocol pm n (l.statement ps)
  return (code, refs)

/-- The lists of a protocol, in the order of their modifiers: that of the protocol is the first. -/
def compileImports (lists : List (PolicyList E)) : Except Fault (List (List (Fragment E))) :=
  lists.mapM fun l => l.policies.mapM (compileImport vm protocol pm n l)

/-- `IEMap::link_code`, from the last list to the first. -/
def linkCode (lists : List (List (Fragment E))) : Code E :=
  lists.reverse.foldl (fun c fs => fs.foldl (fun c f => c.append (f.code protocol)) c)
    ⟨⟨[], []⟩, ⟨protocol, .importing⟩, []⟩

end Link

def lookupSet (sets : SetMap E) (name : String) : Except Fault (String × E) := do
  let e ← orThrow (sets name)
  return (name, e)

/-- `FilterManager::update_queue`: the code with the sets and the subroutines it refers to. -/
def updateQueue (sets : SetMap E) (c : Code E) : Except Fault (Text E) := do
  let sets ← c.sets.mapM (lookupSet sets)
  return c.code ++ (sets.map fun x => .set x.1 x.2) ++ subrText c.subr

/-- `PolicyFilter::configure`.  A filter without code is reset. -/
def configure (text : Text E) : Except Fault (Option (Parsed E)) :=
  if text = [] then .ok none else orThrow (parse text) >>= fun p => .ok (some p)

/-- The filter that a parsed program makes. -/
def Parsed.filter (ops : Operations E) (varrw : VarRW V E) (p : Parsed E) : Filter V E :=
  ⟨ops, varrw, p.sets, p.subr⟩

/-- The import filter of a protocol, from its lists to what the protocol process holds. -/
def importFilter (vm : VarMap) (protocol : String) (pm : PolicyMap E) (n : Nat) (sets : SetMap E)
    (lists : List (PolicyList E)) : Except Fault (Option (Parsed E)) := do
  let fs ← compileImports vm protocol pm n lists
  let c := linkCode protocol fs
  if c.code = [] then configure [] else updateQueue sets c >>= configure

/-- `PolicyFilter::acceptRoute` -/
def filterAccepts (ops : Operations E) (varrw : VarRW V E) (n : Nat) (v : V) :
    Option (Parsed E) → Except Fault (Bool × V)
  | none => .ok (true, v)
  | some p => acceptRoute (p.filter ops varrw) n p.policies v

/-- The filter with the sets and the subroutines of linked code. -/
def Code.filter (ops : Operations E) (varrw : VarRW V E) (sets : SetMap E) (c : Code E) :
    Filter V E :=
  ⟨ops, varrw, fun name => if name ∈ c.sets then sets name else none, subrsOf c.subr⟩

/-- Policies one after the other, up to the first that accepts or rejects; a route is accepted when
none does. -/
def evaluate (X : Filter V E) (n : Nat) (ps : List (PolicyInstr E)) (v : V) :
    Except Fault (Bool × V) := do
  let (fa, m) ← runPolicies X n ps ⟨v, 0, .term, false⟩
  return (fa.accepted, m.vars)

/-- The policies in the order of the configuration: the lists of the peers before the list of the
protocol, and each list from its first policy. -/
def configuredOrder (lists : List (List (Fragment E))) : List (PolicyInstr E) :=
  lists.reverse.flatten.map (·.1)

theorem acceptRoute_eq (X : Filter V E) (n : Nat) (ps : List (PolicyInstr E)) (v : V) :
    acceptRoute X n ps v = evaluate X n ps.reverse v := by
  unfold acceptRoute run evaluate
  cases runPolicies X n ps.reverse ⟨v, 0, .term, false⟩ with
  | error => rfl
  | ok => rfl

/-! ### Linking -/

theorem code_foldl_append (protocol : String) (fs : List (Fragment E)) (c : Code E)
    (h : c.target = ⟨protocol, .importing⟩) :
    (fs.foldl (fun c f => c.append (f.code protocol)) c).target = ⟨protocol, .importing⟩ ∧
    (fs.foldl (fun c f => c.append (f.code protocol)) c).code =
      c.code ++ fs.flatMap (·.1.text) := by
  induction fs generalizing c with
  | nil => simp [h]
  | cons f fs ih =>
    have happ : (c.append (f.code protocol)).target = ⟨protocol, .importing⟩ ∧
        (c.append (f.code protocol)).code = c.code ++ f.1.text := by
      simp [Code.append, Fragment.code, h]
    obtain ⟨htarget, hcode⟩ := ih _ happ.1
    refine ⟨htarget, ?_⟩
    rw [foldl_cons, hcode, happ.2, flatMap_cons, append_assoc]

/-- The linked text is that of the lists from the last to the first. -/
theorem linkCode_code (protocol : String) (lists : List (List (Fragment E))) :
    (linkCode protocol lists).code = lists.reverse.flatten.flatMap (·.1.text) := by
  unfold linkCode
  rw [← foldl_flatten]
  exact (code_foldl_append protocol _ _ rfl).2

/-- The sets of a text are those that the code refers to. -/
theorem setsOf_mapM (sets : SetMap E) (names : List String) (m : SetMap E)
    {xs : List (String × E)} (h : names.mapM (lookupSet sets) = .ok xs) :
    xs.foldl (fun (m : SetMap E) x => Function.update m x.1 (some x.2)) m =
      fun name => if name ∈ names then sets name else m name := by
  induction names generalizing m xs with
  | nil =>
    cases h
    simp
  | cons a names ih =>
    rw [mapM_cons] at h
    cases ha : sets a with
    | none =>
      simp only [lookupSet, ha] at h
      cases h
    | some e =>
      rw [show lookupSet sets a = .ok (a, e) by rw [lookupSet, ha]; rfl] at h
      cases hrest : names.mapM (lookupSet sets) with
      | error f =>
        simp only [hrest] at h
        cases h
      | ok ys =>
        simp only [hrest] at h
        cases h
        rw [foldl_cons, ih _ hrest]
        funext name
        by_cases hin : name ∈ names
        · simp [hin]
        · by_cases heq : name = a
          · simp [heq, ha]
          · simp [hin, heq]

/-- What the filter of a protocol holds: the policies in the order of the configuration. -/
theorem importFilter_eq {vm : VarMap} {protocol : String} {pm : PolicyMap E} {n : Nat}
    {sets : SetMap E} {lists : List (PolicyList E)} {p : Option (Parsed E)}
    (hp : importFilter vm protocol pm n sets lists = .ok p) :
    ∃ fs, compileImports vm protocol pm n lists = .ok fs ∧ ((p = none ∧ configuredOrder fs = []) ∨
        ∃ q, p = some q ∧ q.policies = configuredOrder fs ∧ ∀ (ops : Operations E)
          (varrw : VarRW V E), q.filter ops varrw = (linkCode protocol fs).filter ops varrw sets) := by
  unfold importFilter at hp
  cases hfs : compileImports vm protocol pm n lists with
  | error f =>
    rw [hfs] at hp
    cases hp
  | ok fs =>
    rw [hfs] at hp
    refine ⟨fs, rfl, ?_⟩
    have hcode := linkCode_code protocol fs
    set c := linkCode protocol fs
    have hp : (if c.code = [] then configure [] else updateQueue sets c >>= configure) = .ok p := hp
    by_cases hnil : c.code = []
    · -- no policy has an empty text, so there are none
      left
      rw [if_pos hnil] at hp
      cases hp
      refine ⟨rfl, ?_⟩
      rw [hcode, flatMap_eq_nil_iff] at hnil
      unfold configuredOrder
      rw [map_eq_nil_iff, eq_nil_iff_forall_not_mem]
      intro f hf
      exact absurd (hnil f hf) (by simp [PolicyInstr.text])
    · right
      rw [if_neg hnil, updateQueue] at hp
      cases hsets : c.sets.mapM (lookupSet sets) with
      | error f =>
        simp only [hsets] at hp
        cases hp
      | ok xs =>
        simp only [hsets] at hp
        have htext : c.code = (configuredOrder fs).flatMap PolicyInstr.text := by
          rw [hcode, configuredOrder, flatMap_map]
        have hconf : configure (c.code ++ (xs.map fun x => .set x.1 x.2) ++ subrText c.subr) =
            .ok p := hp
        rw [configure, if_neg (by simp [hnil]), htext, parse_program] at hconf
        cases hconf
        refine ⟨_, rfl, rfl, ?_⟩
        intro ops varrw
        show Filter.mk ops varrw (setsOf xs) _ = Filter.mk ops varrw _ _
        rw [show setsOf xs = _ from setsOf_mapM sets _ _ hsets]

/-! ### The order

What a policy does depends on the policies before it through the variables that they have written
and the room that their temporaries have left; the flow and the tracing are set anew. -/

section Order

variable (X : Filter V E) (n : Nat)

/-- What policies make of a route with some temporaries already there: the flow action and the
variables, and the temporaries where another policy may follow. -/
def outcome (ps : List (PolicyInstr E)) (v : V) (t : Nat) : Except Fault (FlowAction × V × Nat) := do
  let (fa, m) ← runPolicies X n ps ⟨v, t, .term, false⟩
  return (fa, m.vars, if fa = .default then m.trash else 0)

/-- Two policies that may run in either order. -/
def Commute (p q : PolicyInstr E) : Prop := ∀ v t, outcome X n [p, q] v t = outcome X n [q, p] v t

/-- What a policy does with a route, as long as there is room for its `d` temporaries: it decides,
and may write to the route then, or goes on and leaves the route as it is. -/
def Does (v : V) (p : PolicyInstr E) (d : Nat) (decision : Option (Bool × V)) : Prop :=
  ∀ t, t + d < trashSize → outcome X n [p] v t = .ok (match decision with
    | none => (.default, v, t + d)
    | some (accepted, w) => (if accepted then .accept else .rej, w, 0))

end Order

section Evaluate

variable {X : Filter V E} {n : Nat} {ps : List (PolicyInstr E)} {v : V}

theorem outcome_cons (p : PolicyInstr E) (ps : List (PolicyInstr E)) (v : V) (t : Nat) :
    outcome X n (p :: ps) v t = runPolicy X (callSubr X n) 0 p ⟨v, t, .term, false⟩ >>= fun r =>
      if r.1 ≠ .default then .ok (r.1, r.2.vars, 0) else outcome X n ps r.2.vars r.2.trash := by
  unfold outcome
  rw [runPolicies]
  cases runPolicy X (callSubr X n) 0 p ⟨v, t, .term, false⟩ with
  | error => rfl
  | ok r =>
    simp only [Linked.ok_bind]
    split_ifs with hfa
    · simp [pure, Except.pure, hfa]
    · -- a policy does not look at the flow that the one before it has left
      cases ps <;> rfl

theorem outcome_append (ps qs : List (PolicyInstr E)) (v : V) (t : Nat) :
    outcome X n (ps ++ qs) v t = outcome X n ps v t >>= fun r =>
      if r.1 ≠ .default then .ok r else outcome X n qs r.2.1 r.2.2 := by
  induction ps generalizing v t with
  | nil => rfl
  | cons p ps ih =>
    rw [cons_append, outcome_cons, outcome_cons, bind_assoc]
    congr 1
    funext r
    split_ifs with hfa
    · exact (if_pos hfa).symm
    · exact ih _ _

theorem outcome_perm {ps qs : List (PolicyInstr E)} (h : ps.Perm qs)
    (hcomm : ∀ p ∈ ps, ∀ q ∈ ps, Commute X n p q) (v : V) (t : Nat) :
    outcome X n ps v t = outcome X n qs v t := by
  induction h generalizing v t with
  | nil => rfl
  | @cons p ps qs _ ih =>
    rw [outcome_cons, outcome_cons]
    simp only [ih fun a ha b hb => hcomm a (by simp [ha]) b (by simp [hb])]
  | swap p q ps =>
    rw [show q :: p :: ps = [q, p] ++ ps from rfl, outcome_append,
      hcomm q (by simp) p (by simp) v t, ← outcome_append]
    rfl
  | trans h₁ _ ih₁ ih₂ =>
    rw [ih₁ hcomm]
    exact ih₂ (fun a ha b hb => hcomm a (h₁.mem_iff.mpr ha) b (h₁.mem_iff.mpr hb)) v t

theorem evaluate_eq_outcome :
    evaluate X n ps v = outcome X n ps v 0 >>= fun r => .ok (r.1.accepted, r.2.1) := by
  unfold evaluate outcome
  cases runPolicies X n ps ⟨v, 0, .term, false⟩ with
  | error => rfl
  | ok => rfl

theorem evaluate_reverse_of_commute (h : ∀ p ∈ ps, ∀ q ∈ ps, Commute X n p q) :
    evaluate X n ps.reverse v = evaluate X n ps v := by
  rw [evaluate_eq_outcome, evaluate_eq_outcome, outcome_perm ps.reverse_perm.symm h]

variable {d : PolicyInstr E → Nat} {decision : PolicyInstr E → Option (Bool × V)}

/-- The first policy that decides is followed. -/
theorem outcome_does {t : Nat} (h : ∀ p ∈ ps, Does X n v p (d p) (decision p))
    (hroom : t + (ps.map d).sum < trashSize) : ∃ r, outcome X n ps v t = .ok r ∧
      (r.1.accepted, r.2.1) = (ps.filterMap decision).head?.getD (true, v) := by
  induction ps generalizing t with
  | nil => exact ⟨_, rfl, rfl⟩
  | cons p ps ih =>
    obtain ⟨hp, hps⟩ := forall_mem_cons.mp h
    rw [map_cons, sum_cons] at hroom
    rw [← singleton_append, outcome_append, hp t (by omega), Linked.ok_bind]
    cases hd : decision p with
    | none =>
      rw [if_neg (by simp), filterMap_append, filterMap_cons_none hd]
      exact ih (t := t + d p) hps (by omega)
    | some o =>
      obtain ⟨accepted, w⟩ := o
      rw [filterMap_append, filterMap_cons_some hd]
      cases accepted <;> exact ⟨_, rfl, rfl⟩

theorem evaluate_does (h : ∀ p ∈ ps, Does X n v p (d p) (decision p))
    (hroom : (ps.map d).sum < trashSize) :
    evaluate X n ps v = .ok ((ps.filterMap decision).head?.getD (true, v)) := by
  obtain ⟨r, hrun, heq⟩ := outcome_does (t := 0) h (by rwa [Nat.zero_add])
  rw [evaluate_eq_outcome, hrun, ← heq]
  rfl

/-- The orders agree on the first and the last policy that decides, or there is none. -/
theorem evaluate_reverse_iff (h : ∀ p ∈ ps, Does X n v p (d p) (decision p))
    (hroom : (ps.map d).sum < trashSize) : evaluate X n ps.reverse v = evaluate X n ps v ↔
      (ps.filterMap decision).head? = (ps.filterMap decision).getLast? := by
  have hmem : ∀ p ∈ ps.reverse, Does X n v p (d p) (decision p) := fun p hp => h p (mem_reverse.mp hp)
  rw [evaluate_does hmem (by rwa [map_reverse, sum_reverse]), evaluate_does h hroom, filterMap_reverse, head?_reverse, ok.injEq]
  cases ps.filterMap decision with
  | nil => simp
  | cons o os => simp [getLast?_cons, eq_comm]

end Evaluate

/-- **A filter runs its policies in the reverse of the configured order.**  For policies that commute
this is no difference.  For policies that write to the route only when they decide about it, it is
none exactly for the routes on which the first and the last policy that decides do the same. -/
theorem filter_runs_last_first {vm : VarMap} {protocol : String} {pm : PolicyMap E} {n : Nat}
    {sets : SetMap E} {lists : List (PolicyList E)} {p : Option (Parsed E)}
    (hp : importFilter vm protocol pm n sets lists = .ok p) (ops : Operations E)
    (varrw : VarRW V E) (k : Nat) (v : V) :
    ∃ fs, compileImports vm protocol pm n lists = .ok fs ∧
      let X := (linkCode protocol fs).filter ops varrw sets
      let order := configuredOrder fs
      filterAccepts ops varrw k v p = evaluate X k order.reverse v ∧
      (∀ d decision, (∀ q ∈ order, Does X k v q (d q) (decision q)) →
        (order.map d).sum < trashSize →
        (filterAccepts ops varrw k v p = evaluate X k order v ↔
          (order.filterMap decision).head? = (order.filterMap decision).getLast?)) ∧
      ((∀ q ∈ order, ∀ q' ∈ order, Commute X k q q') →
        filterAccepts ops varrw k v p = evaluate X k order v) := by
  obtain ⟨fs, hfs, hcases⟩ := importFilter_eq (V := V) hp
  refine ⟨fs, hfs, ?_⟩
  intro X order
  have hacc : filterAccepts ops varrw k v p = evaluate X k order.reverse v := by
    obtain ⟨rfl, hnil⟩ | ⟨q, rfl, hpol, hX⟩ := hcases
    · show ok (true, v) = evaluate X k (configuredOrder fs).reverse v
      rw [hnil]
      rfl
    · show acceptRoute (q.filter ops varrw) k q.policies v = _
      rw [acceptRoute_eq, hpol, hX]
  rw [hacc]
  exact ⟨rfl, fun _ _ => evaluate_reverse_iff, evaluate_reverse_of_commute⟩

/-- Policies that accept or reject every route, and that set the variable `x` or `y` and go on. -/
def somePolicies : PolicyMap Value :=
  [⟨"a", [⟨"t", [], [], [.accept]⟩]⟩, ⟨"b", [⟨"t", [], [], [.reject]⟩]⟩,
   ⟨"x", [⟨"t", [], [], [.assign "x" none (.elem ⟨.u32, 5⟩)]⟩]⟩,
   ⟨"y", [⟨"t", [], [], [.assign "y" none (.elem ⟨.u32, 7⟩)]⟩]⟩]

def twoVariables : VarMap := fun _ name =>
  if name = "x" then some 1 else if name = "y" then some 2 else none

/-- The import filter of a protocol with these policies. -/
abbrev someFilter (lists : List (PolicyList Value)) : Except Fault (Option (Parsed Value)) :=
  importFilter twoVariables "bgp" somePolicies 1 (fun _ => none) lists

def noRoute : Nat → Value := fun _ => numbers.null

/-- A policy whose modifier does not hold goes on, with a temporary for the negation. -/
theorem guarded_does (X : Filter V Value) (hX : X.ops = numbers) (name : String)
    (ts : List (TermInstr Value)) {n : Nat} {v : V} : Does X n v ⟨name, ⟨"__mod",
      [.push ⟨.bool, 0⟩, .un .not, .onFalseExit, .next .policy]⟩ :: ts⟩ 1 none := by
  intro t ht
  simp [outcome, runPolicies, runPolicy, stackSize, runTerms, runTerm, runInstructions, visit,
    Frame.push, Machine.frame, visitUn, visitOnFalseExit, Frame.addTrash, ht, hX]
  rfl

/-- A list of a peer, for a route of another peer, before the protocol's own; and a list of policies
that write different variables. -/
theorem filter_runs_guarded :
    (∃ p, someFilter [⟨none, ["a"]⟩, ⟨some (.elem ⟨.bool, 0⟩), ["b", "x"]⟩] = .ok p ∧
      filterAccepts numbers (.store Value) 0 noRoute p = .ok (true, noRoute)) ∧
    ∃ p, someFilter [⟨none, ["x", "y"]⟩] = .ok p ∧
      filterAccepts numbers (.store Value) 0 noRoute p = .ok (true,
        Function.update (Function.update noRoute 1 ⟨.u32, 5⟩) 2 ⟨.u32, 7⟩) := by
  constructor
  · obtain ⟨p, hp⟩ : ∃ p, someFilter [⟨none, ["a"]⟩, ⟨some (.elem ⟨.bool, 0⟩), ["b", "x"]⟩] = .ok p :=
      ⟨_, rfl⟩
    obtain ⟨fs, hfs, -, hiff, -⟩ := filter_runs_last_first hp numbers (.store Value) 0 noRoute
    cases hfs
    refine ⟨p, hp, ((hiff (fun q => if q.name = "a" then 0 else 1)
      (fun q => if q.name = "a" then some (true, noRoute) else none) ?_ (by decide)).mpr rfl).trans
      rfl⟩
    exact forall_mem_cons.mpr ⟨guarded_does _ rfl _ _, forall_mem_cons.mpr ⟨guarded_does _ rfl _ _,
      forall_mem_singleton.mpr fun t _ => rfl⟩⟩
  · obtain ⟨p, hp⟩ : ∃ p, someFilter [⟨none, ["x", "y"]⟩] = .ok p := ⟨_, rfl⟩
    obtain ⟨fs, hfs, -, -, hcomm⟩ := filter_runs_last_first hp numbers (.store Value) 0 noRoute
    cases hfs
    have hxy (v : Nat → Value) (t : Nat) : (Except.ok (.default, Function.update (Function.update v 1
          ⟨.u32, 5⟩) 2 ⟨.u32, 7⟩, t) : Except Fault (FlowAction × (Nat → Value) × Nat)) =
        .ok (.default, Function.update (Function.update v 2 ⟨.u32, 7⟩) 1 ⟨.u32, 5⟩, t) := by
      rw [Function.update_comm (by decide)]
    refine ⟨p, hp, (hcomm ?_).trans rfl⟩
    exact forall_mem_cons.mpr ⟨forall_mem_cons.mpr ⟨fun _ _ => rfl, forall_mem_singleton.mpr hxy⟩,
      forall_mem_singleton.mpr (forall_mem_cons.mpr
        ⟨fun v t => (hxy v t).symm, forall_mem_singleton.mpr fun _ _ => rfl⟩)⟩

/-- The route is rejected, although the policy that accepts it comes first. -/
theorem last_policy_decides : ∃ p fs, someFilter [⟨none, ["a", "b"]⟩] = .ok p ∧
      compileImports twoVariables "bgp" somePolicies 1 [⟨none, ["a", "b"]⟩] = .ok fs ∧
      (configuredOrder fs).map (·.name) = ["a", "b"] ∧
      filterAccepts numbers (.store Value) 0 noRoute p = .ok (false, noRoute) ∧
      evaluate ((linkCode "bgp" fs).filter numbers (.store Value) fun _ => none) 0
        (configuredOrder fs) noRoute = .ok (true, noRoute) :=
  ⟨_, _, rfl, rfl, rfl, rfl, rfl⟩

end Xorp.Policy

/-
Calls of policies.

A policy that is called runs in a frame of its own, and the flow action of its caller is put back
when it is done.  Two things are not.  What a `next policy` of the called policy has set is still
there at the end of the caller's term, and the caller is left too.  And tracing is on or off as it is
for the policy that was entered last.

What a call leaves in these two is said by its trail: the policies that it enters, with those that
are called in turn, and the `next` instructions that it executes on the way.
-/
import Xorp.Lib.Outcome
import Xorp.Policy.IvExec
import Mathlib.Logic.Relation

namespace Xorp.Policy

open Linked Relation

variable {V E : Type}

section
variable (X : Filter V E) (call : Call V) (below : Nat)

/-- A policy from the middle of a term on: the instructions that are left, then the terms. -/
def resume (is : List (Instr E)) (ts : List (TermInstr E)) (f : Frame V E) :
    Except Fault (FlowAction × Machine V) := do
  let f ← runInstructions X call below is f
  if f.fa ≠ .default then .ok (f.fa, f.toMachine)
  else if f.ctrFlow = .policy then .ok (.default, f.toMachine)
  else runTerms X call below ts f.toMachine

/-- What a call is for: the frame gets the verdict, and has the variables and the trash that the
called policy leaves. -/
def Frame.answer (fa : FlowAction) (m : Machine V) (f : Frame V E) : Except Fault (Frame V E) := do
  let f ← { f with vars := m.vars, trash := m.trash }.push below (X.ops.ofBool (fa ≠ FlowAction.rej))
  f.addTrash true

end

/-! ### The trail of a call -/

/-- What a run goes through. -/
inductive Event (E : Type)
  | enter (p : PolicyInstr E)
  | next (flow : Flow)

/-- The tracing of the policy that is entered. -/
def Event.entered : Event E → Option Bool
  | .enter p => some p.trace
  | .next _ => none

section
variable (X : Filter V E) (call : Call V) (trail : Nat → String → Machine V → List (Event E))
  (below : Nat)

def visitTrail : Instr E → Frame V E → List (Event E)
  | .next flow, _ => [.next flow]
  | .subr target, f => trail (below + f.stack.length) target f.toMachine
  | _, _ => []

def instructionsTrail : List (Instr E) → Frame V E → List (Event E)
  | [], _ => []
  | i :: is, f => visitTrail trail below i f ++
    match visit X call below i f with
    | .ok f => if f.finished then [] else instructionsTrail is f
    | .error _ => []

def termsTrail : List (TermInstr E) → Machine V → List (Event E)
  | [], _ => []
  | t :: ts, m => instructionsTrail X call trail below t.instructions m.frame ++
    match runTerm X call below t m with
    | .ok (fa, m) =>
      if fa ≠ .default then [] else if m.ctrFlow = .policy then [] else termsTrail ts m
    | .error _ => []

/-- The trail of a call, with at most `n` calls open. -/
def callTrail : Nat → Nat → String → Machine V → List (Event E)
  | 0, _, _, _ => []
  | n + 1, below, target, m =>
    match X.subr target with
    | none => []
    | some p => .enter p :: termsTrail X (callSubr X n) (callTrail n) below p.terms
        { m with ctrFlow := .term, trace := p.trace }

/-- A policy has an instruction that calls another. -/
def Filter.Calls (s t : String) : Prop :=
  ∃ p, X.subr s = some p ∧ ∃ u ∈ p.terms, Instr.subr t ∈ u.instructions

end

/-- No term goes on to the next policy. -/
def PolicyInstr.Stays (p : PolicyInstr E) : Prop :=
  ∀ t ∈ p.terms, Instr.next .policy ∉ t.instructions

variable {X : Filter V E} {call : Call V} {trail : Nat → String → Machine V → List (Event E)}
  {below n : Nat} {f f' : Frame V E} {target : String} {fa : FlowAction} {m : Machine V}
  {i : Instr E} {is : List (Instr E)} {ts : List (TermInstr E)} {es : List (Event E)} {ev : Event E}

/-! ### What a trail leaves -/

/-- The flow and the tracing. -/
def Machine.mode (m : Machine V) : Flow × Bool := (m.ctrFlow, m.trace)

/-- What they are after an event. -/
def Event.after (mode : Flow × Bool) : Event E → Flow × Bool
  | .enter p => (.term, p.trace)
  | .next flow => (flow, mode.2)

abbrev leaves (es : List (Event E)) (mode : Flow × Bool) : Flow × Bool := es.foldl Event.after mode

theorem leaves_append (es es' : List (Event E)) (mode : Flow × Bool) :
    leaves (es ++ es') mode = leaves es' (leaves es mode) := List.foldl_append

theorem leaves_flow (b : Bool) :
    (leaves es (.term, b)).1 = .term ↔ es.getLast? ≠ some (.next .policy) := by
  rcases es.eq_nil_or_concat' with rfl | ⟨es, ev, rfl⟩
  · simp [leaves]
  · rw [leaves, List.foldl_concat, List.getLast?_concat]
    cases ev with
    | enter p => simp [Event.after]
    | next flow => cases flow <;> simp [Event.after]

theorem leaves_trace (mode : Flow × Bool) :
    (leaves es mode).2 = mode.2 ↔ ∀ b, (es.filterMap Event.entered).getLast? = some b → b = mode.2 := by
  have htrace : (leaves es mode).2 = (es.filterMap Event.entered).getLast?.getD mode.2 := by
    induction es using List.reverseRecOn with
    | nil => rfl
    | append_singleton es ev ih =>
      rw [leaves, List.foldl_concat, List.filterMap_append]
      cases ev with
      | enter p => simp [Event.after, Event.entered]
      | next flow => simpa [Event.after, Event.entered] using ih
  rw [htrace]
  cases (es.filterMap Event.entered).getLast? with
  | none => simp
  | some b => simp

section
variable {F : Fault → Prop} (hF : ∀ e, e ≠ .outOfFuel → F e)
include hF

theorem runUn_faults (o : Operations E) (op : UnOp) (e : E) :
    Yields F (fun _ => True) (o.runUn op e) := by
  unfold Operations.runUn
  split_ifs
  · trivial
  · split
    · exact hF _ nofun
    · trivial

theorem runBin_faults (o : Operations E) (op : BinOp) (l r : E) :
    Yields F (fun _ => True) (o.runBin op l r) := by
  have helim : ∀ x : Option E,
      Yields F (fun _ => True) (x.elim (Except.error Fault.exception) Except.ok) := by
    intro x
    cases x with
    | none => exact hF _ nofun
    | some e => trivial
  unfold Operations.runBin
  split_ifs
  · trivial
  · exact helim _
  · exact hF _ nofun
  · split
    · exact hF _ nofun
    · exact helim _

/-- A step leaves the mode that its trail says, if the calls do. -/
theorem visit_leaves (hcall : ∀ s, i = .subr s → ∀ below m,
      Yields F (fun r => r.2.mode = leaves (trail below s m) m.mode) (call below s m)) :
    Yields F (fun f' => f'.mode = leaves (visitTrail trail below i f) f.mode)
      (visit X call below i f) := by
  have hpush : ∀ (f : Frame V E) e, Yields F (fun f' => f'.mode = f.mode) (f.push below e) := by
    intro f e
    unfold Frame.push
    split_ifs
    · rfl
    · exact hF _ nofun
  have htrash : ∀ (f : Frame V E) b, Yields F (fun f' => f'.mode = f.mode) (f.addTrash b) := by
    intro f b
    unfold Frame.addTrash
    split_ifs
    · rfl
    · rfl
    · exact hF _ nofun
  cases i with
  | push e => exact hpush f e
  | pushSet id =>
    rw [visit]
    cases X.sets id with
    | none => exact hF _ nofun
    | some s => exact hpush f s
  | onFalseExit =>
    rw [visit, visitOnFalseExit]
    split
    · exact hF _ nofun
    · split_ifs
      all_goals first | rfl | exact hF _ nofun
  | load id => exact hpush f _
  | store id =>
    rw [visit, visitStore]
    split
    · exact hF _ nofun
    · split_ifs
      all_goals first | rfl | exact hF _ nofun
  | accept | reject | next => rfl
  | un op =>
    rw [visit, visitUn]
    split
    · exact hF _ nofun
    · exact (runUn_faults hF ..).bind fun r _ => (htrash f _).bind fun f' hf => hf
  | bin op =>
    rw [visit, visitBin]
    split
    · exact hF _ nofun
    · exact hF _ nofun
    · exact (runBin_faults hF ..).bind fun r _ => (htrash f _).bind fun f' hf => hf
  | subr target =>
    refine (hcall target rfl _ _).bind fun r hr => (hpush _ _).bind fun f₁ hf₁ => ?_
    exact (htrash f₁ true).mono fun f₂ hf₂ => hf₂.trans (hf₁.trans hr)

theorem runInstructions_leaves (hcall : ∀ s, Instr.subr s ∈ is → ∀ below m,
      Yields F (fun r => r.2.mode = leaves (trail below s m) m.mode) (call below s m)) :
    Yields F (fun f' => f'.mode = leaves (instructionsTrail X call trail below is f) f.mode)
      (runInstructions X call below is f) := by
  induction is generalizing f with
  | nil => rfl
  | cons i is ih =>
    have hvisit : Yields F _ (visit X call below i f) := visit_leaves hF
      fun s hs => hcall s (hs ▸ List.mem_cons_self)
    rw [runInstructions, instructionsTrail]
    cases hf : visit X call below i f with
    | error e => rwa [hf] at hvisit
    | ok f₁ =>
      rw [hf] at hvisit
      have hmode : f₁.mode = leaves (visitTrail trail below i f) f.mode := hvisit
      rw [ok_bind, leaves_append, ← hmode]
      dsimp only
      split_ifs
      · rfl
      · exact ih fun s hs => hcall s (List.mem_cons_of_mem _ hs)

theorem runTerms_leaves (hcall : ∀ t ∈ ts, ∀ s, Instr.subr s ∈ t.instructions → ∀ below m,
      Yields F (fun r => r.2.mode = leaves (trail below s m) m.mode) (call below s m)) :
    Yields F (fun r => r.2.mode = leaves (termsTrail X call trail below ts m) m.mode)
      (runTerms X call below ts m) := by
  induction ts generalizing m with
  | nil => rfl
  | cons t ts ih =>
    rw [List.forall_mem_cons] at hcall
    have hterm : Yields F _ (runInstructions X call below t.instructions m.frame) :=
      runInstructions_leaves hF hcall.1
    rw [runTerms, termsTrail, runTerm]
    cases hf : runInstructions X call below t.instructions m.frame with
    | error e => rwa [hf] at hterm
    | ok f₁ =>
      rw [hf] at hterm
      have hmode : f₁.mode = leaves (instructionsTrail X call trail below t.instructions m.frame)
        m.mode := hterm
      simp only [ok_bind, pure, Except.pure]
      rw [leaves_append, ← hmode]
      split_ifs
      · rfl
      · rfl
      · exact ih hcall.2

end

/-- A call in a program without cycles ends, and leaves what its trail says. -/
theorem callSubr_leaves {rank : String → Nat} (hrank : ∀ s t, X.Calls s t → rank t < rank s)
    (hn : rank target < n) (below : Nat) (m : Machine V) :
    Yields (· ≠ .outOfFuel) (fun r => r.2.mode = leaves (callTrail X n below target m) m.mode)
      (callSubr X n below target m) := by
  induction n generalizing below target m with
  | zero => omega
  | succ n ih =>
    rw [callSubr, callTrail]
    cases hp : X.subr target with
    | none => exact nofun
    | some p =>
      dsimp only
      rw [runPolicy]
      split_ifs
      · refine runTerms_leaves (fun e he => he) fun t ht s hs => ih ?_
        have := hrank target s ⟨p, hp, t, ht, hs⟩
        omega
      · exact nofun

/-! ### Where a trail comes from -/

theorem mem_instructionsTrail (h : ev ∈ instructionsTrail X call trail below is f) :
    (∃ flow, ev = .next flow ∧ .next flow ∈ is) ∨
      ∃ s b m, Instr.subr s ∈ is ∧ ev ∈ trail b s m := by
  induction is generalizing f with
  | nil => cases h
  | cons i is ih =>
    rcases List.mem_append.mp h with h | h
    · cases i with
      | next flow => exact .inl ⟨flow, List.mem_singleton.mp h, List.mem_cons_self⟩
      | subr s => exact .inr ⟨s, _, _, List.mem_cons_self, h⟩
      | _ => cases h
    · have hrest : ∃ f', ev ∈ instructionsTrail X call trail below is f' := by
        split at h
        · split_ifs at h
          · cases h
          · exact ⟨_, h⟩
        · cases h
      obtain ⟨f', hf'⟩ := hrest
      refine (ih hf').imp ?_ ?_
      · exact fun ⟨flow, heq, hin⟩ => ⟨flow, heq, List.mem_cons_of_mem _ hin⟩
      · exact fun ⟨s, b, m, hin, hev⟩ => ⟨s, b, m, List.mem_cons_of_mem _ hin, hev⟩

theorem mem_termsTrail (h : ev ∈ termsTrail X call trail below ts m) :
    ∃ t ∈ ts, (∃ flow, ev = .next flow ∧ .next flow ∈ t.instructions) ∨
      ∃ s b m, Instr.subr s ∈ t.instructions ∧ ev ∈ trail b s m := by
  induction ts generalizing m with
  | nil => cases h
  | cons t ts ih =>
    rcases List.mem_append.mp h with h | h
    · exact ⟨t, List.mem_cons_self, mem_instructionsTrail h⟩
    · have hrest : ∃ m', ev ∈ termsTrail X call trail below ts m' := by
        split at h
        · split_ifs at h
          · cases h
          · cases h
          · exact ⟨_, h⟩
        · cases h
      obtain ⟨m', hm'⟩ := hrest
      obtain ⟨t', ht', hev⟩ := ih hm'
      exact ⟨t', List.mem_cons_of_mem _ ht', hev⟩

/-- A trail has the policies that can be reached by calls, and `next` instructions of theirs. -/
theorem mem_callTrail (h : ev ∈ callTrail X n below target m) :
    ∃ s p, ReflTransGen X.Calls target s ∧ X.subr s = some p ∧ (ev = .enter p ∨
      ∃ flow, ev = .next flow ∧ ∃ t ∈ p.terms, .next flow ∈ t.instructions) := by
  induction n generalizing below target m with
  | zero => cases h
  | succ n ih =>
    rw [callTrail] at h
    cases hp : X.subr target with
    | none =>
      rw [hp] at h
      cases h
    | some p =>
      rw [hp] at h
      rcases List.mem_cons.mp h with rfl | h
      · exact ⟨target, p, .refl, hp, .inl rfl⟩
      · obtain ⟨t, ht, ⟨flow, rfl, hin⟩ | ⟨s, b, m', hin, hev⟩⟩ := mem_termsTrail h
        · exact ⟨target, p, .refl, hp, .inr ⟨flow, rfl, t, ht, hin⟩⟩
        · obtain ⟨s', q, hreach, hrest⟩ := ih hev
          exact ⟨s', q, .head ⟨p, hp, t, ht, hin⟩ hreach, hrest⟩

/-! ### The caller -/

/-- After a call there are the flow and the tracing that the called policy ended with. -/
theorem visitSubr_eq (hcall : call (below + f.stack.length) target f.toMachine = .ok (fa, m))
    (hans : f.answer X below fa m = .ok f') :
    visit X call below (.subr target) f = .ok { f' with ctrFlow := m.ctrFlow, trace := m.trace } ∧
      f'.mode = f.mode ∧ f'.finished = f.finished := by
  have hb : decide (fa ≠ .rej) = fa.accepted := by cases fa <;> rfl
  rw [visit, visitSubr, hcall, ok_bind]
  rw [Frame.answer, hb] at hans
  unfold Frame.push at hans ⊢
  by_cases hfull : below + f.stack.length < stackSize
  · simp only [if_pos hfull] at hans ⊢
    by_cases htrash : m.trash + 1 < trashSize
    · cases hans.symm.trans (if_pos htrash)
      exact ⟨if_pos htrash, rfl, rfl⟩
    · cases hans.symm.trans (if_neg htrash)
  · simp only [if_neg hfull] at hans
    cases hans

/-- The call leaves the frame with its answer, and what is left of the caller runs as it does from
there. -/
def Undisturbed (X : Filter V E) (n below : Nat) (target : String) (f f' : Frame V E) : Prop :=
  visit X (callSubr X n) below (.subr target) f = .ok f' ∧
    ∀ is ts, resume X (callSubr X n) below (.subr target :: is) ts f =
      resume X (callSubr X n) below is ts f'

theorem undisturbed_iff
    (hcall : callSubr X n (below + f.stack.length) target f.toMachine = .ok (fa, m))
    (hans : f.answer X below fa m = .ok f') (hrun : f.finished = false) :
    Undisturbed X n below target f f' ↔ m.mode = f.mode := by
  obtain ⟨hvisit, hmode, hrun'⟩ := visitSubr_eq hcall hans
  refine ⟨fun h => ?_, fun h => ?_⟩
  · rw [← hmode, ← Except.ok.inj (hvisit.symm.trans h.1)]
    rfl
  · obtain ⟨hflow, htrace⟩ := Prod.mk.inj (h.trans hmode.symm)
    rw [hflow, htrace] at hvisit
    refine ⟨hvisit, fun is ts => ?_⟩
    rw [resume, runInstructions, hvisit, ok_bind, if_neg (by simp [hrun', hrun])]
    rfl

/-- Two policies: `s` calls `r` and rejects what it accepts, and `r` has one instruction. -/
def calling (i : Instr Value) : Filter (Nat → Value) Value :=
  ⟨numbers, .store Value, fun _ => none, fun name =>
    if name = "s" then some ⟨"s", [⟨"t", [.subr "r", .onFalseExit, .reject]⟩]⟩
    else if name = "r" then some ⟨"r", [⟨"t", [i]⟩]⟩ else none⟩

/-- The first instruction of a policy. -/
def atStart : Frame (Nat → Value) Value := Machine.frame ⟨fun _ => numbers.null, 0, .term, false⟩

end Xorp.Policy

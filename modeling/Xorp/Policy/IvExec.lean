/-
The interpreter of compiled policies.

A filter runs policies, a policy is a list of terms and a term a list of instructions.  The
instructions work on a stack of elements and read and write the variables of a route.  A policy that
is called from an instruction runs in a frame of its own, above what is on the stack.  `finished`
ends a term, `ctrFlow` says whether the policy goes on with its next term, and `trace` whether what it
does is written down.

The interpreter has no exit from a policy that calls itself, so the runs here take the number of
calls that may be open at a time.
-/
import Xorp.Policy.Syntax

namespace Xorp.Policy

inductive Instr (E : Type)
  | push (elem : E)
  | pushSet (setid : String)
  | onFalseExit
  | load (id : Nat)
  | store (id : Nat)
  | accept
  | reject
  | next (flow : Flow)
  | un (op : UnOp)
  | bin (op : BinOp)
  | subr (target : String)
  deriving DecidableEq, Repr

structure TermInstr (E : Type) where
  name : String
  instructions : List (Instr E)
  deriving DecidableEq, Repr

structure PolicyInstr (E : Type) where
  name : String
  terms : List (TermInstr E)
  deriving DecidableEq, Repr

/-- `VarRW::VAR_TRACE`: the level of detail that is written down. -/
def varTrace : Nat := 0

/-- The grammar turns tracing on for a policy in which it reads an assignment to the level. -/
def PolicyInstr.trace {E : Type} (p : PolicyInstr E) : Bool :=
  p.terms.any fun t => t.instructions.any fun
    | .store id => id = varTrace
    | _ => false

/-- `IvExec::FlowAction` -/
inductive FlowAction
  | default | accept | rej
  deriving DecidableEq, Repr

/-- The value of a policy that is called, and the answer of a filter: only a rejection says no. -/
def FlowAction.accepted : FlowAction → Bool
  | .rej => false
  | .default | .accept => true

/-- The variables of a route, and the level. -/
structure VarRW (V E : Type) where
  read : V → Nat → E
  write : V → Nat → E → V

/-- Variables that are just stored. -/
def VarRW.store (E : Type) : VarRW (Nat → E) E := ⟨fun v id => v id, Function.update⟩

/-- What the interpreter keeps from one policy to the next. -/
structure Machine (V : Type) where
  vars : V
  trash : Nat
  ctrFlow : Flow
  /-- `_do_trace`, here and in the `VarRW`. -/
  trace : Bool
  deriving DecidableEq, Repr

/-- What it has while a term runs.  The stack is that of the policy's frame, the top first. -/
structure Frame (V E : Type) extends Machine V where
  stack : List E
  fa : FlowAction
  finished : Bool

/-- What a filter is configured with. -/
structure Filter (V E : Type) where
  ops : Operations E
  varrw : VarRW V E
  sets : SetMap E
  subr : String → Option (PolicyInstr E)

def stackSize : Nat := 128

def trashSize : Nat := 2000

/-- A call of a policy: the height of the stack below its frame, its name and the machine. -/
abbrev Call (V : Type) := Nat → String → Machine V → Except Fault (FlowAction × Machine V)

section Term

variable {V E : Type} (X : Filter V E) (call : Call V) (below : Nat)

/-- Put an element on the stack. -/
def Frame.push (below : Nat) (e : E) (f : Frame V E) : Except Fault (Frame V E) :=
  if below + f.stack.length < stackSize then .ok { f with stack := e :: f.stack }
  else .error .stackFull

/-- Keep a new element until the run is over. -/
def Frame.addTrash (fresh : Bool) (f : Frame V E) : Except Fault (Frame V E) :=
  if !fresh then .ok f
  else if f.trash + 1 < trashSize then .ok { f with trash := f.trash + 1 }
  else .error .trashFull

def visitOnFalseExit (f : Frame V E) : Except Fault (Frame V E) :=
  match f.stack with
  | [] => .error .exception
  | e :: _ =>
    if X.ops.type e = .bool then
      if X.ops.val e then .ok f else .ok { f with finished := true }
    else if X.ops.type e = .null then .ok { f with finished := true }
    else .error .exception

def visitStore (id : Nat) (f : Frame V E) : Except Fault (Frame V E) :=
  match f.stack with
  | [] => .error .exception
  | e :: rest =>
    -- a null is not written
    if X.ops.type e = .null then .ok { f with stack := rest }
    else if id = varTrace ∧ X.ops.type e ≠ .u32 then .error .assertion
    else .ok { f with stack := rest, vars := X.varrw.write f.vars id e }

/-- `visit(NaryInstr&)` for one argument. -/
def visitUn (op : UnOp) (f : Frame V E) : Except Fault (Frame V E) :=
  match f.stack with
  | [] => .error .assertion
  | e :: rest => do
    let r ← X.ops.runUn op e
    let f ← f.addTrash (X.ops.unFresh op e)
    return { f with stack := r :: rest }

/-- `visit(NaryInstr&)` for two arguments, of which the left one is on top. -/
def visitBin (op : BinOp) (f : Frame V E) : Except Fault (Frame V E) :=
  match f.stack with
  | [] | [_] => .error .assertion
  | l :: r :: rest => do
    let e ← X.ops.runBin op l r
    let f ← f.addTrash (X.ops.binFresh op l r)
    return { f with stack := e :: rest }

/-- `visit(Subr&)`: the flow action and the end of the term are those of the caller again
afterwards, the flow and the tracing are not. -/
def visitSubr (target : String) (f : Frame V E) : Except Fault (Frame V E) := do
  let (fa, m) ← call (below + f.stack.length) target f.toMachine
  let f ← { f with toMachine := m }.push below (X.ops.ofBool fa.accepted)
  f.addTrash true

def visit : Instr E → Frame V E → Except Fault (Frame V E)
  | .push e, f => f.push below e
  | .pushSet id, f => do
    let s ← orThrow (X.sets id)
    f.push below s
  | .onFalseExit, f => visitOnFalseExit X f
  | .load id, f => f.push below (X.varrw.read f.vars id)
  | .store id, f => visitStore X id f
  | .accept, f => .ok { f with finished := true, fa := .accept }
  | .reject, f => .ok { f with finished := true, fa := .rej }
  | .next flow, f => .ok { f with finished := true, ctrFlow := flow }
  | .un op, f => visitUn X op f
  | .bin op, f => visitBin X op f
  | .subr target, f => visitSubr X call below target f

def runInstructions : List (Instr E) → Frame V E → Except Fault (Frame V E)
  | [], f => .ok f
  | i :: is, f => do
    let f ← visit X call below i f
    if f.finished then .ok f else runInstructions is f

/-- The frame a term starts with. -/
def Machine.frame (m : Machine V) : Frame V E :=
  { m with stack := [], fa := .default, finished := false }

def runTerm (t : TermInstr E) (m : Machine V) : Except Fault (FlowAction × Machine V) := do
  let f ← runInstructions X call below t.instructions m.frame
  return (f.fa, f.toMachine)

def runTerms : List (TermInstr E) → Machine V → Except Fault (FlowAction × Machine V)
  | [], m => .ok (.default, m)
  | t :: ts, m => do
    let (fa, m) ← runTerm X call below t m
    if fa ≠ .default then .ok (fa, m)
    else if m.ctrFlow = .policy then .ok (.default, m)
    else runTerms ts m

/-- `IvExec::runPolicy` -/
def runPolicy (p : PolicyInstr E) (m : Machine V) : Except Fault (FlowAction × Machine V) :=
  if below < stackSize then 
    runTerms X call below p.terms { m with ctrFlow := .term, trace := p.trace }
  else .error .stackFull

end Term

section Run

variable {V E : Type} (X : Filter V E)

/-- A call of a subroutine, with at most `n` calls open. -/
def callSubr : Nat → Call V
  | 0, _, _, _ => .error .outOfFuel
  | n + 1, below, target, m =>
    match X.subr target with
    | none => .error .assertion
    | some p => runPolicy X (callSubr n) below p m

/-- The loop of `IvExec::run`, over the policies in the order it takes them. -/
def runPolicies (n : Nat) : List (PolicyInstr E) → Machine V → Except Fault (FlowAction × Machine V)
  | [], m => .ok (.default, m)
  | p :: ps, m => do
    let (fa, m) ← runPolicy X (callSubr X n) 0 p m
    if fa ≠ .default then .ok (fa, m) else runPolicies n ps m

/-- `IvExec::run`: the array of policies is taken from its end. -/
def run (n : Nat) (policies : List (PolicyInstr E)) (v : V) : Except Fault (FlowAction × V) := do
  let (fa, m) ← runPolicies X n policies.reverse ⟨v, 0, .term, false⟩
  return (fa, m.vars)

/-- `PolicyFilter::acceptRoute`, on a filter that is configured. -/
def acceptRoute (n : Nat) (policies : List (PolicyInstr E)) (v : V) : Except Fault (Bool × V) := do
  let (fa, v) ← run X n policies v
  return (fa.accepted, v)

end Run

end Xorp.Policy

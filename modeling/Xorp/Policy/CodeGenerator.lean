/-
Compiling import policies.

The generator writes an instruction for each node of a policy, the operands of an operator before it
and the right one first, so that the left one is on top of the stack.  In a term every statement of
the source block is followed by an exit, and of the actions those that accept or reject come last,
whatever their order in the configuration.

The policies that a policy calls are compiled with it and travel with its code.  A policy that calls
itself is compiled for ever, so this takes the number of policies that may be open at a time, as
running does.
-/
import Xorp.Policy.Backend

namespace Xorp.Policy

variable {E : Type}

/-! ### What a policy refers to -/

def Expr.calls : Expr E → List String
  | .un _ e => e.calls
  | .bin _ l r => l.calls ++ r.calls
  | .subr policy => [policy]
  | _ => []

def Expr.setids : Expr E → List String
  | .un _ e => e.setids
  | .bin _ l r => l.setids ++ r.setids
  | .set id => [id]
  | _ => []

def Stmt.exprs : Stmt E → List (Expr E)
  | .expr e => [e]
  | .assign _ _ rvalue => [rvalue]
  | _ => []

def PolicyStatement.exprs (ps : PolicyStatement E) : List (Expr E) :=
  ps.terms.flatMap fun t => (t.source ++ t.action).flatMap Stmt.exprs

def PolicyStatement.calls (ps : PolicyStatement E) : List String := ps.exprs.flatMap Expr.calls

/-- The names that code comes with: sets, and the code of the policies that it calls. -/
structure Refs (E : Type) where
  sets : List String
  subr : List (PolicyInstr E)

/-- What is not there yet is taken over. -/
def Refs.append (g h : Refs E) : Refs E :=
  { sets := h.sets.foldl (fun s name => s.insert name) g.sets
    subr := g.subr ++ h.subr.filter fun p => p.name ∉ g.subr.map (·.name) }

/-! ### Code -/

section Generator

variable (vm : VarMap) (protocol : String)

def genExpr : Expr E → Except Fault (List (Instr E))
  | .un op e => do
    let is ← genExpr e
    return is ++ [.un op]
  | .bin op l r => do
    -- reverse order, so that they can be popped in the correct order
    let right ← genExpr r
    let left ← genExpr l
    return right ++ (left ++ [.bin op])
  | .elem e => .ok [.push e]
  | .var name => do
    let id ← orThrow (vm protocol name)
    return [.load id]
  | .set id => .ok [.pushSet id]
  | .proto _ => .error .exception
  | .subr policy => .ok [.subr policy]

/-- The operator of an assignment with a modifier. -/
def genMod (id : Nat) : Option BinOp → List (Instr E)
  | none => []
  | some op => [.load id, .bin op]

def genStmt : Stmt E → Except Fault (List (Instr E))
  | .expr e => genExpr vm protocol e
  | .assign name mod rvalue => do
    let is ← genExpr vm protocol rvalue
    let id ← orThrow (vm protocol name)
    return is ++ (genMod id mod ++ [.store id])
  | .accept => .ok [.accept]
  | .reject => .ok [.reject]
  | .next flow => .ok [.next flow]

/-- A statement of a block that has to hold. -/
def genCondition (s : Stmt E) : Except Fault (List (Instr E)) := do
  let is ← genStmt vm protocol s
  return is ++ [.onFalseExit]

/-- The actions in the order in which code is generated for them. -/
def lastAcceptOrReject (actions : List (Stmt E)) : List (Stmt E) :=
  actions.filter (fun s => !s.isAcceptOrReject) ++ actions.filter (·.isAcceptOrReject)

/-- `CodeGenerator::visit_term` -/
def genTerm (t : Term E) : Except Fault (TermInstr E) := do
  let source ← t.source.mapM (genCondition vm protocol)
  if t.dest ≠ [] then .error .exception
  else
    let actions ← (lastAcceptOrReject t.action).mapM (genStmt vm protocol)
    return ⟨t.name, source.flatten ++ actions.flatten⟩

/-- `CodeGenerator::visit_policy` -/
def genPolicy (ps : PolicyStatement E) : Except Fault (PolicyInstr E) := do
  let terms ← ps.terms.mapM (genTerm vm protocol)
  return ⟨ps.name, terms⟩

/-- What `CodeGenerator::visit(NodeSubr&)` and `visit(NodeSet&)` leave, with at most `n` policies
open. -/
def genRefs (pm : PolicyMap E) : Nat → PolicyStatement E → Except Fault (Refs E)
  | 0, _ => .error .outOfFuel
  | n + 1, ps => do
    let called ← ps.calls.mapM fun name => do
      let q ← orThrow (pm.find name)
      let code ← genPolicy vm protocol q
      let r ← genRefs pm n q
      return r.append ⟨[], [code]⟩
    return called.foldl Refs.append ⟨(ps.exprs.flatMap Expr.setids).eraseDups, []⟩

end Generator

end Xorp.Policy

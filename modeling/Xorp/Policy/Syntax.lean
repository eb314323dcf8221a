/-
Policy statements, as the configuration holds them.

A policy is a list of terms, and a term has three blocks of statements: what a route has to satisfy
at its source, what it has to satisfy at its destination, and what is then done to it.  The parser
does not look at the block it parses for, so any statement may stand in any block.  An expression
may call another policy, whose verdict is its value.
-/
import Xorp.Policy.Element

namespace Xorp.Policy

/-- `NodeNext::Flow` -/
inductive Flow
  | policy | term
  deriving DecidableEq, Repr

/-- The nodes that have a value.  `proto` stands among them because it may be an operand. -/
inductive Expr (E : Type)
  | un (op : UnOp) (node : Expr E)
  | bin (op : BinOp) (left right : Expr E)
  | elem (val : E)
  | var (name : String)
  | set (setid : String)
  | proto (name : String)
  | subr (policy : String)
  deriving DecidableEq, Repr

inductive Stmt (E : Type)
  | expr (e : Expr E)
  | assign (var : String) (mod : Option BinOp) (rvalue : Expr E)
  | accept
  | reject
  | next (flow : Flow)
  deriving DecidableEq, Repr

def Stmt.isAcceptOrReject {E : Type} : Stmt E → Bool
  | .accept | .reject => true
  | _ => false

structure Term (E : Type) where
  name : String
  source : List (Stmt E)
  dest : List (Stmt E)
  action : List (Stmt E)
  deriving DecidableEq, Repr

structure PolicyStatement (E : Type) where
  name : String
  terms : List (Term E)
  deriving DecidableEq, Repr

/-- `PolicyMap`: the policies, found by their names. -/
abbrev PolicyMap (E : Type) := List (PolicyStatement E)

def PolicyMap.find {E : Type} (pm : PolicyMap E) (name : String) : Option (PolicyStatement E) :=
  List.find? (fun p => p.name = name) pm

/-- `VarMap`: the numbers of the variables of each protocol, by name. -/
abbrev VarMap := String → String → Option Nat

/-- `SetMap`, and the set manager of a filter: the sets by name. -/
abbrev SetMap (E : Type) := String → Option E

/-- A table that throws when the key is not in it. -/
def orThrow {α : Type} : Option α → Except Fault α
  | none => .error .exception
  | some a => .ok a

end Xorp.Policy

/-
The elements of a policy and the operators on them.

A policy computes with elements, and every element has a class.  The dispatcher finds the function
that an operator stands for in a table, by the operator and the classes of its arguments.  The table
is filled once, and what it holds is all that a policy can compute: it is written out here as
`unEntry` and `binEntry`.  Two things do not go through the table.  A null argument makes the result
null whatever the operator is, and the operator `ctr` makes an element of the class that its first
argument names.

What the functions in the table compute is left open.  `Operations` is any choice of them.
-/
import Mathlib.Tactic.Ring

namespace Xorp.Policy

/-- The classes of elements. -/
inductive ElemType
  | int32 | u32 | com32 | str | bool
  | ipv4 | ipv6 | ipv4Range | ipv6Range | ipv4Net
  | ipv6Net | u32Range | setU32 | setCom32 | setIpv4Net
  | setIpv6Net | setStr | null | filter | asPath
  | ipv4NextHop | ipv6NextHop
  deriving DecidableEq, Repr

inductive UnOp
  | not | head
  deriving DecidableEq, Repr

inductive BinOp
  | and | or | xor
  | eq | ne | lt | gt | le | ge
  | add | sub | mul | div | lShift | rShift | bitAnd | bitOr | bitXor
  | regex | ctr | neInt
  deriving DecidableEq, Repr

/-- Why the policy code stops without a result. -/
inductive Fault
  /-- A `PolicyException` is thrown. -/
  | exception
  /-- The assertion of the dispatcher that its table has an entry. -/
  | noEntry
  | assertion
  /-- The assertions of the interpreter on its stack of 128 elements. -/
  | stackFull
  /-- The assertions of the interpreter on its 2000 temporary elements. -/
  | trashFull
  | nullPointer
  | outOfFuel
  deriving DecidableEq, Repr

/-! ### The table -/

/-- `ADD_EQOP` -/
def BinOp.isEqOp : BinOp → Bool
  | .eq | .ne => true
  | _ => false

/-- `ADD_RELOP` -/
def BinOp.isRelOp : BinOp → Bool
  | .lt | .gt | .le | .ge => true
  | _ => false

def BinOp.isComparison (op : BinOp) : Bool := op.isEqOp || op.isRelOp

/-- `ADD_MATHOP` -/
def BinOp.isMathOp : BinOp → Bool
  | .add | .sub | .mul | .div | .lShift | .rShift | .bitAnd | .bitOr | .bitXor => true
  | _ => false

/-- What the table holds: the class of the result, and whether it is a new element.  Comparisons
of plain values return one of two booleans that are there from the start. -/
structure Entry where
  result : ElemType
  fresh : Bool
  deriving DecidableEq, Repr

def Entry.shared : Entry := ⟨.bool, false⟩

def Entry.new (t : ElemType) : Entry := ⟨t, true⟩

def unEntry : UnOp → ElemType → Option Entry
  | .not, .bool => some (.new .bool)
  | .head, .str => some (.new .str)
  | _, _ => none

/-- `ADD_LSETBINOP` and the operators on two sets. -/
def setEntry (t : ElemType) (op : BinOp) : Option Entry :=
  if op = .neInt then some (.new .bool)
  else if op = .add ∨ op = .sub then some (.new t)
  else if op.isComparison then some (.new .bool)
  else none

/-- A set and an element that may be added to it. -/
def setElemEntry (t : ElemType) (op : BinOp) : Option Entry :=
  if op = .add then some (.new t)
  else if op.isComparison then some (.new .bool)
  else none

def comparisonEntry (e : Entry) (op : BinOp) : Option Entry :=
  if op.isComparison then some e else none

def numberEntry (t : ElemType) (op : BinOp) : Option Entry :=
  if op.isComparison then some .shared
  else if op.isMathOp then some (.new t)
  else none

/-- A prefix and a set of prefixes: `<=` is replaced by `net_set_match`. -/
def netSetEntry (op : BinOp) : Option Entry :=
  if op = .le then some .shared
  else if op.isComparison then some (.new .bool)
  else none

def binEntry (op : BinOp) : ElemType → ElemType → Option Entry
  | .bool, .bool =>
    if op = .and ∨ op = .or ∨ op = .xor ∨ op.isEqOp then some .shared else none
  | .setU32, .u32 => setElemEntry .setU32 op
  | .setCom32, .com32 => setElemEntry .setCom32 op
  | .setU32, .setU32 => setEntry .setU32 op
  | .setCom32, .setCom32 => setEntry .setCom32 op
  | .u32, .asPath => if op = .add ∨ op = .mul then some (.new .asPath) else none
  | .asPath, .u32 => if op = .neInt then some (.new .bool) else none
  | .asPath, .str => if op = .regex then some (.new .bool) else none
  | .asPath, .setStr => if op = .regex then some (.new .bool) else none
  | .int32, .int32 => numberEntry .int32 op
  | .u32, .u32 => numberEntry .u32 op
  | .u32, .setU32 => comparisonEntry (.new .bool) op
  | .u32, .u32Range => comparisonEntry .shared op
  | .com32, .com32 => if op.isEqOp then some .shared else none
  | .com32, .setCom32 => comparisonEntry (.new .bool) op
  | .str, .str =>
    if op.isEqOp then some .shared
    else if op = .add then some (.new .str)
    else if op = .regex then some (.new .bool)
    else none
  | .str, .u32 => if op = .mul then some (.new .str) else none
  | .str, .setStr => if op = .regex then some (.new .bool) else none
  | .ipv4, .ipv4 => comparisonEntry .shared op
  | .ipv4, .ipv4Range => comparisonEntry .shared op
  | .ipv4NextHop, .ipv4Range => comparisonEntry .shared op
  | .ipv4Net, .ipv4Net => comparisonEntry .shared op
  | .ipv4Net, .u32Range => comparisonEntry .shared op
  | .setIpv4Net, .ipv4Net => comparisonEntry (.new .bool) op
  | .ipv4Net, .setIpv4Net => netSetEntry op
  | .ipv6, .ipv6 => comparisonEntry .shared op
  | .ipv6, .ipv6Range => comparisonEntry .shared op
  | .ipv6NextHop, .ipv6Range => comparisonEntry .shared op
  | .ipv6Net, .ipv6Net => comparisonEntry .shared op
  | .ipv6Net, .u32Range => comparisonEntry .shared op
  | .setIpv6Net, .ipv6Net => comparisonEntry (.new .bool) op
  | .ipv6Net, .setIpv6Net => netSetEntry op
  | _, _ => none

/-! ### The functions -/

/-- The elements and the functions that the table refers to.  `none` is an exception: `ctr` throws
when the class is unknown or the text is not a value of it, and `regex` when the pattern cannot be
compiled. -/
structure Operations (E : Type) where
  type : E → ElemType
  /-- The value of an `ElemBool`. -/
  val : E → Bool
  ofBool : Bool → E
  null : E
  un : UnOp → E → E
  bin : BinOp → E → E → Option E
  ctr : E → E → Option E

namespace Operations

variable {E : Type} (o : Operations E)

/-- `Dispatcher::run` for one argument. -/
def runUn (op : UnOp) (e : E) : Except Fault E :=
  if o.type e = .null then .ok o.null
  else match unEntry op (o.type e) with
    | none => .error .noEntry
    | some _ => .ok (o.un op e)

/-- `Dispatcher::run` for two arguments. -/
def runBin (op : BinOp) (l r : E) : Except Fault E :=
  if o.type l = .null ∨ o.type r = .null then .ok o.null
  else if op = .ctr then
    if o.type l = .str then (o.ctr l r).elim (.error .exception) .ok
    else .error .exception
  else match binEntry op (o.type l) (o.type r) with
    | none => .error .noEntry
    | some _ => (o.bin op l r).elim (.error .exception) .ok

/-- Whether the result of an operator is a new element. -/
def unFresh (op : UnOp) (e : E) : Bool := (unEntry op (o.type e)).elim true Entry.fresh

def binFresh (op : BinOp) (l r : E) : Bool :=
  (binEntry op (o.type l) (o.type r)).elim true Entry.fresh

end Operations

/-! ### Numbers -/

/-- An element that is written as a number. -/
structure Value where
  type : ElemType
  num : Nat
  deriving DecidableEq, Repr

/-- What an operator computes from two numbers. -/
def BinOp.eval (a b : Nat) : BinOp → Nat
  | .and => min a b
  | .or => max a b
  | .xor | .ne => if a = b then 0 else 1
  | .eq => if a = b then 1 else 0
  | .lt => if a < b then 1 else 0
  | .gt => if b < a then 1 else 0
  | .le => if a ≤ b then 1 else 0
  | .ge => if b ≤ a then 1 else 0
  | .add => (a + b) % 2 ^ 32
  | .sub => (a + 2 ^ 32 - b) % 2 ^ 32
  | .mul => a * b % 2 ^ 32
  | _ => 0

/-- The operations on numbers and booleans as they are, in which no text is the name of a class. -/
def numbers : Operations Value where
  type e := e.type
  val e := e.num ≠ 0
  ofBool b := ⟨.bool, b.toNat⟩
  null := ⟨.null, 0⟩
  un op e := if op = .not then ⟨.bool, 1 - e.num⟩ else e
  bin op l r := (binEntry op l.type r.type).map fun t => ⟨t.result, op.eval l.num r.num⟩
  ctr _ _ := none

end Xorp.Policy

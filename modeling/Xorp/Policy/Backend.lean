/-
The text of compiled policies, and what a filter reads from it.

The policy manager sends code to a filter as text, a line for each instruction and lines that open
and close terms, policies and the block of subroutines.  The filter's grammar is line by line, and
its actions collect what has been read so far: the instructions of the open term, the terms of the
open policy, the policies.  `readLine` is one line of this, and `parse` reads a whole text.

`parse_program` is the round trip.  It says in particular that policies are kept in the order in
which the text has them.
-/
import Xorp.Policy.IvExec

namespace Xorp.Policy

open Option Function List

inductive Line (E : Type)
  | policyStart (name : String)
  | policyEnd
  | termStart (name : String)
  | termEnd
  | statement (i : Instr E)
  | set (name : String) (elem : E)
  | subrStart
  | subrEnd
  deriving DecidableEq, Repr

abbrev Text (E : Type) := List (Line E)

variable {E : Type}

/-! ### Writing -/

def TermInstr.text (t : TermInstr E) : Text E :=
  .termStart t.name :: (t.instructions.map .statement ++ [.termEnd])

def PolicyInstr.text (p : PolicyInstr E) : Text E :=
  .policyStart p.name :: (p.terms.flatMap TermInstr.text ++ [.policyEnd])

/-! ### Reading -/

/-- Which block is open, with the name it was opened under.  A policy is either one of the program
or a subroutine. -/
inductive Position
  | program
  | subroutines
  | policy (subr : Bool) (name : String)
  | term (subr : Bool) (policy name : String)
  deriving DecidableEq, Repr

/-- What the grammar's actions have collected. -/
structure Parsed (E : Type) where
  policies : List (PolicyInstr E)
  sets : SetMap E
  subr : String → Option (PolicyInstr E)
  terms : List (TermInstr E)
  instructions : List (Instr E)
  position : Position

def Parsed.empty : Parsed E :=
  ⟨[], fun _ => none, fun _ => none, [], [], .program⟩

/-- Where a policy goes when it ends. -/
def Parsed.endPolicy (s : Parsed E) (subr : Bool) (p : PolicyInstr E) : Parsed E :=
  if subr then
    { s with subr := Function.update s.subr p.name (some p), terms := [], position := .subroutines }
  else { s with policies := s.policies ++ [p], terms := [], position := .program }

def readLine (s : Parsed E) (line : Line E) : Option (Parsed E) :=
  match s.position, line with
  | .program, .policyStart name => some { s with position := .policy false name }
  | .program, .set name elem => some { s with sets := Function.update s.sets name (some elem) }
  | .program, .subrStart => some { s with position := .subroutines }
  | .subroutines, .policyStart name => some { s with position := .policy true name }
  | .subroutines, .subrEnd => some { s with position := .program }
  | .policy subr name, .termStart term => some { s with position := .term subr name term }
  | .policy subr name, .policyEnd => some (s.endPolicy subr ⟨name, s.terms⟩)
  | .term _ _ _, .statement i => some { s with instructions := s.instructions ++ [i] }
  | .term subr name term, .termEnd =>
    some { s with
      terms := s.terms ++ [⟨term, s.instructions⟩], instructions := [],
      position := .policy subr name }
  | _, _ => none

def readText (s : Parsed E) (text : Text E) : Option (Parsed E) := text.foldlM readLine s

/-- `policy_backend_parse` -/
def parse (text : Text E) : Option (Parsed E) := do
  let s ← readText .empty text
  if s.position = .program then some s else none

/-! ### Reading what was written -/

theorem readText_append (s : Parsed E) (t₁ t₂ : Text E) :
    readText s (t₁ ++ t₂) = (readText s t₁).bind fun s => readText s t₂ := by
  unfold readText
  rw [foldlM_append]
  rfl

theorem readText_cons (s : Parsed E) (line : Line E) (t : Text E) :
    readText s (line :: t) = (readLine s line).bind fun s => readText s t := by
  unfold readText
  rfl

variable {policy : String} {subr : Bool}

theorem readText_statements (is : List (Instr E)) (s : Parsed E) {name : String}
    (h : s.position = .term subr policy name) :
    readText s (is.map .statement) = some { s with instructions := s.instructions ++ is } := by
  induction is generalizing s with
  | nil => simp [readText]
  | cons i is ih =>
    have hline : readLine s (.statement i) =
        some { s with instructions := s.instructions ++ [i] } := by
      unfold readLine
      rw [h]
    rw [map_cons, readText_cons, hline, bind_some,
      ih { s with instructions := s.instructions ++ [i] } h]
    simp [append_assoc]

theorem readText_term (t : TermInstr E) (s : Parsed E) (h : s.position = .policy subr policy)
    (hempty : s.instructions = []) :
    readText s t.text = some { s with terms := s.terms ++ [t] } := by
  have hstart : readLine s (.termStart t.name) =
      some { s with position := .term subr policy t.name } := by
    unfold readLine
    rw [h]
  unfold TermInstr.text
  rw [readText_cons, hstart, bind_some, readText_append,
    readText_statements _ _ rfl, bind_some, readText_cons]
  simp [readLine, readText, hempty, ← h]

theorem readText_terms (ts : List (TermInstr E)) (s : Parsed E)
    (h : s.position = .policy subr policy) (hempty : s.instructions = []) :
    readText s (ts.flatMap TermInstr.text) = some { s with terms := s.terms ++ ts } := by
  induction ts generalizing s with
  | nil => simp [readText]
  | cons t ts ih =>
    rw [flatMap_cons, readText_append, readText_term t s h hempty, bind_some,
      ih { s with terms := s.terms ++ [t] } h hempty]
    simp [append_assoc]

/-- Between policies nothing is open. -/
structure Parsed.Clear (s : Parsed E) (p : Position) : Prop where
  position : s.position = p
  terms : s.terms = []
  instructions : s.instructions = []

/-- A policy is read in the same way in the program and among the subroutines. -/
theorem readText_policy (p : PolicyInstr E) (s : Parsed E) (subr : Bool)
    (h : s.Clear (if subr then .subroutines else .program)) :
    readText s p.text = some (s.endPolicy subr p) := by
  have hstart : readLine s (.policyStart p.name) =
      some { s with position := .policy subr p.name } := by
    unfold readLine
    rw [h.position]
    cases subr <;> rfl
  unfold PolicyInstr.text
  rw [readText_cons, hstart, bind_some, readText_append,
    readText_terms _ { s with position := .policy subr p.name } rfl h.instructions,
    bind_some, readText_cons]
  cases subr <;> simp [readLine, readText, Parsed.endPolicy, h.terms]

theorem readText_policies (ps : List (PolicyInstr E)) (s : Parsed E) (h : s.Clear .program) :
    readText s (ps.flatMap PolicyInstr.text) = some { s with policies := s.policies ++ ps } := by
  induction ps generalizing s with
  | nil => simp [readText]
  | cons p ps ih =>
    rw [flatMap_cons, readText_append, readText_policy p s false h, bind_some,
      ih (s.endPolicy false p) ⟨rfl, rfl, h.instructions⟩]
    simp [Parsed.endPolicy, ← h.position, ← h.terms]

theorem readText_subrs (ps : List (PolicyInstr E)) (s : Parsed E) (h : s.Clear .subroutines) :
    readText s (ps.flatMap PolicyInstr.text) = some { s with
      subr := ps.foldl (fun m p => update m p.name (some p)) s.subr } := by
  induction ps generalizing s with
  | nil => simp [readText]
  | cons p ps ih =>
    rw [flatMap_cons, readText_append, readText_policy p s true h, bind_some,
      ih (s.endPolicy true p) ⟨rfl, rfl, h.instructions⟩]
    simp [Parsed.endPolicy, ← h.position, ← h.terms]

theorem readText_sets (sets : List (String × E)) (s : Parsed E) (h : s.position = .program) :
    readText s (sets.map fun x => .set x.1 x.2) = some { s with
      sets := sets.foldl (fun m x => update m x.1 (some x.2)) s.sets } := by
  induction sets generalizing s with
  | nil => simp [readText]
  | cons x sets ih =>
    have hline : readLine s (.set x.1 x.2) =
        some { s with sets := update s.sets x.1 (some x.2) } := by
      unfold readLine
      rw [h]
    rw [map_cons, readText_cons, hline, bind_some,
      ih { s with sets := update s.sets x.1 (some x.2) } h]
    rfl

/-- The sets and the subroutines of a text, the last of a name. -/
def setsOf (sets : List (String × E)) : SetMap E :=
  sets.foldl (fun m x => Function.update m x.1 (some x.2)) fun _ => none

def subrsOf (subrs : List (PolicyInstr E)) : String → Option (PolicyInstr E) :=
  subrs.foldl (fun m p => Function.update m p.name (some p)) fun _ => none

/-- The block of subroutines is left out when there are none. -/
def subrText (subrs : List (PolicyInstr E)) : Text E :=
  if subrs = [] then [] else .subrStart :: (subrs.flatMap PolicyInstr.text ++ [.subrEnd])

theorem readText_subrText (subrs : List (PolicyInstr E)) (s : Parsed E) (h : s.Clear .program) :
    readText s (subrText subrs) = some { s with
      subr := subrs.foldl (fun m p => update m p.name (some p)) s.subr } := by
  unfold subrText
  by_cases hnil : subrs = []
  · rw [if_pos hnil, hnil]
    rfl
  · have hstart : readLine s .subrStart = some { s with position := .subroutines } := by
      unfold readLine
      rw [h.position]
    rw [if_neg hnil, readText_cons, hstart, bind_some, readText_append,
      readText_subrs subrs { s with position := .subroutines } ⟨rfl, h.terms, h.instructions⟩,
      bind_some, readText_cons]
    simp [readLine, readText, ← h.position]

/-- Reading a program gives back its policies in the order in which they were written. -/
theorem parse_program (ps subrs : List (PolicyInstr E)) (sets : List (String × E)) :
    parse (ps.flatMap PolicyInstr.text ++ (sets.map fun x => .set x.1 x.2) ++ subrText subrs) =
      some ⟨ps, setsOf sets, subrsOf subrs, [], [], .program⟩ := by
  unfold parse
  rw [readText_append, readText_append, readText_policies ps _ ⟨rfl, rfl, rfl⟩, bind_some,
    readText_sets _ _ rfl, bind_some, readText_subrText _ _ ⟨rfl, rfl, rfl⟩]
  rfl

end Xorp.Policy

/-
Route redistribution.

A `RedistTable` hands every route it hears of to its redistributors.  A redistributor that
is connected late first dumps the routes that are there already, one in each timer step, in
the order of the table's index.  Where the dump stands is the net dumped last, `lastNet`.
A route that comes or goes behind that cursor is announced at once; one that comes or goes
ahead of it is left to the dump.

The output on the other side may ask for a pause, in the middle of an announcement or
between two steps, and the timer then stops until it asks to go on.

In a run whose steps leave the cursor on a net of the table, and off the net that stands
for "no last net", the output holds at every moment the accepted routes the dump has passed.
The two examples at the end are runs with a step of the other kinds.
-/
import Xorp.Trie.PrefixMap
import Xorp.Lib.OrderedSet
import Xorp.Lib.Stream
import Xorp.Lib.Outcome

namespace Xorp

open Linked Stream PrefixMap List Function OrderedSet Option Except Nat

variable {w : Nat} {ρ : Type}

/-! ### The order of the index -/

def redistNetCmp (l r : IPNet w) : Bool :=
  if l.prefixLen ≠ r.prefixLen then l.prefixLen < r.prefixLen
  else l.maskedAddr < r.maskedAddr

/-- The place of a net in that order. -/
def redistRank (n : IPNet w) : Nat := n.prefixLen * 2 ^ w + n.maskedAddr.toNat

theorem redistNetCmp_iff {l r : IPNet w} :
    redistNetCmp l r = true ↔ redistRank l < redistRank r := by
  unfold redistNetCmp redistRank
  by_cases hlen : l.prefixLen = r.prefixLen
  · rw [if_neg (by simpa using hlen), hlen, decide_eq_true_iff, BitVec.lt_def]
    omega
  · rw [if_pos hlen, decide_eq_true_iff]
    rcases lt_or_gt_of_ne hlen with hlt | hgt
    · have := mul_le_mul_right (2 ^ w) (succ_le_of_lt hlt)
      rw [succ_mul] at this
      exact iff_of_true hlt (by omega)
    · have := mul_le_mul_right (2 ^ w) (succ_le_of_lt hgt)
      rw [succ_mul] at this
      exact iff_of_false (by omega) (by omega)

theorem redistNetCmp_eq_false {l r : IPNet w} :
    redistNetCmp l r = false ↔ redistRank r ≤ redistRank l := by
  rw [← Bool.not_eq_true, redistNetCmp_iff, not_lt]

theorem redistRank_injective : Function.Injective (redistRank (w := w)) := by
  intro l r h
  have hlr : ¬ redistNetCmp l r = true := by rw [redistNetCmp_iff]; omega
  have hrl : ¬ redistNetCmp r l = true := by rw [redistNetCmp_iff]; omega
  unfold redistNetCmp at hlr hrl
  by_cases hlen : l.prefixLen = r.prefixLen
  · rw [if_neg (by simpa using hlen), decide_eq_true_iff, BitVec.lt_def] at hlr
    rw [if_neg (by simpa using hlen.symm), decide_eq_true_iff, BitVec.lt_def] at hrl
    exact IPNet.ext_interval (le_antisymm (not_lt.mp hrl) (not_lt.mp hlr))
      (congrArg (blockSize w) hlen)
  · rw [if_pos hlen, decide_eq_true_iff] at hlr
    rw [if_pos (Ne.symm hlen), decide_eq_true_iff] at hrl
    omega

/-- `NO_LAST_NET`, the mark of a dump that has not begun.  It is itself a net. -/
def noLastNet (w : Nat) : IPNet w := .host (BitVec.allOnes w)

/-- The mark is the last net in the order. -/
theorem redistRank_le_noLastNet (n : IPNet w) : redistRank n ≤ redistRank (noLastNet w) := by
  have hlen := mul_le_mul_right (2 ^ w) n.prefixLen_le
  have hmark : redistRank (noLastNet w) = w * 2 ^ w + (2 ^ w - 1) := by
    show w * 2 ^ w + (noLastNet w).lo = _
    rw [noLastNet, IPNet.lo_host, BitVec.toNat_allOnes]
  rw [hmark]
  unfold redistRank
  omega

/-! ### The redistributor -/

/-- What a redistributor says to its output. -/
inductive Message (ρ : Type) where
  | route (c : Change ρ)
  | startingRouteDump
  | finishingRouteDump
deriving DecidableEq

/-- What an output says to its redistributor. -/
inductive Water where
  | low
  | high
deriving DecidableEq, Repr

structure Redistributor (w : Nat) (ρ : Type) where
  policy : Option (ρ → Bool)
  dumping : Bool
  blocked : Bool
  lastNet : IPNet w
  /-- the dump timer is scheduled -/
  dtimer : Bool
  /-- everything sent so far -/
  output : List (Message ρ)

structure RedistTable (w : Nat) (ρ : Type) where
  rtIndex : List (IPNet w)
  ipRouteTable : PrefixMap w ρ
  outputs : List (Redistributor w ρ)

namespace Redistributor

variable (r : Redistributor w ρ)

def policyAccepts (x : ρ) : Bool :=
  match r.policy with
  | none => true
  | some accept => accept x

def send (c : Change ρ) : Redistributor w ρ := { r with output := r.output ++ [.route c] }

def scheduleDumpTimer : Except Fault (Redistributor w ρ) :=
  if r.blocked then .error .assertion else .ok { r with dtimer := true }

def unscheduleDumpTimer : Redistributor w ρ := { r with dtimer := false }

/-- `start_dump`, with an output and a table. -/
def startDump : Except Fault (Redistributor w ρ) := do
  let r ← { r with dumping := true, lastNet := noLastNet w }.scheduleDumpTimer
  pure { r with output := r.output ++ [.startingRouteDump] }

def finishDump : Redistributor w ρ :=
  { r with dumping := false, lastNet := noLastNet w, output := r.output ++ [.finishingRouteDump] }

/-- `low_water` and `high_water`. -/
def water (r : Redistributor w ρ) : Water → Except Fault (Redistributor w ρ)
  | .low => if r.dumping then { r with blocked := false }.scheduleDumpTimer else .ok r
  | .high => .ok (if r.dumping then { r.unscheduleDumpTimer with blocked := true } else r)

/-- The net the dump is to take next, by the iterator `ci`; `none` is the end. -/
def nextNet (index : List (IPNet w)) : Except Fault (Option (IPNet w)) :=
  if r.lastNet = noLastNet w then .ok index.head?
  else if r.lastNet ∈ index then .ok (OrderedSet.next r.lastNet index)
  else .error .assertion

/-- `dump_a_route`.  The output may call back while it handles `add_route`: `calls` are the
events it announces then. -/
def dumpARoute (T : RedistTable w ρ) (calls : List Water) : Except Fault (Redistributor w ρ) := do
  if r.dumping = false then throw .assertion
  match ← r.nextNet T.rtIndex with
  | none => pure r.finishDump
  | some net =>
      match T.ipRouteTable.get net with
      | none => throw .assertion
      | some ipr =>
          let r ← if r.policyAccepts ipr then calls.foldlM water (r.send (.add ipr)) else pure r
          let r := { r with lastNet := net }
          if r.blocked = false then r.scheduleDumpTimer else pure r

section
variable (net : ρ → IPNet w)

def didAdd (x : ρ) : Redistributor w ρ :=
  if r.policyAccepts x = false then r
  else if r.dumping then
    if r.lastNet = noLastNet w then r
    else if !redistNetCmp (net x) r.lastNet then r
    else r.send (.add x)
  else r.send (.add x)

/-- `will_delete`.  The policy is asked before the cursor is looked at. -/
def willDelete (index : List (IPNet w)) (x : ρ) : Except Fault (Redistributor w ρ) :=
  if r.policyAccepts x = false then .ok r
  else if r.dumping = false ∨ r.lastNet = noLastNet w then .ok r
  else if net x = r.lastNet then
    if r.lastNet ∈ index then
      .ok ({ r with lastNet := (OrderedSet.prev r.lastNet index).getD (noLastNet w) }.send (.delete x))
    else .error .assertion
  else .ok r

def didDelete (x : ρ) : Redistributor w ρ :=
  if r.policyAccepts x = false then r
  else if r.dumping then
    if r.lastNet = noLastNet w then r
    else if !redistNetCmp (net x) r.lastNet then r
    else r.send (.delete x)
  else r.send (.delete x)

end

end Redistributor

/-! ### The table -/

namespace RedistTable

def empty : RedistTable w ρ := ⟨[], .empty, []⟩

section
variable (net : ρ → IPNet w) (T : RedistTable w ρ)

def genericAddRoute (x : ρ) : Except Fault (RedistTable w ρ) :=
  if net x ∈ T.rtIndex then .error .assertion
  else .ok
    { rtIndex := OrderedSet.insert redistRank (net x) T.rtIndex
      ipRouteTable := T.ipRouteTable.insert (net x) x
      outputs := T.outputs.map fun r => r.didAdd net x }

def genericDeleteRoute (x : ρ) : Except Fault (RedistTable w ρ) := do
  if net x ∉ T.rtIndex then throw .assertion
  let outputs ← T.outputs.mapM fun r => r.willDelete net T.rtIndex x
  pure
    { rtIndex := OrderedSet.erase (net x) T.rtIndex
      ipRouteTable := T.ipRouteTable.erase (net x)
      outputs := outputs.map fun r => r.didDelete net x }

/-- A new redistributor is given the table, its output and its policy. -/
def connect (policy : Option (ρ → Bool)) : Except Fault (RedistTable w ρ) := do
  let r ← Redistributor.startDump ⟨none, false, false, noLastNet w, false, []⟩
  pure { T with outputs := T.outputs ++ [{ r with policy := policy }] }

/-- An event for one of the redistributors. -/
def atOutput (i : Nat) (f : Redistributor w ρ → Except Fault (Redistributor w ρ)) :
    Except Fault (RedistTable w ρ) :=
  match T.outputs[i]? with
  | none => .ok T
  | some r => do pure { T with outputs := T.outputs.set i (← f r) }

end

inductive Op (w : Nat) (ρ : Type) where
  | connect (policy : Option (ρ → Bool))
  /-- the event loop runs the dump timer, if it is scheduled -/
  | timer (i : Nat) (calls : List Water)
  | water (i : Nat) (event : Water)
  | add (x : ρ)
  /-- the route the table has for the net is deleted -/
  | delete (n : IPNet w)

def step (net : ρ → IPNet w) (T : RedistTable w ρ) : Op w ρ → Except Fault (RedistTable w ρ)
  | .connect policy => T.connect policy
  | .timer i calls => T.atOutput i fun r =>
      if r.dtimer then r.unscheduleDumpTimer.dumpARoute T calls else .ok r
  | .water i event => T.atOutput i fun r => r.water event
  | .add x => T.genericAddRoute net x
  | .delete n =>
      match T.ipRouteTable.get n with
      | none => .error .assertion
      | some x => T.genericDeleteRoute net x

def run (net : ρ → IPNet w) (T : RedistTable w ρ) (ops : List (Op w ρ)) :
    Except Fault (RedistTable w ρ) :=
  ops.foldlM (step net) T

end RedistTable

/-! ### What the output is to hold -/

variable {m : PrefixMap w ρ} {n : IPNet w} {x : ρ}

namespace Redistributor

/-- The announcements among the messages. -/
def changes (r : Redistributor w ρ) : List (Change ρ) :=
  r.output.filterMap fun
    | .route c => some c
    | _ => none

/-- The dump has come past the net, or is over. -/
def reached (r : Redistributor w ρ) (n : IPNet w) : Bool :=
  !r.dumping || (r.lastNet ≠ noLastNet w && !redistNetCmp r.lastNet n)

/-- The accepted routes that the dump has come past. -/
def due (m : PrefixMap w ρ) (r : Redistributor w ρ) (n : IPNet w) : Option ρ :=
  (m.get n).filter fun x => r.policyAccepts x && r.reached n

@[simp] theorem changes_send (r : Redistributor w ρ) (c : Change ρ) :
    (r.send c).changes = r.changes ++ [c] := by
  simp [changes, send]

variable {r : Redistributor w ρ}

theorem reached_of_cursor (hd : r.dumping = true) (hlast : r.lastNet ≠ noLastNet w) :
    r.reached n = true ↔ redistRank n ≤ redistRank r.lastNet := by
  simp [reached, hd, hlast, redistNetCmp_eq_false]

theorem not_reached (hd : r.dumping = true) (hlast : r.lastNet = noLastNet w) :
    r.reached n = false := by
  simp [reached, hd, hlast]

theorem reached_of_done (hd : r.dumping = false) : r.reached n = true := by
  simp [reached, hd]

/-- The steps that are left to the dump, the one that finds the end included. -/
def left (index : List (IPNet w)) (r : Redistributor w ρ) : Nat :=
  if r.dumping then index.countP (fun n => !r.reached n) + 1 else 0

/-- What is due depends on the policy and on what has been reached in the table. -/
theorem due_congr {r' : Redistributor w ρ} (hp : r'.policy = r.policy)
    (hreach : ∀ n, (m.get n).isSome → r'.reached n = r.reached n) : r'.due m = r.due m := by
  funext n
  unfold due
  cases hn : m.get n with
  | none => rfl
  | some x => simp only [policyAccepts, hp, hreach n (by simp [hn])]

/-- **The invariant of a redistributor**, over an index and the routes of the table.  The
cursor is on a net of the index, the timer runs only in a dump that is not blocked, and the
output holds what is due. -/
structure Inv [DecidableEq ρ] (net : ρ → IPNet w) (index : List (IPNet w)) (m : PrefixMap w ρ)
    (r : Redistributor w ρ) : Prop where
  cursor : r.dumping = true → r.lastNet ≠ noLastNet w → r.lastNet ∈ index
  timer : r.dtimer = true → r.dumping = true ∧ r.blocked = false
  told : replay net r.changes = some (r.due m)

end Redistributor

/-- The index and the routes are of the same nets. -/
structure RedistTable.Synced (net : ρ → IPNet w) (index : List (IPNet w)) (m : PrefixMap w ρ) :
    Prop where
  sorted : OrderedSet.Sorted redistRank index
  mem_index : ∀ n, n ∈ index ↔ (m.get n).isSome
  keyed : ∀ n x, m.get n = some x → net x = n

/-! ### One step of the dump -/

namespace Redistributor

section
variable {net : ρ → IPNet w} {index : List (IPNet w)} {r : Redistributor w ρ}

/-- The iterator finds the cursor. -/
theorem exists_nextNet [DecidableEq ρ] (hd : r.dumping = true) (h : r.Inv net index m) :
    ∃ o, r.nextNet index = .ok o := by
  unfold nextNet
  by_cases hlast : r.lastNet = noLastNet w
  · exact ⟨_, if_pos hlast⟩
  · rw [if_neg hlast, if_pos (h.cursor hd hlast)]
    exact ⟨_, rfl⟩

/-- At the end everything has been reached. -/
theorem reached_of_nextNet (hs : OrderedSet.Sorted redistRank index) (hd : r.dumping = true)
    (hnext : r.nextNet index = .ok none) : ∀ n ∈ index, r.reached n = true := by
  intro n hn
  unfold nextNet at hnext
  split_ifs at hnext with hlast hmem
  · rw [List.head?_eq_none_iff.mp (ok.inj hnext)] at hn
    simp at hn
  · rw [reached_of_cursor hd hlast]
    exact hs.next_none hmem (ok.inj hnext) n hn

variable {y : IPNet w}

/-- The next net is the first one that has not been reached. -/
theorem nextNet_some (hs : OrderedSet.Sorted redistRank index) (hd : r.dumping = true)
    (hnext : r.nextNet index = .ok (some y)) : y ∈ index ∧ r.reached y = false ∧
      ∀ n ∈ index, redistRank n ≤ redistRank y ↔ r.reached n = true ∨ n = y := by
  have hle : ∀ n, redistRank n ≤ redistRank y ↔ redistRank n < redistRank y ∨ n = y := fun n =>
    le_iff_lt_or_eq.trans (or_congr Iff.rfl redistRank_injective.eq_iff)
  unfold nextNet at hnext
  split_ifs at hnext with hlast hmem
  · obtain ⟨hy, hfirst⟩ := hs.le_of_head? (ok.inj hnext)
    refine ⟨hy, not_reached hd hlast, fun n hn => ?_⟩
    rw [hle n, not_reached hd hlast]
    exact or_congr (iff_of_false (not_lt.mpr (hfirst n hn)) (by simp)) Iff.rfl
  · obtain ⟨hy, hbelow⟩ := hs.next_some hmem (ok.inj hnext)
    refine ⟨hy, ?_, fun n hn => ?_⟩
    · rw [Bool.eq_false_iff, ne_eq, reached_of_cursor hd hlast, ← hbelow y hy]
      exact lt_irrefl _
    · rw [hle n, hbelow n hn, reached_of_cursor hd hlast]

/-- The events of the output touch the timer and the block only. -/
theorem water_eq (e : Water) (ht : r.dtimer = true → r.dumping = true ∧ r.blocked = false) :
    ∃ b t, r.water e = .ok { r with blocked := b, dtimer := t } ∧
      (t = true → r.dumping = true ∧ b = false) := by
  by_cases hd : r.dumping = true
  · cases e with
    | low => exact ⟨false, true, by simp [water, hd, scheduleDumpTimer], fun _ => ⟨hd, rfl⟩⟩
    | high => exact ⟨true, false, by simp [water, hd, unscheduleDumpTimer], by simp⟩
  · have hsame : r.water e = .ok r := by
      cases e <;> simp [water, hd]
    exact ⟨r.blocked, r.dtimer, hsame, ht⟩

theorem waters_eq (calls : List Water)
    (ht : r.dtimer = true → r.dumping = true ∧ r.blocked = false) :
    ∃ b t, calls.foldlM water r = .ok { r with blocked := b, dtimer := t } ∧
      (t = true → r.dumping = true ∧ b = false) := by
  induction calls generalizing r with
  | nil => exact ⟨r.blocked, r.dtimer, rfl, ht⟩
  | cons e calls ih =>
    obtain ⟨b, t, hrun, ht'⟩ := water_eq e ht
    obtain ⟨b', t', hrun', ht''⟩ := @ih { r with blocked := b, dtimer := t } ht'
    refine ⟨b', t', ?_, ht''⟩
    rw [foldlM_cons, hrun, ok_bind, hrun']

/-- The end of the dump: what is due then was due already. -/
theorem Inv.finishDump [DecidableEq ρ] (S : RedistTable.Synced net index m) (h : r.Inv net index m)
    (hd : r.dumping = true) (htimer : r.dtimer = false) (hnext : r.nextNet index = .ok none) :
    r.finishDump.Inv net index m := by
  refine ⟨fun hc => absurd hc (by simp [Redistributor.finishDump]),
    fun hc => absurd (htimer.symm.trans hc) (by simp), ?_⟩
  have hdue : r.finishDump.due m = r.due m := by
    refine due_congr rfl fun n hn => ?_
    rw [reached_of_nextNet S.sorted hd hnext n ((S.mem_index n).mpr hn), reached_of_done rfl]
  have hchanges : r.finishDump.changes = r.changes := by
    simp [changes, Redistributor.finishDump]
  rw [hdue, hchanges]
  exact h.told

section
variable {r' : Redistributor w ρ}

section
variable (hs : OrderedSet.Sorted redistRank index)
include hs

theorem countP_split (hn : n ∈ index) (p : IPNet w → Bool) :
    index.countP p = (p n).toNat + (erase n index).countP p := by
  have herase : index.erase n = erase n index :=
    (hs.nodup.erase_eq_filter n).trans (filter_congr fun k _ => (decide_not ..).symm)
  rw [(perm_cons_erase hn).countP_eq p, countP_cons, herase, add_comm]
  cases p n <;> rfl

theorem left_erase (hn : n ∈ index) (hd : r'.dumping = r.dumping)
    (hreach : ∀ k ∈ erase n index, r'.reached k = r.reached k) :
    r.left index = (!r.reached n).toNat + r'.left (erase n index) := by
  cases hdump : r.dumping with
  | true =>
    have hrest : (erase n index).countP (fun k => !r'.reached k) =
        (erase n index).countP fun k => !r.reached k :=
      countP_congr fun k hk => by rw [hreach k hk]
    rw [left, left, hd, if_pos hdump, if_pos hdump, hrest, countP_split hs hn, add_assoc]
  | false => simp [left, hd, hdump, reached_of_done hdump]

end

variable (hd : r.dumping = true) (hnext : r.nextNet index = .ok (some y)) (hy : y ≠ noLastNet w)
  (hd' : r'.dumping = true) (hlast : r'.lastNet = y)
include hd hnext hy hd' hlast

/-- Past the net `y`, it is reached as well. -/
theorem reached_move (hs : OrderedSet.Sorted redistRank index) (hn : n ∈ index) :
    r'.reached n = (r.reached n || decide (n = y)) := by
  rw [Bool.eq_iff_iff, reached_of_cursor hd' (hlast ▸ hy), hlast,
    (nextNet_some hs hd hnext).2.2 n hn]
  simp

theorem left_move (hs : OrderedSet.Sorted redistRank index) :
    r.left index = r'.left index + 1 := by
  obtain ⟨hin, hnot, -⟩ := nextNet_some hs hd hnext
  have hmove : ∀ n ∈ index, r'.reached n = (r.reached n || decide (n = y)) :=
    fun n => reached_move hd hnext hy hd' hlast hs
  have hrest : (erase y index).countP (fun n => !r'.reached n) =
      (erase y index).countP fun n => !r.reached n := by
    refine countP_congr fun n hn => ?_
    obtain ⟨hn, hne⟩ := mem_erase.mp hn
    simp [hmove n hn, hne]
  rw [left, left, if_pos hd, if_pos hd', countP_split hs hin, countP_split hs hin, hrest, hnot,
    hmove y hin]
  simp
  omega

/-- Past the net `y`, the route of `y` is due as well if it is accepted. -/
theorem due_move (S : RedistTable.Synced net index m) (hx : m.get y = some x)
    (hp : r'.policy = r.policy) :
    r'.due m = if r.policyAccepts x then update (r.due m) y (some x) else r.due m := by
  have hreach : ∀ n ∈ index, r'.reached n = (r.reached n || decide (n = y)) :=
    fun n => reached_move hd hnext hy hd' hlast S.sorted
  funext n
  by_cases hny : n = y
  · subst hny
    have hin : n ∈ index := (S.mem_index n).mpr (by simp [hx])
    have hall : r'.policyAccepts x = r.policyAccepts x := by simp only [policyAccepts, hp]
    cases hacc : r.policyAccepts x with
    | true => simp [due, hx, hreach n hin, hall, hacc]
    | false => simp [due, hx, hall, hacc, filter_some]
  · have hsame : r'.due m n = r.due m n := by
      unfold due
      cases hn : m.get n with
      | none => rfl
      | some z =>
        have hin : n ∈ index := (S.mem_index n).mpr (by simp [hn])
        simp only [policyAccepts, hp, hreach n hin, hny, decide_false, Bool.or_false]
    rw [hsame]
    split_ifs
    · rw [update_of_ne hny]
    · rfl

end

/-- The end of a step: the cursor moves, and the timer runs on unless the output is blocked. -/
theorem exists_reschedule [DecidableEq ρ] (hd : r.dumping = true)
    (ht : r.dtimer = true → r.dumping = true ∧ r.blocked = false) (hin : y ∈ index)
    {d : IPNet w → Option ρ} (htold : replay net r.changes = some d)
    (hdue : ∀ r' : Redistributor w ρ, r'.policy = r.policy → r'.dumping = true → r'.lastNet = y →
      r'.due m = d) : ∃ r', (if r.blocked = false then { r with lastNet := y }.scheduleDumpTimer
        else pure { r with lastNet := y }) = .ok r' ∧ r'.Inv net index m ∧ r'.dumping = true ∧
      r'.lastNet = y := by
  by_cases hb : r.blocked = false
  · refine ⟨{ r with lastNet := y, dtimer := true }, ?_, ⟨fun _ _ => hin, fun _ => ⟨hd, hb⟩, ?_⟩,
      hd, rfl⟩
    · simp [scheduleDumpTimer, hb]
    · rw [hdue { r with lastNet := y, dtimer := true } rfl hd rfl]
      exact htold
  · refine ⟨{ r with lastNet := y }, if_neg hb, ⟨fun _ _ => hin, ht, ?_⟩, hd, rfl⟩
    rw [hdue { r with lastNet := y } rfl hd rfl]
    exact htold

/-- **One step of the dump** keeps the invariant and brings the end one step nearer, unless the net
to dump is the mark. -/
theorem Inv.dumpARoute [DecidableEq ρ] {T : RedistTable w ρ} (S : RedistTable.Synced net T.rtIndex T.ipRouteTable)
    (h : r.Inv net T.rtIndex T.ipRouteTable) (htimer : r.dtimer = true)
    (hmark : r.nextNet T.rtIndex ≠ .ok (some (noLastNet w))) (calls : List Water) :
    ∃ r', r.unscheduleDumpTimer.dumpARoute T calls = .ok r' ∧
      r'.Inv net T.rtIndex T.ipRouteTable ∧ r.left T.rtIndex = r'.left T.rtIndex + 1 := by
  obtain ⟨hd, hblocked⟩ := h.timer htimer
  have h₁ : r.unscheduleDumpTimer.Inv net T.rtIndex T.ipRouteTable :=
    ⟨h.cursor, fun hc => absurd hc (by simp [unscheduleDumpTimer]), h.told⟩
  have hd₁ : r.unscheduleDumpTimer.dumping = true := hd
  have hmark₁ : r.unscheduleDumpTimer.nextNet T.rtIndex ≠ .ok (some (noLastNet w)) := hmark
  obtain ⟨htimer₁, hblocked₁⟩ : r.unscheduleDumpTimer.dtimer = false ∧
    r.unscheduleDumpTimer.blocked = false := ⟨rfl, hblocked⟩
  rw [show r.left T.rtIndex = r.unscheduleDumpTimer.left T.rtIndex from rfl]
  generalize r.unscheduleDumpTimer = r at h₁ hd₁ hmark₁ htimer₁ hblocked₁ ⊢
  obtain ⟨o, ho⟩ := exists_nextNet hd₁ h₁
  have hnotidle : ¬ r.dumping = false := by simp [hd₁]
  unfold Redistributor.dumpARoute
  simp only [if_neg hnotidle, ho, ok_bind, pure_bind]
  cases o with
  | none =>
    have hall := reached_of_nextNet S.sorted hd₁ ho
    refine ⟨_, rfl, h₁.finishDump S hd₁ htimer₁ ho, ?_⟩
    rw [left, if_pos hd₁, countP_eq_zero.mpr fun n hn => by simp [hall n hn]]
    rfl
  | some y =>
    have hy : y ≠ noLastNet w := fun hc => hmark₁ (hc ▸ ho)
    obtain ⟨hin, hnot, -⟩ := nextNet_some S.sorted hd₁ ho
    obtain ⟨x, hx⟩ := isSome_iff_exists.mp ((S.mem_index y).mp hin)
    have hkey : net x = y := S.keyed y x hx
    have ht₁ : r.dtimer = true → r.dumping = true ∧ r.blocked = false := h₁.timer
    simp only [hx]
    have hdue : ∀ r' : Redistributor w ρ, r'.policy = r.policy → r'.dumping = true →
        r'.lastNet = y → r'.due T.ipRouteTable =
          if r.policyAccepts x then update (r.due T.ipRouteTable) y (some x)
          else r.due T.ipRouteTable :=
      fun r' hp hd' hlast => due_move hd₁ ho hy hd' hlast S hx hp
    by_cases hacc : r.policyAccepts x = true
    · obtain ⟨b, t, hrun, ht⟩ := waters_eq (r := r.send (.add x)) calls ht₁
      have habsent : r.due T.ipRouteTable (net x) = none := by
        rw [hkey, due, hx]
        simp [hnot]
      have htold := (congrArg (replay net) (changes_send r (.add x))).trans
        (replay_add h₁.told habsent)
      simp only [if_pos hacc] at hdue
      rw [if_pos hacc, hrun, ok_bind]
      rw [hkey] at htold
      obtain ⟨r', hr', hinv, hd', hlast⟩ := exists_reschedule
        (r := { r.send (.add x) with blocked := b, dtimer := t }) hd₁ ht hin htold hdue
      exact ⟨r', hr', hinv, left_move hd₁ ho hy hd' hlast S.sorted⟩
    · simp only [if_neg hacc] at hdue
      rw [if_neg hacc]
      obtain ⟨r', hr', hinv, hd', hlast⟩ := exists_reschedule hd₁ ht₁ hin h₁.told hdue
      exact ⟨r', hr', hinv, left_move hd₁ ho hy hd' hlast S.sorted⟩

/-! ### A route comes or goes -/

/-- Off the cursor, a net is behind it or ahead of it. -/
theorem redistNetCmp_cursor (hd : r.dumping = true) (hlast : r.lastNet ≠ noLastNet w)
    (hn : n ≠ r.lastNet) : redistNetCmp n r.lastNet = r.reached n := by
  rw [Bool.eq_iff_iff, redistNetCmp_iff, reached_of_cursor hd hlast]
  have := redistRank_injective.ne hn
  omega

/-- What `did_add` and `did_delete` do: the change is announced if the route is accepted and
behind the cursor. -/
theorem announce_eq (c : Change ρ)
    (hn : r.dumping = true → r.lastNet ≠ noLastNet w → net x ≠ r.lastNet) :
    (if r.policyAccepts x = false then r else if r.dumping then
        if r.lastNet = noLastNet w then r
        else if !redistNetCmp (net x) r.lastNet then r
        else r.send c
      else r.send c) = if r.policyAccepts x && r.reached (net x) then r.send c else r := by
  by_cases hacc : r.policyAccepts x = true
  · by_cases hd : r.dumping = true
    · by_cases hlast : r.lastNet = noLastNet w
      · simp [hacc, hd, hlast, not_reached hd hlast]
      · simp only [hacc, hd, hlast, redistNetCmp_cursor hd hlast (hn hd hlast)]
        cases r.reached (net x) <;> simp
    · simp [hacc, hd, reached_of_done (Bool.eq_false_iff.mpr hd)]
  · simp [hacc]

theorem due_insert (habsent : m.get (net x) = none) :
    r.due (m.insert (net x) x) = if r.policyAccepts x && r.reached (net x)
      then update (r.due m) (net x) (some x) else r.due m := by
  funext n
  by_cases hn : n = net x
  · subst hn
    cases hc : r.policyAccepts x && r.reached (net x) <;>
      simp [due, get_insert, habsent, filter_some, hc]
  · have hsame : r.due (m.insert (net x) x) n = r.due m n := by
      unfold due
      rw [get_insert, if_neg hn]
    rw [hsame]
    split_ifs
    · rw [update_of_ne hn]
    · rfl

theorem due_erase (hx : m.get n = some x) : r.due (m.erase n) = update (r.due m) n none := by
  funext k
  unfold due
  rw [get_erase hx]
  by_cases hk : k = n
  · simp [hk]
  · rw [if_neg hk, update_of_ne hk]

/-- **A route is added.** -/
theorem Inv.didAdd [DecidableEq ρ] (S : RedistTable.Synced net index m) (h : r.Inv net index m)
    (hx : net x ∉ index) : (r.didAdd net x).Inv net (insert redistRank (net x) index)
      (m.insert (net x) x) := by
  have habsent : m.get (net x) = none := by
    rw [← not_isSome_iff_eq_none, ← S.mem_index]
    exact hx
  have hoff : r.dumping = true → r.lastNet ≠ noLastNet w → net x ≠ r.lastNet :=
    fun hd hlast hc => hx (hc ▸ h.cursor hd hlast)
  have hcursor : r.dumping = true → r.lastNet ≠ noLastNet w →
      r.lastNet ∈ insert redistRank (net x) index :=
    fun hd hlast => (mem_insert fun _ _ h => redistRank_injective h).mpr (.inr (h.cursor hd hlast))
  have hdue := due_insert (r := r) habsent
  rw [Redistributor.didAdd, announce_eq _ hoff]
  by_cases hc : (r.policyAccepts x && r.reached (net x)) = true
  · rw [if_pos hc] at hdue ⊢
    refine ⟨hcursor, h.timer, ?_⟩
    have hnone : r.due m (net x) = none := by
      unfold due
      rw [habsent, filter_none]
    rw [changes_send, replay_add h.told hnone, ← hdue]
    rfl
  · rw [if_neg hc] at hdue ⊢
    exact ⟨hcursor, h.timer, hdue ▸ h.told⟩

/-- The cursor one net back. -/
def stepBack (index : List (IPNet w)) (r : Redistributor w ρ) : Redistributor w ρ :=
  { r with lastNet := (OrderedSet.prev r.lastNet index).getD (noLastNet w) }

/-- One net back, the net of the old cursor is the only one no longer reached. -/
theorem reached_stepBack (hs : OrderedSet.Sorted redistRank index) (hd : r.dumping = true)
    (hlast : r.lastNet ≠ noLastNet w) (hin : r.lastNet ∈ index) (hn : n ∈ index) :
    (r.stepBack index).reached n = (r.reached n && decide (n ≠ r.lastNet)) := by
  have hlt : (r.reached n && decide (n ≠ r.lastNet)) = true ↔
      redistRank n < redistRank r.lastNet := by
    rw [Bool.and_eq_true, reached_of_cursor hd hlast, decide_eq_true_iff, lt_iff_le_and_ne]
    exact and_congr Iff.rfl redistRank_injective.ne_iff.symm
  have hd' : (r.stepBack index).dumping = true := hd
  rw [Bool.eq_iff_iff, hlt]
  cases hp : prev r.lastNet index with
  | none =>
    have hback : (r.stepBack index).lastNet = noLastNet w := by simp [stepBack, hp]
    rw [not_reached hd' hback]
    exact iff_of_false (by simp) (not_lt.mpr (hs.prev_none hin hp n hn))
  | some y =>
    obtain ⟨hy, hbelow⟩ := hs.prev_some hp
    have hback : (r.stepBack index).lastNet = y := by simp [stepBack, hp]
    have hmark : y ≠ noLastNet w := by
      rintro rfl
      have hlow := (hbelow _ hy).mp le_rfl
      have := redistRank_le_noLastNet r.lastNet
      omega
    rw [reached_of_cursor hd' (hback ▸ hmark), hback]
    exact hbelow n hn

theorem stepBack_mem (hs : OrderedSet.Sorted redistRank index)
    (hlast : (r.stepBack index).lastNet ≠ noLastNet w) :
    (r.stepBack index).lastNet ∈ index ∧ (r.stepBack index).lastNet ≠ r.lastNet := by
  cases hp : prev r.lastNet index with
  | none => exact absurd (by simp [stepBack, hp]) hlast
  | some y =>
    obtain ⟨hy, hbelow⟩ := hs.prev_some hp
    have hback : (r.stepBack index).lastNet = y := by simp [stepBack, hp]
    rw [hback]
    refine ⟨hy, ?_⟩
    rintro rfl
    exact lt_irrefl _ ((hbelow _ hy).mp le_rfl)

/-- The route at the cursor is deleted: the cursor steps back and the delete is announced. -/
theorem Inv.deleteCursor [DecidableEq ρ] (S : RedistTable.Synced net index m)
    (h : r.Inv net index m) (hx : m.get (net x) = some x) (hacc : r.policyAccepts x = true)
    (hd : r.dumping = true) (hlast : r.lastNet ≠ noLastNet w) (hcur : net x = r.lastNet) :
    (((r.stepBack index).send (.delete x)).didDelete net x).Inv net
      (erase (net x) index) (m.erase (net x)) := by
  have hin : r.lastNet ∈ index := h.cursor hd hlast
  set s := r.stepBack index
  have hreach : ∀ n ∈ index, s.reached n = (r.reached n && decide (n ≠ r.lastNet)) :=
    fun n => reached_stepBack S.sorted hd hlast hin
  -- `did_delete` finds the net ahead of the cursor
  have hoff : s.lastNet ≠ noLastNet w → net x ≠ s.lastNet :=
    fun hne hc => (stepBack_mem S.sorted hne).2 (hc.symm.trans hcur)
  have hahead : (s.send (.delete x)).reached (net x) = false := by
    show s.reached (net x) = false
    rw [hcur, hreach _ hin]
    simp
  have hsame : (s.send (.delete x)).didDelete net x = s.send (.delete x) := by
    rw [Redistributor.didDelete, announce_eq (r := s.send _) _ fun _ => hoff, hahead, Bool.and_false,
      if_neg (by simp)]
  have hheld : r.due m (net x) = some x := by
    have hr : r.reached (net x) = true := by
      rw [hcur, reached_of_cursor hd hlast]
    simp [due, hx, hacc, hr]
  rw [hsame]
  refine ⟨fun _ hne => ?_, h.timer, ?_⟩
  · obtain ⟨hmem, hback⟩ := stepBack_mem S.sorted hne
    exact mem_erase.mpr ⟨hmem, hcur ▸ hback⟩
  · have hdue : s.due (m.erase (net x)) = r.due (m.erase (net x)) := by
      refine due_congr rfl fun n hn => ?_
      rw [get_erase hx] at hn
      split_ifs at hn with hne
      · simp at hn
      · rw [hreach n ((S.mem_index n).mpr hn), decide_eq_true (hcur ▸ hne), Bool.and_true]
    have htold : replay net (r.changes ++ [.delete x]) = some (r.due (m.erase (net x))) := by
      rw [replay_delete h.told hheld, due_erase hx]
    rw [changes_send]
    exact htold.trans (congrArg some hdue.symm)

theorem didDelete_left (k : List (IPNet w)) : (r.didDelete net x).left k = r.left k := by
  unfold Redistributor.didDelete
  split_ifs <;> rfl

/-- **A route is deleted.**  A rejected one must not be the one at the cursor. -/
theorem Inv.delete [DecidableEq ρ] (S : RedistTable.Synced net index m) (h : r.Inv net index m)
    (hx : m.get (net x) = some x)
    (hkeep : r.dumping = true → r.lastNet ≠ noLastNet w → r.lastNet = net x →
      r.policyAccepts x = true) : ∃ r', r.willDelete net index x = .ok r' ∧
      (r'.didDelete net x).Inv net (erase (net x) index) (m.erase (net x)) ∧
      r.left index = (!r.reached (net x)).toNat +
        (r'.didDelete net x).left (erase (net x) index) := by
  have hmem : net x ∈ index := (S.mem_index _).mpr (by simp [hx])
  simp only [didDelete_left]
  by_cases hcur : r.dumping = true ∧ r.lastNet ≠ noLastNet w ∧ net x = r.lastNet
  · obtain ⟨hd, hlast, hcur⟩ := hcur
    have hacc := hkeep hd hlast hcur.symm
    have hin := h.cursor hd hlast
    refine ⟨(r.stepBack index).send (.delete x), ?_, h.deleteCursor S hx hacc hd hlast hcur,
      left_erase S.sorted hmem rfl fun k hk => ?_⟩
    · simp [willDelete, hacc, hd, hlast, hcur, hin, stepBack]
    · obtain ⟨hk, hne⟩ := mem_erase.mp hk
      rw [hcur] at hne
      exact (reached_stepBack S.sorted hd hlast hin hk).trans (by simp [hne])
  · have hoff : r.dumping = true → r.lastNet ≠ noLastNet w → net x ≠ r.lastNet :=
      fun hd hlast hc => hcur ⟨hd, hlast, hc⟩
    have hwill : r.willDelete net index x = .ok r := by
      unfold willDelete
      split_ifs with h1 h2 h3 h4
      · rfl
      · rfl
      · exact absurd ⟨by simpa using fun hc => h2 (.inl hc), fun hc => h2 (.inr hc), h3⟩ hcur
      · exact absurd ⟨by simpa using fun hc => h2 (.inl hc), fun hc => h2 (.inr hc), h3⟩ hcur
      · rfl
    refine ⟨r, hwill, ?_, left_erase S.sorted hmem rfl fun _ _ => rfl⟩
    have hcursor : r.dumping = true → r.lastNet ≠ noLastNet w → r.lastNet ∈ erase (net x) index :=
      fun hd hlast => mem_erase.mpr ⟨h.cursor hd hlast, (hoff hd hlast).symm⟩
    have hfilter : r.due m (net x)
        = if (r.policyAccepts x && r.reached (net x)) = true then some x else none := by
      rw [due, hx, filter_some]
    rw [Redistributor.didDelete, announce_eq _ hoff]
    by_cases hc : (r.policyAccepts x && r.reached (net x)) = true
    · rw [if_pos hc]
      refine ⟨hcursor, h.timer, ?_⟩
      rw [if_pos hc] at hfilter
      rw [changes_send, replay_delete h.told hfilter, ← due_erase hx]
      rfl
    · rw [if_neg hc]
      refine ⟨hcursor, h.timer, ?_⟩
      rw [if_neg hc] at hfilter
      rw [h.told, due_erase hx, update_eq_self_iff.mpr hfilter.symm]

end

end Redistributor

/-! ### Runs -/

namespace RedistTable

variable {net : ρ → IPNet w} {T : RedistTable w ρ}

structure Inv [DecidableEq ρ] (net : ρ → IPNet w) (T : RedistTable w ρ) : Prop where
  synced : Synced net T.rtIndex T.ipRouteTable
  outputs : ∀ r ∈ T.outputs, r.Inv net T.rtIndex T.ipRouteTable

/-- What comes from upstream: a route is added for a net without one and deleted from a net
with one. -/
def Legal (net : ρ → IPNet w) (T : RedistTable w ρ) : Op w ρ → Prop
  | .add x => net x ∉ T.rtIndex
  | .delete n => n ∈ T.rtIndex
  | _ => True

/-- The step leaves the cursors where a dump can go on: it does not dump the net that stands
for "no last net", and it does not delete a rejected route from under a cursor. -/
def KeepsCursors (T : RedistTable w ρ) : Op w ρ → Prop
  | .timer i _ => ∀ r, T.outputs[i]? = some r → r.dtimer = true →
      r.nextNet T.rtIndex ≠ .ok (some (noLastNet w))
  | .delete n => ∀ x, T.ipRouteTable.get n = some x → ∀ r ∈ T.outputs, r.dumping = true →
      r.lastNet ≠ noLastNet w → r.lastNet = n → r.policyAccepts x = true
  | _ => True

/-- Every step of the run is legal and keeps the cursors. -/
def RunKeeps (net : ρ → IPNet w) (T : RedistTable w ρ) : List (Op w ρ) → Prop
  | [] => True
  | op :: ops => Legal net T op ∧ KeepsCursors T op ∧
      ∀ T', T.step net op = .ok T' → RunKeeps net T' ops

theorem Synced.insert {index : List (IPNet w)} (S : Synced net index m) (x : ρ) :
    Synced net (insert redistRank (net x) index) (m.insert (net x) x) := by
  refine ⟨S.sorted.insert redistRank_injective _, fun n => ?_, fun n y hy => ?_⟩
  · rw [mem_insert fun _ _ h => redistRank_injective h, get_insert, S.mem_index]
    by_cases hn : n = net x
    · simp [hn]
    · simp [hn]
  · rw [get_insert] at hy
    split_ifs at hy with hn
    · rw [hn, some.inj hy]
    · exact S.keyed n y hy

theorem Synced.erase {index : List (IPNet w)} (S : Synced net index m) (hx : m.get n = some x) :
    Synced net (erase n index) (m.erase n) := by
  refine ⟨S.sorted.erase n, fun k => ?_, fun k y hy => ?_⟩
  · rw [mem_erase, get_erase hx, S.mem_index]
    by_cases hk : k = n
    · simp [hk]
    · simp [hk]
  · rw [get_erase hx] at hy
    split_ifs at hy with hk
    exact S.keyed k y hy

/-- A step of the dump of output `i`. -/
def dumps (i : Nat) (T : RedistTable w ρ) : Op w ρ → Bool
  | .timer j _ => j = i && T.outputs[i]?.any (·.dtimer)
  | _ => false

/-- The deletion of a net that the dump of output `i` has not come past. -/
def misses (i : Nat) (T : RedistTable w ρ) : Op w ρ → Bool
  | .delete n => T.outputs[i]?.any fun r => !r.reached n
  | _ => false

/-- How many steps of a run are such. -/
def tally (net : ρ → IPNet w) (p : RedistTable w ρ → Op w ρ → Bool) :
    RedistTable w ρ → List (Op w ρ) → Nat
  | _, [] => 0
  | T, op :: ops => (p T op).toNat +
      match T.step net op with
      | .ok T' => tally net p T' ops
      | .error _ => 0

/-- An event for one redistributor leaves the others alone. -/
theorem atOutput_inv [DecidableEq ρ] (h : T.Inv net) {i : Nat}
    {f : Redistributor w ρ → Except Fault (Redistributor w ρ)} (taken : Redistributor w ρ → Nat)
    (hf : ∀ r, T.outputs[i]? = some r → ∃ r', f r = .ok r' ∧
      r'.Inv net T.rtIndex T.ipRouteTable ∧ r.left T.rtIndex = taken r + r'.left T.rtIndex) :
    ∃ T', T.atOutput i f = .ok T' ∧ T'.Inv net ∧ ∀ k r, T.outputs[k]? = some r →
      ∃ r', T'.outputs[k]? = some r' ∧
        r.left T.rtIndex = (if i = k then taken r else 0) + r'.left T'.rtIndex := by
  unfold atOutput
  cases hr : T.outputs[i]? with
  | none =>
    refine ⟨T, rfl, h, fun k s hs => ⟨s, hs, ?_⟩⟩
    rw [if_neg (by rintro rfl; simp [hr] at hs), zero_add]
  | some r =>
    obtain ⟨r', hrun, hr', hleft⟩ := hf r hr
    refine ⟨{ T with outputs := T.outputs.set i r' }, by simp only [hrun]; rfl, ⟨h.synced, ?_⟩, ?_⟩
    · intro s hs
      rcases mem_or_eq_of_mem_set hs with hs | rfl
      · exact h.outputs s hs
      · exact hr'
    · intro k s hs
      by_cases hk : i = k
      · subst hk
        cases hr.symm.trans hs
        have hlt := (List.getElem?_eq_some_iff.mp hr).1
        exact ⟨r', by simp [hlt], by rw [if_pos rfl]; exact hleft⟩
      · exact ⟨s, by simp [List.getElem?_set_ne hk, hs], by simp [hk]⟩

/-- **Every step that keeps the cursors keeps the invariant.**  If no route is added, the way left
to a dump shrinks with its own steps and with the deletions ahead of it. -/
theorem step_inv [DecidableEq ρ] (h : T.Inv net) {op : Op w ρ} (hlegal : Legal net T op)
    (hkeep : KeepsCursors T op) : ∃ T', T.step net op = .ok T' ∧ T'.Inv net ∧
      ((∀ x, op ≠ .add x) → ∀ i r, T.outputs[i]? = some r → ∃ r', T'.outputs[i]? = some r' ∧
        r.left T.rtIndex = (dumps i T op).toNat + (misses i T op).toNat + r'.left T'.rtIndex) := by
  cases op with
  | connect policy =>
    refine ⟨_, rfl, ⟨h.synced, fun r hr => ?_⟩, fun _ i r hr => ⟨r, ?_, (zero_add _).symm⟩⟩
    · rcases mem_append.mp hr with hr | hr
      · exact h.outputs r hr
      · obtain rfl := mem_singleton.mp hr
        refine ⟨fun _ hne => absurd rfl hne, fun _ => ⟨rfl, rfl⟩, ?_⟩
        refine congrArg some (funext fun n => ?_)
        rw [Redistributor.due, Redistributor.not_reached rfl rfl]
        simp
    · exact (List.getElem?_append_left (List.getElem?_eq_some_iff.mp hr).1).trans hr
  | timer i calls =>
    obtain ⟨T', hT', hinv, hleft⟩ := atOutput_inv h (fun r => r.dtimer.toNat)
      (f := fun r => if r.dtimer then r.unscheduleDumpTimer.dumpARoute T calls else .ok r)
      fun r hr => by
        have hr' := h.outputs r (mem_of_getElem? hr)
        by_cases ht : r.dtimer = true
        · obtain ⟨r', hrun, hinv, hl⟩ := hr'.dumpARoute h.synced ht (hkeep r hr ht) calls
          exact ⟨r', by simp only [if_pos ht, hrun], hinv, by simp [ht, hl, add_comm]⟩
        · exact ⟨r, by simp only [if_neg ht], hr', by simp [ht]⟩
    refine ⟨T', hT', hinv, fun _ k r hr => ?_⟩
    obtain ⟨r', hr', hl⟩ := hleft k r hr
    refine ⟨r', hr', ?_⟩
    by_cases hk : i = k <;> simp [dumps, misses, hl, hk, hr]
  | water i event =>
    obtain ⟨T', hT', hinv, hleft⟩ := atOutput_inv h (fun _ => 0)
      (f := fun r => r.water event) fun r hr => by
        have hr' := h.outputs r (mem_of_getElem? hr)
        obtain ⟨b, t, hrun, ht⟩ := Redistributor.water_eq event hr'.timer
        exact ⟨_, hrun, ⟨hr'.cursor, ht, hr'.told⟩, (zero_add _).symm⟩
    refine ⟨T', hT', hinv, fun _ k r hr => ?_⟩
    obtain ⟨r', hr', hl⟩ := hleft k r hr
    exact ⟨r', hr', by simpa [dumps, misses] using hl⟩
  | add x =>
    refine ⟨_, if_neg hlegal, ⟨h.synced.insert x, fun r hr => ?_⟩, fun hno => absurd rfl (hno x)⟩
    obtain ⟨s, hs, rfl⟩ := mem_map.mp hr
    exact (h.outputs s hs).didAdd h.synced hlegal
  | delete n =>
    obtain ⟨x, hx⟩ := isSome_iff_exists.mp ((h.synced.mem_index n).mp hlegal)
    have hkey : net x = n := h.synced.keyed n x hx
    subst hkey
    obtain ⟨outputs, hmap, hall⟩ := mapM_ok fun r hr =>
      (h.outputs r hr).delete h.synced hx (hkeep x hx r hr)
    refine ⟨⟨erase (net x) T.rtIndex, T.ipRouteTable.erase (net x),
      outputs.map fun r => r.didDelete net x⟩, ?_, ⟨h.synced.erase hx, ?_⟩, ?_⟩
    · have hin : ¬ net x ∉ T.rtIndex := not_not.mpr hlegal
      simp only [step, hx, genericDeleteRoute, if_neg hin, hmap, ok_bind]
      rfl
    · intro r hr
      obtain ⟨s, hs, rfl⟩ := mem_map.mp hr
      obtain ⟨i, hi⟩ := List.getElem?_of_mem hs
      have hrel := hall i
      rw [hi] at hrel
      generalize T.outputs[i]? = o at hrel
      cases hrel with
      | some hrel => exact hrel.1
    · intro _ i r hr
      have hrel := hall i
      rw [hr] at hrel
      generalize hs : outputs[i]? = o at hrel
      cases hrel with
      | some hrel =>
        exact ⟨_, by rw [List.getElem?_map, hs]; rfl, by simpa [dumps, misses, hr] using hrel.2⟩

theorem run_inv [DecidableEq ρ] (ops : List (Op w ρ)) (h : T.Inv net) (hrun : RunKeeps net T ops) :
    ∃ T', T.run net ops = .ok T' ∧ T'.Inv net ∧ ((∀ x, .add x ∉ ops) → ∀ i r,
      T.outputs[i]? = some r → ∃ r', T'.outputs[i]? = some r' ∧ r.left T.rtIndex =
        tally net (dumps i) T ops + tally net (misses i) T ops + r'.left T'.rtIndex) := by
  induction ops generalizing T with
  | nil => exact ⟨T, rfl, h, fun _ i r hr => ⟨r, hr, by simp [tally]⟩⟩
  | cons op ops ih =>
    obtain ⟨hlegal, hkeep, hrest⟩ := hrun
    obtain ⟨T₁, hstep, h₁, hleft₁⟩ := step_inv h hlegal hkeep
    obtain ⟨T₂, hrun, h₂, hleft₂⟩ := ih h₁ (hrest T₁ hstep)
    refine ⟨T₂, ?_, h₂, fun hno i r hr => ?_⟩
    · rw [run, foldlM_cons, hstep]
      exact hrun
    · obtain ⟨r₁, hr₁, hl₁⟩ := hleft₁ (fun x hx => hno x (hx ▸ mem_cons_self)) i r hr
      obtain ⟨r₂, hr₂, hl₂⟩ := hleft₂ (fun x hx => hno x (mem_cons_of_mem op hx)) i r₁ hr₁
      refine ⟨r₂, hr₂, ?_⟩
      simp only [tally, hstep]
      omega

theorem empty_inv [DecidableEq ρ] : (empty : RedistTable w ρ).Inv net :=
  ⟨⟨List.Pairwise.nil, by simp [empty], by simp [empty]⟩, by simp [empty]⟩

/-- **A dump loses and duplicates nothing.**  In a run that keeps the cursors no assertion
fails, and every output holds the accepted routes its dump has come past: all of them once
the dump is over. -/
theorem outputs_hold_due [DecidableEq ρ] (net : ρ → IPNet w) (ops : List (Op w ρ))
    (hrun : RunKeeps net empty ops) :
    ∃ T, run net empty ops = .ok T ∧
      ∀ r ∈ T.outputs, replay net r.changes = some (r.due T.ipRouteTable) := by
  obtain ⟨T, hok, h, -⟩ := run_inv ops empty_inv hrun
  exact ⟨T, hok, fun r hr => (h.outputs r hr).told⟩

theorem RunKeeps.cons {T' : RedistTable w ρ} {op : Op w ρ} {ops : List (Op w ρ)}
    (hlegal : Legal net T op) (hkeeps : KeepsCursors T op) (hstep : T.step net op = .ok T')
    (h : RunKeeps net T' ops) : RunKeeps net T (op :: ops) := by
  refine ⟨hlegal, hkeeps, fun T₁ hT₁ => ?_⟩
  cases hstep.symm.trans hT₁
  exact h

/-- A dump of two routes, with a pause after the first. -/
theorem outputs_hold_due_paused :
    ∃ T, run Prod.fst empty [.add (IPNet.any 32, 0), .add (IPNet.host 1, 1), .connect none,
        .timer 0 [.high], .water 0 .low, .timer 0 [], .timer 0 []] = .ok T ∧
      ∀ r ∈ T.outputs, replay Prod.fst r.changes = some (r.due T.ipRouteTable) := by
  have hnew : IPNet.host 1 ∉ [IPNet.any 32] := by decide
  refine outputs_hold_due Prod.fst _ (.cons not_mem_nil trivial rfl (.cons hnew trivial rfl
    (.cons trivial trivial rfl (.cons trivial ?_ rfl (.cons trivial trivial rfl (.cons trivial ?_ rfl
    (.cons trivial ?_ rfl trivial)))))))
  all_goals
    rintro r ⟨⟩ -
    decide

/-- A rejected route for the default net is dumped and deleted.  The policy accepts the routes
with the number 1. -/
def deletedAtCursor : List (Op 32 (IPNet 32 × Nat)) :=
  [.connect (some fun x => x.2 == 1), .add (IPNet.any 32, 0), .timer 0 [], .delete (IPNet.any 32)]

/-- **What goes wrong otherwise.**  After the deletion an accepted route comes for the same net:
it is taken for one the dump will meet, the dump goes on behind it and ends, and the output
does not hold it.  Without that route the next step of the dump fails an assertion.  And a
dump that meets the net of all ones starts again, and sends the same route twice. -/
theorem cursor_lost :
    ((run Prod.fst empty (deletedAtCursor ++ [.add (IPNet.any 32, 1), .timer 0 []])).toOption.map
        fun T => T.outputs.map fun r => (r.dumping, r.due T.ipRouteTable (IPNet.any 32)))
      = some [(false, some (IPNet.any 32, 1))] ∧
    ((run Prod.fst empty (deletedAtCursor ++ [.add (IPNet.any 32, 1), .timer 0 []])).toOption.map
        fun T => T.outputs.map fun r => (replay Prod.fst r.changes).map (· (IPNet.any 32)))
      = some [some none] ∧
    (run Prod.fst empty (deletedAtCursor ++ [.timer 0 []])).isOk = false ∧
    ((run Prod.fst empty [.connect none, .add (noLastNet 32, 1), .timer 0 [],
        .timer 0 []]).toOption.map fun T => T.outputs.map fun r => (replay Prod.fst r.changes).isSome)
      = some [false] := by
  refine ⟨?_, ?_, ?_, ?_⟩
  · decide +kernel
  · decide +kernel
  · decide +kernel
  · decide +kernel

/-- The cursor of a dump stands before all nets, with nothing sent that holds, or on a net of the
index. -/
def CursorValid (net : ρ → IPNet w) (T : RedistTable w ρ) (r : Redistributor w ρ) [DecidableEq ρ] :
    Prop :=
  (r.lastNet = noLastNet w ∧ replay net r.changes = some fun _ => none) ∨ r.lastNet ∈ T.rtIndex

/-- In any run without additions, a dump that starts now takes one step for each route that is not
deleted before it comes there, and one for the end. -/
def DumpsAll (net : ρ → IPNet w) (T : RedistTable w ρ) : Prop :=
  ∀ policy T₁ ops, T.connect policy = .ok T₁ → RunKeeps net T₁ ops → (∀ x, .add x ∉ ops) →
    ∃ T' r, run net T₁ ops = .ok T' ∧ T'.outputs[T.outputs.length]? = some r ∧
      tally net (dumps T.outputs.length) T₁ ops + tally net (misses T.outputs.length) T₁ ops +
        r.left T'.rtIndex = T.rtIndex.length + 1

/-- **The cursor of a dump is valid and only moves forward**, in a run that keeps the cursors. -/
theorem dump_moves_forward [DecidableEq ρ] (net : ρ → IPNet w) (ops : List (Op w ρ))
    (hrun : RunKeeps net empty ops) :
    ∃ T, run net empty ops = .ok T ∧ (∀ r ∈ T.outputs, r.dumping = true → T.CursorValid net r) ∧
      T.DumpsAll net := by
  obtain ⟨T, hok, h, -⟩ := run_inv ops empty_inv hrun
  refine ⟨T, hok, fun r hr hd => ?_, fun policy T₁ more hT₁ hmore hno => ?_⟩
  · by_cases hlast : r.lastNet = noLastNet w
    · refine .inl ⟨hlast, (h.outputs r hr).told.trans (congrArg some (funext fun n => ?_))⟩
      simp [Redistributor.due, Redistributor.not_reached hd hlast]
    · exact .inr ((h.outputs r hr).cursor hd hlast)
  · obtain ⟨T₂, hstep, h₁, -⟩ := step_inv h (show Legal net T (.connect policy) from trivial)
      trivial
    cases hT₁.symm.trans hstep
    obtain ⟨T', hrun', -, hleft⟩ := run_inv more h₁ hmore
    cases hT₁
    obtain ⟨r, hr, hl⟩ := hleft hno T.outputs.length _ List.getElem?_concat_length
    refine ⟨T', r, hrun', hr, hl.symm.trans (congrArg (· + 1) ?_)⟩
    exact countP_eq_length.mpr fun n _ => by simp [Redistributor.not_reached]

/-- A rejected route and an accepted one are dumped. -/
theorem dump_moves_forward_rejected :
    ∃ T, run Prod.fst empty [.add (IPNet.any 32, 0), .add (IPNet.host 1, 1),
        .connect (some fun x => x.2 == 1), .timer 0 [], .timer 0 []] = .ok T ∧
      (∀ r ∈ T.outputs, r.dumping = true → T.CursorValid Prod.fst r) ∧ T.DumpsAll Prod.fst := by
  have hnew : IPNet.host 1 ∉ [IPNet.any 32] := by decide
  refine dump_moves_forward Prod.fst _ (.cons not_mem_nil trivial rfl (.cons hnew trivial rfl
    (.cons trivial trivial rfl (.cons trivial ?_ rfl (.cons trivial ?_ rfl trivial)))))
  all_goals
    rintro r ⟨⟩ -
    decide

/-- **What goes wrong otherwise.**  After the deletion of a rejected route the cursor is on no net of
the index, and a dump of the one route for the net of all ones is not over after three steps. -/
theorem cursor_off_index :
    ((run Prod.fst empty deletedAtCursor).toOption.map fun T => T.outputs.map fun r =>
        (r.dumping, decide (r.lastNet = noLastNet 32), decide (r.lastNet ∈ T.rtIndex)))
      = some [(true, false, false)] ∧
    ((run Prod.fst empty [.add (noLastNet 32, 1), .connect none, .timer 0 [], .timer 0 [],
        .timer 0 []]).toOption.map fun T => T.outputs.map fun r => r.dumping) = some [true] := by
  refine ⟨?_, ?_⟩
  · decide +kernel
  · decide +kernel

end RedistTable

end Xorp

/-
Group membership records of IGMPv3 and MLDv2.

A router keeps one record for a multicast group on an interface (`mld6igmp_group_record.cc`): the
filter mode, the sources to forward and the sources not to forward.  A report of a host replaces
the two sets by set algebra on records that carry their timers with them, and tells routing what
changed.  Only whether a timer runs is modelled, so a query, which lowers a running timer, leaves
the record as it is.  What the record is for is the table of RFC 3376, `Filter`: every reachable
record follows it.
-/
import Mathlib.Data.Finset.Sort
import Xorp.Lib.Outcome

namespace Xorp.Mld6igmp

open Finset

open Linked (Fault)

variable {S : Type} [LinearOrder S]

/-- `Mld6igmpSourceSet`: source records by address, and those whose source timer runs. -/
@[ext] structure SourceSet (S : Type) [LinearOrder S] where
  sources : Finset S := ∅
  running : Finset S := ∅
  running_sub : running ⊆ sources := by simp

namespace SourceSet

/-- `operator+` with addresses: a new record has no timer. -/
@[simps] def plus (x : SourceSet S) (a : Finset S) : SourceSet S where
  sources := x.sources ∪ a
  running := x.running
  running_sub := fun _ h => Finset.mem_union_left _ (x.running_sub h)

/-- `operator+` of two sets; the records of the first come first. -/
@[simps] def union (x y : SourceSet S) : SourceSet S where
  sources := x.sources ∪ y.sources
  running := x.running ∪ y.running \ x.sources
  running_sub := Finset.union_subset_union x.running_sub
    (Finset.sdiff_subset.trans y.running_sub)

/-- `operator*`. -/
@[simps] def inter (x : SourceSet S) (a : Finset S) : SourceSet S where
  sources := x.sources ∩ a
  running := x.running ∩ a
  running_sub := Finset.inter_subset_inter_right x.running_sub

/-- `operator-`. -/
@[simps] def minus (x : SourceSet S) (a : Finset S) : SourceSet S where
  sources := x.sources \ a
  running := x.running \ a
  running_sub := Finset.sdiff_subset_sdiff x.running_sub (Finset.Subset.refl a)

@[simps] def setSourceTimer (x : SourceSet S) (a : Finset S) : SourceSet S where
  sources := x.sources
  running := x.running ∪ x.sources ∩ a
  running_sub := Finset.union_subset x.running_sub Finset.inter_subset_left

@[simps] def cancelSourceTimer (x : SourceSet S) : SourceSet S where
  sources := x.sources

end SourceSet

inductive Action
  | join
  | prune
deriving DecidableEq

/-- What goes to the hosts: `Q(G)` and `Q(G, A)`. -/
inductive Query (S : Type)
  | group
  | sources (a : Finset S)

@[ext] structure GroupRecord (S : Type) [LinearOrder S] where
  isIncludeMode : Bool := true
  doForward : SourceSet S := {}
  dontForward : SourceSet S := {}
  groupTimer : Bool := false

/-- The kinds of report. -/
inductive Report
  | modeIsInclude
  | modeIsExclude
  | changeToIncludeMode
  | changeToExcludeMode
  | allowNewSources
  | blockOldSources

/-- `join_prune_notify_routing` in a loop over a set of addresses. -/
def notifyEach (a : Action) (s : Finset S) : List (S × Action) :=
  s.sort.map (·, a)

namespace GroupRecord

variable [Zero S]

def calculateForwardingChanges (old new : GroupRecord S) : Except Fault (List (S × Action)) :=
  let oldDo := old.doForward.sources
  let oldDont := old.dontForward.sources
  let newDo := new.doForward.sources
  let newDont := new.dontForward.sources
  if old.isIncludeMode then
    if new.isIncludeMode then
      if oldDont ≠ ∅ ∨ newDont ≠ ∅ then .error .assertion
      else .ok (notifyEach .join (newDo \ oldDo) ++ notifyEach .prune (oldDo \ newDo))
    else if oldDont ≠ ∅ then .error .assertion
    else .ok (notifyEach .prune (oldDo \ newDo) ++ (0, .join) ::
      (notifyEach .join (newDo \ oldDo) ++ notifyEach .prune (newDont \ oldDont)))
  else if new.isIncludeMode then
    if newDont ≠ ∅ then .error .assertion
    else .ok (notifyEach .join (oldDont \ newDont) ++ (0, .prune) ::
      notifyEach .join (newDo \ oldDo))
  else .ok (notifyEach .join (newDo \ oldDo) ++ (notifyEach .prune (oldDo \ newDo) ++
    (notifyEach .join (oldDont \ newDont) ++ notifyEach .prune (newDont \ oldDont))))

variable (r : GroupRecord S) (a : Finset S)

/-- The record after IS_IN, ALLOW and TO_IN, which differ in the queries. -/
def addSources : GroupRecord S :=
  if r.isIncludeMode then { r with doForward := (r.doForward.plus a).setSourceTimer a }
  else
    -- first transfer (Y * A) from (Y) to (X)
    let x := r.doForward.union (r.dontForward.inter a)
    { r with
      doForward := (x.plus a).setSourceTimer a
      dontForward := r.dontForward.minus a }

/-- The record after IS_EX and TO_EX, which differ in the queries and in the time of `A - X - Y`. -/
def excludeSources : GroupRecord S :=
  if r.isIncludeMode then
    { isIncludeMode := false
      doForward := r.doForward.inter a
      dontForward := ((r.dontForward.plus a).minus r.doForward.sources).cancelSourceTimer
      groupTimer := true }
  else
    -- (X * A) keeps the timers; the sets share records, so `A - X - Y` sets them in place
    let x := ((r.doForward.inter a).plus a).minus r.dontForward.sources
    { r with
      doForward := x.setSourceTimer (x.minus r.doForward.sources).sources
      dontForward := r.dontForward.inter a
      groupTimer := true }

def blockSources : GroupRecord S :=
  if r.isIncludeMode then r
  else
    let x := r.doForward.union ((SourceSet.plus {} a).minus r.dontForward.sources)
    let new := (x.minus r.doForward.sources).minus r.dontForward.sources
    { r with doForward := x.setSourceTimer new.sources }

/-- The end of each report: what is sent, and what changed for routing. -/
def reported (r r' : GroupRecord S) (queries : List (Query S)) :
    Except Fault (GroupRecord S × List (Query S) × List (S × Action)) := do
  return (r', queries, ← calculateForwardingChanges r r')

def processModeIsInclude :=
  r.reported (r.addSources a) []

def processModeIsExclude :=
  r.reported (r.excludeSources a) []

def processChangeToIncludeMode :=
  r.reported (r.addSources a)
    (.sources (r.doForward.minus a).sources :: if r.isIncludeMode then [] else [.group])

def processChangeToExcludeMode :=
  r.reported (r.excludeSources a) [.sources (r.excludeSources a).doForward.sources]

def processAllowNewSources :=
  r.reported (r.addSources a) []

def processBlockOldSources :=
  r.reported (r.blockSources a)
    [.sources (if r.isIncludeMode then r.doForward.sources ∩ a else a \ r.dontForward.sources)]

def process : Report → Finset S →
    Except Fault (GroupRecord S × List (Query S) × List (S × Action))
  | .modeIsInclude => r.processModeIsInclude
  | .modeIsExclude => r.processModeIsExclude
  | .changeToIncludeMode => r.processChangeToIncludeMode
  | .changeToExcludeMode => r.processChangeToExcludeMode
  | .allowNewSources => r.processAllowNewSources
  | .blockOldSources => r.processBlockOldSources

def isUnused : Except Fault Bool :=
  if r.isIncludeMode then
    if r.doForward.sources ≠ ∅ then .ok false
    else if r.dontForward.sources ≠ ∅ then .error .assertion
    else .ok true
  else if r.groupTimer then .ok false
  else if r.doForward.sources ≠ ∅ ∨ r.dontForward.sources ≠ ∅ then .error .assertion
  else .ok true

/-- The record is gone where there is none in the result. -/
def sourceExpired (s : S) :
    Except Fault (Option (GroupRecord S) × List (S × Action)) :=
  let x := r.doForward.minus {s}
  if s ∉ r.doForward.sources then .error .assertion
  else if r.isIncludeMode then
    if x.sources ≠ ∅ then .ok (some { r with doForward := x }, [(s, .prune)])
    else if r.dontForward.sources ≠ ∅ then .error .assertion
    else .ok (none, [(s, .prune)])
  else
    -- the first PRUNE takes the JOIN back, the second one excludes the source
    .ok (some { r with doForward := x, dontForward := r.dontForward.plus {s} },
      [(s, .prune), (s, .prune)])

def groupTimerTimeout : Option (GroupRecord S) × List (S × Action) :=
  if r.isIncludeMode then (some { r with groupTimer := false }, [])
  else
    (if r.doForward.sources ≠ ∅ then
        some { r with isIncludeMode := true, dontForward := {}, groupTimer := false }
      else none,
      notifyEach .join r.dontForward.sources ++ [(0, .prune)])

end GroupRecord

/-- A report for the group, or one of its timers that runs out. -/
inductive Op (S : Type)
  | report (k : Report) (a : Finset S)
  | sourceTimer (s : S)
  | groupTimer

/-- What happens to the group in `Mld6igmpGroupSet`.  It need not have a record; then a report makes
one, and no timer runs. -/
def step [Zero S] (g : Option (GroupRecord S)) :
    Op S → Except Fault (Option (GroupRecord S) × List (S × Action))
  | .report k a => do
      let (r, _, sent) ← (g.getD {}).process k a
      return (if ← r.isUnused then none else some r, sent)
  | .sourceTimer s =>
      if s ∈ (g.getD {}).doForward.running ∪ (g.getD {}).dontForward.running then
        (g.getD {}).sourceExpired s
      else .ok (g, [])
  | .groupTimer => .ok (if (g.getD {}).groupTimer then (g.getD {}).groupTimerTimeout else (g, []))

/-- A history of the group, and all that routing was told. -/
def run [Zero S] (ops : List (Op S)) :
    Except Fault (Option (GroupRecord S) × List (S × Action)) :=
  ops.foldlM (fun st op => do
    let (g, more) ← step st.1 op
    return (g, st.2 ++ more)) (none, [])

/-! ### The protocol's table -/

/-- The state of the protocol: INCLUDE (A), or EXCLUDE (X, Y). -/
inductive Filter (S : Type)
  | incl (a : Finset S)
  | excl (x y : Finset S)

namespace Filter

def add (b : Finset S) : Filter S → Filter S
  | incl a => incl (a ∪ b)
  | excl x y => excl (x ∪ b) (y \ b)

def exclude (b : Finset S) : Filter S → Filter S
  | incl a => excl (a ∩ b) (b \ a)
  | excl _ y => excl (b \ y) (y ∩ b)

def block (b : Finset S) : Filter S → Filter S
  | incl a => incl a
  | excl x y => excl (x ∪ b \ y) y

def report : Report → Finset S → Filter S → Filter S
  | .modeIsInclude | .allowNewSources | .changeToIncludeMode => add
  | .modeIsExclude | .changeToExcludeMode => exclude
  | .blockOldSources => block

def sourceExpired (s : S) : Filter S → Filter S
  | incl a => incl (a.erase s)
  | excl x y => excl (x.erase s) (insert s y)

def groupExpired : Filter S → Filter S
  | incl a => incl a
  | excl x _ => incl x

def step : Op S → Filter S → Filter S
  | .report k a => report k a
  | .sourceTimer s => sourceExpired s
  | .groupTimer => groupExpired

end Filter

/-- A report may come at any time; a timer has to run. -/
def Op.Enabled (r : GroupRecord S) : Op S → Prop
  | .report _ _ => True
  | .sourceTimer s => s ∈ r.doForward.running ∪ r.dontForward.running
  | .groupTimer => r.groupTimer

/-- The state a record stands for. -/
def GroupRecord.filter (r : GroupRecord S) : Filter S :=
  if r.isIncludeMode then .incl r.doForward.sources
  else .excl r.doForward.sources r.dontForward.sources

/-- What holds of every record between two events. -/
structure GroupRecord.Inv (r : GroupRecord S) : Prop where
  disjoint : Disjoint r.doForward.sources r.dontForward.sources
  dont_empty : r.isIncludeMode → r.dontForward.sources = ∅
  do_running : r.doForward.running = r.doForward.sources
  dont_running : r.dontForward.running = ∅
  group_timer : r.groupTimer ↔ ¬ r.isIncludeMode

namespace Filter

/-- The record of a state.  The timers that run are those of the sources to forward and, in EXCLUDE
mode, the timer of the group. -/
def record : Filter S → GroupRecord S
  | incl a => { doForward := ⟨a, a, Finset.Subset.refl a⟩ }
  | excl x y =>
      { isIncludeMode := false
        doForward := ⟨x, x, Finset.Subset.refl x⟩
        dontForward := { sources := y }
        groupTimer := true }

/-- No source is in both sets. -/
def Apart : Filter S → Prop
  | incl _ => True
  | excl x y => Disjoint x y

/-- What one event can do: what routing is told, and the state it leads to. -/
inductive Event [Zero S] : Filter S → Op S → List (S × Action) → Filter S → Prop
  | report {f k a sent} :
      GroupRecord.calculateForwardingChanges f.record (f.report k a).record = .ok sent →
        Event f (.report k a) sent (f.report k a)
  | inclSource {a s} : s ∈ a → Event (incl a) (.sourceTimer s) [(s, .prune)] (incl (a.erase s))
  | exclSource {x y s} : s ∈ x → Event (excl x y) (.sourceTimer s) [(s, .prune), (s, .prune)]
      (excl (x.erase s) (insert s y))
  | group {x y} : Event (excl x y) .groupTimer (notifyEach .join y ++ [(0, .prune)]) (incl x)
  | idle {f op} : ¬ op.Enabled f.record → Event f op [] f

variable {f f' : Filter S} {op : Op S} {s : S}

theorem filter_record : f.record.filter = f := by
  cases f <;> rfl

theorem record_inv (h : f.Apart) : f.record.Inv := by
  cases f with
  | incl a => exact ⟨disjoint_empty_right a, fun _ => rfl, rfl, rfl, by simp [record]⟩
  | excl x y => exact ⟨h, by simp [record], rfl, rfl, by simp [record]⟩

/-! ### The handlers on the record of a state -/

section
variable (f : Filter S) (a : Finset S)

theorem addSources_record : f.record.addSources a = (f.add a).record := by
  cases f <;> ext <;> simp [record, add, GroupRecord.addSources] <;> grind

theorem excludeSources_record : f.record.excludeSources a = (f.exclude a).record := by
  cases f <;> ext <;> simp [record, exclude, GroupRecord.excludeSources]
  grind

theorem blockSources_record : f.record.blockSources a = (f.block a).record := by
  cases f <;> ext <;> simp [record, block, GroupRecord.blockSources]
  grind

end

/-- A record that goes is the one a report would make. -/
theorem isUnused_record (f : Filter S) : ∃ b : Bool, f.record.isUnused = .ok b ∧
    (if b then none else some f.record).getD {} = f.record := by
  cases f with
  | incl a =>
    by_cases ha : a = ∅
    · subst ha
      exact ⟨true, rfl, rfl⟩
    · exact ⟨false, by simp [GroupRecord.isUnused, record, ha], rfl⟩
  | excl x y => exact ⟨false, rfl, rfl⟩

theorem sourceExpired_incl {a : Finset S} (hs : s ∈ a) : ∃ g,
    (incl a).record.sourceExpired s = .ok (g, [(s, .prune)]) ∧
      g.getD {} = (incl (a.erase s)).record := by
  by_cases ha : a \ {s} = ∅
  · refine ⟨none, by simp [GroupRecord.sourceExpired, record, hs, ha], ?_⟩
    rw [erase_eq, ha]
    rfl
  · refine ⟨some (incl (a \ {s})).record, ?_, by rw [erase_eq]; rfl⟩
    simp [GroupRecord.sourceExpired, record, hs, ha]
    rfl

theorem sourceExpired_excl {x y : Finset S} (hs : s ∈ x) : (excl x y).record.sourceExpired s =
      .ok (some (excl (x.erase s) (insert s y)).record, [(s, .prune), (s, .prune)]) := by
  simp [GroupRecord.sourceExpired, record, hs]
  constructor <;> ext <;> simp <;> grind

variable [Zero S] {sent : List (S × Action)}

theorem changes_record (f f' : Filter S) :
    ∃ sent, GroupRecord.calculateForwardingChanges f.record f'.record = .ok sent := by
  cases f <;> cases f' <;> simp [GroupRecord.calculateForwardingChanges, record]

theorem process_record (f : Filter S) (k : Report) (a : Finset S) : ∃ queries sent,
    f.record.process k a = .ok ((f.report k a).record, queries, sent) ∧
      GroupRecord.calculateForwardingChanges f.record (f.report k a).record = .ok sent := by
  have hreported : ∀ r', r' = (f.report k a).record → ∀ queries, ∃ queries' sent,
      f.record.reported r' queries = .ok ((f.report k a).record, queries', sent) ∧
        GroupRecord.calculateForwardingChanges f.record (f.report k a).record = .ok sent := by
    rintro _ rfl queries
    obtain ⟨sent, hsent⟩ := changes_record f (f.report k a)
    exact ⟨queries, sent, by rw [GroupRecord.reported, hsent]; rfl, hsent⟩
  cases k with
  | modeIsInclude | allowNewSources | changeToIncludeMode =>
    exact hreported _ (addSources_record f a) _
  | modeIsExclude | changeToExcludeMode => exact hreported _ (excludeSources_record f a) _
  | blockOldSources => exact hreported _ (blockSources_record f a) _

theorem Event.eq_step (h : Event f op sent f') (hop : op.Enabled f.record) : f' = f.step op := by
  cases h with
  | report | inclSource | exclSource | group => rfl
  | idle hidle => contradiction

theorem Event.apart (h : Event f op sent f') (hf : f.Apart) : f'.Apart := by
  cases h with
  | @report _ k a =>
    cases k <;> cases f <;>
      simp_all [Filter.report, add, exclude, block, Apart, disjoint_left] <;> grind
  | inclSource | group => trivial
  | exclSource hs => simp_all [Apart, disjoint_left]
  | idle => exact hf

end Filter

variable [Zero S]

theorem step_cases {g : Option (GroupRecord S)} {f : Filter S} (hg : g.getD {} = f.record)
    (op : Op S) : ∃ g' sent f', step g op = .ok (g', sent) ∧ g'.getD {} = f'.record ∧
      f.Event op sent f' := by
  cases op with
  | report k a =>
    obtain ⟨queries, sent, hp, hc⟩ := f.process_record k a
    obtain ⟨b, hb, hrec⟩ := (f.report k a).isUnused_record
    refine ⟨_, sent, f.report k a, ?_, hrec, .report hc⟩
    rw [step, hg, hp]
    change (do return (if ← (f.report k a).record.isUnused then none else some _, sent)) = _
    rw [hb]
    rfl
  | sourceTimer s =>
    by_cases hs : s ∈ f.record.doForward.running ∪ f.record.dontForward.running
    · rw [step, hg, if_pos hs]
      cases f with
      | incl a =>
        have hmem : s ∈ a := by simpa [Filter.record] using hs
        obtain ⟨g', hg', hrec⟩ := Filter.sourceExpired_incl hmem
        exact ⟨g', _, _, hg', hrec, .inclSource hmem⟩
      | excl x y =>
        have hmem : s ∈ x := by simpa [Filter.record] using hs
        exact ⟨_, _, _, Filter.sourceExpired_excl hmem, rfl, .exclSource hmem⟩
    · exact ⟨g, [], f, by rw [step, hg, if_neg hs], hg, .idle hs⟩
  | groupTimer =>
    cases f with
    | incl a =>
      refine ⟨g, [], _, by rw [step, hg]; rfl, hg, .idle ?_⟩
      simp [Op.Enabled, Filter.record]
    | excl x y =>
      refine ⟨_, _, _, by rw [step, hg]; rfl, ?_, .group⟩
      by_cases hx : x = ∅ <;> simp [Filter.record, hx]

/-- What an event keeps, every history keeps. -/
theorem run_induction {P : Option (GroupRecord S) → List (S × Action) → Prop} (h0 : P none [])
    {ops : List (Op S)} (hstep : ∀ g sent, ∀ op ∈ ops, P g sent →
      ∃ g' more, step g op = .ok (g', more) ∧ P g' (sent ++ more)) :
    ∃ g sent, run ops = .ok (g, sent) ∧ P g sent := by
  unfold run
  generalize none = g, [] = sent at h0
  induction ops generalizing g sent with
  | nil => exact ⟨g, sent, rfl, h0⟩
  | cons op ops ih =>
    obtain ⟨g', more, hg', hP⟩ := hstep g sent op List.mem_cons_self h0
    obtain ⟨g'', sent', hrun, hP'⟩ := ih (fun g sent o ho => hstep g sent o
      (List.mem_cons_of_mem op ho)) g' (sent ++ more) hP
    refine ⟨g'', sent', ?_, hP'⟩
    simp only [List.foldlM_cons, hg']
    exact hrun

/-- No history fails an assertion, and the record it leads to follows the table: a report, and a
timer that runs, take it to the state the protocol names. -/
theorem record_follows_table (ops : List (Op S)) :
    ∃ g sent, run ops = .ok (g, sent) ∧ (g.getD {}).Inv ∧
      ∀ op, ∃ g' more, step g op = .ok (g', more) ∧
        (op.Enabled (g.getD {}) → (g'.getD {}).filter = (g.getD {}).filter.step op) := by
  have hP : ∃ g sent, run ops = .ok (g, sent) ∧ ∃ f : Filter S, f.Apart ∧ g.getD {} = f.record := by
    refine run_induction ⟨.incl ∅, trivial, rfl⟩ ?_
    rintro g sent op - ⟨f, hf, hg⟩
    obtain ⟨g', more, f', hstep, hg', hev⟩ := step_cases hg op
    exact ⟨g', more, hstep, f', hev.apart hf, hg'⟩
  obtain ⟨g, sent, hrun, f, hf, hg⟩ := hP
  refine ⟨g, sent, hrun, hg ▸ Filter.record_inv hf, fun op => ?_⟩
  obtain ⟨g', more, f', hstep, hg', hev⟩ := step_cases hg op
  refine ⟨g', more, hstep, fun hop => ?_⟩
  rw [hg, hg', Filter.filter_record, Filter.filter_record]
  exact hev.eq_step (hg ▸ hop)

end Xorp.Mld6igmp

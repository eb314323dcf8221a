/-
What routing makes of the notifications.

Routing hears of a group as a JOIN or a PRUNE for a source, and for the zero address where the
whole group is meant (`calculate_forwarding_changes` and the two timers).  Replayed for one address
at a time, they reproduce the record: each is one that routing expects, and together they say where
the source is.  The zero address is also an address that a report may list.
-/
import Xorp.Mld6igmp.GroupRecord

namespace Xorp.Mld6igmp

open GroupRecord Finset

variable {S : Type} [LinearOrder S]

/-- The notifications for one address. -/
def told (s : S) (sent : List (S × Action)) : List Action := (sent.filter (·.1 = s)).map Prod.snd

@[simp] theorem told_append (s : S) (l l' : List (S × Action)) :
    told s (l ++ l') = told s l ++ told s l' := by
  simp [told]

@[simp] theorem told_nil (s : S) : told s [] = [] := rfl

@[simp] theorem told_cons (s t : S) (a : Action) (l : List (S × Action)) :
    told s ((t, a) :: l) = if s = t then a :: told s l else told s l := by
  by_cases h : s = t
  · simp [told, h]
  · simp [told, h, Ne.symm h]

@[simp] theorem told_notifyEach (s : S) (a : Action) (x : Finset S) :
    told s (notifyEach a x) = if s ∈ x then [a] else [] := by
  have hcount : x.sort.count s = if s ∈ x then 1 else 0 := by
    rw [(x.sort_nodup _).count]
    simp
  have hfilter : x.sort.filter (· = s) = if s ∈ x then [s] else [] := by
    rw [List.filter_eq, hcount]
    split <;> rfl
  rw [told, notifyEach, List.filter_map]
  change ((x.sort.filter (· = s)).map (·, a)).map Prod.snd = _
  rw [hfilter]
  split <;> rfl

variable [Zero S]

/-- What routing holds of a source, or of the group for the zero address. -/
inductive Standing
  | none
  | join
  | prune

/-- One more notification; nothing if it is ill formed. -/
def Standing.notify (zero : Bool) : Standing → Action → Option Standing
  | .none, .join => some .join
  | .join, .prune | .prune, .join => some .none
  -- the group is not left before it is joined
  | .none, .prune => if zero then .none else some .prune
  | .join, .join | .prune, .prune => .none

def standing (s : S) (sent : List (S × Action)) : Option Standing :=
  (told s sent).foldlM (Standing.notify (s = 0)) .none

namespace Filter

def standing (s : S) : Filter S → Standing
  | incl a => if s ∈ a then .join else .none
  | excl x y => if s = 0 ∨ s ∈ x then .join else if s ∈ y then .prune else .none

/-- The zero address is none of the sources. -/
def NoZero : Filter S → Prop
  | incl a => 0 ∉ a
  | excl x y => 0 ∉ x ∧ 0 ∉ y

end Filter

def Op.NoZero : Op S → Prop
  | .report _ a => 0 ∉ a
  | _ => True

namespace Filter

variable {f f' : Filter S} {sent : List (S × Action)}

/-- What matters of a source is where it was and where it is. -/
theorem standing_changes (hf : f.Apart) (hf' : f'.Apart) (hz : f.NoZero) (hz' : f'.NoZero)
    (hmode : ∀ a, f' = incl a → ∃ b, f = incl b)
    (hc : calculateForwardingChanges f.record f'.record = .ok sent) (s : S) :
    (told s sent).foldlM (Standing.notify (s = 0)) (f.standing s) = some (f'.standing s) := by
  unfold calculateForwardingChanges at hc
  cases f with
  | incl a =>
    cases f' with
    | incl b =>
      simp [record] at hc
      subst hc
      by_cases hold : s ∈ a <;> by_cases hnew : s ∈ b <;>
        simp [standing, Standing.notify, hold, hnew]
    | excl x y =>
      simp [record] at hc
      subst hc
      by_cases h0 : s = 0
      · subst h0
        simp [standing, Standing.notify, show 0 ∉ a from hz, hz'.1, hz'.2]
      · have hxy : s ∈ x → s ∉ y := fun hx => disjoint_left.mp hf' hx
        by_cases hold : s ∈ a <;> by_cases hjoin : s ∈ x <;> by_cases hprune : s ∈ y <;>
          simp_all [standing, Standing.notify]
  | excl x y =>
    cases f' with
    | incl b =>
      obtain ⟨b', hb'⟩ := hmode b rfl
      cases hb'
    | excl x' y' =>
      simp [record] at hc
      subst hc
      by_cases h0 : s = 0
      · subst h0
        simp [standing, hz.1, hz.2, hz'.1, hz'.2]
      · have hxy : s ∈ x → s ∉ y := fun hx => disjoint_left.mp hf hx
        have hxy' : s ∈ x' → s ∉ y' := fun hx => disjoint_left.mp hf' hx
        by_cases hold : s ∈ x <;> by_cases hjoin : s ∈ x' <;> by_cases holdp : s ∈ y <;>
          by_cases hprune : s ∈ y' <;> simp_all [standing, Standing.notify]

theorem NoZero.report {k : Report} {a : Finset S} (hf : f.NoZero) (ha : 0 ∉ a) :
    (f.report k a).NoZero := by
  cases k <;> cases f <;> simp_all [Filter.report, add, exclude, block, NoZero]

theorem Event.standing {op : Op S} (hev : Event f op sent f') (hf : f.Apart) (hz : f.NoZero)
    (hop : op.NoZero) : f'.NoZero ∧ ∀ s,
      (told s sent).foldlM (Standing.notify (s = 0)) (f.standing s) = some (f'.standing s) := by
  have hf' := hev.apart hf
  cases hev with
  | @report _ k a _ hc =>
    have hz' : (f.report k a).NoZero := hz.report hop
    refine ⟨hz', standing_changes hf hf' hz hz' ?_ hc⟩
    -- no report leads to INCLUDE mode
    cases f <;> cases k <;> simp [Filter.report, add, exclude, block]
  | @inclSource a s hs =>
    refine ⟨fun h => hz (mem_of_mem_erase h), fun t => ?_⟩
    by_cases hts : t = s <;> simp_all [Filter.standing, Standing.notify]
  | @exclSource x y s hs =>
    have hs0 : 0 ≠ s := fun h => hz.1 (h ▸ hs)
    refine ⟨by simp_all [NoZero], fun t => ?_⟩
    by_cases hts : t = s <;>
      simp_all [Filter.standing, Standing.notify, Apart, disjoint_left, hs0.symm]
  | @group x y =>
    refine ⟨hz.1, fun s => ?_⟩
    by_cases h0 : s = 0 <;> by_cases s ∈ x <;> by_cases s ∈ y <;>
      simp_all [Filter.standing, Standing.notify, NoZero, Apart, disjoint_left]
  | idle => exact ⟨hz, fun s => rfl⟩

end Filter

theorem run_standing {ops : List (Op S)} (hops : ∀ op ∈ ops, op.NoZero) :
    ∃ g sent, run ops = .ok (g, sent) ∧ ∃ f : Filter S, g.getD {} = f.record ∧ f.Apart ∧ f.NoZero ∧
      ∀ s, standing s sent = some (f.standing s) := by
  refine run_induction ⟨.incl ∅, rfl, trivial, notMem_empty 0, fun s => rfl⟩ ?_
  rintro g sent op hop ⟨f, hg, hf, hz, hst⟩
  obtain ⟨g', more, f', hg', hrec, hev⟩ := step_cases hg op
  obtain ⟨hz', htold⟩ := hev.standing hf hz (hops op hop)
  refine ⟨g', more, hg', f', hrec, hev.apart hf, hz', fun s => ?_⟩
  rw [standing, told_append, List.foldlM_append]
  change (standing s sent >>= fun t => (told s more).foldlM _ t) = _
  rw [hst s]
  exact htold s

/-- **Routing holds what the record says**, as long as no report lists the zero address: a source
is joined or pruned as the record forwards it or not, and the group is joined in EXCLUDE mode. -/
theorem notifications_reproduce {ops : List (Op S)} (hops : ∀ op ∈ ops, op.NoZero) :
    ∃ g sent, run ops = .ok (g, sent) ∧ (∀ s ≠ 0, ∃ t, standing s sent = some t ∧
        (t = .join ↔ s ∈ (g.getD {}).doForward.sources) ∧
        (t = .prune ↔ s ∈ (g.getD {}).dontForward.sources)) ∧
      ∃ t, standing 0 sent = some t ∧ (t = .join ↔ ¬ (g.getD {}).isIncludeMode) := by
  obtain ⟨g, sent, hrun, f, hg, hf, hz, hst⟩ := run_standing hops
  refine ⟨g, sent, hrun, fun s hs => ⟨_, hst s, ?_⟩, _, hst 0, ?_⟩
  all_goals rw [hg]
  · cases f with
    | incl a => by_cases hin : s ∈ a <;> simp [Filter.record, Filter.standing, hin]
    | excl x y =>
      have hxy : s ∈ x → s ∉ y := fun hx => disjoint_left.mp hf hx
      by_cases hin : s ∈ x <;> by_cases hout : s ∈ y <;>
        simp_all [Filter.record, Filter.standing]
  · cases f with
    | incl a => simp [Filter.record, Filter.standing, show 0 ∉ a from hz]
    | excl x y => simp [Filter.record, Filter.standing]

/-- An excluded source, and the group timer that runs out. -/
theorem notifications_reproduce_excluded :
    (∀ op ∈ [Op.report .modeIsExclude {(1 : ℕ)}, .groupTimer], op.NoZero) ∧
      ∃ g sent, run [.report .modeIsExclude {(1 : ℕ)}, .groupTimer] = .ok (g, sent) ∧
        (∀ s ≠ 0, ∃ t, standing s sent = some t ∧ (t = .join ↔ s ∈ (g.getD {}).doForward.sources) ∧
          (t = .prune ↔ s ∈ (g.getD {}).dontForward.sources)) ∧
        ∃ t, standing 0 sent = some t ∧ (t = .join ↔ ¬ (g.getD {}).isIncludeMode) :=
  ⟨by simp [Op.NoZero], notifications_reproduce (by simp [Op.NoZero])⟩

/-- A report may list any address.  With the zero address among the sources to include, routing is
told to join the group, and the record is in INCLUDE mode. -/
theorem zero_source_joins_group : ∃ g sent, run [.report .modeIsInclude {(0 : ℕ)}] = .ok (g, sent) ∧
      standing 0 sent = some .join ∧ (g.getD {}).isIncludeMode := by
  refine ⟨some { doForward := (SourceSet.plus {} {0}).setSourceTimer {0} }, [(0, .join)], ?_, rfl, rfl⟩
  simp [run, step, process, processModeIsInclude, reported,
    addSources, calculateForwardingChanges, notifyEach, isUnused]

end Xorp.Mld6igmp

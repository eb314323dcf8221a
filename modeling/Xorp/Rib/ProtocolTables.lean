/-
Which origin table has which administrative distance.

`ExtIntTable` knows the origin tables by their distances: `_all_tables` finds the table of
a distance, and two sets hold the distances of the IGP tables and of the EGP tables.  A
new table is let in only if its distance is not taken.  `change_admin_distance` asks
nothing of the kind, and `set_protocol_admin_distance` calls it with any distance for a
table without routes, so a table can be written over by another.  As long as that does not
happen the three stay together.
-/
import Mathlib.Data.Finset.Basic

namespace Xorp

open Option

namespace Rib

inductive ProtocolType where
  | igp
  | egp
deriving DecidableEq

structure OriginTable where
  protocolType : ProtocolType
  adminDistance : UInt16
  routeCount : Nat
deriving DecidableEq

/-- A table is known by its place in the order of registration. -/
structure ExtIntTable where
  tables : List OriginTable
  /-- `_all_tables` -/
  allTables : UInt16 → Option Nat
  /-- `_igp_ad_set` and `_egp_ad_set` -/
  adSet : ProtocolType → Finset UInt16

namespace ExtIntTable

def empty : ExtIntTable := ⟨[], fun _ => none, fun _ => ∅⟩

/-- `add_protocol_table`, for a table that was just made; `none` is a failed assertion. -/
def addProtocolTable (S : ExtIntTable) (new : OriginTable) : Option ExtIntTable :=
  let t := new.protocolType
  let ad := new.adminDistance
  if ad ∈ S.adSet t then none
  else if S.allTables ad ≠ none then none
  else some {
    tables := S.tables ++ [new]
    allTables := Function.update S.allTables ad (some S.tables.length)
    adSet := Function.update S.adSet t (insert ad (S.adSet t)) }

/-- `change_admin_distance`, with the value it returns.  Every distance is stored in 16
bits. -/
def changeAdminDistance (S : ExtIntTable) (j : Nat) (ad : UInt32) : Option (ExtIntTable × Bool) :=
  match S.tables[j]? with
  | none => none
  | some ot =>
      let t := ot.protocolType
      let old := ot.adminDistance
      if ot.routeCount ≠ 0 then none
      else if old ∉ S.adSet t then some (S, false)
      else if S.allTables old ≠ some j then none
      else some ({
        tables := S.tables.set j { ot with adminDistance := ad.toUInt16 }
        allTables := Function.update (Function.update S.allTables old none) ad.toUInt16 (some j)
        adSet := Function.update S.adSet t (insert ad.toUInt16 ((S.adSet t).erase old)) }, true)

inductive Op where
  | add (new : OriginTable)
  | change (j : Nat) (ad : UInt32)

def step (S : ExtIntTable) : Op → Option ExtIntTable
  | .add new => S.addProtocolTable new
  | .change j ad => (S.changeAdminDistance j ad).map Prod.fst

def run (S : ExtIntTable) : List Op → Option ExtIntTable
  | [] => some S
  | op :: ops => do (← S.step op).run ops

/-- The distance that a table is given is its own or nobody's. -/
def vacant (S : ExtIntTable) : Op → Bool
  | .change j ad => (S.allTables ad.toUInt16).all (· == j)
  | .add _ => true

def vacantRun (S : ExtIntTable) : List Op → Bool
  | [] => true
  | op :: ops => S.vacant op && (S.step op).all fun S' => S'.vacantRun ops

/-- Distances and tables correspond one to one, and the sets are those of the tables. -/
structure Bijective (S : ExtIntTable) : Prop where
  table : ∀ j ot, S.tables[j]? = some ot → S.allTables ot.adminDistance = some j
  entry : ∀ ad j, S.allTables ad = some j → ∃ ot, S.tables[j]? = some ot ∧ ot.adminDistance = ad
  sets : ∀ t ad, ad ∈ S.adSet t ↔
    ∃ (j : Nat) (ot : OriginTable), S.tables[j]? = some ot ∧ ot.protocolType = t ∧
      ot.adminDistance = ad

theorem Bijective.empty : Bijective empty :=
  ⟨by simp [ExtIntTable.empty], by simp [ExtIntTable.empty], by simp [ExtIntTable.empty]⟩

variable {S S' : ExtIntTable} {j : Nat}

section
variable (h : S.Bijective)
include h

/-- A table is put in a place, whatever was there before, at a distance no other has. -/
theorem Bijective.put (j : Nat) (ot : OriginTable)
    (hvac : ∀ i, S.allTables ot.adminDistance = some i → i = j)
    (htables : ∀ i, S'.tables[i]? = if i = j then some ot else S.tables[i]?)
    (hall : ∀ ad, S'.allTables ad = if ad = ot.adminDistance then some j
      else if S.allTables ad = some j then none else S.allTables ad)
    (hset : ∀ t ad, ad ∈ S'.adSet t ↔ (t = ot.protocolType ∧ ad = ot.adminDistance) ∨
      (ad ∈ S.adSet t ∧ S.allTables ad ≠ some j)) : S'.Bijective := by
  refine ⟨fun i o hi => ?_, fun ad i hi => ?_, fun t ad => ?_⟩
  · rw [htables] at hi
    rw [hall]
    split_ifs at hi with hij
    · rw [← some.inj hi, if_pos rfl, hij]
    · have ho := h.table i o hi
      have hne : o.adminDistance ≠ ot.adminDistance := fun heq => hij (hvac i (heq ▸ ho))
      rw [if_neg hne, ho, if_neg (mt some.inj hij)]
  · rw [hall] at hi
    split_ifs at hi with had hj
    · exact ⟨ot, by rw [htables, if_pos (some.inj hi).symm], had.symm⟩
    · have hij : i ≠ j := fun hij => hj (hij ▸ hi)
      rw [htables, if_neg hij]
      exact h.entry ad i hi
  · rw [hset, h.sets]
    constructor
    · rintro (⟨rfl, rfl⟩ | ⟨⟨i, o, hi, rfl, rfl⟩, hne⟩)
      · exact ⟨j, ot, by rw [htables, if_pos rfl], rfl, rfl⟩
      · have hij : i ≠ j := fun hij => hne (hij ▸ h.table i o hi)
        exact ⟨i, o, by rw [htables, if_neg hij, hi], rfl, rfl⟩
    · rintro ⟨i, o, hi, rfl, rfl⟩
      rw [htables] at hi
      split_ifs at hi with hij
      · exact .inl (by simp [some.inj hi])
      · refine .inr ⟨⟨i, o, hi, rfl, rfl⟩, fun heq => hij (some.inj ?_)⟩
        exact (h.table i o hi).symm.trans heq

theorem Bijective.add {new : OriginTable}
    (hadd : S.addProtocolTable new = some S') : S'.Bijective := by
  simp only [addProtocolTable] at hadd
  split_ifs at hadd with hset hfree
  cases hadd
  rw [ne_eq, not_not] at hfree
  have hlast : ∀ ad, S.allTables ad ≠ some S.tables.length := by
    intro ad hj
    obtain ⟨ot, hot, -⟩ := h.entry ad _ hj
    simp at hot
  refine h.put S.tables.length new (by simp [hfree]) (fun i => ?_) (fun ad => ?_) fun t ad => ?_
  · grind
  · simp [Function.update_apply, hlast]
  · grind

theorem Bijective.change {ad : UInt32} {ok : Bool}
    (hvac : S.vacant (.change j ad) = true) (hchange : S.changeAdminDistance j ad = some (S', ok)) :
    S'.Bijective := by
  simp only [changeAdminDistance] at hchange
  split at hchange
  · cases hchange
  rename_i ot hot
  split_ifs at hchange with hcount hset hall
  swap
  · exact (Prod.mk.inj (some.inj hchange)).1 ▸ h
  obtain ⟨rfl, -⟩ := Prod.mk.inj (some.inj hchange)
  have hold := h.table j ot hot
  -- no other distance leads to the table
  have hiff : ∀ d, S.allTables d = some j ↔ d = ot.adminDistance := by
    intro d
    refine ⟨fun hd => ?_, fun hd => hd ▸ hold⟩
    obtain ⟨o, ho, rfl⟩ := h.entry d j hd
    rw [some.inj (ho.symm.trans hot)]
  refine h.put j { ot with adminDistance := ad.toUInt16 } (fun i hi => ?_)
    (fun i => ?_) (fun d => ?_) fun t d => ?_
  · simpa [vacant, hi] using hvac
  · grind
  · simp [Function.update_apply, hiff]
  · have htype : d ∈ S.adSet t → d = ot.adminDistance → t = ot.protocolType := by
      rw [h.sets]
      rintro ⟨i, o, ho, rfl, rfl⟩ hd
      obtain rfl : i = j := some.inj ((h.table i o ho).symm.trans ((hiff _).mpr hd))
      rw [some.inj (ho.symm.trans hot)]
    grind

theorem Bijective.step {op : Op} (hvac : S.vacant op = true)
    (hstep : S.step op = some S') : S'.Bijective := by
  cases op with
  | add new => exact h.add hstep
  | change j ad =>
    obtain ⟨⟨S₁, ok⟩, hchange, rfl⟩ := map_eq_some_iff.mp hstep
    exact h.change hvac hchange

theorem Bijective.run {ops : List Op} (hvac : S.vacantRun ops = true)
    (hrun : S.run ops = some S') : S'.Bijective := by
  induction ops generalizing S with
  | nil => exact some.inj hrun ▸ h
  | cons op ops ih =>
    obtain ⟨S₁, hstep, hrest⟩ := bind_eq_some_iff.mp hrun
    rw [vacantRun, hstep, Bool.and_eq_true] at hvac
    exact ih (h.step hvac.1 hstep) hvac.2 hrest

end

/-- **The bookkeeping stays a bijection** while no table is given another's distance. -/
theorem run_bijective (ops : List Op) {S : ExtIntTable} (hvac : empty.vacantRun ops = true)
    (hrun : empty.run ops = some S) : S.Bijective := Bijective.empty.run hvac hrun

/-- Two tables change places by way of a third distance. -/
theorem run_bijective_swap : ∃ S, empty.run [.add ⟨.igp, 110, 0⟩, .add ⟨.egp, 20, 0⟩,
    .change 0 7, .change 1 110, .change 0 20] = some S ∧ S.Bijective :=
  ⟨_, rfl, run_bijective [.add ⟨.igp, 110, 0⟩, .add ⟨.egp, 20, 0⟩,
    .change 0 7, .change 1 110, .change 0 20] (by decide +kernel) rfl⟩

/-- OSPF is given the distance of RIP, and RIP is lost. -/
theorem table_lost : ∃ S, empty.run [.add ⟨.igp, 120, 0⟩, .add ⟨.igp, 110, 0⟩,
    .change 1 120] = some S ∧ S.tables[0]? = some ⟨.igp, 120, 0⟩ ∧ S.allTables 120 = some 1 ∧
    ¬ S.Bijective :=
  ⟨_, rfl, rfl, rfl, fun h => absurd (h.table 0 _ rfl) (by decide)⟩

end ExtIntTable

end Rib

end Xorp

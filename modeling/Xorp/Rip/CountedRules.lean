/-
The route table with its counts follows the distance-vector rules.

As long as no count comes back to zero, the table with the counts does what the table does that
`RouteRules` is about: an entry is destroyed with its last reference and not before.  So what holds
for the entries is carried along every run, and the rules hold where they hold without the counts.
-/
import Xorp.Rip.Ownership
import Xorp.Rip.RouteRules

namespace Xorp.Rip

open Linked RouteDB

variable {w : Nat} {ω π : Type} {C : Config w ω π}

theorem Config.AcceptsAll.keepsOwner (hC : C.AcceptsAll) : C.KeepsOwner := by
  have hall : ∀ kind r, C.runFilter kind r = (r, true) := hC
  refine ⟨?_, ?_, ?_, ?_⟩ <;> intro kind r <;> rw [hall]
  exact id

namespace Counted

variable [DecidableEq ω] [DecidableEq π] {S S' : Counted w ω π} {c : Call w ω π} {b : Bool}

/-! ### Runs -/

/-- An update that is admitted leaves the entries as it does without the counts. -/
theorem Sound.updateRoute_db (hC : C.KeepsOwner) (h : Sound S) (htag : c.tag ≤ 0xffff)
    (hadm : S.Admits C c) (hupd : S.updateRoute C c = .ok (S', b)) :
    S.db.updateRoute C c = .ok (S'.db, b) := by
  obtain ⟨T, b', o, r, hdb, p⟩ := (updateRoute_spec hC h.owned htag).2 hadm.1
  have hroom := hadm.2
  rw [pushes_eq hdb, ← p.refs_self h.owned] at hroom
  have heq := updateRoute_eq h p hdb
  rw [if_pos hroom, hupd] at heq
  cases heq
  exact hdb

/-! ### The rules -/

/-- There is room in every count for the references that an update makes. -/
def Room (S : Counted w ω π) : Prop := ∀ k, S.db.refs k + 2 < 2 ^ 16

/-- Where there is room, an update that returns without the counts is admitted. -/
theorem Room.admits (hroom : S.Room) (hC : C.KeepsOwner) (h : Sound S) {T : RouteDB w ω π}
    (hdb : S.db.updateRoute C c = .ok (T, b)) : c.tag ≤ 0xffff ∧ S.Admits C c := by
  have htag : c.tag ≤ 0xffff := by
    by_contra hgt
    rw [RouteDB.updateRoute, if_pos (Nat.lt_of_not_le hgt)] at hdb
    cases hdb
  refine ⟨htag, fun hclash => ?_, ?_⟩
  · rw [(updateRoute_spec hC h.owned htag).1 hclash] at hdb
    cases hdb
  · have hlt := hroom (S.db.entryFor c)
    have hnew : S.db.newRefs c.net (pushes C S.db c) ≤ 2 := by
      unfold newRefs
      split_ifs <;> omega
    omega

/-- The table with the counts that belong to it. -/
def counted (T : RouteDB w ω π) : Counted w ω π := ⟨T, fun k => BitVec.ofNat 16 (T.refs k)⟩

omit [DecidableEq ω] [DecidableEq π] in
theorem Sound.eq_counted (h : Sound S) : S = counted S.db := by
  obtain ⟨db, refCnt⟩ := S
  rw [counted, show refCnt = _ from funext h.count]

/-- Such an update goes on with the run. -/
theorem Reach.update (hC : C.AcceptsAll) (h : Reach C (fun S op => S.Fits C op) S) (hroom : S.Room)
    {T : RouteDB w ω π} (hdb : S.db.updateRoute C c = .ok (T, b)) :
    S.updateRoute C c = .ok (counted T, b) ∧ Reach C (fun S op => S.Fits C op) (counted T) := by
  have hkeeps := hC.keepsOwner
  have hsound := h.sound hkeeps fun _ _ hop => hop
  obtain ⟨htag, hadm⟩ := hroom.admits hkeeps hsound hdb
  obtain ⟨S', b', hupd, hS'⟩ := hsound.updateRoute hkeeps htag hadm
  have heq := hsound.updateRoute_db hkeeps htag hadm hupd
  rw [hdb] at heq
  cases heq
  rw [hS'.eq_counted] at hupd
  refine ⟨hupd, h.step (.updateRoute c) htag (fits_updateRoute hadm) ?_⟩
  simp only [Counted.step, hupd]
  rfl

/-- **The route table follows the distance-vector rules** exactly where the tag is one and there is
no entry left over, from the origin of the call, in the way of values that the rules take. -/
theorem update_follows_rules (hC : C.AcceptsAll) (h : Reach C (fun S op => S.Fits C op) S)
    (hroom : S.Room) (c : Call w ω π) (hcost : c.cost ≤ ripInfinity) :
    (∃ S' b, S.updateRoute C c = .ok (S', b) ∧ S.db.Follows c S'.db) ↔
      c.tag ≤ 0xffff ∧ ¬ (S.db.Leftover c ∧ S.db.Takes c) := by
  have hsound := h.sound hC.keepsOwner fun _ _ hop => hop
  rw [← hsound.owned.follows_iff hC hcost]
  constructor
  · rintro ⟨S', b, hupd, hfollows⟩
    obtain ⟨⟨T, b₀⟩, hdb, -⟩ := bind_eq_ok.mp hupd
    have heq := (h.update hC hroom hdb).1
    rw [hupd] at heq
    cases heq
    exact ⟨T, _, hdb, hfollows⟩
  · rintro ⟨T, b, hdb, hfollows⟩
    exact ⟨counted T, b, (h.update hC hroom hdb).1, hfollows⟩

omit [DecidableEq ω] [DecidableEq π] in
theorem room_of_held (h : S.db.held.length + 3 < 2 ^ 16) : S.Room := by
  intro k
  have htable : S.db.tableRefs k ≤ 1 := by
    unfold tableRefs
    split
    · exact Nat.zero_le 1
    · split_ifs <;> omega
  have hcount := S.db.held.count_le_length (a := k)
  rw [refs]
  omega

/-- The states of a run with filters that accept everything. -/
abbrev Runs (S : Counted 8 Nat Unit) : Prop := Reach acceptAll (fun S op => S.Fits acceptAll op) S

/-- A route is announced, and may be announced again. -/
theorem Runs.announce {S : Counted 8 Nat Unit} {T : RouteDB 8 Nat Unit} {b : Bool} (h : Runs S)
    (o cost : Nat) (hheld : S.db.held.length + 3 < 2 ^ 16)
    (hdb : S.db.updateRoute acceptAll (announce o cost) = .ok (T, b)) : Runs (counted T) :=
  (Reach.update (fun _ _ => rfl) h (room_of_held hheld) hdb).2

/-- A route that the queue holds for a reader, of which a cheaper one of another origin takes the
place. -/
theorem update_follows_rules_cheaper : ∃ S : Counted 8 Nat Unit, Runs S ∧ S.db.held = [0, 0] ∧
      ∃ S' b, S.updateRoute acceptAll (announce 2 3) = .ok (S', b) ∧
        S.db.Follows (announce 2 3) S'.db := by
  have h0 : Runs (create (fun _ => 180) fun _ => 120) := .init _ _
  have h1 := h0.step .addReader trivial nofun rfl
  have h2 := Runs.announce h1 1 5 (by decide) rfl
  have h3 := h2.announce 1 4 (by decide) rfl
  refine ⟨_, h3, rfl, (update_follows_rules (fun _ _ => rfl) h3 (room_of_held (by decide))
    (announce 2 3) (by decide)).mpr ⟨by decide, ?_⟩⟩
  rintro ⟨⟨ref, hstore, -⟩, -⟩
  cases hstore

/-- An entry that was deleted and that the update queue still holds comes back with infinite cost
when its origin announces the net again, and when the net has the entry of another origin by then,
the process ends. -/
theorem leftover_loses_update :
    (∃ S : Counted 8 Nat Unit, Runs S ∧ S.db.entry (announce 1 5).net = none ∧
      ∃ S' b, S.updateRoute acceptAll (announce 1 5) = .ok (S', b) ∧
        ¬ S'.db.HasValues (announce 1 5)) ∧
    (∃ S : Counted 8 Nat Unit, Runs S ∧
      (∃ e, S.db.entry (announce 1 3).net = some e ∧ S.db.Better e (announce 1 3)) ∧
      S.updateRoute acceptAll (announce 1 3) = .error .abort) := by
  have h0 : Runs (create (fun _ => 180) fun _ => 120) := .init _ _
  have h1 := h0.step .addReader trivial nofun rfl
  have h2 := Runs.announce h1 1 5 (by decide) rfl
  have h3 := h2.announce 1 16 (by decide) rfl
  have h4 := h3.step (.wait 120000000) trivial nofun rfl
  have h5 := h4.step (.fireTimer 0) ⟨_, _, rfl, rfl, rfl, by decide⟩ nofun rfl
  have h6 := Runs.announce h5 2 7 (by decide) rfl
  refine ⟨⟨_, h5, rfl, _, _, rfl, ?_⟩, ⟨_, h6, ⟨_, rfl, .inl (by decide)⟩, rfl⟩⟩
  rintro ⟨e, he, -, hcost, -⟩
  cases he
  cases hcost

end Counted

end Xorp.Rip

/-
The link-state database of an area.

The LSAs stand in the slots of a vector.  A deleted LSA leaves an invalid one in its slot, and the
slot goes on a list of empty slots, from which the next LSA takes it.  While somebody reads the
database no empty slot below the end may be filled, so that an LSA is put at the end instead, and
the end moves back when the slots before it are invalid.  A slot past the end that was invalidated
is on the list all the same: an LSA put there while the database is open is in a slot that counts
as empty, and is overwritten once the database is closed.
-/
import Xorp.Lib.Heap

namespace Xorp.Ospf

open Linked Function List Option

/-- `Ls_request`: what an LSA is looked up by. -/
structure LsRequest where
  lsType : BitVec 16
  linkStateId : BitVec 32
  advertisingRouter : BitVec 32
deriving DecidableEq

/-- `Lsa::LsaRef`: which object it is, with the fields of its header and the flag that the database
looks at. -/
structure Lsa where
  ref : Nat
  key : LsRequest
  selfOriginating : Bool
deriving DecidableEq

def invalidLsa : Lsa := ⟨0, ⟨0, 0, 0⟩, false⟩

/-- The fields of `AreaRouter` that are the database, and the `_valid` flags of the LSA objects.  The
three counters are of 32 bits; they are taken to be numbers, for less than 2^32 slots and readers. -/
structure Database where
  db : List Lsa
  valid : Nat → Bool
  emptySlots : List Nat
  lastEntry : Nat
  allocatedEntries : Nat
  readers : Nat

namespace Database

/-- A database without an entry.  Every object but `_invalid_lsa` starts valid. -/
def empty : Database := ⟨[], fun ref => ref ≠ 0, [], 0, 0, 0⟩

section
variable (S : Database)

/-- The valid LSA in a slot. -/
def slot (i : Nat) : Option Lsa := S.db[i]?.filter fun l => S.valid l.ref

def matchesAt (k : LsRequest) (i : Nat) : Bool :=
  (S.slot i).any fun l => l.key = k

def findLsa (k : LsRequest) : Option Nat :=
  (List.range S.lastEntry).find? (S.matchesAt k)

def addLsa (l : Lsa) : Except Fault Database :=
  if (S.findLsa l.key).isSome then .error .assertion
  else if ¬ S.valid l.ref then .error .assertion
  else
    match S.readers, S.emptySlots with
    | 0, esi :: rest =>
        if S.db.length ≤ esi then .error .badPointer
        else .ok { S with
          db := S.db.set esi l
          emptySlots := rest
          lastEntry := if S.lastEntry ≤ esi then esi + 1 else S.lastEntry }
    | _, _ =>
        if S.lastEntry < S.allocatedEntries then
          if S.db.length ≤ S.lastEntry then .error .badPointer
          else .ok { S with db := S.db.set S.lastEntry l, lastEntry := S.lastEntry + 1 }
        else .ok { S with
          db := S.db ++ [l]
          allocatedEntries := S.allocatedEntries + 1
          lastEntry := S.lastEntry + 1 }

/-- The loop at the end of `delete_lsa`: the end moves back over invalid slots.  It stops at the
first slot of all, which it leaves in. -/
def trim (S : Database) : Nat → Nat → Nat
  | 0, last => last
  | i + 1, last => if i + 2 = last ∧ S.slot (i + 1) = none then S.trim i (last - 1) else last

def deleteLsa (l : Lsa) (index : Nat) (invalidate : Bool) :
    Except Fault Database :=
  match S.db[index]? with
  | none => .error .badPointer
  | some d =>
      if d.key ≠ l.key then .error .assertion
      else if ¬ S.valid d.ref then .error .assertion
      else
        let T : Database := { S with
          db := S.db.set index invalidLsa
          valid := if invalidate then Function.update S.valid d.ref false else S.valid
          emptySlots := S.emptySlots ++ [index] }
        .ok { T with lastEntry := T.trim index T.lastEntry }

def updateLsa (l : Lsa) (index : Nat) : Except Fault Database :=
  match S.db[index]? with
  | none => .error .badPointer
  | some d =>
      if d.key ≠ l.key then .error .assertion
      else if ¬ S.valid d.ref then .error .assertion
      else if d.selfOriginating then .error .assertion
      else if S.readers = 0 then
        .ok { S with db := S.db.set index l, valid := Function.update S.valid d.ref false }
      else do
        let T ← S.deleteLsa l index true
        T.addLsa l

/-- `open_database`, as far as the database goes. -/
def openDatabase : Database := { S with readers := S.readers + 1 }

def closeDatabase : Except Fault Database :=
  if S.readers = 0 then .error .assertion else .ok { S with readers := S.readers - 1 }

end

/-! ### Slots -/

variable {S T : Database} {l d : Lsa} {k : LsRequest} {i j index : Nat}

theorem slot_eq_some : S.slot i = some d ↔ S.db[i]? = some d ∧ S.valid d.ref = true := by
  simp [slot, filter_eq_some_iff]

theorem lt_of_slot (h : S.slot i = some d) : i < S.db.length :=
  (List.getElem?_eq_some_iff.mp (slot_eq_some.mp h).1).1

theorem slot_eq_none_of_le (h : S.db.length ≤ i) : S.slot i = none := by
  rw [slot, getElem?_eq_none h]
  rfl

/-- A valid LSA in one slot, with the flags as they are. -/
theorem slot_set (hT : T.db = S.db.set i l) (hv : T.valid = S.valid) (hi : i < S.db.length)
    (hl : S.valid l.ref = true) (j : Nat) : T.slot j = if j = i then some l else S.slot j := by
  unfold slot
  rw [hT, hv]
  by_cases h : j = i
  · subst h
    rw [if_pos rfl, getElem?_set_self hi, filter_some, if_pos hl]
  · rw [if_neg h, getElem?_set_ne (Ne.symm h)]

theorem slot_append (hT : T.db = S.db ++ [l]) (hv : T.valid = S.valid)
    (hl : S.valid l.ref = true) (j : Nat) :
    T.slot j = if j = S.db.length then some l else S.slot j := by
  unfold slot
  rw [hT, hv]
  by_cases h : j = S.db.length
  · subst h
    rw [if_pos rfl, getElem?_concat_length, filter_some, if_pos hl]
  · rw [if_neg h]
    congr 1
    by_cases hlt : j < S.db.length
    · exact getElem?_append_left hlt
    · rw [getElem?_eq_none (by rw [length_append, length_singleton]; omega),
        getElem?_eq_none (by omega)]

/-- The objects in the valid slots are all different, and so are their keys. -/
structure Apart (S : Database) : Prop where
  keys : ∀ {i j d d'}, S.slot i = some d → S.slot j = some d' → d.key = d'.key → i = j
  refs : ∀ {i j d d'}, S.slot i = some d → S.slot j = some d' → d.ref = d'.ref → i = j

/-- The LSA in a slot gives way to `now`, and its object is invalidated or not. -/
theorem slot_replace {now : Lsa} {o : Option Lsa} (h : S.Apart) (hd : S.slot index = some d)
    (hdb : T.db = S.db.set index now) (hother : ∀ ref, ref ≠ d.ref → T.valid ref = S.valid ref)
    (hnow : (if T.valid now.ref then some now else none) = o) (j : Nat) :
    T.slot j = if j = index then o else S.slot j := by
  unfold slot
  rw [hdb]
  by_cases hj : j = index
  · subst hj
    rw [if_pos rfl, getElem?_set_self (lt_of_slot hd), filter_some, hnow]
  · rw [if_neg hj, getElem?_set_ne (Ne.symm hj)]
    cases hg : S.db[j]? with
    | none => rfl
    | some d' =>
      by_cases href : d'.ref = d.ref
      · -- The object of a valid slot is in no other.
        exact absurd (h.refs (slot_eq_some.mpr ⟨hg, href ▸ (slot_eq_some.mp hd).2⟩) hd href) hj
      · simp only [filter_some, hother _ href]

/-- The end moves back over invalid slots only. -/
theorem trim_spec (S : Database) (i last : Nat) (h : ∀ j, last ≤ j → S.slot j = none) :
    S.trim i last ≤ last ∧ ∀ j, S.trim i last ≤ j → S.slot j = none := by
  induction i generalizing last with
  | zero => exact ⟨Nat.le_refl _, h⟩
  | succ i ih =>
    rw [trim]
    by_cases hc : i + 2 = last ∧ S.slot (i + 1) = none
    · rw [if_pos hc]
      have hback : ∀ j, last - 1 ≤ j → S.slot j = none := by
        intro j hj
        by_cases hlast : last ≤ j
        · exact h j hlast
        · rw [show j = i + 1 by omega]
          exact hc.2
      obtain ⟨hle, hnone⟩ := ih (last - 1) hback
      exact ⟨by omega, hnone⟩
    · rw [if_neg hc]
      exact ⟨Nat.le_refl _, h⟩

/-! ### The map -/

theorem matchesAt_iff : S.matchesAt k i = true ↔ ∃ d, S.slot i = some d ∧ d.key = k := by
  simp [matchesAt, Option.any_eq_true]

/-- The valid slots are the entries of a map. -/
structure Holds (S : Database) (M : LsRequest → Option Lsa) : Prop where
  apart : S.Apart
  holds : ∀ k d, M k = some d ↔ ∃ i, S.slot i = some d ∧ d.key = k

variable {M : LsRequest → Option Lsa}

theorem Holds.of_slot_eq (h : S.Holds M) (hT : T.slot = S.slot) : T.Holds M := by
  refine ⟨⟨fun hi hj => ?_, fun hi hj => ?_⟩, fun k d => ?_⟩
  · rw [hT] at hi hj
    exact h.apart.keys hi hj
  · rw [hT] at hi hj
    exact h.apart.refs hi hj
  · rw [hT]
    exact h.holds k d

/-- An object that is not in the database is put into a slot that is not valid. -/
theorem Holds.put (h : S.Holds M) (hfree : S.slot i = none) (hnew : M l.key = none)
    (href : ∀ j d, S.slot j = some d → d.ref ≠ l.ref)
    (hT : ∀ j, T.slot j = if j = i then some l else S.slot j) :
    T.Holds (update M l.key (some l)) := by
  have hkey : ∀ j d, S.slot j = some d → d.key ≠ l.key := by
    intro j d hd heq
    have := (h.holds l.key d).mpr ⟨j, hd, heq⟩
    rw [hnew] at this
    cases this
  -- A slot of the new database is the new one or an old one.
  have hcases : ∀ {j d}, T.slot j = some d → (j = i ∧ d = l) ∨ S.slot j = some d := by
    intro j d hd
    rw [hT] at hd
    by_cases hj : j = i
    · rw [if_pos hj] at hd
      exact .inl ⟨hj, (some.inj hd).symm⟩
    · rw [if_neg hj] at hd
      exact .inr hd
  have happly : ∀ {β : Type} (f : Lsa → β), (∀ j d, S.slot j = some d → f d ≠ f l) →
      (∀ {i j d d'}, S.slot i = some d → S.slot j = some d' → f d = f d' → i = j) →
      ∀ {j j' d d'}, T.slot j = some d → T.slot j' = some d' → f d = f d' → j = j' := by
    intro β f hne hold j j' d d' hd hd' heq
    obtain ⟨rfl, rfl⟩ | hd := hcases hd
    · obtain ⟨rfl, -⟩ | hd' := hcases hd'
      · rfl
      · exact absurd heq.symm (hne _ _ hd')
    · obtain ⟨rfl, rfl⟩ | hd' := hcases hd'
      · exact absurd heq (hne _ _ hd)
      · exact hold hd hd' heq
  refine ⟨⟨happly Lsa.key hkey h.apart.keys, happly Lsa.ref href h.apart.refs⟩, fun k d => ?_⟩
  by_cases hk : k = l.key
  · subst hk
    rw [update_self]
    constructor
    · intro hd
      cases hd
      exact ⟨i, by rw [hT, if_pos rfl], rfl⟩
    · rintro ⟨j, hd, heq⟩
      obtain ⟨-, rfl⟩ | hold := hcases hd
      · rfl
      · exact absurd heq (hkey _ _ hold)
  · rw [update_of_ne hk, h.holds]
    constructor
    · rintro ⟨j, hd, heq⟩
      have hj : j ≠ i := by
        rintro rfl
        rw [hfree] at hd
        cases hd
      exact ⟨j, by rw [hT, if_neg hj]; exact hd, heq⟩
    · rintro ⟨j, hd, heq⟩
      obtain ⟨-, rfl⟩ | hold := hcases hd
      · exact absurd heq.symm hk
      · exact ⟨j, hold, heq⟩

theorem slot_of_taken (hT : ∀ j, T.slot j = if j = i then none else S.slot j)
    (hd : T.slot j = some d) : j ≠ i ∧ S.slot j = some d := by
  rw [hT] at hd
  by_cases hj : j = i
  · simp [hj] at hd
  · rw [if_neg hj] at hd
    exact ⟨hj, hd⟩

theorem Holds.take (h : S.Holds M) (hd : S.slot i = some d)
    (hT : ∀ j, T.slot j = if j = i then none else S.slot j) :
    T.Holds (update M d.key none) := by
  have hof : ∀ {j d'}, T.slot j = some d' → j ≠ i ∧ S.slot j = some d' := slot_of_taken hT
  refine ⟨⟨fun h₁ h₂ => h.apart.keys (hof h₁).2 (hof h₂).2,
    fun h₁ h₂ => h.apart.refs (hof h₁).2 (hof h₂).2⟩, fun k d' => ?_⟩
  rw [update_none_iff, h.holds]
  constructor
  · rintro ⟨hk, j, hd', heq⟩
    have hj : j ≠ i := by
      rintro rfl
      rw [hd] at hd'
      cases hd'
      exact hk heq.symm
    exact ⟨j, by rw [hT, if_neg hj]; exact hd', heq⟩
  · rintro ⟨j, hd', heq⟩
    refine ⟨fun hk => ?_, j, (hof hd').2, heq⟩
    exact (hof hd').1 (h.apart.keys (hof hd').2 hd (heq.trans hk))

/-- The database is a map, and its slots are where they are looked for. -/
structure Inv (S : Database) (M : LsRequest → Option Lsa) : Prop extends S.Holds M where
  allocated : S.allocatedEntries = S.db.length
  last_le : S.lastEntry ≤ S.db.length
  tail : ∀ i, S.lastEntry ≤ i → S.slot i = none
  free : ∀ i ∈ S.emptySlots, i < S.db.length
  blank : S.valid 0 = false

theorem inv_empty : Inv empty fun _ => none := by
  have hnone : ∀ i, empty.slot i = none := fun i => slot_eq_none_of_le (Nat.zero_le i)
  refine ⟨⟨⟨fun h => ?_, fun h => ?_⟩, fun k d => ?_⟩, rfl, Nat.le_refl _, fun i _ => hnone i,
    nofun, rfl⟩
  · cases h
  · cases h
  · simp [hnone]

/-- **`find_lsa` looks the key up in the map.** -/
theorem Inv.find (h : Inv S M) (k : LsRequest) : (S.findLsa k).bind S.slot = M k := by
  cases hf : S.findLsa k with
  | none =>
    cases hM : M k with
    | none => rfl
    | some d =>
      obtain ⟨i, hi, hk⟩ := (h.holds k d).mp hM
      have hlt : i < S.lastEntry := by
        by_contra hge
        rw [h.tail i (by omega)] at hi
        cases hi
      exact absurd (matchesAt_iff.mpr ⟨d, hi, hk⟩) (find?_eq_none.mp hf i (mem_range.mpr hlt))
  | some i =>
    obtain ⟨d, hd, hk⟩ := matchesAt_iff.mp (find?_some hf)
    rw [bind_some, hd]
    exact ((h.holds k d).mpr ⟨i, hd, hk⟩).symm

theorem Inv.findLsa_eq_none (h : Inv S M) (hk : M k = none) : S.findLsa k = none := by
  cases hf : S.findLsa k with
  | none => rfl
  | some i =>
    obtain ⟨d, hd, heq⟩ := matchesAt_iff.mp (find?_some hf)
    rw [(h.holds k d).mpr ⟨i, hd, heq⟩] at hk
    cases hk

/-! ### The operations -/

/-- What putting an LSA in does: it goes into a slot that was not valid. -/
structure Put (S T : Database) (l : Lsa) (i : Nat) : Prop where
  free : S.slot i = none
  slot : ∀ j, T.slot j = if j = i then some l else S.slot j
  valid : T.valid = S.valid
  readers : T.readers = S.readers

theorem Put.keeps (h : Put S T l i) (hd : S.slot j = some d) : T.slot j = some d := by
  have hji : j ≠ i := by
    rintro rfl
    rw [h.free] at hd
    cases hd
  rw [h.slot, if_neg hji]
  exact hd

theorem Inv.put (h : Inv S M) (hnew : M l.key = none)
    (href : ∀ j d, S.slot j = some d → d.ref ≠ l.ref) (hput : Put S T l i)
    (hallocated : T.allocatedEntries = T.db.length) (hlast : T.lastEntry ≤ T.db.length)
    (hpast : i < T.lastEntry ∧ S.lastEntry ≤ T.lastEntry)
    (hfree : ∀ e ∈ T.emptySlots, e < T.db.length) : Inv T (update M l.key (some l)) := by
  refine ⟨h.toHolds.put hput.free hnew href hput.slot, hallocated, hlast, fun j hj => ?_, hfree,
    hput.valid ▸ h.blank⟩
  rw [hput.slot, if_neg (by omega)]
  exact h.tail j (by omega)

/-- **`add_lsa`** puts the LSA into a slot that is not valid, if the empty slot it takes is one. -/
theorem Inv.addLsa (h : Inv S M) (hnew : M l.key = none) (hvalid : S.valid l.ref = true)
    (href : ∀ j d, S.slot j = some d → d.ref ≠ l.ref)
    (hvacant : S.readers = 0 → ∀ e ∈ S.emptySlots.head?, S.slot e = none) :
    ∃ T i, S.addLsa l = .ok T ∧ Inv T (update M l.key (some l)) ∧ Put S T l i := by
  have hfind : ¬ (S.findLsa l.key).isSome = true := by
    rw [h.findLsa_eq_none hnew]
    exact Bool.false_ne_true
  have hle := h.last_le
  have hset : ∀ i, (S.db.set i l).length = S.db.length := fun i => length_set
  rw [Database.addLsa, if_neg hfind, if_neg (not_not_intro hvalid)]
  split
  · -- An empty slot, as nobody reads.
    rename_i esi rest hreaders hslots
    have hlt : esi < S.db.length := h.free esi (by rw [hslots]; exact mem_cons_self)
    rw [if_neg (by omega)]
    have hput : Put S { S with
        db := S.db.set esi l
        emptySlots := rest
        lastEntry := if S.lastEntry ≤ esi then esi + 1 else S.lastEntry } l esi :=
      ⟨hvacant hreaders esi (by rw [hslots]; rfl), slot_set rfl rfl hlt hvalid, rfl, rfl⟩
    refine ⟨_, esi, rfl, h.put hnew href hput (h.allocated.trans (hset _).symm) ?_ ?_ ?_, hput⟩
    · show (if S.lastEntry ≤ esi then esi + 1 else S.lastEntry) ≤ (S.db.set esi l).length
      rw [hset]
      split <;> omega
    · dsimp only
      split <;> omega
    · intro e he
      rw [hset]
      exact h.free e (by rw [hslots]; exact mem_cons_of_mem _ he)
  · have hnone : S.slot S.lastEntry = none := h.tail _ (Nat.le_refl _)
    have hnext : S.lastEntry < S.lastEntry + 1 ∧ S.lastEntry ≤ S.lastEntry + 1 := by omega
    by_cases hlast : S.lastEntry < S.allocatedEntries
    · -- A slot that is allocated and past the end.
      have hlt : S.lastEntry < S.db.length := h.allocated ▸ hlast
      rw [if_pos hlast, if_neg (by omega)]
      have hput : Put S { S with db := S.db.set S.lastEntry l, lastEntry := S.lastEntry + 1 } l
          S.lastEntry := ⟨hnone, slot_set rfl rfl hlt hvalid, rfl, rfl⟩
      refine ⟨_, _, rfl, h.put hnew href hput (h.allocated.trans (hset _).symm) ?_ hnext ?_, hput⟩
      · exact (hset _).symm ▸ hlt
      · intro e he
        rw [hset]
        exact h.free e he
    · -- A new slot.
      have heq : S.lastEntry = S.db.length := by
        have := h.allocated
        omega
      have hlen : (S.db ++ [l]).length = S.db.length + 1 := length_append
      rw [if_neg hlast]
      have hput : Put S { S with
          db := S.db ++ [l]
          allocatedEntries := S.allocatedEntries + 1
          lastEntry := S.lastEntry + 1 } l S.lastEntry :=
        ⟨hnone, heq ▸ slot_append rfl rfl hvalid, rfl, rfl⟩
      refine ⟨_, _, rfl, h.put hnew href hput ?_ ?_ hnext fun e he => ?_, hput⟩
      · rw [hlen, h.allocated]
      · show S.lastEntry + 1 ≤ (S.db ++ [l]).length
        omega
      · rw [hlen]
        exact Nat.lt_succ_of_lt (h.free e he)

section
variable (h : Inv S M) (hd : S.slot index = some d) (hkey : d.key = l.key)
include h hd hkey

/-- **`delete_lsa`** takes the LSA out of its slot. -/
theorem Inv.deleteLsa (invalidate : Bool) :
    ∃ T, S.deleteLsa l index invalidate = .ok T ∧ Inv T (update M l.key none) ∧
      (∀ j, T.slot j = if j = index then none else S.slot j) ∧
      (∀ ref, ref ≠ d.ref → T.valid ref = S.valid ref) ∧ T.readers = S.readers := by
  obtain ⟨hget, hvalid⟩ := slot_eq_some.mp hd
  rw [Database.deleteLsa, hget]
  dsimp only
  rw [if_neg (not_not_intro hkey), if_neg (not_not_intro hvalid)]
  refine ⟨_, rfl, ?_⟩
  set valid : Nat → Bool := if invalidate then update S.valid d.ref false else S.valid
  have hother : ∀ ref, ref ≠ d.ref → valid ref = S.valid ref := by
    intro ref href
    show (if invalidate = true then update S.valid d.ref false else S.valid) ref = _
    split
    · exact update_of_ne href _ _
    · rfl
  have hblank : valid 0 = false := by
    show (if invalidate = true then update S.valid d.ref false else S.valid) 0 = _
    split
    · rw [update_apply, h.blank]
      exact ite_self false
    · exact h.blank
  set T : Database := { S with
    db := S.db.set index invalidLsa
    valid := valid
    emptySlots := S.emptySlots ++ [index] }
  have hdb : T.db = S.db.set index invalidLsa := rfl
  have hT : ∀ j, T.slot j = if j = index then none else S.slot j :=
    slot_replace h.apart hd hdb hother (by
      rw [show T.valid invalidLsa.ref = false from hblank]
      rfl)
  have hlen : T.db.length = S.db.length := length_set
  have htail : ∀ j, S.lastEntry ≤ j → T.slot j = none := by
    intro j hj
    rw [hT]
    split
    · rfl
    · exact h.tail j hj
  obtain ⟨hle, hnone⟩ := T.trim_spec index S.lastEntry htail
  refine ⟨⟨?_, ?_, ?_, hnone, ?_, hblank⟩, hT, hother, rfl⟩
  · rw [← hkey]
    exact h.toHolds.take hd hT
  · exact h.allocated.trans hlen.symm
  · have hlast := h.last_le
    show T.trim index S.lastEntry ≤ T.db.length
    omega
  · rw [hlen]
    exact forall_mem_append.mpr ⟨h.free, forall_mem_singleton.mpr (lt_of_slot hd)⟩

section
variable (hvalid : S.valid l.ref = true) (href : ∀ j d, S.slot j = some d → d.ref ≠ l.ref)
include hvalid href

/-- Nobody reads: the new LSA is put over the old one. -/
theorem Inv.overwrite
    (hT : T = { S with db := S.db.set index l, valid := update S.valid d.ref false }) :
    Inv T (update M l.key (some l)) ∧ ∀ j, T.slot j = if j = index then some l else S.slot j := by
  set valid := update S.valid d.ref false
  have hother : ∀ ref, ref ≠ d.ref → valid ref = S.valid ref :=
    fun ref hne => update_of_ne hne _ _
  have hlvalid : valid l.ref = true := by
    rw [hother _ (href index d hd).symm, hvalid]
  have hblank : valid 0 = false := by
    rw [show valid 0 = _ from update_apply _ _ _ _, h.blank]
    exact ite_self false
  -- Taken out and put in at once.
  set U : Database := { S with db := S.db.set index invalidLsa, valid := valid }
  have hUdb : U.db = S.db.set index invalidLsa := rfl
  have hU : ∀ j, U.slot j = if j = index then none else S.slot j :=
    slot_replace h.apart hd hUdb hother (by
      rw [show U.valid invalidLsa.ref = false from hblank]
      rfl)
  have hslot : ∀ j, T.slot j = if j = index then some l else S.slot j := by
    subst hT
    exact slot_replace h.apart hd rfl hother (if_pos hlvalid)
  have hput : ∀ j, T.slot j = if j = index then some l else U.slot j := fun j => by
    rw [hslot, hU]
    split <;> rfl
  have htake : U.Holds (update M l.key none) := hkey ▸ h.toHolds.take hd hU
  have hholds := htake.put (by rw [hU, if_pos rfl]) (update_self _ _ _)
    (fun j d' hd' => href j d' (slot_of_taken hU hd').2) hput
  rw [update_idem] at hholds
  have hlen : T.db.length = S.db.length := by
    rw [hT]
    exact length_set
  refine ⟨⟨hholds, ?_, ?_, ?_, ?_, ?_⟩, hslot⟩
  · rw [hlen, hT]
    exact h.allocated
  · rw [hlen, hT]
    exact h.last_le
  · intro j hj
    rw [hT] at hj
    have hne : j ≠ index := by
      rintro rfl
      rw [h.tail j hj] at hd
      cases hd
    rw [hslot, if_neg hne]
    exact h.tail j hj
  · rw [hlen, hT]
    exact h.free
  · rw [hT]
    exact hblank

/-- **`update_lsa`** puts the new LSA in the place of the old one. -/
theorem Inv.updateLsa (hself : d.selfOriginating = false) :
    ∃ T, S.updateLsa l index = .ok T ∧ Inv T (update M l.key (some l)) ∧
      ∀ j d', S.slot j = some d' → d'.key ≠ l.key → T.slot j = some d' := by
  obtain ⟨hget, hdvalid⟩ := slot_eq_some.mp hd
  have hstays : ∀ {j d'}, S.slot j = some d' → d'.key ≠ l.key → j ≠ index := by
    rintro j d' hd' hne rfl
    rw [hd] at hd'
    cases hd'
    exact hne hkey
  rw [Database.updateLsa, hget]
  dsimp only
  rw [if_neg (not_not_intro hkey), if_neg (not_not_intro hdvalid), hself, if_neg Bool.false_ne_true]
  by_cases hreaders : S.readers = 0
  · rw [if_pos hreaders]
    obtain ⟨hinv, hslot⟩ := h.overwrite hd hkey hvalid href rfl
    refine ⟨_, rfl, hinv, fun j d' hd' hne => ?_⟩
    rw [hslot, if_neg (hstays hd' hne)]
    exact hd'
  · -- Somebody reads: deleted, and added in another slot.
    rw [if_neg hreaders]
    obtain ⟨U, hdel, hinv, hU, hother, hread⟩ := h.deleteLsa hd hkey true
    have hUref : ∀ j d', U.slot j = some d' → d'.ref ≠ l.ref := fun j d' hd' =>
      href j d' (slot_of_taken hU hd').2
    obtain ⟨T, i, hadd, hinvT, hput⟩ := hinv.addLsa (update_self _ _ _)
      ((hother _ (href index d hd).symm).trans hvalid) hUref
      fun h0 => absurd (hread.symm.trans h0) hreaders
    rw [update_idem] at hinvT
    refine ⟨T, ?_, hinvT, fun j d' hd' hne => hput.keeps ?_⟩
    · rw [hdel]
      exact hadd
    · rw [hU, if_neg (hstays hd' hne)]
      exact hd'

end

end

/-! ### Runs -/

inductive Op where
  | add (l : Lsa)
  | update (l : Lsa) (index : Nat)
  | delete (l : Lsa) (index : Nat) (invalidate : Bool)
  | openDatabase
  | closeDatabase

def step (S : Database) : Op → Except Fault Database
  | .add l => S.addLsa l
  | .update l index => S.updateLsa l index
  | .delete l index invalidate => S.deleteLsa l index invalidate
  | .openDatabase => .ok S.openDatabase
  | .closeDatabase => S.closeDatabase

/-- The map that the database should be. -/
def after (M : LsRequest → Option Lsa) : Op → LsRequest → Option Lsa
  | .add l | .update l _ => Function.update M l.key (some l)
  | .delete l _ _ => Function.update M l.key none
  | .openDatabase | .closeDatabase => M

/-- The key that an operation is about. -/
def Op.concerns (k : LsRequest) : Op → Bool
  | .add l | .update l _ | .delete l _ _ => l.key = k
  | .openDatabase | .closeDatabase => false

/-- An object has one header. -/
def OneHeader (S : Database) (l : Lsa) : Prop :=
  ∀ d ∈ S.db, S.valid d.ref = true → d.ref = l.ref → d.key = l.key

/-- What the callers see to: they add an LSA whose key is not there; they update and delete at the
index of the LSA with this key, and update with another object, never one that the router
originated; and they close what is open. -/
def Legal (S : Database) (M : LsRequest → Option Lsa) : Op → Prop
  | .add l => M l.key = none ∧ S.valid l.ref = true ∧ S.OneHeader l
  | .update l index => (∃ d, d ∈ S.slot index ∧ d.key = l.key ∧ d.selfOriginating = false ∧
      d.ref ≠ l.ref) ∧ S.valid l.ref = true ∧ S.OneHeader l
  | .delete l index _ => ∃ d, d ∈ S.slot index ∧ d.key = l.key
  | .openDatabase => True
  | .closeDatabase => S.readers ≠ 0

/-- The empty slot that an addition takes does not hold a valid LSA. -/
def Vacant (S : Database) : Op → Prop
  | .add _ => S.readers = 0 → ∀ e ∈ S.emptySlots.head?, S.slot e = none
  | _ => True

instance (S : Database) (l : Lsa) : Decidable (S.OneHeader l) :=
  inferInstanceAs (Decidable (∀ _ ∈ _, _))

instance (S : Database) (M : LsRequest → Option Lsa) (op : Op) : Decidable (S.Legal M op) := by
  cases op <;> unfold Legal <;> infer_instance

instance (S : Database) (op : Op) : Decidable (S.Vacant op) := by
  cases op <;> unfold Vacant <;> infer_instance

/-- The databases of a run whose steps all satisfy `ok`, with the map each should be. -/
inductive Reach (ok : Database → Op → Prop) : Database → (LsRequest → Option Lsa) → Prop
  | init : Reach ok empty fun _ => none
  | step {S T : Database} {M : LsRequest → Option Lsa} (op : Op) (h : Reach ok S M)
      (hlegal : S.Legal M op) (hok : ok S op) (hstep : S.step op = .ok T) :
      Reach ok T (after M op)

/-- An object of another key is not this one. -/
theorem OneHeader.ref_ne (h : S.OneHeader l) (hd : S.slot j = some d) (hne : d.key ≠ l.key) :
    d.ref ≠ l.ref := by
  obtain ⟨hget, hvalid⟩ := slot_eq_some.mp hd
  intro heq
  exact hne (h d (mem_of_getElem? hget) hvalid heq)

theorem slot_congr (hdb : T.db = S.db) (hvalid : T.valid = S.valid) : T.slot = S.slot := by
  funext i
  rw [slot, slot, hdb, hvalid]

theorem Inv.of_eq (h : Inv S M) (hdb : T.db = S.db) (hvalid : T.valid = S.valid)
    (hslots : T.emptySlots = S.emptySlots) (hlast : T.lastEntry = S.lastEntry)
    (halloc : T.allocatedEntries = S.allocatedEntries) : Inv T M := by
  refine ⟨h.toHolds.of_slot_eq (slot_congr hdb hvalid), ?_, ?_, ?_, ?_, ?_⟩
  · rw [halloc, hdb]
    exact h.allocated
  · rw [hlast, hdb]
    exact h.last_le
  · rw [hlast, slot_congr hdb hvalid]
    exact h.tail
  · rw [hslots, hdb]
    exact h.free
  · rw [hvalid]
    exact h.blank

/-- **A step** goes through, does to the map what it should, and leaves the LSAs of all other keys
in their slots. -/
theorem Inv.step {op : Op} (h : Inv S M) (hlegal : S.Legal M op) (hvacant : S.Vacant op) :
    ∃ T, S.step op = .ok T ∧ Inv T (after M op) ∧
      ∀ j d, S.slot j = some d → op.concerns d.key = false → T.slot j = some d := by
  cases op with
  | add l =>
    obtain ⟨hnew, hvalid, hone⟩ := hlegal
    have hkey : ∀ j d, S.slot j = some d → d.key ≠ l.key := by
      intro j d hd heq
      rw [(h.holds l.key d).mpr ⟨j, hd, heq⟩] at hnew
      cases hnew
    obtain ⟨T, i, hadd, hinv, hput⟩ := h.addLsa hnew hvalid
      (fun j d hd => hone.ref_ne hd (hkey j d hd)) hvacant
    exact ⟨T, hadd, hinv, fun j d hd _ => hput.keeps hd⟩
  | update l index =>
    obtain ⟨⟨d, hd, hkey, hself, hne⟩, hvalid, hone⟩ := hlegal
    have href : ∀ j d', S.slot j = some d' → d'.ref ≠ l.ref := by
      intro j d' hd'
      by_cases hk : d'.key = l.key
      · obtain rfl := h.apart.keys hd' hd (hk.trans hkey.symm)
        cases hd.symm.trans hd'
        exact hne
      · exact hone.ref_ne hd' hk
    obtain ⟨T, hupd, hinv, hkeep⟩ := h.updateLsa hd hkey hvalid href hself
    exact ⟨T, hupd, hinv, fun j d' hd' hc => hkeep j d' hd' (Ne.symm (of_decide_eq_false hc))⟩
  | delete l index invalidate =>
    obtain ⟨d, hd, hkey⟩ := hlegal
    obtain ⟨T, hdel, hinv, hT, -, -⟩ := h.deleteLsa hd hkey invalidate
    refine ⟨T, hdel, hinv, fun j d' hd' hc => ?_⟩
    have hj : j ≠ index := by
      rintro rfl
      cases hd.symm.trans hd'
      exact of_decide_eq_false hc hkey.symm
    rw [hT, if_neg hj]
    exact hd'
  | openDatabase =>
    exact ⟨_, rfl, h.of_eq rfl rfl rfl rfl rfl, fun j d hd _ => hd⟩
  | closeDatabase =>
    have hlegal : S.readers ≠ 0 := hlegal
    refine ⟨{ S with readers := S.readers - 1 }, ?_, h.of_eq rfl rfl rfl rfl rfl,
      fun j d hd _ => hd⟩
    rw [Database.step, closeDatabase, if_neg hlegal]

theorem Reach.inv {ok : Database → Op → Prop} (hok : ∀ S op, ok S op → S.Vacant op)
    (h : Reach ok S M) : Inv S M := by
  induction h with
  | init => exact inv_empty
  | step op _ hlegal hop hstep ih =>
    obtain ⟨T, hT, hinv, -⟩ := ih.step hlegal (hok _ _ hop)
    rw [hT] at hstep
    cases hstep
    exact hinv

/-- **The database is a map that loses nothing**: in every run in which no addition takes an empty
slot that holds a valid LSA, `find_lsa` finds the LSA that was last added or updated for a key, no
two valid slots have one key, and every further step goes through and leaves the LSAs of all other
keys where they are. -/
theorem database_is_map {ok : Database → Op → Prop} (hok : ∀ S op, ok S op → S.Vacant op)
    (h : Reach ok S M) :
    (∀ k, (S.findLsa k).bind S.slot = M k) ∧
    (∀ i j d d', S.slot i = some d → S.slot j = some d' → d.key = d'.key → i = j) ∧
    ∀ op, S.Legal M op → S.Vacant op → ∃ T, S.step op = .ok T ∧
      ∀ j d, S.slot j = some d → op.concerns d.key = false → T.slot j = some d := by
  have hinv := h.inv hok
  refine ⟨hinv.find, fun i j d d' => hinv.apart.keys, fun op hlegal hvacant => ?_⟩
  obtain ⟨T, hT, -, hkeep⟩ := hinv.step hlegal hvacant
  exact ⟨T, hT, hkeep⟩

/-- The LSA of this number from router 7. -/
def numbered (n : Nat) : Lsa := ⟨n, ⟨1, n, 7⟩, false⟩

/-- A run that takes an empty slot, reads, adds past the end and updates in between. -/
theorem database_is_map_reused :
    ∃ S M, Reach (fun S op => S.Vacant op) S M ∧ M (numbered 4).key = some (numbered 4) ∧
      ∀ k, (S.findLsa k).bind S.slot = M k := by
  have h0 : Reach (fun S op => S.Vacant op) empty fun _ => none := .init
  have h1 := h0.step (.add (numbered 1)) (by decide) (by decide) rfl
  have h2 := h1.step (.add (numbered 2)) (by decide) (by decide) rfl
  have h3 := h2.step (.delete (numbered 1) 0 true) (by decide) (by decide) rfl
  have h4 := h3.step (.add (numbered 3)) (by decide) (by decide) rfl
  have h5 := h4.step .openDatabase (by decide) (by decide) rfl
  have h6 := h5.step (.add (numbered 4)) (by decide) (by decide) rfl
  have h7 := h6.step (.update { numbered 2 with ref := 5 } 1) (by decide) (by decide) rfl
  have h8 := h7.step .closeDatabase (by decide) (by decide) rfl
  exact ⟨_, _, h8, rfl, (database_is_map (fun _ _ h => h) h8).1⟩

/-- An LSA added while the database is read goes into a slot that is on the list of empty slots,
and the next one after it is closed overwrites it: it is not found, and nobody deleted it. -/
theorem overwritten_lsa_lost :
    ∃ S M, Reach (fun _ _ => True) S M ∧ M (numbered 3).key = some (numbered 3) ∧
      S.findLsa (numbered 3).key = none := by
  have h0 : Reach (fun _ _ => True) empty fun _ => none := .init
  have h1 := h0.step (.add (numbered 1)) (by decide) trivial rfl
  have h2 := h1.step (.add (numbered 2)) (by decide) trivial rfl
  have h3 := h2.step (.delete (numbered 2) 1 true) (by decide) trivial rfl
  have h4 := h3.step .openDatabase (by decide) trivial rfl
  have h5 := h4.step (.add (numbered 3)) (by decide) trivial rfl
  have h6 := h5.step .closeDatabase (by decide) trivial rfl
  have h7 := h6.step (.add (numbered 4)) (by decide) trivial rfl
  exact ⟨_, _, h7, rfl, by decide⟩

end Database

end Xorp.Ospf

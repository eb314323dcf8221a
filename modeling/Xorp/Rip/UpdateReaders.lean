/-
The readers of the update queue.

What a reader has not read are the rest of its block and the blocks after it.  A block that is empty
and not the last would end this early, because a reader at the end of a block looks only into the next
one.  The queue opens a block only when the last one has updates in it, so there is no such block after
a reader.  `flush` opens one without looking, but leaves no reader behind it.
-/
import Xorp.Rip.UpdateBlocks

namespace Xorp.Rip.UpdateQueue

open Linked Segments Function List

variable {U : Type} {Q Q' : UpdateQueue U} {i j k pos : Nat} {r : ReaderPos} {b : UpdateBlock U}

/-! ### What the readers have not read -/

/-- What a reader has not read, and whether it has been used since it was created. -/
abbrev View (U : Type) := Nat → Option (List U × Bool)

/-- A reader that is there has this to read.  One that has been used stands at an update or at the
beginning of a block. -/
def Reading (L : List (Nat × List U)) : Option ReaderPos → Option (List U × Bool) → Prop
  | some r, some v =>
      Reads L r.block r.pos v.1 ∧ (v.2 = true → Inside L r.block r.pos ∨ r.pos = 0)
  | none, none => True
  | _, _ => False

structure Holds (Q : UpdateQueue U) (V : View U) : Prop where
  inv : Inv Q
  reading : ∀ i, Reading Q.segs (Q.readerAt i) (V i)

variable {V : View U} {v : List U × Bool}

variable {w : Option (List U × Bool)} {L : List (Nat × List U)} {o : Option ReaderPos}

variable {L' : List (Nat × List U)}

theorem Reading.map {o' : Option ReaderPos}
    {f : List U × Bool → List U × Bool} (h : Reading L o w)
    (hsome : ∀ r v, o = some r → Reading L (some r) (some v) → Reading L' o' (some (f v)))
    (hnone : o = none → o' = none) : Reading L' o' (w.map f) := by
  cases o with
  | none =>
    rw [hnone rfl]
    cases w with
    | none => trivial
    | some v => exact h
  | some r => cases w with
    | none => exact h.elim
    | some v => exact hsome r v rfl h

theorem Reading.mono (h : Reading L o w)
    (hreads : ∀ r us, o = some r → Reads L r.block r.pos us → Reads L' r.block r.pos us)
    (hin : ∀ r, o = some r → Inside L r.block r.pos → Inside L' r.block r.pos) :
    Reading L' o w := by
  have hmap : Reading L' o (w.map id) := by
    refine h.map ?_ id
    rintro r v rfl hv
    exact ⟨hreads r _ rfl hv.1, fun hc => (hv.2 hc).imp_left (hin r rfl)⟩
  rwa [Option.map_id] at hmap

theorem Reading.eq_none (h : Reading L none w) : w = none := by
  cases w with
  | none => rfl
  | some v => exact h.elim

theorem Reading.update {ρ : Nat → Option ReaderPos} (h : ∀ j, Reading L (ρ j) (V j))
    (ho : Reading L o w) (i j : Nat) :
    Reading L (update ρ i o j) (update V i w j) := by
  by_cases hj : j = i
  · subst hj
    rw [update_self, update_self]
    exact ho
  · rw [update_of_ne hj, update_of_ne hj]
    exact h j

theorem Holds.exists_reader (h : Holds Q V) (hv : V i = some v) : ∃ r, Q.readerAt i = some r ∧
    Reads Q.segs r.block r.pos v.1 ∧ (v.2 = true → Inside Q.segs r.block r.pos ∨ r.pos = 0) := by
  have hr := h.reading i
  rw [hv] at hr
  cases hQ : Q.readerAt i with
  | none =>
    rw [hQ] at hr
    exact hr.elim
  | some r =>
    rw [hQ] at hr
    exact ⟨r, rfl, hr⟩

theorem Holds.garbageCollect (h : Holds Q V) : Holds Q.garbageCollect V := by
  refine ⟨h.inv.garbageCollect, fun i => ?_⟩
  obtain ⟨pre, hsegs, hfree⟩ := h.inv.freed
  have hreading := h.reading i
  rw [hsegs] at hreading
  clear hsegs
  induction pre with
  | nil => exact hreading
  | cons s pre ih =>
    refine ih (fun s' hs' => hfree s' (mem_cons_of_mem _ hs')) ?_
    refine Reading.mono hreading ?_ ?_
    · intro r us hr hreads
      exact hreads.tail (hfree s mem_cons_self i r hr)
    · intro r hr hin
      exact hin.tail (hfree s mem_cons_self i r hr)

variable {init : List (UpdateBlock U)}

theorem Holds.openBlock (h : Holds Q V) (hlast : Q.blocks = init ++ [b])
    (hb : b.updates ≠ []) : Holds Q.openBlock V := by
  refine ⟨h.inv.openBlock, fun i => ?_⟩
  have hsegs : Q.segs = init.map (fun b => (b.id, b.updates)) ++ [(b.id, b.updates)] := by
    simp [segs, hlast]
  rw [segs_openBlock]
  refine Reading.mono (h.reading i) ?_ ?_
  · intro r us _ hreads
    rw [hsegs] at hreads ⊢
    exact hreads.concat hb
  · intro r _ hin
    exact hin.concat

theorem Holds.moveTo (h : Holds Q V) (hr : Q.readerAt i = some r)
    (hreads : Reads Q.segs k pos v.1) (hin : v.2 = true → Inside Q.segs k pos ∨ pos = 0) :
    ∃ Q', Q.moveTo i k pos = .ok Q' ∧ Holds Q' (update V i (some v)) ∧
      Q'.readerAt i = some ⟨k, pos⟩ ∧ Q'.segs = Q.segs := by
  obtain ⟨seg, hseg⟩ := hreads.mem
  obtain ⟨b, hb, hid, -⟩ := mem_segs.mp hseg
  obtain ⟨Q', hmove, hinv, hmoved⟩ := moveTo_eq h.inv hr ⟨b, hb, hid⟩
  refine ⟨Q', hmove, ⟨hinv, fun j => ?_⟩, ?_, hmoved.segs⟩
  · rw [hmoved.segs, hmoved.readers]
    have hnew : Reading Q.segs (some ⟨k, pos⟩) (some v) := ⟨hreads, hin⟩
    exact Reading.update h.reading hnew i j
  · rw [hmoved.readers, update_self]

/-- A reader goes on in its block. -/
theorem Holds.setPos (h : Holds Q V) (hr : Q.readerAt i = some r)
    (hreads : Reads Q.segs r.block pos v.1)
    (hin : v.2 = true → Inside Q.segs r.block pos ∨ pos = 0) :
    Holds (Q.setReader i (some ⟨r.block, pos⟩)) (update V i (some v)) := by
  have hi := readerAt_lt hr
  have hreaders := readerAt_setReader (o := some ⟨r.block, pos⟩) hi
  refine ⟨h.inv.of_segs rfl rfl ?_ ?_ ?_, fun j => ?_⟩
  · intro b hb
    have hcount := readersIn_setReader (k := b.id) (o := some ⟨r.block, pos⟩) hr
    have hin : isIn b.id (some (ReaderPos.mk r.block pos)) = decide (r.block = b.id) := rfl
    simp only [hin, decide_eq_true_eq] at hcount
    rw [h.inv.refs b hb]
    omega
  · rw [hreaders]
    exact placed_update h.inv.placed fun _ hr' => by cases hr'; exact h.inv.placed i r hr
  · exact h.inv.num.trans (countP_set_reader hr).symm
  · rw [hreaders]
    have hnew : Reading Q.segs (some ⟨r.block, pos⟩) (some v) := ⟨hreads, hin⟩
    exact Reading.update h.reading hnew i j

/-! ### Moving on -/

theorem Inv.ids (hQ : Inv Q) : (Q.blocks.map (·.id)).Nodup := by
  have h := hQ.names
  unfold segs Segments.names at h
  rwa [map_map] at h

theorem Inv.block_unique (hQ : Inv Q) {b b' : UpdateBlock U} (hb : b ∈ Q.blocks)
    (hb' : b' ∈ Q.blocks) (hid : b.id = b'.id) : b = b' :=
  inj_on_of_nodup_map hQ.ids hb hb' hid

theorem after_eq {pre post : List (UpdateBlock U)} {b c : UpdateBlock U}
    (h : ((pre ++ b :: c :: post).map (·.id)).Nodup) :
    after b.id (pre ++ b :: c :: post) = some c.id := by
  induction pre with
  | nil => simp [after]
  | cons x pre ih =>
    have hx : x.id ≠ b.id := by
      intro heq
      simp [heq] at h
    have hcons : ∀ l, after b.id (x :: l) = after b.id l := by
      intro l
      cases l with
      | nil => rfl
      | cons y l => simp [after, hx]
    rw [cons_append, hcons]
    exact ih (nodup_cons.mp h).2

/-- A block that has another one after it, when the last one is not it. -/
theorem exists_after {l : List (UpdateBlock U)} {b lb : UpdateBlock U} (hl : l = init ++ [lb])
    (hb : b ∈ l) (hne : b ≠ lb) : ∃ pre c post, l = pre ++ b :: c :: post := by
  subst hl
  rcases mem_append.mp hb with hb | hb
  · obtain ⟨pre, post, rfl⟩ := append_of_mem hb
    cases post with
    | nil => exact ⟨pre, lb, [], by simp⟩
    | cons c post => exact ⟨pre, c, post ++ [lb], by simp⟩
  · exact absurd (mem_singleton.mp hb) hne

/-- From the end of a block to the next one, which is opened if there is none. -/
theorem Holds.leaveBlock (h : Holds Q V) (hv : V i = some v) (hr : Q.readerAt i = some r)
    (hb : b ∈ Q.blocks) (hid : b.id = r.block) (hpos : r.pos = b.count) (hne : b.count ≠ 0) :
    ∃ Q', Q.leaveBlock i = .ok Q' ∧ Holds Q' (update V i (some (v.1, false))) ∧
      ∃ r', Q'.readerAt i = some r' ∧ r'.pos = 0 := by
  obtain ⟨init, lb, hblocks, hlast⟩ := h.inv.last_eq
  have hlb : lb ∈ Q.blocks := by simp [hblocks]
  -- the queue in which there is a block after the reader's
  have hopen : ∃ Q₁, (bif r.block = lb.id then Q.openBlock else Q) = Q₁ ∧ Holds Q₁ V ∧
      Q₁.readerAt = Q.readerAt ∧ ∃ pre c post, Q₁.blocks = pre ++ b :: c :: post := by
    by_cases hend : r.block = lb.id
    · obtain rfl : b = lb := h.inv.block_unique hb hlb (hid.trans hend)
      have hupdates : b.updates ≠ [] := fun hnil => hne (by simp [UpdateBlock.count, hnil])
      refine ⟨Q.openBlock, by simp [hend], h.openBlock hblocks hupdates, rfl, init,
        ⟨Q.fresh, [], 0⟩, [], ?_⟩
      show Q.blocks ++ [_] = _
      rw [hblocks, append_assoc]
      rfl
    · have hbne : b ≠ lb := fun heq => hend (by rw [← hid, heq])
      exact ⟨Q, by simp [hend], h, rfl, exists_after hblocks hb hbne⟩
  obtain ⟨Q₁, hQ₁, h₁, hreaders, pre, c, post, hsplit⟩ := hopen
  have hr₁ : Q₁.readerAt i = some r := by
    rw [hreaders]
    exact hr
  have hsegs : Q₁.segs = pre.map (fun b => (b.id, b.updates)) ++ (r.block, b.updates) ::
      (c.id, c.updates) :: post.map fun b => (b.id, b.updates) := by
    simp [segs, hsplit, hid]
  have hafter : after r.block Q₁.blocks = some c.id := by
    have hids := h₁.inv.ids
    rw [hsplit] at hids ⊢
    rw [← hid]
    exact after_eq hids
  obtain ⟨r₁, hr₁', hreads, -⟩ := h₁.exists_reader hv
  rw [hr₁] at hr₁'
  cases hr₁'
  rw [hpos] at hreads
  have hnext : Reads Q₁.segs c.id 0 v.1 := hreads.next h₁.inv.names hsegs
  obtain ⟨Q₂, hmove, h₂, hr₂, -⟩ := h₁.moveTo (v := (v.1, false)) hr₁ hnext (by simp)
  refine ⟨Q₂.garbageCollect, ?_, h₂.garbageCollect, _, hr₂, rfl⟩
  have hadvance : Q₁.advanceBlock i = .ok Q₂ := by
    rw [advanceBlock, reader_eq hr₁, ok_bind, hafter]
    exact hmove
  rw [UpdateQueue.leaveBlock, reader_eq hr, ok_bind, hlast, ok_bind, hQ₁, hadvance]
  rfl

/-- The reader stands at an update, or at the beginning of a block. -/
def Settled (Q : UpdateQueue U) (i : Nat) : Prop :=
  ∃ r, Q.readerAt i = some r ∧ (Inside Q.segs r.block r.pos ∨ r.pos = 0)

section
variable (h : Holds Q V) (hv : V i = some v)
include h hv

theorem Holds.at_block : ∃ r b, Q.readerAt i = some r ∧
    b ∈ Q.blocks ∧ b.id = r.block ∧ Q.block r.block = .ok b ∧ (r.block, b.updates) ∈ Q.segs ∧
    Reads Q.segs r.block r.pos v.1 ∧ r.pos ≤ b.count ∧
    (v.2 = true ∨ Settled Q i → v.1.head? = b.updates[r.pos]?) := by
  obtain ⟨r, hr, hreads, hin⟩ := h.exists_reader hv
  obtain ⟨b, hb, hid, hblock⟩ := block_eq (h.inv.placed i r hr)
  have hseg : (r.block, b.updates) ∈ Q.segs := mem_segs.mpr ⟨b, hb, hid, rfl⟩
  refine ⟨r, b, hr, hb, hid, hblock, hseg, hreads, (hreads.seg h.inv.names hseg).1, fun hv => ?_⟩
  have hat : Inside Q.segs r.block r.pos ∨ r.pos = 0 := by
    rcases hv with hv | ⟨r', hr', hat⟩
    · exact hin hv
    · rw [hr] at hr'
      cases hr'
      exact hat
  refine hreads.head h.inv.names hseg (hat.imp_left ?_)
  rintro ⟨seg, hseg', hpos⟩
  obtain ⟨b', hb', hid', rfl⟩ := mem_segs.mp hseg'
  obtain rfl : b = b' := h.inv.block_unique hb hb' (hid.trans hid'.symm)
  exact hpos

/-- A reader at an update passes it, and one at the end of its block goes on to the next. -/
theorem Holds.advanceReader (hr : Q.readerAt i = some r)
    (hblock : Q.block r.block = .ok b) (hb : b ∈ Q.blocks) (hid : b.id = r.block)
    (us : List U) (hus : us = if r.pos < b.count then v.1.tail else v.1) :
    ∃ Q', Q.advanceReader i = .ok Q' ∧ Holds Q' (update V i (some (us, false))) ∧
      Settled Q' i := by
  obtain ⟨r₀, hr₀, hreads, -⟩ := h.exists_reader hv
  rw [hr] at hr₀
  cases hr₀
  have hseg : (r.block, b.updates) ∈ Q.segs := mem_segs.mpr ⟨b, hb, hid, rfl⟩
  have hle : r.pos ≤ b.count := (hreads.seg h.inv.names hseg).1
  let pos := if r.pos < b.count then r.pos + 1 else r.pos
  have hpos : pos ≤ b.count := by
    show (if r.pos < b.count then r.pos + 1 else r.pos) ≤ b.count
    split_ifs <;> omega
  have hreads' : Reads Q.segs r.block pos us := by
    show Reads Q.segs r.block (if r.pos < b.count then r.pos + 1 else r.pos) us
    rw [hus]
    split_ifs with hlt
    · exact hreads.succ h.inv.names hseg hlt
    · exact hreads
  have h₁ := h.setPos (v := (us, false)) hr hreads' nofun
  let Q₁ := Q.setReader i (some ⟨r.block, pos⟩)
  have hr₁ : Q₁.readerAt i = some ⟨r.block, pos⟩ := by
    rw [readerAt_setReader (readerAt_lt hr), update_self]
  have hadvance : Q.advanceReader i =
      bif pos = b.count && b.count ≠ 0 then Q₁.leaveBlock i else .ok Q₁ := by
    rw [UpdateQueue.advanceReader, reader_eq hr, ok_bind, hblock]
    rfl
  rw [hadvance]
  by_cases hend : pos = b.count ∧ b.count ≠ 0
  · obtain ⟨Q', hleave, h', r', hr', hzero⟩ := h₁.leaveBlock (update_self ..) hr₁ hb hid
      hend.1 hend.2
    rw [update_idem] at h'
    refine ⟨Q', ?_, h', r', hr', .inr hzero⟩
    have hcond : (decide (pos = b.count) && decide (b.count ≠ 0)) = true := by
      rw [← Bool.decide_and]
      exact decide_eq_true hend
    rw [hcond]
    exact hleave
  · refine ⟨Q₁, ?_, h₁, _, hr₁, ?_⟩
    · have hcond : (decide (pos = b.count) && decide (b.count ≠ 0)) = false := by
        rw [← Bool.decide_and]
        exact decide_eq_false hend
      rw [hcond]
      rfl
    · by_cases hlt : pos < b.count
      · exact .inl ⟨b.updates, hseg, hlt⟩
      · refine .inr ?_
        show pos = 0
        omega

/-- A reader that is settled may be taken for one that has been used. -/
theorem Holds.settle (hsettled : Settled Q i) (p : Bool) : Holds Q (update V i (some (v.1, p))) := by
  obtain ⟨r, hr, hat⟩ := hsettled
  obtain ⟨r', hr', hreads, -⟩ := h.exists_reader hv
  rw [hr] at hr'
  cases hr'
  refine ⟨h.inv, fun j => ?_⟩
  by_cases hj : j = i
  · subst hj
    rw [update_self, hr]
    exact ⟨hreads, fun _ => hat⟩
  · rw [update_of_ne hj]
    exact h.reading j

/-- What is read is the first unread update, if there is one. -/
theorem Holds.fetch (hsettled : Settled Q i) :
    ∃ r b, Q.readerAt i = some r ∧ Q.block r.block = .ok b ∧ b.get r.pos = .ok v.1.head? := by
  obtain ⟨r, b, hr, hb, -, hblock, -, -, -, hhead⟩ := h.at_block hv
  refine ⟨r, b, hr, hblock, ?_⟩
  unfold UpdateBlock.get
  rw [hhead (.inr hsettled)]
  split_ifs with hlt hmax
  · rfl
  · exact absurd (Nat.lt_of_lt_of_le hlt (h.inv.bounded b hb)) hmax
  · rw [List.getElem?_eq_none (Nat.not_lt.mp hlt)]

theorem Holds.read : ∃ Q', Q.read i = .ok (Q', v.1.head?) ∧
      ∀ p, Holds Q' (update V i (some (v.1, p))) := by
  obtain ⟨r, b, hr, hb, hid, hblock, hseg, hreads, hle, -⟩ := h.at_block hv
  -- at the end of a block the reader goes on first
  have hsettle : ∃ Q₁, (bif r.pos = b.count then Q.advanceReader i else .ok Q) = .ok Q₁ ∧
      Holds Q₁ (update V i (some (v.1, v.2 && decide (r.pos ≠ b.count)))) ∧
      Settled Q₁ i := by
    by_cases hend : r.pos = b.count
    · obtain ⟨Q₁, hadvance, h₁, hsettled⟩ := h.advanceReader hv hr hblock hb hid v.1
        (by rw [if_neg (by omega)])
      exact ⟨Q₁, by simpa [hend] using hadvance, by simpa [hend] using h₁, hsettled⟩
    · refine ⟨Q, by simp [hend], ?_, r, hr, .inl ⟨b.updates, hseg, ?_⟩⟩
      · have hsame : update V i (some (v.1, v.2 && decide (r.pos ≠ b.count))) = V := by
          simp [hend, ← hv]
        rw [hsame]
        exact h
      · show r.pos < b.count
        omega
  obtain ⟨Q₁, hfirst, h₁, hsettled⟩ := hsettle
  obtain ⟨r₁, b₁, hr₁, hblock₁, hget⟩ := h₁.fetch (update_self ..) hsettled
  refine ⟨Q₁, ?_, fun p => ?_⟩
  · rw [UpdateQueue.read, reader_eq hr, ok_bind, hblock, ok_bind, hfirst, ok_bind, reader_eq hr₁,
      ok_bind, hblock₁, ok_bind, hget]
    rfl
  · have h₂ := h₁.settle (update_self ..) hsettled p
    rwa [update_idem] at h₂

/-- A reader that has been used passes the first unread update, whether it was given it or not, and
reads the one after it. -/
theorem Holds.next (hused : v.2 = true) : ∃ Q', Q.next i = .ok (Q', v.1.tail.head?) ∧
      ∀ p, Holds Q' (update V i (some (v.1.tail, p))) := by
  obtain ⟨r, b, hr, hb, hid, hblock, -, -, -, hhead⟩ := h.at_block hv
  have hpassed : v.1.tail = if r.pos < b.count then v.1.tail else v.1 := by
    split_ifs with hlt
    · rfl
    · have hnil := hhead (.inl hused)
      rw [List.getElem?_eq_none (Nat.not_lt.mp hlt), head?_eq_none_iff] at hnil
      rw [hnil, tail_nil]
  obtain ⟨Q₁, hadvance, h₁, -⟩ := h.advanceReader hv hr hblock hb hid v.1.tail hpassed
  obtain ⟨Q₂, hread, h₂⟩ := h₁.read (update_self ..)
  simp only [update_idem] at h₂
  refine ⟨Q₂, ?_, h₂⟩
  unfold UpdateQueue.next
  rw [hadvance]
  exact hread

end

/-! ### To the end -/

theorem segs_concat (h : Q.blocks = init ++ [b]) :
    Q.segs = init.map (fun b => (b.id, b.updates)) ++ [(b.id, b.updates)] := by
  simp [segs, h]

theorem Holds.ffwdReader (h : Holds Q V) (hv : V i = some v) :
    ∃ Q', Q.ffwdReader i = .ok Q' ∧ ∀ p, Holds Q' (update V i (some ([], p))) := by
  obtain ⟨r, hr, -⟩ := h.exists_reader hv
  obtain ⟨init, lb, hblocks, hlast⟩ := h.inv.last_eq
  have hend : Reads Q.segs lb.id lb.count [] := by
    rw [segs_concat hblocks]
    exact .atEnd _ _
  obtain ⟨Q₁, hmove, h₁, hr₁, -⟩ := h.moveTo (v := ([], false)) hr hend nofun
  obtain ⟨r', b, hr', hb, hid, hblock, -⟩ := h₁.at_block (update_self ..)
  obtain ⟨Q₂, hadvance, h₂, hsettled⟩ := h₁.advanceReader (update_self ..) hr' hblock hb hid []
    (by simp)
  rw [update_idem] at h₂
  refine ⟨Q₂.garbageCollect, ?_, fun p => ?_⟩
  · rw [UpdateQueue.ffwdReader, hlast, ok_bind, hmove, ok_bind, hadvance]
    rfl
  · have h₃ := h₂.settle (update_self ..) hsettled p
    rw [update_idem] at h₃
    exact h₃.garbageCollect

theorem setReader_self (h : Q.readerAt i = some r) : Q.setReader i (some r) = Q := by
  have hi := readerAt_lt h
  unfold setReader
  rw [← getElem_readers h hi, set_getElem_self]

/-- The queue ends with an empty block. -/
def EndsEmpty (Q : UpdateQueue U) (k : Nat) : Prop := ∃ init, Q.segs = init ++ [(k, [])]

theorem EndsEmpty.garbageCollect (hQ : Inv Q) (h : EndsEmpty Q k) :
    EndsEmpty Q.garbageCollect k := by
  obtain ⟨init, hsegs⟩ := h
  obtain ⟨pre, hfreed, -⟩ := hQ.freed
  rcases eq_nil_or_concat' Q.garbageCollect.segs with hnil | ⟨init', s, hlast⟩
  · exact absurd (map_eq_nil_iff.mp hnil) hQ.garbageCollect.nonempty
  · rw [hsegs, hlast, ← append_assoc] at hfreed
    have heq := (append_inj' hfreed rfl).2
    exact ⟨init', by rw [hlast, heq]⟩

/-- When the last block is empty a reader goes to it and stays there. -/
theorem ffwdReader_empty (hQ : Inv Q) (hend : EndsEmpty Q k) (hr : Q.readerAt i = some r) :
    ∃ Q', Q.ffwdReader i = .ok Q' ∧ Inv Q' ∧ EndsEmpty Q' k ∧
      Q'.readerAt = update Q.readerAt i (some ⟨k, 0⟩) := by
  obtain ⟨init, lb, hblocks, hlast⟩ := hQ.last_eq
  have hlb : lb.id = k ∧ lb.updates = [] := by
    obtain ⟨init', hsegs⟩ := hend
    rw [segs_concat hblocks] at hsegs
    have heq := (append_inj' hsegs rfl).2
    simpa using heq
  obtain ⟨rfl, hempty⟩ := hlb
  have hcount : lb.count = 0 := by simp [UpdateBlock.count, hempty]
  obtain ⟨Q₁, hmove, hinv₁, hmoved⟩ := moveTo_eq hQ hr ⟨lb, by simp [hblocks], rfl⟩
  have hr₁ : Q₁.readerAt i = some ⟨lb.id, 0⟩ := by
    rw [hmoved.readers, update_self]
  have hend₁ : EndsEmpty Q₁ lb.id := by
    obtain ⟨init', hsegs⟩ := hend
    exact ⟨init', hmoved.segs.trans hsegs⟩
  obtain ⟨b, hb, hid, hblock⟩ := block_eq (hinv₁.placed i _ hr₁)
  have hb0 : b.count = 0 := by
    obtain ⟨init', hsegs⟩ := hend₁
    have hmem : (lb.id, ([] : List U)) ∈ Q₁.segs := by simp [hsegs]
    obtain ⟨b', hb', hid', hnil⟩ := mem_segs.mp hmem
    obtain rfl : b = b' := hinv₁.block_unique hb hb' (hid.trans hid'.symm)
    simp [UpdateBlock.count, hnil]
  have hstay : Q₁.advanceReader i = .ok Q₁ := by
    rw [advanceReader, reader_eq hr₁, ok_bind, hblock]
    show (bif _ then _ else _) = _
    simp only [hb0, Nat.lt_irrefl, if_false, ne_eq, not_true_eq_false, decide_false, Bool.and_false,
      cond_false]
    rw [setReader_self hr₁]
  refine ⟨Q₁.garbageCollect, ?_, hinv₁.garbageCollect, hend₁.garbageCollect hinv₁, hmoved.readers⟩
  rw [ffwdReader, hlast, ok_bind, hcount, hmove, ok_bind, hstay]
  rfl

/-- The loop of `flush` takes one reader after the other to the empty block. -/
theorem flush_loop (l : List Nat) (hQ : Inv Q) (hend : EndsEmpty Q k) :
    ∃ Q', l.foldlM flushReader Q = .ok Q' ∧ Inv Q' ∧ EndsEmpty Q' k ∧
      (∀ j, Q'.readerAt j = Q.readerAt j ∨ Q.readerAt j ≠ none ∧ Q'.readerAt j = some ⟨k, 0⟩) ∧
      ∀ j ∈ l, Q.readerAt j ≠ none → Q'.readerAt j = some ⟨k, 0⟩ := by
  induction l generalizing Q with
  | nil => exact ⟨Q, rfl, hQ, hend, fun _ => .inl rfl, by simp⟩
  | cons i l ih =>
    have hturn : ∃ Q₁, flushReader Q i = .ok Q₁ ∧ Inv Q₁ ∧ EndsEmpty Q₁ k ∧
        (Q.readerAt i = none ∧ Q₁.readerAt = Q.readerAt ∨
          Q.readerAt i ≠ none ∧ Q₁.readerAt = update Q.readerAt i (some ⟨k, 0⟩)) := by
      unfold flushReader
      cases hr : Q.readerAt i with
      | none =>
        refine ⟨Q, ?_, hQ, hend, .inl ⟨rfl, rfl⟩⟩
        unfold readerAt at hr
        split
        · rename_i hsome
          simp [hsome] at hr
        · rfl
      | some r =>
        obtain ⟨Q₁, hffwd, hinv, hend₁, hreaders⟩ := ffwdReader_empty hQ hend hr
        refine ⟨Q₁, ?_, hinv, hend₁, .inr ⟨nofun, hreaders⟩⟩
        rw [readerAt_eq_some.mp hr]
        exact hffwd
    obtain ⟨Q₁, hflush, hinv₁, hend₁, hreaders₁⟩ := hturn
    obtain ⟨Q₂, hloop, hinv₂, hend₂, hkept, hdone⟩ := ih hinv₁ hend₁
    refine ⟨Q₂, ?_, hinv₂, hend₂, ?_, ?_⟩
    · rw [foldlM_cons, hflush]
      exact hloop
    · intro j
      rcases hreaders₁ with ⟨-, hsame⟩ | ⟨hne, hupdate⟩
      · simpa [hsame] using hkept j
      · by_cases hj : j = i
        · subst hj
          have hat : Q₁.readerAt j = some ⟨k, 0⟩ := by rw [hupdate, update_self]
          refine .inr ⟨hne, ?_⟩
          rcases hkept j with h | ⟨-, h⟩
          · rw [h, hat]
          · exact h
        · simpa [hupdate, hj] using hkept j
    · intro j hj hne
      rcases hreaders₁ with ⟨hnone, hsame⟩ | ⟨hne', hupdate⟩
      · rcases mem_cons.mp hj with rfl | hj
        · contradiction
        · exact hdone j hj (by rwa [hsame])
      · by_cases hji : j = i
        · subst hji
          have hat : Q₁.readerAt j = some ⟨k, 0⟩ := by rw [hupdate, update_self]
          rcases hkept j with h | ⟨-, h⟩
          · rw [h, hat]
          · exact h
        · refine hdone j ((mem_cons.mp hj).resolve_left hji) ?_
          rw [hupdate, update_of_ne hji]
          exact hne

theorem Holds.flush (h : Holds Q V) : ∃ Q', Q.flush = .ok Q' ∧
    Holds Q' fun i => (V i).map fun v => ([], v.2) := by
  obtain ⟨Q', hloop, hinv, hend, hkept, hdone⟩ := flush_loop (List.range Q.readers.length)
    h.inv.openBlock ⟨Q.segs, segs_openBlock⟩
  refine ⟨Q', hloop, hinv, fun i => (h.reading i).map ?_ ?_⟩
  · intro r v hr _
    have hr' : Q'.readerAt i = some ⟨Q.fresh, 0⟩ := by
      refine hdone i (mem_range.mpr (readerAt_lt hr)) ?_
      show Q.readerAt i ≠ none
      rw [hr]
      nofun
    obtain ⟨init, hsegs⟩ := hend
    rw [hr', hsegs]
    exact ⟨.atEnd init [], fun _ => .inr rfl⟩
  · intro hr
    rcases hkept i with hsame | ⟨hne, -⟩
    · rw [hsame]
      exact hr
    · contradiction

/-! ### Updates, and readers that come and go -/

/-- An update in the last block. -/
theorem Holds.addUpdate (h : Holds Q V) {u : U} (hblocks : Q.blocks = init ++ [b])
    (hroom : b.full = false) :
    Holds (Q.modify b.id (·.addUpdate u)) fun i => (V i).map fun v => (v.1 ++ [u], v.2) := by
  have hadd : b.addUpdate u = { b with updates := b.updates ++ [u] } := by
    simp [UpdateBlock.addUpdate, hroom]
  have hids := h.inv.ids
  rw [hblocks, map_append] at hids
  have hother : ∀ c ∈ init, c.id ≠ b.id := by
    intro c hc heq
    exact (nodup_append.mp hids).2.2 c.id (mem_map_of_mem hc) b.id (by simp) heq
  have hblocks' : (Q.modify b.id (·.addUpdate u)).blocks =
      init ++ [{ b with updates := b.updates ++ [u] }] := by
    show Q.blocks.map _ = _
    rw [hblocks, map_append, map_singleton, if_pos rfl]
    show _ ++ [b.addUpdate u] = _
    rw [hadd]
    congr 1
    refine (map_congr_left fun c hc => ?_).trans (map_id init)
    exact if_neg (hother c hc)
  have hsegs := segs_concat hblocks
  have hsegs' := segs_concat hblocks'
  -- the last block is the one of before with one update more
  have hmem : ∀ c ∈ (Q.modify b.id (·.addUpdate u)).blocks, ∃ c₀ ∈ Q.blocks, c.id = c₀.id ∧
      c.refs = c₀.refs ∧ c.updates.length ≤ UpdateBlock.maxUpdates := by
    intro c hc
    rw [hblocks'] at hc
    rcases mem_append.mp hc with hc | hc
    · have hcQ : c ∈ Q.blocks := by rw [hblocks]; exact mem_append_left _ hc
      exact ⟨c, hcQ, rfl, rfl, h.inv.bounded c hcQ⟩
    · obtain rfl := mem_singleton.mp hc
      have hb : b ∈ Q.blocks := by simp [hblocks]
      have hle := h.inv.bounded b hb
      have hne : b.updates.length ≠ UpdateBlock.maxUpdates := by simpa [UpdateBlock.full] using hroom
      exact ⟨b, hb, rfl, rfl, by simp; omega⟩
  refine ⟨⟨?_, ?_, by simp [hblocks'], ?_, ?_, ?_, h.inv.num⟩, fun i => ?_⟩
  · have hnames := h.inv.names
    rw [hsegs] at hnames
    rw [hsegs']
    simpa [Segments.names] using hnames
  · intro c hc
    obtain ⟨c₀, hc₀, hid, -⟩ := hmem c hc
    rw [hid]
    exact h.inv.fresh c₀ hc₀
  · exact fun c hc => (hmem c hc).choose_spec.2.2.2
  · intro c hc
    obtain ⟨c₀, hc₀, hid, hrefs, -⟩ := hmem c hc
    rw [hid, hrefs]
    exact h.inv.refs c₀ hc₀
  · intro i r hr
    obtain ⟨c, hc, hid⟩ := h.inv.placed i r hr
    rw [hblocks] at hc
    rw [hblocks']
    rcases mem_append.mp hc with hc | hc
    · exact ⟨c, mem_append_left _ hc, hid⟩
    · obtain rfl := mem_singleton.mp hc
      exact ⟨_, mem_append_right _ (mem_singleton_self _), hid⟩
  · have hreading := h.reading i
    rw [hsegs] at hreading
    rw [hsegs']
    refine hreading.map ?_ id
    intro r v hr hv
    show Reading _ (Q.readerAt i) _
    rw [hr]
    exact ⟨hv.1.push, fun hc => (hv.2 hc).imp_left .push⟩

/-- With no reader there is none that could miss the update. -/
theorem Holds.no_readers (h : Holds Q V) (hnum : Q.numReaders = 0) : V i = none := by
  have hreading := h.reading i
  have hnone : Q.readerAt i = none := by
    by_contra hne
    obtain ⟨r, hr⟩ := Option.ne_none_iff_exists'.mp hne
    rw [h.inv.num, countP_eq_zero] at hnum
    exact hnum _ (mem_of_getElem? (readerAt_eq_some.mp hr)) rfl
  rw [hnone] at hreading
  exact hreading.eq_none

theorem Holds.pushBack (h : Holds Q V) (u : U) : ∃ Q', Q.pushBack u = .ok Q' ∧
    Holds Q' fun i => (V i).map fun v => (v.1 ++ [u], v.2) := by
  unfold UpdateQueue.pushBack
  by_cases hnum : Q.numReaders = 0
  · refine ⟨Q, if_pos hnum, ?_⟩
    have hV : (fun i => (V i).map fun v => (v.1 ++ [u], v.2)) = V := by
      funext i
      rw [h.no_readers hnum]
      rfl
    rw [hV]
    exact h
  · rw [if_neg hnum]
    obtain ⟨init, lb, hblocks, hlast⟩ := h.inv.last_eq
    -- the queue in which the last block has room
    have hopen : ∃ Q₁ init₁ b₁, (bif lb.full then Q.openBlock else Q) = Q₁ ∧ Holds Q₁ V ∧
        Q₁.blocks = init₁ ++ [b₁] ∧ b₁.full = false := by
      cases hfull : lb.full with
      | false => exact ⟨Q, init, lb, rfl, h, hblocks, hfull⟩
      | true =>
        have hlen : lb.updates.length = UpdateBlock.maxUpdates := by
          simpa [UpdateBlock.full] using hfull
        have hne : lb.updates ≠ [] := by
          intro hnil
          rw [hnil] at hlen
          cases hlen
        exact ⟨Q.openBlock, Q.blocks, ⟨Q.fresh, [], 0⟩, rfl, h.openBlock hblocks hne, rfl, rfl⟩
    obtain ⟨Q₁, init₁, b₁, hQ₁, h₁, hblocks₁, hroom⟩ := hopen
    have hlast₁ : Q₁.last = .ok b₁ := by
      unfold last
      rw [hblocks₁, List.getLast?_concat]
    refine ⟨_, ?_, h₁.addUpdate hblocks₁ hroom⟩
    simp only [hlast, ok_bind, hQ₁, hlast₁]

/-- A new reader takes the first free place. -/
theorem place_eq (l : List (Option ReaderPos)) :
    (∀ j, (place r l).1[j]?.join = if j = (place r l).2 then some r else l[j]?.join) ∧
      l[(place r l).2]?.join = none ∧
      ∀ p : Option ReaderPos → Bool, p none = false →
        (place r l).1.countP p = l.countP p + (if p (some r) then 1 else 0) := by
  induction l with
  | nil =>
    refine ⟨fun j => ?_, rfl, fun p _ => by simp [place, countP_cons]⟩
    cases j <;> simp [place]
  | cons o l ih =>
    cases o with
    | none =>
      refine ⟨fun j => ?_, rfl, fun p hp => by simp [place, countP_cons, hp]⟩
      cases j <;> simp [place]
    | some r' =>
      obtain ⟨hget, hfree, hcount⟩ := ih
      refine ⟨fun j => ?_, hfree, fun p hp => ?_⟩
      · cases j with
        | zero => simp [place]
        | succ j => simpa [place] using hget j
      · simp only [place, countP_cons, hcount p hp]
        omega

theorem Holds.addReader (h : Holds Q V) : ∃ Q' i, Q.addReader = .ok (Q', i) ∧ V i = none ∧
    Holds Q' (update V i (some ([], false))) := by
  obtain ⟨init, lb, hblocks, hlast⟩ := h.inv.last_eq
  have hlb : lb ∈ Q.blocks := by simp [hblocks]
  let r : ReaderPos := ⟨lb.id, lb.count⟩
  let i := (place r Q.readers).2
  let Q' : UpdateQueue U := { Q.recount lb.id (· + 1) with
    readers := (place r Q.readers).1, numReaders := Q.numReaders + 1 }
  obtain ⟨hget, hfree, hcount⟩ := place_eq Q.readers
  have hreaders : Q'.readerAt = update Q.readerAt i (some r) := by
    funext j
    show (place r Q.readers).1[j]?.join = _
    rw [hget j]
    by_cases hj : j = i
    · subst hj
      rw [if_pos rfl, update_self]
    · rw [if_neg hj, update_of_ne hj]
      rfl
  have hnone : Q.readerAt i = none := hfree
  have hsegs : Q'.segs = Q.segs := segs_recount
  refine ⟨Q', i, ?_, ?_, h.inv.of_segs hsegs rfl ?_ ?_ ?_, fun j => ?_⟩
  · rw [UpdateQueue.addReader, hlast, ok_bind, ref_eq ⟨lb, hlb, rfl⟩]
    rfl
  · have hreading := h.reading i
    rw [hnone] at hreading
    exact hreading.eq_none
  · intro b hb
    obtain ⟨b₀, hb₀, hid, -, hrefs⟩ := mem_recount hb
    rw [hid, hrefs, h.inv.refs b₀ hb₀]
    show _ = (place r Q.readers).1.countP (isIn b₀.id)
    rw [hcount (isIn b₀.id) rfl]
    show _ = Q.readersIn b₀.id + if decide (lb.id = b₀.id) = true then 1 else 0
    by_cases hk : lb.id = b₀.id <;> simp [hk]
  · rw [hreaders]
    exact placed_update h.inv.placed fun _ hr' => by cases hr'; exact ⟨lb, hlb, rfl⟩
  · show Q.numReaders + 1 = (place r Q.readers).1.countP Option.isSome
    rw [hcount Option.isSome rfl, h.inv.num]
    rfl
  · rw [hreaders, hsegs]
    have hnew : Reading Q.segs (some r) (some ([], false)) := by
      refine ⟨?_, nofun⟩
      rw [segs_concat hblocks]
      exact .atEnd _ _
    exact Reading.update h.reading hnew i j

theorem Holds.removeReader (h : Holds Q V) (hv : V i = some v) :
    ∃ Q', Q.removeReader i = .ok Q' ∧ Holds Q' (update V i none) := by
  obtain ⟨r, hr, -⟩ := h.exists_reader hv
  have hi := readerAt_lt hr
  let Q₁ : UpdateQueue U := { (Q.recount r.block (· - 1)).setReader i none with
    numReaders := Q.numReaders - 1 }
  have hreaders : Q₁.readerAt = update Q.readerAt i none :=
    readerAt_setReader (Q := Q) hi
  have hsegs : Q₁.segs = Q.segs := segs_recount (Q := Q) (k := r.block) (f := (· - 1))
  have h₁ : Holds Q₁ (update V i none) := by
    refine ⟨h.inv.of_segs hsegs rfl ?_ ?_ ?_, fun j => ?_⟩
    · intro b hb
      have hrecounted : b ∈ (Q.recount r.block (· - 1)).blocks := hb
      obtain ⟨b₀, hb₀, hid, -, hrefs⟩ := mem_recount hrecounted
      have hcount := readersIn_setReader (k := b₀.id) (o := none) hr
      have hpos : r.block = b₀.id → 0 < Q.readersIn b₀.id := fun hk => hk ▸ readersIn_pos hr
      rw [hid, hrefs, h.inv.refs b₀ hb₀]
      show _ = (Q.setReader i none).readersIn b₀.id
      have hin : isIn b₀.id none = false := rfl
      by_cases hk : r.block = b₀.id
      · simp only [hk, hin, if_true, Bool.false_eq_true, if_false] at hcount ⊢
        omega
      · simp only [hk, hin, if_false, Bool.false_eq_true] at hcount ⊢
        omega
    · rw [hreaders]
      exact placed_update h.inv.placed nofun
    · show Q.numReaders - 1 = (Q.readers.set i none).countP Option.isSome
      rw [countP_set hi, getElem_readers hr hi, h.inv.num]
      rfl
    · rw [hreaders, hsegs]
      have hnew : Reading Q.segs none none := trivial
      exact Reading.update h.reading hnew i j
  -- the block that is opened when the last reader has gone
  have hleave : ∃ Q₂, Q₁.leaveNothing = .ok Q₂ ∧ Holds Q₂ (update V i none) := by
    obtain ⟨init, lb, hblocks, hlast⟩ := h₁.inv.last_eq
    rw [leaveNothing, hlast, ok_bind]
    cases hcond : (decide (Q₁.numReaders = 0) && decide (lb.count ≠ 0)) with
    | false => exact ⟨Q₁, rfl, h₁⟩
    | true =>
      have hne : lb.updates ≠ [] := by
        intro hnil
        simp [UpdateBlock.count, hnil] at hcond
      exact ⟨Q₁.openBlock, rfl, h₁.openBlock hblocks hne⟩
  obtain ⟨Q₂, hleave, h₂⟩ := hleave
  refine ⟨Q₂.garbageCollect, ?_, h₂.garbageCollect⟩
  rw [UpdateQueue.removeReader, readerAt_eq_some.mp hr]
  simp only [unref_eq h.inv hr, ok_bind]
  show (do let Q ← Q₁.leaveNothing
           .ok Q.garbageCollect) = _
  rw [hleave]
  rfl

theorem holds_create : Holds (create : UpdateQueue U) fun _ => none := by
  refine ⟨⟨by simp [segs, create, Segments.names], by simp [create], by simp [create],
    by simp [create], by simp [create, readersIn], ?_, rfl⟩, fun i => ?_⟩
  · intro i r hr
    simp [readerAt, create] at hr
  · simp [readerAt, create, Reading]

end Xorp.Rip.UpdateQueue

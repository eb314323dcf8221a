/-
The blocks of the update queue.

A block is freed when its count is zero, so the count has to be the number of readers in it, and every
reader has to be in a block that is there.  `Inv` says this, with what is needed to see that the
blocks are the segments of a log.  Moving a reader, opening a block and freeing blocks keep it.
-/
import Xorp.Rip.UpdateQueue
import Xorp.Lib.Segments

namespace Xorp.Rip.UpdateQueue

open Linked Segments List Function

variable {U : Type} {Q Q' : UpdateQueue U} {i j k pos : Nat} {r : ReaderPos}

/-- The blocks as segments of a log. -/
def segs (Q : UpdateQueue U) : List (Nat × List U) := Q.blocks.map fun b => (b.id, b.updates)

def readerAt (Q : UpdateQueue U) (i : Nat) : Option ReaderPos := Q.readers[i]?.join

/-- Is the reader in the block? -/
def isIn (k : Nat) (o : Option ReaderPos) : Bool := o.any fun r => r.block = k

/-- How many readers are in a block. -/
def readersIn (Q : UpdateQueue U) (k : Nat) : Nat := Q.readers.countP (isIn k)

/-- What every state of the queue satisfies, whatever its readers have read. -/
structure Inv (Q : UpdateQueue U) : Prop where
  names : (names Q.segs).Nodup
  fresh : ∀ b ∈ Q.blocks, b.id < Q.fresh
  nonempty : Q.blocks ≠ []
  bounded : ∀ b ∈ Q.blocks, b.updates.length ≤ UpdateBlock.maxUpdates
  refs : ∀ b ∈ Q.blocks, b.refs = Q.readersIn b.id
  placed : ∀ i r, Q.readerAt i = some r → ∃ b ∈ Q.blocks, b.id = r.block
  num : Q.numReaders = Q.readers.countP Option.isSome

/-! ### Lookups -/

theorem readerAt_eq_some : Q.readerAt i = some r ↔ Q.readers[i]? = some (some r) := by
  unfold readerAt
  cases Q.readers[i]? <;> simp

section
variable (h : Q.readerAt i = some r)
include h

theorem reader_eq : Q.reader i = .ok r := by
  unfold reader
  rw [readerAt_eq_some.mp h]

theorem readerAt_lt : i < Q.readers.length :=
  (List.getElem?_eq_some_iff.mp (readerAt_eq_some.mp h)).1

theorem getElem_readers (hi : i < Q.readers.length) : Q.readers[i] = some r := by
  have hget := readerAt_eq_some.mp h
  rwa [List.getElem?_eq_getElem hi, Option.some.injEq] at hget

end

variable {o : Option ReaderPos}

theorem readerAt_setReader (hi : i < Q.readers.length) :
    (Q.setReader i o).readerAt = update Q.readerAt i o := by
  funext j
  unfold readerAt setReader
  by_cases hj : j = i
  · subst hj
    simp [hi]
  · simp [hj, List.getElem?_set_ne (Ne.symm hj)]

theorem mem_segs {seg : List U} :
    (k, seg) ∈ Q.segs ↔ ∃ b ∈ Q.blocks, b.id = k ∧ b.updates = seg := by
  simp [segs]

theorem block_eq (h : ∃ b ∈ Q.blocks, b.id = k) : ∃ b ∈ Q.blocks, b.id = k ∧ Q.block k = .ok b := by
  obtain ⟨b, hb, hid⟩ := h
  have hsome : (Q.blocks.find? (·.id = k)).isSome = true := by
    rw [List.find?_isSome]
    exact ⟨b, hb, by simpa using hid⟩
  obtain ⟨b', hb'⟩ := Option.isSome_iff_exists.mp hsome
  refine ⟨b', mem_of_find?_eq_some hb', by simpa using List.find?_some hb', ?_⟩
  unfold block
  rw [hb']

theorem Inv.last_eq (hQ : Inv Q) : ∃ init b, Q.blocks = init ++ [b] ∧ Q.last = .ok b := by
  obtain ⟨init, b, hblocks⟩ := (eq_nil_or_concat' Q.blocks).resolve_left hQ.nonempty
  refine ⟨init, b, hblocks, ?_⟩
  unfold last
  rw [hblocks, List.getLast?_concat]

/-- A reader of a block is counted. -/
theorem readersIn_pos (h : Q.readerAt i = some r) : 0 < Q.readersIn r.block := by
  unfold readersIn
  rw [countP_pos_iff]
  exact ⟨some r, mem_of_getElem? (readerAt_eq_some.mp h), by simp [isIn]⟩

/-! ### Changes of the count of a block -/

/-- The queue with another count of readers for a block. -/
def recount (Q : UpdateQueue U) (k : Nat) (f : Nat → Nat) : UpdateQueue U :=
  Q.modify k fun b => { b with refs := f b.refs }

variable {f : Nat → Nat} {b : UpdateBlock U}

theorem segs_recount : (Q.recount k f).segs = Q.segs := by
  unfold segs recount modify
  rw [map_map]
  refine map_congr_left fun b _ => ?_
  by_cases hb : b.id = k <;> simp [hb]

theorem mem_recount (hb : b ∈ (Q.recount k f).blocks) : ∃ b₀ ∈ Q.blocks, b.id = b₀.id ∧
    b.updates = b₀.updates ∧ b.refs = if k = b₀.id then f b₀.refs else b₀.refs := by
  obtain ⟨b₀, hb₀, rfl⟩ := mem_map.mp hb
  refine ⟨b₀, hb₀, ?_⟩
  by_cases hk : b₀.id = k
  · simp [hk]
  · simp [hk, Ne.symm hk]

/-- Which blocks there are is said by the segments. -/
theorem exists_block_iff (h : Q'.segs = Q.segs) :
    (∃ b ∈ Q'.blocks, b.id = k) ↔ ∃ b ∈ Q.blocks, b.id = k := by
  have hnames : ∀ Q : UpdateQueue U, (∃ b ∈ Q.blocks, b.id = k) ↔ ∃ seg, (k, seg) ∈ Q.segs := by
    intro Q
    simp only [mem_segs]
    exact ⟨fun ⟨b, hb, hid⟩ => ⟨_, b, hb, hid, rfl⟩, fun ⟨_, b, hb, hid, _⟩ => ⟨b, hb, hid⟩⟩
  rw [hnames, hnames, h]

/-- The blocks are the same up to the counts. -/
theorem Inv.of_segs (hQ : Inv Q) (hsegs : Q'.segs = Q.segs) (hfresh : Q'.fresh = Q.fresh)
    (hrefs : ∀ b ∈ Q'.blocks, b.refs = Q'.readersIn b.id)
    (hplaced : ∀ i r, Q'.readerAt i = some r → ∃ b ∈ Q.blocks, b.id = r.block)
    (hnum : Q'.numReaders = Q'.readers.countP Option.isSome) : Inv Q' := by
  have hold : ∀ b ∈ Q'.blocks, ∃ b₀ ∈ Q.blocks, b₀.id = b.id ∧ b₀.updates = b.updates := by
    intro b hb
    have hseg : (b.id, b.updates) ∈ Q'.segs := mem_segs.mpr ⟨b, hb, rfl, rfl⟩
    rw [hsegs] at hseg
    exact mem_segs.mp hseg
  refine ⟨hsegs ▸ hQ.names, ?_, ?_, ?_, hrefs, ?_, hnum⟩
  · intro b hb
    obtain ⟨b₀, hb₀, hid, -⟩ := hold b hb
    rw [hfresh, ← hid]
    exact hQ.fresh b₀ hb₀
  · obtain ⟨b, hb⟩ := exists_mem_of_ne_nil _ hQ.nonempty
    obtain ⟨b', hb', -⟩ := (exists_block_iff hsegs).mpr ⟨b, hb, rfl⟩
    exact ne_nil_of_mem hb'
  · intro b hb
    obtain ⟨b₀, hb₀, -, hupdates⟩ := hold b hb
    rw [← hupdates]
    exact hQ.bounded b₀ hb₀
  · intro i r hr
    exact (exists_block_iff hsegs).mpr (hplaced i r hr)

theorem ref_eq (h : ∃ b ∈ Q.blocks, b.id = k) : Q.ref k = .ok (Q.recount k (· + 1)) := by
  obtain ⟨b, -, -, hb⟩ := block_eq h
  unfold ref
  rw [hb]
  rfl

theorem unref_eq (hQ : Inv Q) (h : Q.readerAt i = some r) :
    Q.unref r.block = .ok (Q.recount r.block (· - 1)) := by
  obtain ⟨b, hb, hid, hblock⟩ := block_eq (hQ.placed i r h)
  have hpos : b.refs ≠ 0 := by
    rw [hQ.refs b hb, hid]
    have := readersIn_pos h
    omega
  unfold unref
  rw [hblock]
  show (if b.refs = 0 then _ else _) = _
  rw [if_neg hpos]
  rfl

/-- How many readers are in a block, when a reader is somewhere else. -/
theorem readersIn_setReader (h : Q.readerAt i = some r) :
    (Q.setReader i o).readersIn k + (if r.block = k then 1 else 0) =
      Q.readersIn k + (if isIn k o then 1 else 0) := by
  have hi := readerAt_lt h
  have hget := getElem_readers h hi
  have hpos : r.block = k → 0 < Q.readersIn k := fun hk => hk ▸ readersIn_pos h
  unfold readersIn setReader at *
  rw [countP_set hi, hget]
  by_cases hk : r.block = k
  · simp only [isIn, Option.any_some, hk, decide_true, if_true]
    omega
  · simp [isIn, hk]

/-- A reader that is somewhere else is still one. -/
theorem countP_set_reader {r' : ReaderPos} (h : Q.readerAt i = some r) :
    (Q.readers.set i (some r')).countP Option.isSome = Q.readers.countP Option.isSome := by
  have hi := readerAt_lt h
  have hget := getElem_readers h hi
  have hpos : 0 < Q.readers.countP Option.isSome := by
    rw [countP_pos_iff]
    exact ⟨_, getElem_mem hi, by rw [hget]; rfl⟩
  rw [countP_set hi, hget]
  simp only [Option.isSome_some, if_true]
  omega

/-- The queue with reader `i` somewhere else, or gone. -/
structure Moved (Q Q' : UpdateQueue U) (i : Nat) (o : Option ReaderPos) : Prop where
  segs : Q'.segs = Q.segs
  readers : Q'.readerAt = Function.update Q.readerAt i o
  length : Q'.readers.length = Q.readers.length

theorem placed_update {ρ : Nat → Option ReaderPos} {P : ReaderPos → Prop}
    (h : ∀ j r, ρ j = some r → P r) (ho : ∀ r, o = some r → P r) :
    ∀ j r, update ρ i o j = some r → P r :=
  (forall_update_iff ρ (p := fun _ o => ∀ r, o = some r → P r)).mpr ⟨ho, fun j _ => h j⟩

theorem moveTo_eq (hQ : Inv Q) (hr : Q.readerAt i = some r) (hk : ∃ b ∈ Q.blocks, b.id = k) :
    ∃ Q', Q.moveTo i k pos = .ok Q' ∧ Inv Q' ∧ Moved Q Q' i (some ⟨k, pos⟩) := by
  have hi := readerAt_lt hr
  let Q₂ := (Q.recount r.block (· - 1)).recount k (· + 1)
  let Q₃ := Q₂.setReader i (some ⟨k, pos⟩)
  have hmove : Q.moveTo i k pos = .ok Q₃ := by
    rw [moveTo, reader_eq hr, ok_bind, unref_eq hQ hr, ok_bind,
      ref_eq ((exists_block_iff segs_recount).mpr hk)]
    rfl
  have hsegs : Q₃.segs = Q.segs := segs_recount.trans segs_recount
  have hreaders : Q₃.readerAt = update Q.readerAt i (some ⟨k, pos⟩) :=
    readerAt_setReader (Q := Q₂) hi
  refine ⟨Q₃, hmove, hQ.of_segs hsegs rfl ?_ ?_ ?_, hsegs, hreaders, length_set⟩
  · intro b hb
    obtain ⟨b₁, hb₁, hid, -, hrefs⟩ := mem_recount hb
    obtain ⟨b₀, hb₀, hid₀, -, hrefs₀⟩ := mem_recount hb₁
    -- one reader less in the old block, one more in the new one
    have hcount := readersIn_setReader (k := b₀.id) (o := some ⟨k, pos⟩) hr
    have hold := hQ.refs b₀ hb₀
    have hpos : r.block = b₀.id → 0 < Q.readersIn b₀.id := fun h => h ▸ readersIn_pos hr
    have hin : isIn b₀.id (some (ReaderPos.mk k pos)) = decide (k = b₀.id) := rfl
    rw [hid, hid₀, hrefs, hid₀, hrefs₀]
    show _ = (Q.setReader i (some ⟨k, pos⟩)).readersIn b₀.id
    rw [hin] at hcount
    by_cases h₁ : r.block = b₀.id <;> by_cases h₂ : k = b₀.id <;> simp [h₁, h₂] at hcount hpos ⊢ <;>
      omega
  · rw [hreaders]
    exact placed_update hQ.placed fun _ hr' => by cases hr'; exact hk
  · show Q.numReaders = (Q.readers.set i _).countP Option.isSome
    rw [hQ.num, countP_set_reader hr]

/-! ### Blocks that come and go -/

theorem segs_openBlock : Q.openBlock.segs = Q.segs ++ [(Q.fresh, [])] := by
  simp [segs, openBlock]

theorem Inv.openBlock (hQ : Inv Q) : Inv Q.openBlock := by
  have hmem : ∀ b ∈ Q.openBlock.blocks, b ∈ Q.blocks ∨ b = ⟨Q.fresh, [], 0⟩ := by
    intro b hb
    simpa [UpdateQueue.openBlock] using hb
  constructor
  · rw [segs_openBlock, Segments.names, map_append]
    refine nodup_append.mpr ⟨hQ.names, nodup_singleton _, ?_⟩
    intro k hk k' hk' heq
    rw [map_singleton, mem_singleton] at hk'
    obtain ⟨⟨k₀, seg⟩, hseg, rfl⟩ := mem_map.mp hk
    obtain ⟨b, hb, rfl, -⟩ := mem_segs.mp hseg
    have hlt := hQ.fresh b hb
    have hfresh : b.id = Q.fresh := heq.trans hk'
    omega
  · intro b hb
    show b.id < Q.fresh + 1
    rcases hmem b hb with hb | rfl
    · have := hQ.fresh b hb
      omega
    · exact Nat.lt_succ_self _
  · simp [UpdateQueue.openBlock]
  · intro b hb
    rcases hmem b hb with hb | rfl
    · exact hQ.bounded b hb
    · exact Nat.zero_le _
  · intro b hb
    rcases hmem b hb with hb | rfl
    · exact hQ.refs b hb
    · -- no reader is in a block that was not there
      symm
      show Q.readers.countP (isIn Q.fresh) = 0
      rw [countP_eq_zero]
      intro o ho hin
      obtain ⟨i, hi⟩ := mem_iff_getElem?.mp ho
      cases o with
      | none => simp [isIn] at hin
      | some r =>
        obtain ⟨b, hb, hid⟩ := hQ.placed i r (readerAt_eq_some.mpr hi)
        have hlt := hQ.fresh b hb
        have hfresh : r.block = Q.fresh := by simpa [isIn] using hin
        omega
  · intro i r hr
    obtain ⟨b, hb, hid⟩ := hQ.placed i r hr
    exact ⟨b, mem_append_left _ hb, hid⟩
  · exact hQ.num

/-- What is freed is a part at the front without readers. -/
theorem collect_eq (l : List (UpdateBlock U)) :
    ∃ pre, l = pre ++ collect l ∧ (∀ b ∈ pre, b.refs = 0) ∧ (l ≠ [] → collect l ≠ []) := by
  induction l with
  | nil => exact ⟨[], rfl, by simp, id⟩
  | cons b l ih =>
    cases l with
    | nil => exact ⟨[], rfl, by simp, id⟩
    | cons c l =>
      unfold collect
      split_ifs with hrefs
      · obtain ⟨pre, heq, hpre, hne⟩ := ih
        refine ⟨b :: pre, ?_, ?_, fun _ => hne (by simp)⟩
        · rw [cons_append, ← heq]
        · intro b' hb'
          rcases mem_cons.mp hb' with rfl | hb'
          · exact hrefs
          · exact hpre b' hb'
      · exact ⟨[], rfl, by simp, fun _ => by simp⟩

theorem Inv.ne_block (hQ : Inv Q) (hb : b ∈ Q.blocks) (hzero : b.refs = 0)
    (hr : Q.readerAt i = some r) : b.id ≠ r.block := by
  intro hid
  have hpos := readersIn_pos hr
  rw [hQ.refs b hb, hid] at hzero
  omega

theorem Inv.freed (hQ : Inv Q) : ∃ pre, Q.segs = pre ++ Q.garbageCollect.segs ∧
    ∀ s ∈ pre, ∀ i r, Q.readerAt i = some r → s.1 ≠ r.block := by
  obtain ⟨pre, heq, hpre, -⟩ := collect_eq Q.blocks
  refine ⟨pre.map fun b => (b.id, b.updates), ?_, ?_⟩
  · show Q.blocks.map _ = _ ++ (collect Q.blocks).map _
    rw [← map_append, ← heq]
  · intro s hs i r hr hsr
    obtain ⟨b, hb, rfl⟩ := mem_map.mp hs
    have hmem : b ∈ Q.blocks := by
      rw [heq]
      exact mem_append_left _ hb
    exact hQ.ne_block hmem (hpre b hb) hr hsr

theorem Inv.garbageCollect (hQ : Inv Q) : Inv Q.garbageCollect := by
  obtain ⟨pre, heq, hpre, hne⟩ := collect_eq Q.blocks
  have hmem : ∀ b ∈ Q.garbageCollect.blocks, b ∈ Q.blocks := by
    intro b hb
    rw [heq]
    exact mem_append_right _ hb
  constructor
  · obtain ⟨pre, hsegs, -⟩ := hQ.freed
    have hnodup := hQ.names
    rw [hsegs, Segments.names, map_append] at hnodup
    exact (nodup_append.mp hnodup).2.1
  · exact fun b hb => hQ.fresh b (hmem b hb)
  · exact hne hQ.nonempty
  · exact fun b hb => hQ.bounded b (hmem b hb)
  · exact fun b hb => hQ.refs b (hmem b hb)
  · intro i r hr
    obtain ⟨b, hb, hid⟩ := hQ.placed i r hr
    have hin := hb
    rw [heq] at hin
    rcases mem_append.mp hin with hfree | hkept
    · exact absurd hid (hQ.ne_block hb (hpre b hfree) hr)
    · exact ⟨b, hkept, hid⟩
  · exact hQ.num

end Xorp.Rip.UpdateQueue

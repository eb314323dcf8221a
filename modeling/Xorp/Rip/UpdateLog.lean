/-
The update queue is a log with a cursor for every reader.

Blocks, counts and freed memory are what the queue is made of; what it is for is a log.  `Cursor` is
the log from the point of view of one reader: what was pushed since it was created or sent to the
end, and how much of it the reader has passed.  What is unread from the position of a reader in the
blocks is what its cursor has not passed, so the queue gives every reader the updates of its log, one
after the other.

There is one exception.  `next` passes the update at the position of the reader, and takes for granted
that the reader was given it.  After an `ffwd` or `flush` it was not: a `next` that belongs to a `get`
from before passes the first update that was pushed since, and nobody gets to see it.
-/
import Xorp.Rip.UpdateReaders

namespace Xorp.Rip.UpdateQueue

open Linked Function Option Segments

variable {U : Type} {Q Q' : UpdateQueue U} {i : Nat}

/-! ### The log -/

/-- The log as one reader sees it: what was pushed since the reader was created or sent to the end,
how much of it the reader has passed, whether it has been given the next update, and whether the last
`get` or `next` gave it one. -/
structure Cursor (U : Type) where
  log : List U
  passed : Nat
  current : Bool
  handed : Bool

namespace Cursor

/-- A reader that has just been created. -/
def start : Cursor U := ⟨[], 0, false, false⟩

section
variable (c : Cursor U)

/-- A reader that is sent to the end. -/
def ffwd : Cursor U := { start with handed := c.handed }

def push (u : U) : Cursor U := { c with log := c.log ++ [u] }

/-- The update that the reader is given. -/
def get : Option U := c.log[c.passed]?

def given : Cursor U := { c with current := c.get.isSome, handed := c.get.isSome }

/-- What the reader was given is behind it. -/
def next : Cursor U := bif c.current then { c with passed := c.passed + 1 } else c

/-- What the reader has still to read. -/
def unread : List U := c.log.drop c.passed

end

/-- The reader has not passed more than there is, and not what it has just been given. -/
structure Fits (c : Cursor U) : Prop where
  passed : c.passed ≤ c.log.length
  current : c.current = true → c.passed < c.log.length

theorem fits_ffwd (c : Cursor U) : c.ffwd.Fits := ⟨Nat.le_refl _, nofun⟩

theorem Fits.push {c : Cursor U} (h : c.Fits) (u : U) : (c.push u).Fits := by
  obtain ⟨hpassed, hcurrent⟩ := h
  refine ⟨?_, fun hc => ?_⟩
  · simp only [Cursor.push, List.length_append]
    omega
  · have := hcurrent hc
    simp only [Cursor.push, List.length_append]
    omega

theorem Fits.given {c : Cursor U} (h : c.passed ≤ c.log.length) : c.given.Fits := by
  refine ⟨h, fun hc => ?_⟩
  have hsome : c.log[c.passed]?.isSome = true := hc
  obtain ⟨u, hu⟩ := isSome_iff_exists.mp hsome
  exact (List.getElem?_eq_some_iff.mp hu).1

theorem Fits.next {c : Cursor U} (h : c.Fits) : c.next.passed ≤ c.next.log.length := by
  unfold Cursor.next
  cases hc : c.current
  · exact h.passed
  · exact h.current hc

end Cursor

/-! ### The operations -/

/-- What can be done with the queue. -/
inductive Op (U : Type)
  | pushBack (u : U)
  | createReader
  | destroyReader (i : Nat)
  | ffwd (i : Nat)
  | flush
  | get (i : Nat)
  | next (i : Nat)

/-- What is returned: nothing, a reader or what a reader is given. -/
inductive Out (U : Type)
  | nothing
  | reader (i : Nat)
  | route (u : Option U)

/-- The readers of the log. -/
abbrev Log (U : Type) := Nat → Option (Cursor U)

/-- A reader is used only while it exists, and is moved on only after it was given an update. -/
def Legal (A : Log U) : Op U → Prop
  | .destroyReader i | .ffwd i | .get i => ∃ c, A i = some c
  | .next i => ∃ c, A i = some c ∧ c.handed = true
  | _ => True

/-- `next` passes an update that the reader was given, or there is none to pass. -/
def Timely (A : Log U) : Op U → Prop
  | .next i => ∀ c, A i = some c → c.current = true ∨ c.unread = []
  | _ => True

/-- The log. -/
inductive Logs (A : Log U) : Op U → Out U → Log U → Prop
  | pushBack (u : U) : Logs A (.pushBack u) .nothing fun i => (A i).map (·.push u)
  | createReader (i : Nat) (hi : A i = none) :
      Logs A .createReader (.reader i) (Function.update A i (some .start))
  | destroyReader (i : Nat) : Logs A (.destroyReader i) .nothing (Function.update A i none)
  | ffwd (i : Nat) (c : Cursor U) (hc : A i = some c) :
      Logs A (.ffwd i) .nothing (Function.update A i (some c.ffwd))
  | flush : Logs A .flush .nothing fun i => (A i).map (·.ffwd)
  | get (i : Nat) (c : Cursor U) {u : Option U} (hc : A i = some c) (hu : u = c.get) :
      Logs A (.get i) (.route u) (Function.update A i (some c.given))
  | next (i : Nat) (c : Cursor U) {u : Option U} (hc : A i = some c) (hu : u = c.next.get) :
      Logs A (.next i) (.route u) (Function.update A i (some c.next.given))

/-- The queue. -/
def step (Q : UpdateQueue U) : Op U → Except Fault (UpdateQueue U × Out U)
  | .pushBack u => do
      let Q ← Q.pushBack u
      .ok (Q, .nothing)
  | .createReader => do
      let (Q, i) ← Q.addReader
      .ok (Q, .reader i)
  | .destroyReader i => do
      let Q ← Q.removeReader i
      .ok (Q, .nothing)
  | .ffwd i => do
      let Q ← Q.ffwdReader i
      .ok (Q, .nothing)
  | .flush => do
      let Q ← Q.flush
      .ok (Q, .nothing)
  | .get i => do
      let (Q, u) ← Q.read i
      .ok (Q, .route u)
  | .next i => do
      let (Q, u) ← Q.next i
      .ok (Q, .route u)

/-- From the position of every reader on, the blocks hold what the reader has to read. -/
def InStep (Q : UpdateQueue U) (A : Log U) : Prop := ∀ i,
  match Q.readerAt i, A i with
  | some r, some c => Reads Q.segs r.block r.pos c.unread
  | none, none => True
  | _, _ => False

/-- The queue and the log, side by side as long as they are in step. -/
inductive Reach : UpdateQueue U → Log U → Prop
  | create : Reach create fun _ => none
  | step {Q Q' : UpdateQueue U} {A A' : Log U} (h : Reach Q A) (op : Op U) {out : Out U}
      (hlegal : Legal A op) (hstep : step Q op = .ok (Q', out)) (hlogs : Logs A op out A')
      (hin : InStep Q' A') : Reach Q' A'

/-! ### What a reader has not read -/

/-- What is unread of every reader's log. -/
def view (A : Log U) : View U := fun i => (A i).map fun c => (c.unread, c.handed)

variable {A A' : Log U} {c : Cursor U} {op : Op U} {out : Out U}

theorem view_update (o : Option (Cursor U)) : view (update A i o) =
    update (view A) i (o.map fun c => (c.unread, c.handed)) := by
  funext j
  unfold view
  by_cases hj : j = i
  · subst hj
    rw [update_self, update_self]
  · rw [update_of_ne hj, update_of_ne hj]

theorem view_eq (hc : A i = some c) : view A i = some (c.unread, c.handed) := by
  simp [view, hc]

theorem Holds.inStep (h : Holds Q (view A)) : InStep Q A := by
  intro i
  have hreading := h.reading i
  unfold view at hreading
  cases hr : Q.readerAt i <;> cases hc : A i <;> rw [hr, hc] at hreading
  · trivial
  · exact hreading
  · exact hreading
  · exact hreading.1

theorem Cursor.unread_push (h : c.Fits) (u : U) : (c.push u).unread = c.unread ++ [u] := by
  simp only [unread, push]
  rw [List.drop_append_of_le_length h.passed]

theorem Cursor.head_unread : c.unread.head? = c.get := by
  simp [unread, get, List.head?_drop]

/-- What was given or is not there is passed. -/
theorem Cursor.unread_next (h : c.current = true ∨ c.unread = []) :
    c.next.unread = c.unread.tail := by
  unfold next
  cases hc : c.current
  · have hnil := h.resolve_left (by simp [hc])
    simp [hnil]
  · simp [unread, List.tail_drop]

/-- Every reader of the log fits it. -/
def AllFit (A : Log U) : Prop := ∀ i c, A i = some c → c.Fits

theorem AllFit.update {o : Option (Cursor U)} (h : AllFit A) (ho : ∀ c, o = some c → c.Fits) :
    AllFit (update A i o) :=
  (forall_update_iff A (p := fun _ o => ∀ c, o = some c → Cursor.Fits c)).mpr ⟨ho, fun j _ => h j⟩

theorem AllFit.ffwd (h : AllFit A) (c : Cursor U) : AllFit (Function.update A i (some c.ffwd)) :=
  h.update fun _ hc => by cases hc; exact c.fits_ffwd

theorem view_push (h : AllFit A) (u : U) : view (fun i => (A i).map (·.push u)) =
    fun i => (view A i).map fun v => (v.1 ++ [u], v.2) := by
  funext i
  cases hA : A i with
  | none => simp [view, hA]
  | some c =>
    simp only [view, hA, map_some, Cursor.unread_push (h i c hA)]
    rfl

theorem view_flush : view (fun i => (A i).map (·.ffwd)) =
    fun i => (view A i).map fun v => ([], v.2) := by
  funext i
  cases hA : A i with
  | none => simp [view, hA]
  | some c =>
    simp only [view, hA, map_some]
    rfl

/-! ### Runs -/

/-- The queue does what the log does. -/
theorem Holds.step (h : Holds Q (view A)) (hfits : AllFit A) (hlegal : Legal A op)
    (htimely : Timely A op) :
    ∃ Q' out A', UpdateQueue.step Q op = .ok (Q', out) ∧ Logs A op out A' ∧
      Holds Q' (view A') ∧ AllFit A' := by
  cases op with
  | pushBack u =>
    obtain ⟨Q', hpush, h'⟩ := h.pushBack u
    refine ⟨Q', _, _, bind_eq_ok.mpr ⟨Q', hpush, rfl⟩, .pushBack u, ?_, ?_⟩
    · rw [view_push hfits]
      exact h'
    · intro i c hc
      obtain ⟨c', hc', rfl⟩ := map_eq_some_iff.mp hc
      exact (hfits i c' hc').push u
  | createReader =>
    obtain ⟨Q', i, hadd, hnone, h'⟩ := h.addReader
    have hA : A i = none := map_eq_none_iff.mp hnone
    refine ⟨Q', _, _, bind_eq_ok.mpr ⟨(Q', i), hadd, rfl⟩, .createReader i hA, ?_,
      hfits.ffwd .start⟩
    rw [view_update]
    exact h'
  | destroyReader i =>
    obtain ⟨c, hc⟩ := hlegal
    obtain ⟨Q', hremove, h'⟩ := h.removeReader (view_eq hc)
    refine ⟨Q', _, _, bind_eq_ok.mpr ⟨Q', hremove, rfl⟩, .destroyReader i, ?_, ?_⟩
    · rw [view_update]
      exact h'
    · exact hfits.update nofun
  | ffwd i =>
    obtain ⟨c, hc⟩ := hlegal
    obtain ⟨Q', hffwd, h'⟩ := h.ffwdReader (view_eq hc)
    refine ⟨Q', _, _, bind_eq_ok.mpr ⟨Q', hffwd, rfl⟩, .ffwd i c hc, ?_, hfits.ffwd c⟩
    rw [view_update]
    exact h' c.handed
  | flush =>
    obtain ⟨Q', hflush, h'⟩ := h.flush
    refine ⟨Q', _, _, bind_eq_ok.mpr ⟨Q', hflush, rfl⟩, .flush, ?_, ?_⟩
    · rw [view_flush]
      exact h'
    · intro i c hc
      obtain ⟨c', -, rfl⟩ := map_eq_some_iff.mp hc
      exact c'.fits_ffwd
  | get i =>
    obtain ⟨c, hc⟩ := hlegal
    obtain ⟨Q', hread, h'⟩ := h.read (view_eq hc)
    rw [Cursor.head_unread] at hread
    refine ⟨Q', _, _, bind_eq_ok.mpr ⟨(Q', c.get), hread, rfl⟩, .get i c hc rfl, ?_,
      hfits.update fun _ h => by cases h; exact .given (hfits i c hc).passed⟩
    rw [view_update]
    exact h' _
  | next i =>
    obtain ⟨c, hc, hhanded⟩ := hlegal
    obtain ⟨Q', hnext, h'⟩ := h.next (view_eq hc) hhanded
    rw [← Cursor.unread_next (htimely c hc)] at hnext h'
    rw [Cursor.head_unread] at hnext
    refine ⟨Q', _, _, bind_eq_ok.mpr ⟨(Q', c.next.get), hnext, rfl⟩, .next i c hc rfl, ?_,
      hfits.update fun _ h => by cases h; exact .given (hfits i c hc).next⟩
    rw [view_update]
    exact h' _

/-- A `next` that is not timely leaves the queue without an update that the log has. -/
theorem Holds.timely (h : Holds Q (view A)) (hlegal : Legal A op)
    (hstep : UpdateQueue.step Q op = .ok (Q', out)) (hlogs : Logs A op out A')
    (hin : InStep Q' A') : Timely A op := by
  cases hlogs with
  | next i c hc hu =>
    intro c' hc'
    rw [hc] at hc'
    cases hc'
    by_contra hlate
    obtain ⟨hcurrent, hunread⟩ := not_or.mp hlate
    obtain ⟨c', hc', hhanded⟩ := hlegal
    rw [hc] at hc'
    cases hc'
    obtain ⟨Q₁, hnext, h'⟩ := h.next (view_eq hc) hhanded
    obtain ⟨⟨Q₂, u⟩, hnext', hok⟩ := bind_eq_ok.mp hstep
    rw [hnext] at hnext'
    cases hnext'
    cases hok
    -- the queue has one update less for the reader than its cursor
    obtain ⟨r, hr, hreads, -⟩ := (h' false).exists_reader (update_self ..)
    have hrest := hin i
    rw [hr, update_self] at hrest
    have hkept : c.next.given.unread = c.unread := by
      simp [Cursor.next, hcurrent, Cursor.given, Cursor.unread]
    have hsame : c.unread.tail = c.unread :=
      (hreads.unique (h' false).inv.names hrest).trans hkept
    have hlen := congrArg List.length hsame
    have hpos := List.length_pos_iff.mpr hunread
    rw [List.length_tail] at hlen
    omega
  | _ => trivial

/-- What the log says after a step is said by what the step returned. -/
theorem Logs.unique {A₁ A₂ : Log U} (h₁ : Logs A op out A₁) (h₂ : Logs A op out A₂) : A₁ = A₂ := by
  cases h₁ with
  | get i c hc hu =>
    cases h₂ with
    | get _ c' hc' hu' =>
      rw [hc] at hc'
      cases hc'
      rfl
  | next i c hc hu =>
    cases h₂ with
    | next _ c' hc' hu' =>
      rw [hc] at hc'
      cases hc'
      rfl
  | ffwd i c hc =>
    cases h₂ with
    | ffwd _ c' hc' =>
      rw [hc] at hc'
      cases hc'
      rfl
  | _ => cases h₂; rfl

theorem Reach.holds (h : Reach Q A) : Holds Q (view A) ∧ AllFit A := by
  induction h with
  | create => exact ⟨holds_create, nofun⟩
  | step _ op hlegal hstep hlogs hin ih =>
    have htimely := ih.1.timely hlegal hstep hlogs hin
    obtain ⟨Q', out, A', hstep', hlogs', h', hfits'⟩ := ih.1.step ih.2 hlegal htimely
    rw [hstep] at hstep'
    cases hstep'
    rw [hlogs.unique hlogs']
    exact ⟨h', hfits'⟩

/-- A timely operation goes on with the run. -/
theorem Reach.extend (h : Reach Q A) (op : Op U) (hlegal : Legal A op) (htimely : Timely A op)
    (hstep : UpdateQueue.step Q op = .ok (Q', out)) (hlogs : Logs A op out A') : Reach Q' A' := by
  obtain ⟨Q₁, out₁, A₁, hstep₁, hlogs₁, h₁, -⟩ := h.holds.1.step h.holds.2 hlegal htimely
  rw [hstep] at hstep₁
  cases hstep₁
  refine h.step op hlegal hstep hlogs ?_
  rw [hlogs.unique hlogs₁]
  exact h₁.inStep

/-- In every run an operation on the queue returns what it returns for the log and keeps them in
step, exactly if it is not a `next` with which the reader would pass an update that it was not given;
the count of a block is the number of readers in it; and the block that a reader is in has not been
freed. -/
theorem queue_is_log (h : Reach Q A) :
    (∀ op, Legal A op → ((∃ Q' out A', step Q op = .ok (Q', out) ∧ Logs A op out A' ∧ InStep Q' A') ↔
      Timely A op)) ∧
    (∀ b ∈ Q.blocks, b.refs = Q.readersIn b.id) ∧
    ∀ i r, Q.readerAt i = some r → ∃ b ∈ Q.blocks, b.id = r.block := by
  obtain ⟨hQ, hfits⟩ := h.holds
  refine ⟨fun op hlegal => ⟨?_, fun htimely => ?_⟩, hQ.inv.refs, hQ.inv.placed⟩
  · rintro ⟨Q', out, A', hstep, hlogs, hin⟩
    exact hQ.timely hlegal hstep hlogs hin
  · obtain ⟨Q', out, A', hstep, hlogs, h', -⟩ := hQ.step hfits hlegal htimely
    exact ⟨Q', out, A', hstep, hlogs, h'.inStep⟩

/-- Two readers, the second of them created after the first update.  The first reads on. -/
theorem queue_is_log_read : ∃ (Q : UpdateQueue Nat) (A : Log Nat), Reach Q A ∧
    A 0 = some ⟨[7, 8, 9], 1, true, true⟩ ∧ A 1 = some ⟨[8, 9], 0, false, false⟩ ∧
    ∃ Q' out A', step Q (.next 0) = .ok (Q', out) ∧ Logs A (.next 0) out A' ∧ InStep Q' A' := by
  have h₀ : Reach (create : UpdateQueue Nat) fun _ => none := Reach.create
  have h₁ := h₀.extend .createReader trivial trivial rfl (.createReader 0 rfl)
  have h₂ := h₁.extend (.pushBack 7) trivial trivial rfl (.pushBack 7)
  have h₃ := h₂.extend .createReader trivial trivial rfl (.createReader 1 rfl)
  have h₄ := h₃.extend (.pushBack 8) trivial trivial rfl (.pushBack 8)
  have h₅ := h₄.extend (.get 0) ⟨_, rfl⟩ trivial rfl (.get 0 _ rfl rfl)
  have h₆ := h₅.extend (.next 0) ⟨_, rfl, rfl⟩ (fun c hc => by cases hc; exact .inl rfl) rfl
    (.next 0 _ rfl rfl)
  have h₇ := h₆.extend (.pushBack 9) trivial trivial rfl (.pushBack 9)
  exact ⟨_, _, h₇, rfl, rfl, ((queue_is_log h₇).1 (.next 0) ⟨_, rfl, rfl⟩).mpr
    fun c hc => by cases hc; exact .inl rfl⟩

/-- A reader is given an update and sent to the end.  The update that is pushed then is passed by the
`next` that follows, and neither this nor a `get` gives it to the reader. -/
theorem next_passes_unread : ∃ (Q Q' : UpdateQueue Nat) (A : Log Nat), Reach Q A ∧
    Legal A (.next 0) ∧ A 0 = some ⟨[2], 0, false, true⟩ ∧ step Q (.next 0) = .ok (Q', .route none) ∧
    step Q' (.get 0) = .ok (Q', .route none) ∧
    ¬∃ Q' out A', step Q (.next 0) = .ok (Q', out) ∧ Logs A (.next 0) out A' := by
  have h₀ : Reach (create : UpdateQueue Nat) fun _ => none := Reach.create
  have h₁ := h₀.extend .createReader trivial trivial rfl (.createReader 0 rfl)
  have h₂ := h₁.extend (.pushBack 1) trivial trivial rfl (.pushBack 1)
  have h₃ := h₂.extend (.get 0) ⟨_, rfl⟩ trivial rfl (.get 0 _ rfl rfl)
  have h₄ := h₃.extend (.ffwd 0) ⟨_, rfl⟩ trivial rfl (.ffwd 0 _ rfl)
  have h₅ := h₄.extend (.pushBack 2) trivial trivial rfl (.pushBack 2)
  refine ⟨_, _, _, h₅, ⟨_, rfl, rfl⟩, rfl, rfl, rfl, ?_⟩
  rintro ⟨Q', out, A', hstep, hlogs⟩
  cases hlogs with
  | next i c hc hu =>
    cases hc
    cases hstep
    cases hu

end Xorp.Rip.UpdateQueue

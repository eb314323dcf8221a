/-
Reading a message out of a buffer.

A decoder takes bytes at offsets that it computes from lengths inside the message.  It may reject
the message, and that is a result like any other.  What it may not do is take a byte past the end of
the buffer, fail an assertion, or not come to an end.  `Safe` says that it does none of these.

Of a sequence of reads `Safe` says just that every offset is inside the buffer, and the value that
is read is a function of the buffer.  The rules below state this once for each kind of read, as
equivalences, so that they take a decoder apart from its first line to its last and leave the
inequalities between offsets.  Lengths are kept in an unsigned word, and a difference that would be
negative wraps around.
-/
import Mathlib.Tactic.Ring

namespace Xorp.Bytes

/-- A buffer, not longer than an unsigned word can say. -/
structure Buffer where
  data : List UInt8
  fits : data.length < 2 ^ 64

/-- Why a decoder stops without a result. -/
inductive Stop (ε : Type)
  | invalid (reason : ε)
  | outOfBounds
  | assertion
  | outOfFuel

/-- What a decoder does. -/
abbrev Read (ε α : Type) := Except (Stop ε) α

variable {ε α β : Type} {d : Buffer} {a b i n : Nat}

/-- A result, or the message is rejected. -/
def Safe (x : Read ε α) : Prop := ∀ stop, x = .error stop → ∃ reason, stop = .invalid reason

namespace Buffer

section
variable (d : Buffer)

def size : Nat := d.data.length

/-- The byte at an offset, where there is one. -/
def u8 (i : Nat) : Nat := (d.data.getD i 0).toNat

/-- The number in the two bytes from an offset on, the high one first. -/
def u16 (i : Nat) : Nat := d.u8 i * 2 ^ 8 + d.u8 (i + 1)

def u24 (i : Nat) : Nat := d.u16 i * 2 ^ 8 + d.u8 (i + 2)

def u32 (i : Nat) : Nat := d.u24 i * 2 ^ 8 + d.u8 (i + 3)

/-- A row of bytes. -/
def slice (i n : Nat) : List UInt8 := (d.data.drop i).take n

theorem size_lt : d.size < 2 ^ 64 := d.fits

theorem u8_lt (i : Nat) : d.u8 i < 2 ^ 8 := (d.data.getD i 0).toNat_lt

theorem u16_lt (i : Nat) : d.u16 i < 2 ^ 16 := by
  have h0 := d.u8_lt i
  have h1 := d.u8_lt (i + 1)
  unfold u16
  omega

end

end Buffer

/-! ### Unsigned words -/

/-- A difference in 64 bits. -/
def sub64 (a b : Nat) : Nat := (a + (2 ^ 64 - b % 2 ^ 64)) % 2 ^ 64

theorem sub64_of_le (hb : b ≤ a) (ha : a < 2 ^ 64) : sub64 a b = a - b := by
  unfold sub64
  omega

theorem sub64_of_lt (hb : a < b) (hlt : b < 2 ^ 64) : sub64 a b = 2 ^ 64 - (b - a) := by
  unfold sub64
  omega

/-- An unsigned word put into a signed one of 32 bits, as the bound of a loop that counts from
zero: nothing when it comes out negative. -/
def countInt (n : Nat) : Nat := if n % 2 ^ 32 < 2 ^ 31 then n % 2 ^ 32 else 0

theorem countInt_of_lt (h : n < 2 ^ 31) : countInt n = n := by
  unfold countInt
  rw [Nat.mod_eq_of_lt (by omega), if_pos h]

/-! ### Reads -/

/-- `ptr[i]`. -/
def byte (d : Buffer) (i : Nat) : Read ε Nat :=
  if i < d.size then .ok (d.u8 i) else .error .outOfBounds

def extract16 (d : Buffer) (i : Nat) : Read ε Nat := do
  let hi ← byte d i
  let lo ← byte d (i + 1)
  .ok (hi * 2 ^ 8 + lo)

def extract24 (d : Buffer) (i : Nat) : Read ε Nat := do
  let hi ← extract16 d i
  let lo ← byte d (i + 2)
  .ok (hi * 2 ^ 8 + lo)

def extract32 (d : Buffer) (i : Nat) : Read ε Nat := do
  let hi ← extract24 d i
  let lo ← byte d (i + 3)
  .ok (hi * 2 ^ 8 + lo)

/-- `memcpy`.  Of no bytes it reads nothing, wherever the source is. -/
def slice (d : Buffer) (i n : Nat) : Read ε (List UInt8) :=
  if n = 0 then .ok [] else if i + n ≤ d.size then .ok (d.slice i n) else .error .outOfBounds

/-- The message is rejected unless a condition holds. -/
def check (ok : Prop) [Decidable ok] (reason : ε) : Read ε Unit :=
  if ok then .ok () else .error (.invalid reason)

/-- `XLOG_ASSERT`. -/
def verify (ok : Prop) [Decidable ok] : Read ε Unit :=
  if ok then .ok () else .error .assertion

/-- A loop that reads `n` items, with a counter from `i` on. -/
def readMany (f : Nat → Read ε α) : Nat → Nat → Read ε (List α)
  | 0, _ => .ok []
  | n + 1, i => do
      let a ← f i
      let rest ← readMany f n (i + 1)
      .ok (a :: rest)

/-! ### When a sequence is safe -/

@[simp] theorem safe_ok (a : α) : Safe (.ok a : Read ε α) := by
  intro stop h
  cases h

@[simp] theorem safe_invalid (reason : ε) : Safe (.error (.invalid reason) : Read ε α) := by
  intro stop h
  cases h
  exact ⟨reason, rfl⟩

theorem not_safe {stop : Stop ε} (hstop : ∀ reason, stop ≠ .invalid reason) :
    ¬ Safe (.error stop : Read ε α) := by
  intro h
  obtain ⟨reason, hr⟩ := h _ rfl
  exact hstop reason hr

@[simp] theorem not_safe_outOfBounds : ¬ Safe (.error .outOfBounds : Read ε α) := not_safe nofun

@[simp] theorem not_safe_assertion : ¬ Safe (.error .assertion : Read ε α) := not_safe nofun

@[simp] theorem not_safe_outOfFuel : ¬ Safe (.error .outOfFuel : Read ε α) := not_safe nofun

/-- Does a decoder read past the end? -/
def readsOutside : Read ε α → Bool
  | .error .outOfBounds => true
  | _ => false

variable {f : Nat → Read ε β} {x : Read ε α} {ok : Prop} {v : β} {reason : ε}

theorem eq_of_readsOutside (h : readsOutside x = true) : x = .error .outOfBounds := by
  unfold readsOutside at h
  split at h
  · rfl
  · cases h

/-- Does a decoder fail an assertion? -/
def failsAssertion : Read ε α → Bool
  | .error .assertion => true
  | _ => false

theorem eq_of_failsAssertion (h : failsAssertion x = true) : x = .error .assertion := by
  unfold failsAssertion at h
  split at h
  · rfl
  · cases h

theorem safe_iff_cases : Safe x ↔ (∃ a, x = .ok a) ∨ ∃ reason, x = .error (.invalid reason) := by
  cases x with
  | ok a => exact iff_of_true (safe_ok a) (.inl ⟨a, rfl⟩)
  | error stop =>
    constructor
    · intro h
      obtain ⟨reason, rfl⟩ := h stop rfl
      exact .inr ⟨reason, rfl⟩
    · rintro (⟨a, ha⟩ | ⟨reason, hr⟩)
      · cases ha
      · rw [hr]
        exact safe_invalid reason

/-- The reason for which a part stopped is the reason of the whole. -/
theorem Safe.rethrow {stop : Stop ε} (h : Safe (.error stop : Read ε α)) :
    Safe (.error stop : Read ε β) := by
  intro stop' heq
  cases heq
  exact h stop rfl

theorem safe_bind {f : α → Read ε β} : Safe (x >>= f) ↔ Safe x ∧ ∀ a, x = .ok a → Safe (f a) := by
  cases x with
  | ok a =>
    refine ⟨fun h => ⟨safe_ok a, fun b hb => ?_⟩, fun h => h.2 a rfl⟩
    cases hb
    exact h
  | error stop => exact ⟨fun h => ⟨h.rethrow, nofun⟩, fun h => h.1.rethrow⟩

theorem safe_ok_bind (a : α) (f : α → Read ε β) : Safe (.ok a >>= f) ↔ Safe (f a) := Iff.rfl

/-! ### Fixed layouts -/

/-- What is read at offsets that are known beforehand: a value when all of them are inside the
buffer. -/
structure Reads (x : Read ε α) (inside : Prop) (value : α) : Prop where
  yes : inside → x = .ok value
  no : ¬ inside → x = .error .outOfBounds

section Reads

variable {p q : Prop} {f : α → Read ε β} {v : α} {u : β}

theorem Reads.of_iff (h : Reads x p v) (hpq : p ↔ q) : Reads x q v :=
  ⟨fun hq => h.yes (hpq.mpr hq), fun hq => h.no fun hp => hq (hpq.mp hp)⟩

theorem reads_ok (v : α) : Reads (.ok v : Read ε α) True v :=
  ⟨fun _ => rfl, fun h => absurd trivial h⟩

theorem Reads.bind (hx : Reads x p v) (hf : Reads (f v) q u) :
    Reads (x >>= f) (p ∧ q) u := by
  by_cases hp : p
  · rw [hx.yes hp]
    exact ⟨fun h => hf.yes h.2, fun h => hf.no fun hq => h ⟨hp, hq⟩⟩
  · rw [hx.no hp]
    exact ⟨fun h => absurd h.1 hp, fun _ => rfl⟩

theorem Reads.map (g : α → β) (hx : Reads x p v) : Reads (x >>= fun a => .ok (g a)) p (g v) :=
  (hx.bind (reads_ok (g v))).of_iff (and_iff_left trivial)

section
variable (h : Reads x p v)
include h

theorem Reads.safe_bind : Safe (x >>= f) ↔ p ∧ Safe (f v) := by
  by_cases hp : p
  · rw [h.yes hp]
    exact ⟨fun hf => ⟨hp, hf⟩, fun hf => hf.2⟩
  · rw [h.no hp]
    exact ⟨fun hf => absurd hf not_safe_outOfBounds, fun hf => absurd hf.1 hp⟩

theorem Reads.safe_iff : Safe x ↔ p := by
  by_cases hp : p
  · rw [h.yes hp]
    exact ⟨fun _ => hp, fun _ => safe_ok v⟩
  · rw [h.no hp]
    exact ⟨fun hf => absurd hf not_safe_outOfBounds, fun hf => absurd hf hp⟩

theorem Reads.eq_of_ok {w : α} (hx : x = .ok w) : p ∧ w = v := by
  by_cases hp : p
  · rw [h.yes hp] at hx
    cases hx
    exact ⟨hp, rfl⟩
  · rw [h.no hp] at hx
    cases hx

theorem Reads.bind_eq_ok {b : β} : (x >>= f) = .ok b ↔ p ∧ f v = .ok b := by
  by_cases hp : p
  · rw [h.yes hp]
    exact ⟨fun hf => ⟨hp, hf⟩, fun hf => hf.2⟩
  · rw [h.no hp]
    exact ⟨nofun, fun hf => absurd hf.1 hp⟩

end

end Reads

section
variable (d : Buffer) (i : Nat)

theorem reads_byte : Reads (byte d i : Read ε _) (i + 1 ≤ d.size) (d.u8 i) :=
  ⟨fun h => if_pos h, fun h => if_neg h⟩

theorem reads_extract16 : Reads (extract16 d i : Read ε _) (i + 2 ≤ d.size) (d.u16 i) :=
  ((reads_byte d i).bind ((reads_byte d (i + 1)).map _)).of_iff (by omega)

theorem reads_extract24 : Reads (extract24 d i : Read ε _) (i + 3 ≤ d.size) (d.u24 i) :=
  ((reads_extract16 d i).bind ((reads_byte d (i + 2)).map _)).of_iff (by omega)

theorem reads_extract32 : Reads (extract32 d i : Read ε _) (i + 4 ≤ d.size) (d.u32 i) :=
  ((reads_extract24 d i).bind ((reads_byte d (i + 3)).map _)).of_iff (by omega)

end

theorem reads_slice (d : Buffer) (i n : Nat) :
    Reads (slice d i n : Read ε _) (n = 0 ∨ i + n ≤ d.size) (d.slice i n) := by
  unfold slice
  by_cases hn : n = 0
  · subst hn
    exact ⟨fun _ => congrArg Except.ok List.take_zero.symm, fun h => absurd (.inl rfl) h⟩
  · rw [if_neg hn]
    exact ⟨fun h => if_pos (h.resolve_left hn), fun h => if_neg fun hle => h (.inr hle)⟩

theorem safe_byte :
    Safe (byte d i >>= f) ↔ i + 1 ≤ d.size ∧ Safe (f (d.u8 i)) := (reads_byte d i).safe_bind

theorem safe_extract16 : Safe (extract16 d i >>= f) ↔ i + 2 ≤ d.size ∧ Safe (f (d.u16 i)) :=
  (reads_extract16 d i).safe_bind

theorem safe_extract24 : Safe (extract24 d i >>= f) ↔ i + 3 ≤ d.size ∧ Safe (f (d.u24 i)) :=
  (reads_extract24 d i).safe_bind

theorem safe_extract32 : Safe (extract32 d i >>= f) ↔ i + 4 ≤ d.size ∧ Safe (f (d.u32 i)) :=
  (reads_extract32 d i).safe_bind

theorem safe_slice {f : List UInt8 → Read ε β} :
    Safe (slice d i n >>= f) ↔ (n = 0 ∨ i + n ≤ d.size) ∧ Safe (f (d.slice i n)) :=
  (reads_slice d i n).safe_bind

/-! ### When a sequence has a result -/

theorem extract16_bind_eq_ok :
    (extract16 d i >>= f) = .ok v ↔ i + 2 ≤ d.size ∧ f (d.u16 i) = .ok v :=
  (reads_extract16 d i).bind_eq_ok

theorem check_bind_eq_ok [Decidable ok] {f : Unit → Read ε β} :
    (check ok reason >>= f) = .ok v ↔ ok ∧ f () = .ok v := by
  unfold check
  by_cases h : ok
  · rw [if_pos h]
    exact ⟨fun hf => ⟨h, hf⟩, fun hf => hf.2⟩
  · rw [if_neg h]
    exact ⟨nofun, fun hf => absurd hf.1 h⟩

theorem guard_eq_ok [Decidable ok] {stop : Stop ε} {u : Unit} :
    (if ok then .ok () else .error stop : Read ε Unit) = .ok u ↔ ok := by
  by_cases h : ok
  · rw [if_pos h]
    exact ⟨fun _ => h, fun _ => rfl⟩
  · rw [if_neg h]
    exact ⟨nofun, fun hok => absurd hok h⟩

/-! ### Checks and loops -/

theorem safe_check [Decidable ok] {f : Unit → Read ε β} :
    Safe (check ok reason >>= f) ↔ (ok → Safe (f ())) := by
  unfold check
  by_cases h : ok
  · rw [if_pos h]
    exact ⟨fun hf _ => hf, fun hf => hf h⟩
  · rw [if_neg h]
    exact ⟨fun _ hok => absurd hok h, fun _ => safe_invalid reason⟩

theorem safe_check_last [Decidable ok] : Safe (check ok reason) := by
  unfold check
  split
  · exact safe_ok ()
  · exact safe_invalid reason

theorem safe_verify [Decidable ok] {f : Unit → Read ε β} :
    Safe (verify ok >>= f) ↔ ok ∧ Safe (f ()) := by
  unfold verify
  by_cases h : ok
  · rw [if_pos h]
    exact ⟨fun hf => ⟨h, hf⟩, fun hf => hf.2⟩
  · rw [if_neg h]
    exact ⟨fun hf => absurd (safe_bind.mp hf).1 not_safe_assertion, fun hf => absurd hf.1 h⟩

/-! ### What a result is like -/

/-- The results of a decoder have a property. -/
def Ensures (x : Read ε α) (P : α → Prop) : Prop := ∀ a, x = .ok a → P a

section Ensures

variable {f : α → Read ε β} {P : α → Prop} {Q : β → Prop}

theorem ensures_ok {a : α} (h : P a) : Ensures (.ok a : Read ε α) P := by
  intro b hb
  cases hb
  exact h

theorem ensures_error (stop : Stop ε) : Ensures (.error stop : Read ε α) P := by
  intro a ha
  cases ha

theorem Ensures.bind (hx : Ensures x P) (hf : ∀ a, P a → Ensures (f a) Q) :
    Ensures (x >>= f) Q := by
  cases x with
  | ok a => exact hf a (hx a rfl)
  | error stop => exact ensures_error stop

/-- A step about which nothing has to be known. -/
theorem ensures_bind (hf : ∀ a, Ensures (f a) Q) : Ensures (x >>= f) Q :=
  Ensures.bind (P := fun _ => True) (fun _ _ => trivial) fun a _ => hf a

theorem Reads.ensures {p : Prop} {v : α} (h : Reads x p v) :
    Ensures x fun a => p ∧ a = v := fun _ ha => h.eq_of_ok ha

theorem ensures_check [Decidable ok] {f : Unit → Read ε β} (hf : ok → Ensures (f ()) Q) :
    Ensures (check ok reason >>= f) Q :=
  Ensures.bind (fun _ => guard_eq_ok.mp) fun _ => hf

theorem ensures_verify [Decidable ok] {f : Unit → Read ε β} (hf : ok → Ensures (f ()) Q) :
    Ensures (verify ok >>= f) Q :=
  Ensures.bind (fun _ => guard_eq_ok.mp) fun _ => hf

end Ensures

/-- A loop over items of a fixed layout. -/
theorem reads_readMany {f : Nat → Read ε α} {inside : Nat → Prop} {g : Nat → α}
    (hf : ∀ j, Reads (f j) (inside j) (g j)) (n i : Nat) :
    Reads (readMany f n i) (∀ j, i ≤ j → j < i + n → inside j) ((List.range' i n).map g) := by
  induction n generalizing i with
  | zero => exact (reads_ok _).of_iff (iff_of_true trivial fun j hij hj => absurd hj (by omega))
  | succ n ih =>
    refine ((hf i).bind ((ih (i + 1)).map (g i :: ·))).of_iff ⟨fun h j hij hj => ?_, fun h => ?_⟩
    · rcases Nat.eq_or_lt_of_le hij with rfl | hlt
      · exact h.1
      · exact h.2 j hlt (by omega)
    · exact ⟨h i (Nat.le_refl i) (by omega), fun j hij hj => h j (by omega) (by omega)⟩

end Xorp.Bytes

/-
Streams of additions and removals.

A component that passes on the entries of a table sends each one as an addition and takes
it back with a removal.  `replay` is what a receiver that starts from nothing holds in the
end, if every addition was for a key it held nothing for and every removal named the entry
it held; otherwise there is no answer.

Some streams also replace the entry of a key in one message, and some receivers do not mind
how a removal names the entry it takes back.  `follow` is the replay of such a stream, for
any rule of what a removal may name.
-/
import Mathlib.Logic.Function.Basic

namespace Stream

open Function Option

variable {κ ρ : Type} [DecidableEq κ] [DecidableEq ρ]

inductive Change (ρ : Type) where
  | add (r : ρ)
  | delete (r : ρ)
deriving DecidableEq, Repr

/-- One message, for a receiver that holds `held`. -/
def apply (key : ρ → κ) (held : κ → Option ρ) : Change ρ → Option (κ → Option ρ)
  | .add r => if held (key r) = none then some (Function.update held (key r) (some r)) else none
  | .delete r =>
      if held (key r) = some r then some (Function.update held (key r) none) else none

/-- What a receiver that starts from nothing holds after the messages. -/
def replay (key : ρ → κ) (ms : List (Change ρ)) : Option (κ → Option ρ) :=
  ms.foldlM (apply key) fun _ => none

variable {key : ρ → κ} {ms : List (Change ρ)} {held : κ → Option ρ}

@[simp] theorem replay_nil : replay key [] = some fun _ => none := rfl

section
variable (h : replay key ms = some held)
include h

theorem replay_concat (c : Change ρ) : replay key (ms ++ [c]) = apply key held c := by
  unfold replay at h ⊢
  rw [List.foldlM_append, h]
  simp

theorem replay_add {r : ρ} (hr : held (key r) = none) :
    replay key (ms ++ [.add r]) = some (update held (key r) (some r)) := by
  rw [replay_concat h, apply, if_pos hr]

theorem replay_delete {r : ρ} (hr : held (key r) = some r) :
    replay key (ms ++ [.delete r]) = some (update held (key r) none) := by
  rw [replay_concat h, apply, if_pos hr]

end

/-! ### Streams with replacements -/

section
omit [DecidableEq ρ]

inductive Update (ρ : Type) where
  | add (r : ρ)
  | replace (old new : ρ)
  | delete (r : ρ)
deriving DecidableEq, Repr

namespace Update

/-- The key a message is about. -/
def target (key : ρ → κ) : Update ρ → κ
  | .add r | .delete r => key r
  | .replace old _ => key old

/-- What is held for the key afterwards. -/
def value : Update ρ → Option ρ
  | .add r => some r
  | .replace _ new => some new
  | .delete _ => none

/-- How a message names the entry it takes back, if it does. -/
def takenBack : Update ρ → Option ρ
  | .add _ => none
  | .replace old _ => some old
  | .delete r => some r

/-- Whether a receiver that holds `held` for the key can take the message.  `names d r` says
that `d` may stand for the entry `r` where one is taken back. -/
def Fits (names : ρ → ρ → Bool) (key : ρ → κ) (held : Option ρ) : Update ρ → Prop
  | .add _ => held = none
  | .replace old new => key new = key old ∧ held.any (names old) = true
  | .delete r => held.any (names r) = true

instance (names : ρ → ρ → Bool) (key : ρ → κ) (held : Option ρ) (u : Update ρ) :
    Decidable (u.Fits names key held) := by
  cases u with
  | add _ => exact decidable_of_iff (held.isNone = true) Option.isNone_iff_eq_none
  | replace old new =>
      exact inferInstanceAs (Decidable (key new = key old ∧ held.any (names old) = true))
  | delete r => exact inferInstanceAs (Decidable (held.any (names r) = true))

/-- One message, for a receiver that holds `held`. -/
def apply (names : ρ → ρ → Bool) (key : ρ → κ) (held : κ → Option ρ) (u : Update ρ) :
    Option (κ → Option ρ) :=
  if u.Fits names key (held (u.target key)) then
    some (Function.update held (u.target key) u.value)
  else none

variable {names : ρ → ρ → Bool} {u : Update ρ} {after : κ → Option ρ}

theorem apply_eq_some : u.apply names key held = some after ↔
    u.Fits names key (held (u.target key)) ∧ after = update held (u.target key) u.value := by
  rw [apply, ite_none_right_eq_some, some.injEq, eq_comm (a := after)]

omit [DecidableEq κ] in
/-- An entry that arrives has the key of the message. -/
theorem Fits.key_value {o : Option ρ} (h : u.Fits names key o) {r : ρ} (hr : u.value = some r) :
    key r = u.target key := by
  cases u with
  | add x => rw [← some.inj hr, target]
  | replace old new =>
    rw [← some.inj hr, target]
    exact h.1
  | delete x => simp [value] at hr

/-- What is held stays under its own key. -/
theorem apply_keyed (h : u.apply names key held = some after)
    (hkeyed : ∀ k r, held k = some r → key r = k) : ∀ k r, after k = some r → key r = k := by
  obtain ⟨hfits, rfl⟩ := apply_eq_some.mp h
  exact (forall_update_iff held fun k x => ∀ r, x = some r → key r = k).mpr
    ⟨fun _ hr => hfits.key_value hr, fun k _ => hkeyed k⟩

end Update

/-- What a receiver that starts from nothing holds after the messages. -/
def follow (names : ρ → ρ → Bool) (key : ρ → κ) (us : List (Update ρ)) :
    Option (κ → Option ρ) :=
  us.foldlM (Update.apply names key) fun _ => none

variable {names : ρ → ρ → Bool} {us : List (Update ρ)}

theorem follow_concat (h : follow names key us = some held) {u : Update ρ}
    (hu : u.Fits names key (held (u.target key))) :
    follow names key (us ++ [u]) = some (update held (u.target key) u.value) := by
  unfold follow at h ⊢
  rw [List.foldlM_append, h]
  simp [Update.apply, hu]

end

/-- The rule that a removal names the entry that is held. -/
def exact (d r : ρ) : Bool := decide (d = r)

omit [DecidableEq κ] in
theorem any_exact {o : Option ρ} {r : ρ} : o.any (exact r) = true ↔ o = some r := by
  cases o with
  | none => simp
  | some x => simp [exact, eq_comm]

end Stream

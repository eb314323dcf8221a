/-
Runs of the fanout queue.

What was issued for a table is what it has received and what is pending, in every run in which no
table is replaced before it has read everything.  Entries are freed from the head, so one in the
middle can stay when nobody wants it any more; it does not if the last reader of an entry is at the
head.
-/
import Mathlib.Data.List.TakeWhile
import Xorp.Bgp.FanoutQueue

namespace Xorp.Bgp

open Linked List Except Nat Function

variable {τ π ρ α : Type}

namespace FanoutTable

open QueueItem

/-! ### Runs -/

section
variable [DecidableEq τ] [DecidableEq π]

/-- The operations of the route tables, with the peer they come from. -/
def Op.change : Op τ π ρ α → Option (Option π × NextCall π ρ α)
  | .addRoute _ m => some (some m.originPeer, .addRoute m.delivery)
  | .deleteRoute _ m => some (some m.originPeer, .deleteRoute m.delivery)
  | .replaceRoute _ old new =>
      some (some old.originPeer, .replaceRoute { old with push := false }.delivery new.delivery)
  | .push _ => some (none, .push)
  | _ => none

/-- What the callers see to: attribute lists are not in use, the peer of a replacement is one, and
the tables are there. -/
def Legal (S : FanoutTable τ π ρ α) : Op τ π ρ α → Prop
  | .addRoute _ m | .deleteRoute _ m => m.attributes.ref ∉ S.locked
  | .replaceRoute _ old new =>
      new.originPeer = old.originPeer ∧ old.attributes.ref ∉ S.locked ∧
        new.attributes.ref ∉ S.locked ∧ new.attributes.ref ≠ old.attributes.ref
  | .push _ => True
  | .getNextMessage t => t ∈ S.order
  | .addNextTable .. => True
  | .removeNextTable t => t ∈ S.order
  | .replaceNextTable _ old new => old ∈ S.order ∧ new ∉ S.order

instance (S : FanoutTable τ π ρ α) (op : Op τ π ρ α) : Decidable (S.Legal op) := by
  cases op <;> unfold Legal <;> infer_instance

/-- Every table that is woken has asked for data since it was woken 20 minutes ago. -/
def Woken (S : FanoutTable τ π ρ α) : Op τ π ρ α → Prop
  | .addRoute now m | .deleteRoute now m =>
      ∀ t ∈ S.queuedPeers m.originPeer, Prompt now (S.info t)
  | .replaceRoute now old _ => ∀ t ∈ S.queuedPeers old.originPeer, Prompt now (S.info t)
  | .push now => ∀ t ∈ S.order, Prompt now (S.info t)
  | _ => True

instance (S : FanoutTable τ π ρ α) (op : Op τ π ρ α) : Decidable (S.Woken op) := by
  cases op <;> unfold Woken <;> infer_instance

/-- A table is replaced only when it has read everything. -/
def Drained (S : FanoutTable τ π ρ α) : Op τ π ρ α → Prop
  | .replaceNextTable _ old _ => (S.info old).hasQueuedData = false
  | _ => True

/-- What was issued for a table: what it had received when it was plumbed, and then every
operation from another peer. -/
def issuedAfter (S : FanoutTable τ π ρ α) (issued : τ → List (NextCall π ρ α)) (op : Op τ π ρ α)
    (t : τ) : List (NextCall π ρ α) :=
  match op, op.change with
  | .addNextTable _ u _ _, _ => if t = u ∧ u ∉ S.order then S.received t else issued t
  | .replaceNextTable _ _ new, _ => if t = new then S.received t else issued t
  | _, some (origin, c) =>
      if t ∈ S.order ∧ origin ≠ some (S.info t).peerHandler then issued t ++ [c] else issued t
  | _, none => issued t

/-- The states of a run whose steps all satisfy `ok`, with what was issued. -/
inductive Reach (ok : FanoutTable τ π ρ α → Op τ π ρ α → Prop) :
    FanoutTable τ π ρ α → (τ → List (NextCall π ρ α)) → Prop
  | init (info : τ → PeerTableInfo π) : Reach ok (.empty info) fun _ => []
  | step {S S' : FanoutTable τ π ρ α} {issued : τ → List (NextCall π ρ α)} (op : Op τ π ρ α)
      (h : Reach ok S issued) (hlegal : S.Legal op) (hok : ok S op) (hstep : S.step op = .ok S') :
      Reach ok S' (S.issuedAfter issued op)

variable {S S' : FanoutTable τ π ρ α} {items : List (QueueItem π ρ α)} {t : τ}
  {issued : τ → List (NextCall π ρ α)} {op : Op τ π ρ α} {origin : Option π}
  {c : NextCall π ρ α}

variable {a : QueueItem π ρ α}

omit [DecidableEq τ] in
theorem for_queuedPeers {peer : π} (ha : a.originPeer = some peer) :
    For S (S.queuedPeers peer) a := by
  intro t
  rw [queuedPeers, mem_filter, ha, decide_eq_true_iff, Ne, Ne, Option.some_inj, eq_comm]

omit [DecidableEq τ] [DecidableEq π] in
theorem for_order (ha : a.originPeer = none) : For S S.order a := by
  intro t
  rw [ha]
  exact ⟨fun h => ⟨h, by simp⟩, And.left⟩

omit [DecidableEq τ] [DecidableEq π] in
theorem nodup_append_singleton {x : Nat} (h : S.locked.Nodup) (hx : x ∉ S.locked) :
    (S.locked ++ [x]).Nodup :=
  (perm_append_singleton ..).nodup_iff.mpr (nodup_cons.mpr ⟨hx, h⟩)

omit [DecidableEq π] in
/-- Without a table for it an operation is not queued. -/
theorem queued_or_none {ts : List τ} {run : Except Fault (FanoutTable τ π ρ α)}
    (hrun : ∃ S', run = .ok S' ∧ Appended S ts a S') (hnodup : (S.locked ++ a.refs).Nodup) :
    ∃ S', (if ts = [] then .ok S else run) = .ok S' ∧ (ts = [] ∧ S' = S ∨
      ts ≠ [] ∧ Appended S ts a S' ∧ (S.locked ++ a.refs).Nodup) := by
  by_cases hts : ts = []
  · exact ⟨S, if_pos hts, .inl ⟨hts, rfl⟩⟩
  · obtain ⟨S', hrun, happ⟩ := hrun
    exact ⟨S', (if_neg hts).trans hrun, .inr ⟨hts, happ, hnodup⟩⟩

/-- **An operation is queued for the tables of the other peers**, or there are none. -/
theorem step_change (h : Inv S items) (hlegal : S.Legal op) (hwoken : S.Woken op)
    (hchange : op.change = some (origin, c)) :
    ∃ (ts : List τ) (a : QueueItem π ρ α) (S' : FanoutTable τ π ρ α),
      a.originPeer = origin ∧ a.call = c ∧ For S ts a ∧ S.step op = .ok S' ∧
      (ts = [] ∧ S' = S ∨ ts ≠ [] ∧ Appended S ts a S' ∧ (S.locked ++ a.refs).Nodup) := by
  cases op with
  | addRoute now m =>
    cases hchange
    obtain ⟨S', hrun, hresult⟩ := queued_or_none
      (addToQueue_eq (a := .add m) rfl rfl hlegal hwoken) (nodup_append_singleton h.nodup hlegal)
    exact ⟨_, .add m, S', rfl, rfl, for_queuedPeers rfl, (if_neg hlegal).trans hrun, hresult⟩
  | deleteRoute now m =>
    cases hchange
    obtain ⟨S', hrun, hresult⟩ := queued_or_none
      (addToQueue_eq (a := .delete m) rfl rfl hlegal hwoken)
      (nodup_append_singleton h.nodup hlegal)
    exact ⟨_, .delete m, S', rfl, rfl, for_queuedPeers rfl, (if_neg hlegal).trans hrun, hresult⟩
  | replaceRoute now old new =>
    cases hchange
    obtain ⟨hsame, hold, hnew, hne⟩ := hlegal
    have hpeer : ¬ old.originPeer ≠ new.originPeer := not_not_intro hsame.symm
    have hnodup : (S.locked ++ refs (.replace old new hsame)).Nodup := by
      refine nodup_append.mpr ⟨h.nodup, ?_, ?_⟩
      · exact nodup_cons.mpr ⟨by simpa using hne.symm, nodup_singleton _⟩
      · intro x hx y hy he
        rcases mem_cons.mp hy with hy | hy
        · exact hold (hy ▸ he ▸ hx)
        · exact hnew (mem_singleton.mp hy ▸ he ▸ hx)
    obtain ⟨S', hrun, hresult⟩ :=
      queued_or_none (addReplaceToQueue_eq hsame hold hnew hne hwoken) hnodup
    exact ⟨_, .replace old new hsame, S', rfl, rfl, for_queuedPeers rfl,
      (if_neg hpeer).trans hrun, hresult⟩
  | push now =>
    cases hchange
    have hnodup : (S.locked ++ refs (.push : QueueItem π ρ α)).Nodup := by
      rw [refs, append_nil]
      exact h.nodup
    obtain ⟨S', hrun, hresult⟩ := queued_or_none (addPushToQueue_eq (S := S) hwoken) hnodup
    exact ⟨_, .push, S', rfl, rfl, for_order rfl, hrun, hresult⟩
  | getNextMessage t => cases hchange
  | addNextTable now t peer genid => cases hchange
  | removeNextTable t => cases hchange
  | replaceNextTable now old new => cases hchange

omit [DecidableEq τ] in
theorem pending_congr (hqueue : S'.outputQueue = S.outputQueue) (hbase : S'.base = S.base)
    (h : SameReader (S.info t) (S'.info t)) : S'.pending t = S.pending t := by
  unfold pending
  rw [hqueue, hbase, h.data, h.posn, h.peer]

omit [DecidableEq τ] in
theorem pending_eq_nil (h : (S.info t).hasQueuedData = false) : S.pending t = [] := by
  rw [pending, h]
  rfl

/-- **Asking takes the first of what is pending**, and changes nothing for the others. -/
theorem getNextMessage_pending (h : Inv S items) (ht : t ∈ S.order) :
    ∃ S' rest, S.getNextMessage t = .ok S' ∧ Inv S' rest ∧ S'.order = S.order ∧
      S'.received t = S.received t ++ (S.pending t).take 1 ∧
      S'.pending t = (S.pending t).drop 1 ∧
      ∀ u ∈ S.order, u ≠ t → S'.received u = S.received u ∧ S'.pending u = S.pending u := by
  obtain ⟨post, hr⟩ := h.reads t ht
  cases post with
  | nil =>
    cases hr with
    | nothing hno =>
      set T := S.setInfo t { (S.info t).receivedGet with isReady := true } with hT
      have hsame : ∀ u, SameReader (S.info u) (T.info u) :=
        sameReader_setInfo (S := S) ⟨rfl, rfl, rfl⟩
      have hkeep : ∀ u, T.pending u = S.pending u := fun u => pending_congr rfl rfl (hsame u)
      refine ⟨T, items, (if_neg (not_not_intro ht)).trans (if_pos hno),
        h.congr rfl rfl rfl rfl hsame, rfl, ?_, ?_, ?_⟩
      · rw [pending_eq_nil hno, take_nil, append_nil]
        rfl
      · rw [hkeep, pending_eq_nil hno]
        rfl
      · exact fun u _ _ => ⟨rfl, hkeep u⟩
  | cons a post =>
    obtain ⟨S', gone, rest, hrun, hmoved, hcalls, hr'⟩ := getNextMessage_eq h ht hr
    obtain ⟨-, -, -, -, ha⟩ := hr.split
    have hreceived : ∀ u, S'.received u = S.received u ++ if t = u then [a.call] else [] := by
      intro u
      rw [← received_call]
      exact received_congr hcalls
    have hpending : S.pending t = a.call :: callsFor (S.info t).peerHandler post := by
      rw [FanoutTable.pending_eq h.queue hr, callsFor_cons ha]
    refine ⟨S', rest, hrun, hmoved.inv, hmoved.order, ?_, ?_, ?_⟩
    · rw [hreceived t, if_pos rfl, hpending]
      rfl
    · rw [FanoutTable.pending_eq hmoved.inv.queue hr', hmoved.peer, callsFor_pastOwn, hpending]
      rfl
    · intro u hu hne
      rw [hreceived u, if_neg hne.symm, append_nil]
      exact ⟨rfl, hmoved.pending_eq h.queue hu hne⟩

theorem removeNextTable_eq (h : Inv S items) (ht : t ∈ S.order) :
    ∃ S' gone rest, S.removeNextTable t = .ok { S' with order := S'.order.erase t } ∧
      Moved S items t S' gone rest ∧ S'.calls = S.calls ∧
      (S'.info t).hasQueuedData = false := by
  obtain ⟨S', gone, rest, hrun, hmoved, hcalls, hno⟩ := skipEntireQueue_eq h ht
  refine ⟨S', gone, rest, ?_, hmoved, hcalls, hno⟩
  rw [removeNextTable, if_neg (not_not_intro ht), hrun, ok_bind]
  rfl

/-- Every operation that the callers may ask for goes through. -/
theorem Inv.progress (h : Inv S items) (hlegal : S.Legal op) (hwoken : S.Woken op) :
    ∃ S', S.step op = .ok S' := by
  cases hchange : op.change with
  | some x =>
    obtain ⟨_, _, S', _, _, _, hstep, _⟩ := step_change h hlegal hwoken hchange
    exact ⟨S', hstep⟩
  | none =>
    cases op with
    | addRoute now m => cases hchange
    | deleteRoute now m => cases hchange
    | replaceRoute now old new => cases hchange
    | push now => cases hchange
    | getNextMessage t =>
      obtain ⟨S', _, hrun, _⟩ := getNextMessage_pending h hlegal
      exact ⟨S', hrun⟩
    | addNextTable now t peer genid => exact ⟨_, rfl⟩
    | removeNextTable t =>
      obtain ⟨S', _, _, hrun, _⟩ := removeNextTable_eq h hlegal
      exact ⟨_, hrun⟩
    | replaceNextTable now old new => exact ⟨_, if_neg (not_not_intro hlegal.1)⟩

/-- What was issued for a table was received, or is pending. -/
def Accounts (S : FanoutTable τ π ρ α) (issued : τ → List (NextCall π ρ α)) : Prop :=
  ∀ t ∈ S.order, issued t = S.received t ++ S.pending t

theorem Accounts.insertTable (hacc : S.Accounts issued) (ht : t ∉ S.order) (now : Nat) (peer : π)
    (genid : BitVec 32) :
    (S.insertTable now t peer genid).Accounts
      fun u => if u = t then S.received u else issued u := by
  intro u hu
  set S' := S.insertTable now t peer genid
  show (if u = t then S.received u else issued u) = S.received u ++ S'.pending u
  by_cases hut : u = t
  · have hno : (S'.info u).hasQueuedData = false := by
      subst hut
      show (update S.info u _ u).hasQueuedData = false
      rw [update_self]
      rfl
    rw [if_pos hut, pending_eq_nil hno, append_nil]
  · have hin : u ∈ S.order := by
      rcases mem_append.mp hu with hu | hu
      · exact hu
      · exact absurd (mem_singleton.mp hu) hut
    have hsame : S'.info u = S.info u := update_of_ne hut _ _
    have hkeep : S'.pending u = S.pending u := pending_congr rfl rfl (hsame ▸ .refl _)
    rw [if_neg hut, hacc u hin, hkeep]

section
variable (h : Inv S items) (hacc : S.Accounts issued) (hlegal : S.Legal op) (hwoken : S.Woken op)
include h hacc hlegal hwoken

/-- A queued operation is pending for the tables it was issued for. -/
theorem Inv.change (hchange : op.change = some (origin, c)) (hstep : S.step op = .ok S') :
    (∃ items', Inv S' items') ∧ S'.Accounts fun t =>
      if t ∈ S.order ∧ origin ≠ some (S.info t).peerHandler then issued t ++ [c] else issued t := by
  obtain ⟨ts, a, S₁, rfl, rfl, hfor, hrun, hresult⟩ := step_change h hlegal hwoken hchange
  obtain rfl := ok.inj (hrun.symm.trans hstep)
  rcases hresult with ⟨rfl, rfl⟩ | ⟨hne, happ, hfresh⟩
  · refine ⟨⟨items, h⟩, ?_⟩
    intro t ht
    have hout : ¬ (t ∈ S₁.order ∧ a.originPeer ≠ some (S₁.info t).peerHandler) := by
      rw [← hfor t]
      exact not_mem_nil
    show (if _ then _ else _) = _
    rw [if_neg hout]
    exact hacc t ht
  · have hinv := h.appended happ hfor hne hfresh
    refine ⟨⟨items ++ [a], hinv⟩, ?_⟩
    intro t ht
    rw [happ.order] at ht
    show (if _ then _ else _) = _
    rw [received_congr happ.calls, happ.pending_eq h hinv hfor ht, ← append_assoc, ← hacc t ht]
    by_cases hin : t ∈ ts
    · rw [if_pos hin, if_pos ((hfor t).mp hin)]
    · rw [if_neg hin, if_neg fun hc => hin ((hfor t).mpr hc), append_nil]

/-- **One step keeps the account.** -/
theorem Inv.step (hdrained : S.Drained op) (hstep : S.step op = .ok S') :
    (∃ items', Inv S' items') ∧ S'.Accounts (S.issuedAfter issued op) := by
  cases op with
  | getNextMessage t =>
    obtain ⟨S₁, rest, hrun, hinv, horder, hreceived, hpending, hothers⟩ :=
      getNextMessage_pending h hlegal
    cases hrun.symm.trans hstep
    refine ⟨⟨rest, hinv⟩, ?_⟩
    intro u hu
    rw [horder] at hu
    by_cases hut : u = t
    · subst hut
      rw [hreceived, hpending, append_assoc, take_append_drop]
      exact hacc u hu
    · rw [(hothers u hu hut).1, (hothers u hu hut).2]
      exact hacc u hu
  | addNextTable now t peer genid =>
    cases hstep
    unfold FanoutTable.addNextTable
    by_cases ht : t ∈ S.order
    · rw [if_pos ht]
      refine ⟨⟨items, h⟩, ?_⟩
      intro u hu
      show (if u = t ∧ t ∉ S.order then S.received u else issued u) = _
      rw [if_neg fun hc => hc.2 ht]
      exact hacc u hu
    · rw [if_neg ht]
      refine ⟨⟨items, h.insertTable ht now peer genid⟩, ?_⟩
      intro u hu
      have hthis := hacc.insertTable ht now peer genid u hu
      rw [← hthis]
      exact if_congr (and_iff_left ht) rfl rfl
  | removeNextTable t =>
    obtain ⟨S₁, gone, rest, hrun, hmoved, hcalls, hno⟩ := removeNextTable_eq h hlegal
    cases hrun.symm.trans hstep
    refine ⟨⟨rest, hmoved.inv.erase hno⟩, ?_⟩
    intro u hu
    obtain ⟨hut, hu⟩ := (hmoved.inv.order.mem_erase_iff).mp hu
    rw [hmoved.order] at hu
    show issued u = S₁.received u ++ S₁.pending u
    rw [received_congr hcalls, hmoved.pending_eq h.queue hu hut]
    exact hacc u hu
  | replaceNextTable now old new =>
    cases (if_neg (not_not_intro hlegal.1)).symm.trans hstep
    have hnew : new ∉ S.order.erase old := fun hin => hlegal.2 (mem_of_mem_erase hin)
    have haccErase : Accounts { S with order := S.order.erase old } issued :=
      fun u hu => hacc u (mem_of_mem_erase hu)
    exact ⟨⟨items, (h.erase hdrained).insertTable hnew now _ _⟩, haccErase.insertTable hnew now _ _⟩
  | addRoute now m => exact h.change hacc hlegal hwoken rfl hstep
  | deleteRoute now m => exact h.change hacc hlegal hwoken rfl hstep
  | replaceRoute now old new => exact h.change hacc hlegal hwoken rfl hstep
  | push now => exact h.change hacc hlegal hwoken rfl hstep

end

/-! ### What is kept -/

/-- A table has yet to receive the entry at `p`. -/
def Wants (S : FanoutTable τ π ρ α) (t : τ) (p : Nat) : Prop :=
  t ∈ S.order ∧ (S.info t).hasQueuedData = true ∧ (S.info t).posn ≤ p ∧
    ∃ e, S.deref p = .ok e ∧ e.originPeer ≠ some (S.info t).peerHandler

/-- Entries are freed from the head only.  So that none is kept for nobody, the last table that
has to receive an entry reads it at the head, and a table that leaves lets go of the first
entries. -/
def InOrder (S : FanoutTable τ π ρ α) : Op τ π ρ α → Prop
  | .getNextMessage t =>
      (S.info t).hasQueuedData = true →
        (S.info t).posn = S.base ∨ ∃ u, u ≠ t ∧ S.Wants u (S.info t).posn
  | .removeNextTable t =>
      ∀ p, S.Wants t p → (∀ u, S.Wants u p → u = t) →
        ∀ q, S.base ≤ q → q ≤ p → ∀ u, S.Wants u q → u = t
  | _ => True

/-- Every entry is kept for a table. -/
def Kept (S : FanoutTable τ π ρ α) : Prop :=
  ∀ p, S.base ≤ p → p < S.queueEnd → ∃ t, S.Wants t p

section
omit [DecidableEq τ] [DecidableEq π]
variable {gone rest pre mid post : List (QueueItem π ρ α)} {u : τ} {p : Nat}
  {e : FanoutEntry π ρ α}

theorem deref_eq_ok : S.deref p = .ok e ↔ S.base ≤ p ∧ S.outputQueue[p - S.base]? = some e := by
  unfold deref
  by_cases hlt : p < S.base
  · rw [if_pos hlt]
    exact ⟨fun h => (by cases h), fun h => absurd hlt (not_lt.mpr h.1)⟩
  · rw [if_neg hlt]
    cases hget : S.outputQueue[p - S.base]? with
    | none => exact ⟨fun h => (by cases h), fun h => (by cases h.2)⟩
    | some f =>
      refine ⟨fun h => ⟨not_lt.mp hlt, congrArg some (ok.inj h)⟩, ?_⟩
      intro h
      exact congrArg ok (Option.some.inj h.2)

theorem Wants.mono (h : S.Wants u p) (hu : u ∈ S'.order) (hsame : SameReader (S.info u) (S'.info u))
    (hderef : ∀ e, S.deref p = .ok e → S'.deref p = .ok e) : S'.Wants u p := by
  obtain ⟨-, hdata, hposn, e, he, horigin⟩ := h
  refine ⟨hu, hsame.data.trans hdata, hsame.posn ▸ hposn, e, hderef e he, ?_⟩
  rw [hsame.peer]
  exact horigin

section
variable (h : Moved S items t S' gone rest) (hq : S.outputQueue = flat items)
include h hq

theorem Moved.deref_eq (hp : S'.base ≤ p) : S'.deref p = S.deref p := by
  have hbase := h.base
  have hlt : ¬ p < S.base := by omega
  have hlt' : ¬ p < S'.base := not_lt.mpr hp
  have hle : (flat gone).length ≤ p - S.base := by omega
  have hsub : p - S.base - (flat gone).length = p - S'.base := by omega
  unfold deref
  rw [if_neg hlt, if_neg hlt', hq, h.split, flat_append, List.getElem?_append_right hle, hsub,
    h.inv.queue]

theorem Moved.queueEnd_eq : S'.queueEnd = S.queueEnd := by
  rw [queueEnd, queueEnd, h.base, hq, h.split, h.inv.queue, flat_append, length_append,
    add_assoc]

/-- The others want what they wanted, as far as it is there. -/
theorem Moved.wants_iff (hu : u ≠ t) (hp : S'.base ≤ p) : S'.Wants u p ↔ S.Wants u p := by
  unfold Wants
  rw [h.order, h.others u hu, h.deref_eq hq hp]

end

/-- The table at the head wants what is there. -/
theorem Inv.wants_head (h : Inv S items) (hne : items ≠ []) :
    ∃ u, (S.info u).hasQueuedData = true ∧ (S.info u).posn = S.base ∧ S.Wants u S.base := by
  obtain ⟨u, hu, hdata, hposn⟩ := headHeld_iff.mp (h.held hne)
  obtain ⟨post, hr⟩ := h.reads u hu
  cases hr with
  | nothing hno =>
    rw [hno] at hdata
    cases hdata
  | here pre a post _ hitems hposn' ha =>
    obtain ⟨e, q, he, horigin⟩ := a.entries_cons
    have hq : S.outputQueue = flat pre ++ e :: (q ++ flat post) := by
      rw [h.queue, hitems, flat_append, flat_cons, he]
      rfl
    refine ⟨u, hdata, hposn, hu, hdata, hposn.le, e, ?_, horigin ▸ ha⟩
    exact deref_eq hq (hposn.symm.trans hposn')

theorem mem_flat (h : e ∈ flat mid) : ∃ a ∈ mid, e.originPeer = a.originPeer := by
  obtain ⟨a, ha, he⟩ := mem_flatMap.mp h
  refine ⟨a, ha, ?_⟩
  rcases a.shape with ⟨f, hf, -, -, horigin⟩ | ⟨f, g, hf, -, -, horigin, horigin'⟩
  · rw [hf] at he
    rw [mem_singleton.mp he]
    exact horigin
  · rw [hf] at he
    rcases mem_cons.mp he with rfl | he
    · exact horigin
    · rw [mem_singleton.mp he]
      exact horigin'

/-- An entry between two places of the queue belongs to the operations there. -/
theorem deref_origin (hq : S.outputQueue = flat (pre ++ (mid ++ post)))
    (hle : S.base + (flat pre).length ≤ p) (hlt : p < S.base + (flat (pre ++ mid)).length) :
    ∃ e, S.deref p = .ok e ∧ ∃ a ∈ mid, e.originPeer = a.originPeer := by
  rw [flat_append, length_append] at hlt
  have hk : p - S.base - (flat pre).length < (flat mid).length := by omega
  refine ⟨(flat mid)[p - S.base - (flat pre).length], deref_eq_ok.mpr ⟨by omega, ?_⟩,
    mem_flat (getElem_mem hk)⟩
  rw [hq, flat_append, flat_append, List.getElem?_append_right (by omega),
    List.getElem?_append_left hk, List.getElem?_eq_getElem hk]

/-- Where a table is, by what it has to read. -/
theorem Moved.posn_eq {i : PeerTableInfo π} (h : Moved S items t S' gone rest)
    (hitems : items = pre ++ post) (hr : Reads S'.base rest i post)
    (hdata : i.hasQueuedData = true ∨ post ≠ []) :
    i.hasQueuedData = true ∧ i.posn = S.base + (flat pre).length := by
  cases hr with
  | nothing hno =>
    rcases hdata with hdata | hne
    · rw [hno] at hdata
      cases hdata
    · contradiction
  | here pre' a post hdata' hrest hposn _ =>
    refine ⟨hdata', ?_⟩
    have hsame : gone ++ pre' = pre := by
      have hsplit := h.split
      rw [hrest, ← append_assoc] at hsplit
      exact append_cancel_right (hsplit.symm.trans hitems)
    rw [hposn, h.base, ← hsame, flat_append, length_append, add_assoc]

/-- Entries of one operation are wanted together. -/
theorem Wants.same {q : Nat} (h : S.Wants u q) (hle : q ≤ p) {e f : FanoutEntry π ρ α}
    (hf : S.deref q = .ok f) (he : S.deref p = .ok e) (hsame : e.originPeer = f.originPeer) :
    S.Wants u p := by
  obtain ⟨hu, hdata, hposn, f', hf', horigin⟩ := h
  cases hf.symm.trans hf'
  exact ⟨hu, hdata, hposn.trans hle, e, he, hsame ▸ horigin⟩

theorem Moved.base_le (h : Moved S items t S' gone rest) : S.base ≤ S'.base := by
  rw [h.base]
  exact le_add_right _ _

end

omit [DecidableEq τ] in
/-- The operation that a table has just read is kept for another one. -/
theorem wants_read {gone rest pre post : List (QueueItem π ρ α)} {p : Nat} (h : Inv S items)
    (hin : S.InOrder (.getNextMessage t)) (hmoved : Moved S items t S' gone rest)
    (hitems : items = pre ++ a :: post) (hdata : (S.info t).hasQueuedData = true)
    (hposn : (S.info t).posn = S.base + (flat pre).length) (hr' : Reads S'.base rest (S'.info t)
      (pastOwn (S.info t).peerHandler post)) (hp : S'.base ≤ p) (hend : p < S.queueEnd) (hle : S.base + (flat pre).length ≤ p)
    (hlt : p < S.base + (flat (pre ++ [a])).length) : ∃ u, u ≠ t ∧ S.Wants u p := by
  have hq : S.outputQueue = flat (pre ++ ([a] ++ post)) := by rw [h.queue, hitems]; rfl
  have hlen : (flat (pre ++ [a])).length = (flat pre).length + a.entries.length := by simp
  obtain ⟨e, he, b, hb, horigin⟩ := deref_origin hq hle hlt
  obtain ⟨f, hf, b', hb', horigin'⟩ :=
    deref_origin (p := S.base + (flat pre).length) hq (le_refl _) (by omega)
  rw [mem_singleton.mp hb] at horigin
  rw [mem_singleton.mp hb'] at horigin'
  have hsame : e.originPeer = f.originPeer := horigin.trans horigin'.symm
  rcases hin hdata with hhead | ⟨u, hu, hwants⟩
  · -- the table was at the head, and the operation is still there: so somebody holds it
    have hpre : (flat pre).length = 0 := by omega
    have hnil : pre = [] := flat_eq_nil.mp (length_eq_zero_iff.mp hpre)
    subst hnil
    have hrest : rest ≠ [] := by
      intro hnil
      have hq' := hmoved.queueEnd_eq h.queue
      rw [queueEnd, hmoved.inv.queue, hnil] at hq'
      omega
    have hbase : S'.base = S.base := by
      have hgone := hmoved.base
      cases gone with
      | nil => exact hgone
      | cons b gone =>
        have hsplit := hmoved.split.symm.trans hitems
        obtain ⟨rfl, -⟩ := List.cons.inj hsplit
        rw [flat_cons, length_append] at hgone
        omega
    obtain ⟨u, hudata, huposn, hwants⟩ := hmoved.inv.wants_head hrest
    have hut : u ≠ t := by
      rintro rfl
      have happ : items = ([a] ++ ownItems (S.info u).peerHandler post) ++
          pastOwn (S.info u).peerHandler post := by
        rw [append_assoc, ownItems_append_pastOwn, hitems]
        rfl
      have hthere := (hmoved.posn_eq happ hr' (.inl hudata)).2
      rw [singleton_append, flat_cons, length_append] at hthere
      omega
    refine ⟨u, hut, ?_⟩
    have hwants' := (hmoved.wants_iff h.queue hut (le_refl _)).mp hwants
    rw [hbase] at hwants'
    exact hwants'.same (by omega) (by simpa using hf) he hsame
  · rw [hposn] at hwants
    exact ⟨u, hu, hwants.same hle hf he hsame⟩

section
variable (hk : S.Kept)
include hk

/-- **Reading in order keeps nothing for nobody.** -/
theorem Kept.getNextMessage (h : Inv S items) (ht : t ∈ S.order)
    (hin : S.InOrder (.getNextMessage t)) (hrun : S.getNextMessage t = .ok S') : S'.Kept := by
  obtain ⟨post, hr⟩ := h.reads t ht
  cases post with
  | nil =>
    cases hr with
    | nothing hno =>
      cases ((if_neg (not_not_intro ht)).trans (if_pos hno)).symm.trans hrun
      intro p hp hend
      obtain ⟨u, hu⟩ := hk p hp hend
      refine ⟨u, hu.mono hu.1 (sameReader_setInfo ?_ u) fun _ he => he⟩
      exact ⟨rfl, rfl, rfl⟩
  | cons a post =>
    obtain ⟨S₁, gone, rest, hrun', hmoved, -, hr'⟩ := getNextMessage_eq h ht hr
    obtain rfl := ok.inj (hrun'.symm.trans hrun)
    obtain ⟨pre, hdata, hitems, hposn, -⟩ := hr.split
    intro p hp hend
    rw [hmoved.queueEnd_eq h.queue] at hend
    have hother : ∀ u, u ≠ t → S.Wants u p → ∃ v, S₁.Wants v p :=
      fun u hu hw => ⟨u, (hmoved.wants_iff h.queue hu hp).mpr hw⟩
    obtain ⟨u, hwants⟩ := hk p (hmoved.base_le.trans hp) hend
    by_cases hut : u = t
    · subst hut
      obtain ⟨-, -, hle, e, he, horigin⟩ := hwants
      rw [hposn] at hle
      have hsplit : items = (pre ++ [a]) ++ (ownItems (S.info u).peerHandler post ++
          pastOwn (S.info u).peerHandler post) := by
        rw [ownItems_append_pastOwn, hitems, append_assoc]
        rfl
      by_cases hread : p < S.base + (flat (pre ++ [a])).length
      · obtain ⟨v, hv, hw⟩ := wants_read h hin hmoved hitems hdata hposn hr' hp hend hle hread
        exact hother v hv hw
      · by_cases hown : p < S.base +
            (flat (pre ++ [a] ++ ownItems (S.info u).peerHandler post)).length
        · -- an entry that was stepped over came from the peer itself
          obtain ⟨f, hf, b, hb, hfb⟩ := deref_origin (hsplit ▸ h.queue) (not_lt.mp hread) hown
          cases he.symm.trans hf
          have hpeer := mem_takeWhile_imp hb
          exact absurd (hfb.trans (of_decide_eq_true hpeer)) horigin
        · rw [← append_assoc] at hsplit
          have hne : pastOwn (S.info u).peerHandler post ≠ [] := by
            intro hnil
            rw [hnil, append_nil] at hsplit
            rw [queueEnd, h.queue, hsplit] at hend
            exact hown hend
          obtain ⟨hdata', hposn'⟩ := hmoved.posn_eq hsplit hr' (.inr hne)
          refine ⟨u, hmoved.order ▸ ht, hdata', ?_, e, ?_, ?_⟩
          · rw [hposn']
            exact not_lt.mp hown
          · rw [hmoved.deref_eq h.queue hp]
            exact he
          · rw [hmoved.peer]
            exact horigin
    · exact hother u hut hwants

/-- A table that leaves takes with it what was there for it alone. -/
theorem Kept.removeNextTable (h : Inv S items) (ht : t ∈ S.order)
    (hin : S.InOrder (.removeNextTable t)) (hrun : S.removeNextTable t = .ok S') : S'.Kept := by
  obtain ⟨S₁, gone, rest, hrun', hmoved, -, hno⟩ := removeNextTable_eq h ht
  cases hrun'.symm.trans hrun
  intro p (hp : S₁.base ≤ p) (hend : p < S₁.queueEnd)
  have hend' : p < S.queueEnd := hmoved.queueEnd_eq h.queue ▸ hend
  have hstay : ∀ u, u ≠ t → S.Wants u p → Wants { S₁ with order := S₁.order.erase t } u p := by
    intro u hu hw
    have hw₁ := (hmoved.wants_iff h.queue hu hp).mpr hw
    exact hw₁.mono ((mem_erase_of_ne hu).mpr hw₁.1) (.refl _) fun _ he => he
  by_cases halone : ∀ u, S.Wants u p → u = t
  · -- then nothing before it was there for others, but somebody is at the head
    have hrest : rest ≠ [] := by
      intro hnil
      rw [queueEnd, hmoved.inv.queue, hnil] at hend
      exact absurd hp (not_le.mpr hend)
    obtain ⟨u, hudata, -, hwants⟩ := hmoved.inv.wants_head hrest
    have hut : u ≠ t := by
      rintro rfl
      rw [hno] at hudata
      cases hudata
    have hwants' := (hmoved.wants_iff h.queue hut (le_refl _)).mp hwants
    obtain ⟨v, hv⟩ := hk p (hmoved.base_le.trans hp) hend'
    have hvt := halone v hv
    subst hvt
    exact absurd (hin p hv halone S₁.base hmoved.base_le hp u hwants') hut
  · push Not at halone
    obtain ⟨u, hw, hut⟩ := halone
    exact ⟨u, hstay u hut hw⟩

omit [DecidableEq π] in
/-- The tables come and go without the queue. -/
theorem Kept.insertTable (ht : t ∉ S.order) (now : Nat) (peer : π)
    (genid : BitVec 32) : (S.insertTable now t peer genid).Kept := by
  intro p hp hend
  obtain ⟨u, hu⟩ := hk p hp hend
  have hsame : (S.insertTable now t peer genid).info u = S.info u :=
    update_of_ne (ne_of_mem_of_not_mem hu.1 ht) _ _
  exact ⟨u, hu.mono (mem_append_left _ hu.1) (hsame ▸ .refl _) fun _ he => he⟩

omit [DecidableEq π] in
theorem Kept.erase (hno : (S.info t).hasQueuedData = false) :
    Kept { S with order := S.order.erase t } := by
  intro p hp hend
  obtain ⟨u, hu⟩ := hk p hp hend
  have hut : u ≠ t := by
    rintro rfl
    exact Bool.noConfusion (hno.symm.trans hu.2.1)
  exact ⟨u, hu.mono ((mem_erase_of_ne hut).mpr hu.1) (.refl _) fun _ he => he⟩

/-- What is queued is queued for somebody. -/
theorem Kept.change (h : Inv S items) (hlegal : S.Legal op) (hwoken : S.Woken op)
    (hchange : op.change = some (origin, c)) (hstep : S.step op = .ok S') : S'.Kept := by
  obtain ⟨ts, a, S₁, rfl, rfl, hfor, hrun, hresult⟩ := step_change h hlegal hwoken hchange
  obtain rfl := ok.inj (hrun.symm.trans hstep)
  rcases hresult with ⟨-, rfl⟩ | ⟨hne, happ, -⟩
  · exact hk
  · intro p hp hend
    have hbase := happ.base
    have hqueue : S₁.outputQueue = flat (items ++ ([a] ++ [])) := by
      rw [happ.queue, h.queue, append_nil, flat_append]
      simp
    by_cases hold : p < S.queueEnd
    · obtain ⟨u, hu⟩ := hk p (hbase ▸ hp) hold
      refine ⟨u, hu.mono (happ.order ▸ hu.1) ?_ ?_⟩
      · have hinfo := happ.info u
        rw [if_neg (by simp [hu.2.1])] at hinfo
        exact hinfo
      · intro e he
        obtain ⟨hle, hget⟩ := deref_eq_ok.mp he
        refine deref_eq_ok.mpr ⟨hbase ▸ hle, ?_⟩
        rw [hbase, happ.queue]
        exact List.getElem?_append_left (List.getElem?_eq_some_iff.mp hget).1 ▸ hget
    · -- the new operation: every table it was queued for reads from there or from before
      obtain ⟨t, ts, rfl⟩ := exists_cons_of_ne_nil hne
      obtain ⟨ht, ha⟩ := (hfor t).mp mem_cons_self
      have hplace : S.queueEnd = S₁.base + (flat items).length := by rw [queueEnd, h.queue, hbase]
      have hlast : p < S₁.base + (flat (items ++ [a])).length := by
        rw [queueEnd, hqueue, append_nil] at hend
        exact hend
      obtain ⟨e, he, b, hb, horigin⟩ := deref_origin hqueue (hplace ▸ not_lt.mp hold) hlast
      rw [mem_singleton.mp hb] at horigin
      have hinfo := happ.info t
      refine ⟨t, happ.order ▸ ht, ?_, ?_, e, he, ?_⟩
      · rw [hinfo.data]
        split
        · rfl
        · next hc => simpa using hc
      · rw [hinfo.posn]
        split
        · exact not_lt.mp hold
        · obtain ⟨post, hr⟩ := h.reads t ht
          cases hr with
          | nothing hno => next hc => exact absurd ⟨mem_cons_self, hno⟩ hc
          | here pre b post _ hitems hposn _ =>
            have hlen : (flat items).length = (flat pre).length + (flat (b :: post)).length := by
              rw [hitems, flat_append, length_append]
            omega
      · rw [hinfo.peer, horigin]
        split
        · exact ha
        · exact ha

theorem Kept.step (h : Inv S items) (hlegal : S.Legal op) (hwoken : S.Woken op)
    (hdrained : S.Drained op) (hin : S.InOrder op) (hstep : S.step op = .ok S') : S'.Kept := by
  cases op with
  | addRoute now m => exact hk.change h hlegal hwoken rfl hstep
  | deleteRoute now m => exact hk.change h hlegal hwoken rfl hstep
  | replaceRoute now old new => exact hk.change h hlegal hwoken rfl hstep
  | push now => exact hk.change h hlegal hwoken rfl hstep
  | getNextMessage t => exact hk.getNextMessage h hlegal hin hstep
  | addNextTable now t peer genid =>
    cases hstep
    unfold FanoutTable.addNextTable
    by_cases ht : t ∈ S.order
    · rw [if_pos ht]
      exact hk
    · rw [if_neg ht]
      exact hk.insertTable ht now peer genid
  | removeNextTable t => exact hk.removeNextTable h hlegal hin hstep
  | replaceNextTable now old new =>
    cases (if_neg (not_not_intro hlegal.1)).symm.trans hstep
    have hnew : new ∉ S.order.erase old := fun hmem => hlegal.2 (mem_of_mem_erase hmem)
    exact (hk.erase hdrained).insertTable hnew now _ _

end

variable {ok : FanoutTable τ π ρ α → Op τ π ρ α → Prop}

section
variable (hok : ∀ S op, ok S op → S.Drained op ∧ S.Woken op)
include hok

theorem Reach.inv (h : Reach ok S issued) : (∃ items, Inv S items) ∧ S.Accounts issued := by
  induction h with
  | init info =>
    refine ⟨⟨[], ⟨⟨rfl, ?_, List.Perm.refl _, nodup_nil⟩, nodup_nil, ?_⟩⟩, ?_⟩
    · exact fun t ht => absurd ht not_mem_nil
    · exact fun hne => absurd rfl hne
    · exact fun t ht => absurd ht not_mem_nil
  | step op _ hlegal hop hstep ih =>
    obtain ⟨⟨items, hinv⟩, hacc⟩ := ih
    obtain ⟨hdrained, hwoken⟩ := hok _ op hop
    exact hinv.step hacc hlegal hwoken hdrained hstep

theorem Reach.kept (hin : ∀ S op, ok S op → S.InOrder op) (h : Reach ok S issued) : S.Kept := by
  induction h with
  | init info => exact fun p _ hend => absurd hend (by rw [queueEnd]; simp [empty])
  | step op h hlegal hop hstep ih =>
    obtain ⟨⟨items, hinv⟩, -⟩ := h.inv hok
    obtain ⟨hdrained, hwoken⟩ := hok _ op hop
    exact ih.step hinv hlegal hwoken hdrained (hin _ op hop) hstep

end

/-- **Everything is delivered once and in order.**  In a run in which no table is replaced before
it has read everything, and no table is silent for 20 minutes after it was woken, what was issued
for a table is what it has received followed by what is still in the queue for it; every operation
goes through; and asking hands over the first of what is pending and nothing else.  A queue that is
not empty has a table at its head.  If the last reader of an entry is always at the head, nothing is
in the queue but what somebody has yet to receive. -/
theorem fanout_delivers_once (hok : ∀ S op, ok S op → S.Drained op ∧ S.Woken op)
    (h : Reach ok S issued) :
    (∀ t ∈ S.order, issued t = S.received t ++ S.pending t) ∧
    (∀ op, S.Legal op → S.Woken op → ∃ S', S.step op = .ok S') ∧
    (∀ t ∈ S.order, ∃ S', S.getNextMessage t = .ok S' ∧
      S'.received t = S.received t ++ (S.pending t).take 1 ∧
      S'.pending t = (S.pending t).drop 1 ∧
      ∀ u ∈ S.order, u ≠ t → S'.received u = S.received u ∧ S'.pending u = S.pending u) ∧
    (S.outputQueue ≠ [] → S.headHeld = true) ∧
    ((∀ S op, ok S op → S.InOrder op) → ∀ p, S.base ≤ p → p < S.queueEnd → ∃ t, S.Wants t p) := by
  obtain ⟨⟨items, hinv⟩, hacc⟩ := h.inv hok
  refine ⟨hacc, fun op => hinv.progress, ?_, ?_, fun hin => h.kept hok hin⟩
  · intro t ht
    obtain ⟨S', _, hrun, _, _, hreceived, hpending, hothers⟩ := getNextMessage_pending hinv ht
    exact ⟨S', hrun, hreceived, hpending, hothers⟩
  · intro hne
    refine hinv.held ?_
    rintro rfl
    exact hne hinv.queue

end

/-- A message from a peer. -/
def routeFrom (ref peer : Nat) : FanoutMsg Nat Nat Nat := ⟨0, ⟨ref, 0⟩, peer, 1, false⟩

def noTables : FanoutTable Nat Nat Nat Nat := empty fun _ => .new 0 0 0

/-- Two peers get a route of a third one, and the first has read it. -/
theorem fanout_delivers_once_two : ∃ S : FanoutTable Nat Nat Nat Nat, ∃ issued,
      Reach (fun S op => S.Drained op ∧ S.Woken op ∧ S.InOrder op) S issued ∧
      S.received 0 = [.addRoute (routeFrom 0 2).delivery] ∧ S.received 1 = [] ∧
      issued 1 = S.received 1 ++ S.pending 1 ∧
      ∀ p, S.base ≤ p → p < S.queueEnd → ∃ t, S.Wants t p := by
  have h0 : Reach (fun S op => S.Drained op ∧ S.Woken op ∧ S.InOrder op) noTables
      (fun _ => []) := .init _
  have h1 := h0.step (.addNextTable 0 0 0 1) trivial ⟨trivial, trivial, trivial⟩ rfl
  have h2 := h1.step (.addNextTable 0 1 1 1) trivial ⟨trivial, trivial, trivial⟩ rfl
  have h3 := h2.step (.addRoute 0 (routeFrom 0 2)) (by decide) ⟨trivial, by decide, trivial⟩ rfl
  have h4 := h3.step (.getNextMessage 0) (by decide) ⟨trivial, trivial, fun _ => .inl rfl⟩ rfl
  obtain ⟨hacc, -, -, -, hkept⟩ := fanout_delivers_once (fun _ _ h => ⟨h.1, h.2.1⟩) h4
  exact ⟨_, _, h4, rfl, rfl, hacc 1 (by decide), hkept fun _ _ h => h.2.2⟩

/-- **What goes wrong.**  A table is replaced while a message is in the queue for it: the message
reaches neither it nor its successor, and stays in the queue.  An entry from the middle of the queue
stays there when nobody wants it any more.  A table that does not ask for 20 minutes is given
up. -/
theorem replaced_table_loses : (∃ S : FanoutTable Nat Nat Nat Nat, ∃ issued, Reach Woken S issued ∧
      issued 0 = [.addRoute (routeFrom 0 2).delivery] ∧ S.order = [1] ∧ S.calls = [] ∧
      S.pending 1 = [] ∧ S.outputQueue.length = 1) ∧
    (∃ S : FanoutTable Nat Nat Nat Nat, ∃ issued,
      Reach (fun S op => S.Drained op ∧ S.Woken op) S issued ∧
      S.base ≤ 1 ∧ 1 < S.queueEnd ∧ ∀ t, ¬ S.Wants t 1) ∧
    ∃ S : FanoutTable Nat Nat Nat Nat, ∃ issued, Reach Woken S issued ∧
      S.step (.addRoute 1201 (routeFrom 1 2)) = .error .abort := by
  have h0 : Reach Woken noTables (fun _ => []) := .init _
  have h1 := h0.step (.addNextTable 0 0 0 1) trivial trivial rfl
  have h2 := h1.step (.addRoute 0 (routeFrom 0 2)) (by decide) (by decide) rfl
  refine ⟨?_, ?_, _, _, h2, rfl⟩
  · have h3 := h2.step (.replaceNextTable 0 0 1) (by decide) trivial rfl
    have h4 := h3.step (.getNextMessage 1) (by decide) trivial rfl
    exact ⟨_, _, h4, rfl, rfl, rfl, rfl, rfl⟩
  · have h0 : Reach (fun S op => S.Drained op ∧ S.Woken op) noTables (fun _ => []) := .init _
    have h1 := h0.step (.addNextTable 0 0 0 1) trivial ⟨trivial, trivial⟩ rfl
    have h2 := h1.step (.addNextTable 0 1 1 1) trivial ⟨trivial, trivial⟩ rfl
    have h3 := h2.step (.addRoute 0 (routeFrom 0 2)) (by decide) ⟨trivial, by decide⟩ rfl
    have h4 := h3.step (.addRoute 0 (routeFrom 1 0)) (by decide) ⟨trivial, by decide⟩ rfl
    have h5 := h4.step (.getNextMessage 1) (by decide) ⟨trivial, trivial⟩ rfl
    have h6 := h5.step (.getNextMessage 1) (by decide) ⟨trivial, trivial⟩ rfl
    refine ⟨_, _, h6, by decide, by decide, ?_⟩
    rintro t ⟨ht, hdata, -, e, he, horigin⟩
    have htable : t = 0 ∨ t = 1 := by simpa using mem_cons.mp ht
    rcases htable with rfl | rfl
    · exact horigin (by rw [← ok.inj he]; rfl)
    · cases hdata

end FanoutTable

end Xorp.Bgp

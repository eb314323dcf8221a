/-
The sequence numbers of MD5.

A log keeps, newest first, which numbers were accepted for which key and source, and what was reset.
The state of every key is what the log says: the last number accepted for a source since the source
was reset, and whether there is one.  So a number that is accepted is not behind that one.  Keys are
known by their ids, and no two keys of a handler have the same one; a key that is added anew starts
without a history.
-/
import Xorp.Lib.Heap
import Xorp.Rip.AuthBounds
import Mathlib.Data.Vector.Defs

namespace Xorp.Rip

open Bytes
open List hiding Vector

/-- What happened to a key. -/
inductive KeyEvent
  | accepted (id : Nat) (src : Ipv4) (seqno : BitVec 32)
  /-- `reset` of one source -/
  | resetSource (id : Nat) (src : Ipv4)
  /-- the key is reset for all sources, or it is a new key -/
  | resetKey (id : Nat)

/-- The last number accepted for a key and a source since they were reset. -/
def lastAccepted (id : Nat) (src : Ipv4) : List KeyEvent → Option (BitVec 32)
  | [] => none
  | .accepted id' src' seqno :: log =>
      if id' = id ∧ src' = src then some seqno else lastAccepted id src log
  | .resetSource id' src' :: log =>
      if id' = id ∧ src' = src then none else lastAccepted id src log
  | .resetKey id' :: log => if id' = id then none else lastAccepted id src log

/-- A number is not behind another one in 32 bits. -/
def NotBehind (seqno last : BitVec 32) : Prop := (seqno - last).toNat < 2 ^ 31

/-- The id that an event is about. -/
def KeyEvent.id : KeyEvent → Nat
  | .accepted id _ _ => id
  | .resetSource id _ => id
  | .resetKey id => id

variable {id : Nat} {src : Ipv4} {log : List KeyEvent} {k : Md5Key} {H : Md5Handler} {d : Buffer}
  {newPeer : Bool} {md5 : Md5}

variable {evs : List KeyEvent} {ks : List Md5Key} {last : BitVec 32} {ev : KeyEvent} {k' x : Md5Key}

theorem lastAccepted_of_ne (h : ev.id ≠ id) :
    lastAccepted id src (ev :: log) = lastAccepted id src log := by
  cases ev with
  | accepted id' src' seqno => exact if_neg fun hall => h hall.1
  | resetSource id' src' => exact if_neg fun hall => h hall.1
  | resetKey id' => exact if_neg h

/-- The keys that are reset have no number any more. -/
theorem lastAccepted_resetKeys (ids : List Nat) : lastAccepted id src (ids.map .resetKey ++ log) =
      if id ∈ ids then none else lastAccepted id src log := by
  induction ids with
  | nil => rfl
  | cons i ids ih =>
    show (if i = id then none else lastAccepted id src (ids.map .resetKey ++ log)) = _
    rw [ih]
    by_cases hi : i = id
    · rw [if_pos hi, if_pos (by simp [hi])]
    · rw [if_neg hi]
      by_cases hmem : id ∈ ids
      · rw [if_pos hmem, if_pos (mem_cons_of_mem i hmem)]
      · rw [if_neg hmem, if_neg (by simp [hmem, Ne.symm hi])]

/-- The state of a key is what the log says. -/
def Md5Key.Tracks (k : Md5Key) (log : List KeyEvent) : Prop :=
  ∀ src, k.lrSeqno src = lastAccepted k.id src log ∧
    k.pktsRecv src = (lastAccepted k.id src log).map fun _ => true

namespace Md5Key.Tracks

section
variable (h : k.Tracks log)
include h

theorem append (hne : ∀ ev ∈ evs, ev.id ≠ k.id) : k.Tracks (evs ++ log) := by
  induction evs with
  | nil => exact h
  | cons ev evs ih =>
    intro src
    rw [cons_append, lastAccepted_of_ne (hne ev mem_cons_self)]
    exact ih (fun ev' hev' => hne ev' (mem_cons_of_mem ev hev')) src

/-- What is kept for one source is set together with what the log says of it. -/
theorem put (src : Ipv4) (v : Option (BitVec 32)) (hev : ∀ s, lastAccepted k.id s (ev :: log) =
      if k.id = k.id ∧ src = s then v else lastAccepted k.id s log) : Tracks { k with
      lrSeqno := Function.update k.lrSeqno src v
      pktsRecv := Function.update k.pktsRecv src (v.map fun _ => true) } (ev :: log) := by
  intro s
  rw [hev s]
  by_cases hs : s = src
  · subst hs
    simp
  · rw [if_neg fun hall => hs hall.2.symm]
    simpa only [Function.update_of_ne hs] using h s

theorem resetSource (src : Ipv4) :
    (k.resetSource src).Tracks (.resetSource k.id src :: log) := h.put src none fun _ => rfl

theorem setLastSeqnoRecv (src : Ipv4) (seqno : BitVec 32) :
    (k.setLastSeqnoRecv src seqno).Tracks (.accepted k.id src seqno :: log) :=
  h.put src (some seqno) fun _ => rfl

/-- A number that the key does not refuse is not behind the last one. -/
theorem notBehind {seqno : BitVec 32}
    (hacc : k.refuses src newPeer seqno = false) (hlast : lastAccepted k.id src log = some last)
    (hpeer : newPeer = false) : NotBehind seqno last := by
  obtain ⟨hseq, hrecv⟩ := h src
  rw [hlast] at hseq hrecv
  have hrec : k.packetsReceived src = true := by
    unfold Md5Key.packetsReceived
    rw [hrecv]
    rfl
  have hl : k.lastSeqnoRecv src = last := by
    unfold Md5Key.lastSeqnoRecv
    rw [hseq]
    rfl
  unfold Md5Key.refuses at hacc
  rw [hrec, hl, hpeer] at hacc
  simp only [Bool.false_and, Bool.not_false, Bool.true_and, decide_eq_false_iff_not] at hacc
  unfold NotBehind
  have hle : ¬ (0x7fffffff : BitVec 32).toNat ≤ (seqno - last).toNat := hacc
  have hval : (0x7fffffff : BitVec 32).toNat = 0x7fffffff := rfl
  omega

end

end Md5Key.Tracks

/-! ### The chains of a handler -/

theorem map_id_modifyKey : (modifyKey (fun _ => k') k'.id ks).map Md5Key.id = ks.map Md5Key.id := by
  induction ks with
  | nil => rfl
  | cons k ks ih =>
    unfold modifyKey
    by_cases hk : k.id = k'.id
    · simp [hk]
    · rw [if_neg hk, map_cons, map_cons, ih]

theorem mem_modifyKey (hnd : (ks.map Md5Key.id).Nodup) (hx : x ∈ modifyKey (fun _ => k') k'.id ks) :
    x = k' ∨ (x ∈ ks ∧ x.id ≠ k'.id) := by
  induction ks with
  | nil => cases hx
  | cons k ks ih =>
    rw [map_cons, nodup_cons] at hnd
    unfold modifyKey at hx
    by_cases hk : k.id = k'.id
    · rw [if_pos hk] at hx
      rcases mem_cons.mp hx with rfl | hmem
      · exact .inl rfl
      · refine .inr ⟨mem_cons_of_mem k hmem, fun heq => hnd.1 ?_⟩
        rw [hk, ← heq]
        exact mem_map_of_mem hmem
    · rw [if_neg hk] at hx
      rcases mem_cons.mp hx with rfl | hmem
      · exact .inr ⟨mem_cons_self, hk⟩
      · rcases ih hnd.2 hmem with heq | ⟨hold, hne⟩
        · exact .inl heq
        · exact .inr ⟨mem_cons_of_mem k hold, hne⟩

namespace Md5Handler

/-- All keys. -/
def keys (H : Md5Handler) : List Md5Key := H.validKeyChain ++ H.invalidKeyChain

/-- No two keys have the same id, and every key is as the log says. -/
structure Logged (H : Md5Handler) (log : List KeyEvent) : Prop where
  ids : (H.keys.map Md5Key.id).Nodup
  tracks : ∀ k ∈ H.keys, k.Tracks log

variable {H' : Md5Handler}

section
variable (h : Logged H log)
include h

theorem Logged.valid_nodup : (H.validKeyChain.map Md5Key.id).Nodup := by
  have hids := h.ids
  unfold keys at hids
  rw [map_append] at hids
  exact (nodup_append.mp hids).1

/-- Keys are moved between the chains or are lost. -/
theorem Logged.of_subperm (hperm : H'.keys.Perm ks)
    (hsub : (ks.map Md5Key.id).Sublist (H.keys.map Md5Key.id))
    (hsame : ∀ k' ∈ ks, ∃ k ∈ H.keys, k'.id = k.id ∧ k'.lrSeqno = k.lrSeqno ∧
      k'.pktsRecv = k.pktsRecv) : Logged H' log := by
  refine ⟨(hperm.map Md5Key.id).nodup_iff.mpr (hsub.nodup h.ids), fun k' hk' src => ?_⟩
  obtain ⟨k, hk, hid, hseq, hrecv⟩ := hsame k' (hperm.mem_iff.mp hk')
  rw [hid, hseq, hrecv]
  exact h.tracks k hk src

/-- An invalid key has another id than the valid ones. -/
theorem Logged.ne_of_invalid (hk : k ∈ H.validKeyChain)
    (hx : x ∈ H.invalidKeyChain) : k.id ≠ x.id := by
  have hids := h.ids
  unfold keys at hids
  rw [map_append] at hids
  exact (nodup_append.mp hids).2.2 _ (mem_map_of_mem hk) _ (mem_map_of_mem hx)

/-- A valid key is changed, and the log says how. -/
theorem Logged.setKey {k₀ : Md5Key} (hk₀ : k₀ ∈ H.validKeyChain)
    (hid : k₀.id = k.id) (hevs : ∀ ev ∈ evs, ev.id = k.id) (hk : k.Tracks (evs ++ log)) :
    Logged (H.setKey k) (evs ++ log) := by
  have hmap : (H.setKey k).keys.map Md5Key.id = H.keys.map Md5Key.id := by
    unfold keys Md5Handler.setKey
    rw [map_append, map_append, map_id_modifyKey]
  refine ⟨hmap ▸ h.ids, fun x hx => ?_⟩
  have hother : x ∈ H.keys → x.id ≠ k.id → x.Tracks (evs ++ log) := by
    intro hold hne
    exact (h.tracks x hold).append fun ev hev heq => hne (heq.symm.trans (hevs ev hev))
  rcases mem_append.mp hx with hvalid | hinvalid
  · rcases mem_modifyKey h.valid_nodup hvalid with rfl | ⟨hold, hne⟩
    · exact hk
    · exact hother (mem_append_left _ hold) hne
  · refine hother (mem_append_right _ hinvalid) ?_
    rw [← hid]
    exact (h.ne_of_invalid hk₀ hinvalid).symm

end

/-- What a packet does to the keys. -/
def inboundLog (md5 : Md5) (H : Md5Handler) (d : Buffer) (src : Ipv4)
    (newPeer : Bool) : List KeyEvent :=
  match md5Entry d with
  | .error _ => []
  | .ok m =>
      match H.findKey m.keyId with
      | none => []
      | some k =>
          let resets := if newPeer then [.resetSource k.id src] else []
          match (keyFor k src newPeer).verify md5 d src newPeer m with
          | .error _ => resets
          | .ok () => .accepted k.id src m.seqno :: resets

/-- The key that is used is as the log says, with the source reset for a new peer. -/
theorem tracks_keyFor (h : k.Tracks log) (src : Ipv4) (newPeer : Bool) :
    (keyFor k src newPeer).Tracks ((if newPeer then [.resetSource k.id src] else []) ++ log) := by
  cases newPeer with
  | false => exact h
  | true => exact h.resetSource src

theorem keyFor_id : (keyFor k src newPeer).id = k.id := by
  unfold keyFor
  split
  · rfl
  · rfl

theorem findKey_spec (h : H.findKey id = some k) : k ∈ H.validKeyChain ∧ k.id = id :=
  ⟨mem_of_find?_eq_some h, by simpa using find?_some h⟩

section
variable (h : Logged H log)
include h

theorem Logged.authenticateInbound :
    Logged (H.authenticateInbound md5 d src newPeer).1 (H.inboundLog md5 d src newPeer ++ log) := by
  unfold Md5Handler.authenticateInbound inboundLog
  by_cases hkeys : H.validKeyChain = []
  · rw [if_pos (by simpa using hkeys)]
    cases md5Entry d with
    | error stop => exact h
    | ok m =>
      have hnone : H.findKey m.keyId = none := by
        unfold findKey
        rw [hkeys]
        rfl
      dsimp only
      rw [hnone]
      exact h
  · rw [if_neg (by simpa using hkeys)]
    cases md5Entry d with
    | error stop => exact h
    | ok m =>
      dsimp only
      cases hk : H.findKey m.keyId with
      | none => exact h
      | some k =>
        dsimp only
        obtain ⟨hmem, -⟩ := findKey_spec hk
        have htracks := tracks_keyFor (h.tracks k (mem_append_left _ hmem)) src newPeer
        have hresets : ∀ ev ∈ (if newPeer then [KeyEvent.resetSource k.id src] else []),
            ev.id = (keyFor k src newPeer).id := by
          intro ev hev
          rw [keyFor_id]
          split at hev
          · rw [mem_singleton.mp hev]
            rfl
          · cases hev
        cases (keyFor k src newPeer).verify md5 d src newPeer m with
        | error stop => exact h.setKey hmem keyFor_id.symm hresets htracks
        | ok u =>
          refine h.setKey (k := (keyFor k src newPeer).setLastSeqnoRecv src m.seqno) hmem
            keyFor_id.symm ?_ ?_
          · exact forall_mem_cons.mpr ⟨keyFor_id.symm, hresets⟩
          · have hset := htracks.setLastSeqnoRecv src m.seqno
            rw [keyFor_id] at hset
            exact hset

theorem Logged.removeKey (id : Nat) :
    Logged (H.removeKey id) log ∧ ∀ k ∈ (H.removeKey id).keys, k.id ≠ id := by
  -- Where a chain has a key with the id, it is the only one.
  have hgone : ∀ {ks : List Md5Key}, (ks.map Md5Key.id).Nodup →
      ∀ k ∈ ks.eraseP (·.id = id), k.id ≠ id := by
    intro ks hnd k hk heq
    cases hf : ks.find? (·.id = id) with
    | none => exact absurd heq (by simpa using find?_eq_none.mp hf k (mem_of_mem_eraseP hk))
    | some a =>
      have hperm := ((Linked.find?_perm hf).map Md5Key.id).nodup_iff.mp hnd
      rw [map_cons, nodup_cons] at hperm
      have ha : a.id = id := by simpa using find?_some hf
      exact hperm.1 (mem_map.mpr ⟨k, hk, heq.trans ha.symm⟩)
  unfold Md5Handler.removeKey
  split
  · rename_i hsome
    obtain ⟨a, ha⟩ := Option.isSome_iff_exists.mp hsome
    obtain ⟨hmem, hid⟩ := findKey_spec ha
    have hsub : (H.validKeyChain.eraseP (·.id = id)).Sublist H.validKeyChain := eraseP_sublist
    refine ⟨h.of_subperm (List.Perm.refl _) ((hsub.append_right _).map _) fun k hk => ?_, ?_⟩
    · exact ⟨k, (hsub.append_right _).subset hk, rfl, rfl, rfl⟩
    · refine forall_mem_append.mpr ⟨hgone h.valid_nodup, fun k hk => ?_⟩
      rw [← hid]
      exact (h.ne_of_invalid hmem hk).symm
  · rename_i hnone
    have hsub : (H.invalidKeyChain.eraseP (·.id = id)).Sublist H.invalidKeyChain := eraseP_sublist
    refine ⟨h.of_subperm (List.Perm.refl _) ((hsub.append_left _).map _) fun k hk => ?_, ?_⟩
    · exact ⟨k, (hsub.append_left _).subset hk, rfl, rfl, rfl⟩
    · intro k hk
      rcases mem_append.mp hk with hk | hk
      · have hf : H.findKey id = none := by simpa using hnone
        simpa using find?_eq_none.mp hf k hk
      · have hids := h.ids
        unfold keys at hids
        rw [map_append] at hids
        exact hgone (nodup_append.mp hids).2.1 k hk

theorem Logged.retireLast : Logged H.retireLast log := by
  unfold Md5Handler.retireLast
  split
  · rename_i k hv
    split
    · have hperm : (⟨[], H.invalidKeyChain ++ [{ k with isPersistent := false }]⟩ :
          Md5Handler).keys.Perm ({ k with isPersistent := false } :: H.invalidKeyChain) :=
        perm_append_singleton _ _
      refine h.of_subperm hperm ?_ ?_
      · unfold keys
        rw [hv]
        exact List.Sublist.refl _
      · unfold keys
        rw [hv]
        intro k' hk'
        rcases mem_cons.mp hk' with rfl | hk'
        · exact ⟨k, mem_cons_self, rfl, rfl, rfl⟩
        · exact ⟨k', mem_cons_of_mem k hk', rfl, rfl, rfl⟩
    · exact h
  · exact h

/-- A new key, with an id that no other key has. -/
theorem Logged.newKey {new : Md5Key} (hnone : ∀ k ∈ H.keys, k.id ≠ new.id)
    (hfresh : ∀ src, new.lrSeqno src = none ∧ new.pktsRecv src = none)
    (hperm : H'.keys.Perm (new :: H.keys)) : Logged H' (.resetKey new.id :: log) := by
  refine ⟨?_, fun k hk => ?_⟩
  · rw [(hperm.map Md5Key.id).nodup_iff, map_cons, nodup_cons]
    refine ⟨fun hmem => ?_, h.ids⟩
    obtain ⟨k, hk, heq⟩ := mem_map.mp hmem
    exact hnone k hk heq
  · rcases mem_cons.mp (hperm.mem_iff.mp hk) with rfl | hold
    · intro src
      show _ = (if k.id = k.id then none else _) ∧ _ = (if k.id = k.id then none else _).map _
      rw [if_pos rfl]
      exact hfresh src
    · have hother : ∀ ev ∈ [KeyEvent.resetKey new.id], ev.id ≠ k.id := by
        intro ev hev
        rw [mem_singleton.mp hev]
        exact (hnone k hold).symm
      exact (h.tracks k hold).append hother

theorem Logged.addKey {now : Nat} {key : List UInt8} {startTime endTime : Nat}
    (hadd : H.addKey now id key startTime endTime = some H') : Logged H' (.resetKey id :: log) := by
  obtain ⟨hrem, hnone⟩ := h.retireLast.removeKey id
  have hnew : ∀ {H₁ : Md5Handler}, H₁.keys.Perm
      (Md5Key.create id key startTime endTime :: (H.retireLast.removeKey id).keys) →
      Logged H₁ (.resetKey id :: log) :=
    fun hperm => hrem.newKey hnone (fun _ => ⟨rfl, rfl⟩) hperm
  unfold Md5Handler.addKey at hadd
  split_ifs at hadd
  · cases hadd
    refine hnew ?_
    show (_ ++ (_ ++ [_])).Perm _
    rw [← append_assoc]
    exact perm_append_singleton _ _
  · cases hadd
    refine hnew ?_
    show ((_ ++ [_]) ++ _).Perm _
    rw [append_assoc]
    exact perm_middle

theorem Logged.keyStart (id : Nat) : Logged (H.keyStart id) log := by
  unfold Md5Handler.keyStart
  split
  · exact h
  · rename_i k hf
    have hperm : (⟨H.validKeyChain ++ [k], H.invalidKeyChain.eraseP (·.id = id)⟩ :
        Md5Handler).keys.Perm H.keys := by
      show ((H.validKeyChain ++ [k]) ++ _).Perm _
      rw [append_assoc]
      exact ((Linked.find?_perm hf).append_left _).symm
    exact h.of_subperm hperm (List.Sublist.refl _) fun k' hk' => ⟨k', hk', rfl, rfl, rfl⟩

theorem Logged.keyStop (id : Nat) : Logged (H.keyStop id) log := by
  unfold Md5Handler.keyStop
  split
  · exact h
  · rename_i k hf
    split
    · have hmem := (findKey_spec hf).1
      have hevs : ∀ ev ∈ ([] : List KeyEvent), ev.id = k.id := nofun
      have htracks : k.Tracks ([] ++ log) := h.tracks k (mem_append_left _ hmem)
      exact h.setKey (k := { k with isPersistent := true }) hmem rfl hevs htracks
    · have hperm : (⟨H.validKeyChain.eraseP (·.id = id), H.invalidKeyChain ++ [k]⟩ :
          Md5Handler).keys.Perm H.keys := by
        show (_ ++ (_ ++ [k])).Perm _
        rw [← append_assoc]
        exact (perm_append_singleton _ _).trans ((Linked.find?_perm hf).append_right _).symm
      exact h.of_subperm hperm (List.Sublist.refl _) fun k' hk' => ⟨k', hk', rfl, rfl, rfl⟩

theorem Logged.reset : Logged H.reset ((H.validKeyChain.map Md5Key.id).map .resetKey ++ log) := by
  have hmap : H.reset.keys.map Md5Key.id = H.keys.map Md5Key.id := by
    unfold keys Md5Handler.reset
    rw [map_append, map_append, map_map]
    rfl
  refine ⟨hmap ▸ h.ids, fun k hk => ?_⟩
  rcases mem_append.mp hk with hvalid | hinvalid
  · obtain ⟨k₀, hk₀, rfl⟩ := mem_map.mp hvalid
    have hin : k₀.reset.id ∈ H.validKeyChain.map Md5Key.id := mem_map.mpr ⟨k₀, hk₀, rfl⟩
    intro src
    rw [lastAccepted_resetKeys, if_pos hin]
    exact ⟨rfl, rfl⟩
  · refine (h.tracks k (mem_append_right _ hinvalid)).append fun ev hev => ?_
    obtain ⟨i, hi, rfl⟩ := mem_map.mp hev
    obtain ⟨k₀, hk₀, rfl⟩ := mem_map.mp hi
    exact h.ne_of_invalid hk₀ hinvalid

end

/-! ### Whole histories -/

inductive Op
  | inbound (d : Buffer) (src : Ipv4) (newPeer : Bool)
  | addKey (now id : Nat) (key : List UInt8) (startTime endTime : Nat)
  | removeKey (id : Nat)
  | keyStart (id : Nat)
  | keyStop (id : Nat)
  | reset

/-- The handler after an operation, and what happened to the keys. -/
def step (md5 : Md5) (H : Md5Handler) : Op → Md5Handler × List KeyEvent
  | .inbound d src newPeer =>
      ((H.authenticateInbound md5 d src newPeer).1, H.inboundLog md5 d src newPeer)
  | .addKey now id key startTime endTime =>
      match H.addKey now id key startTime endTime with
      | none => (H, [])
      | some H' => (H', [.resetKey id])
  | .removeKey id => (H.removeKey id, [])
  | .keyStart id => (H.keyStart id, [])
  | .keyStop id => (H.keyStop id, [])
  | .reset => (H.reset, (H.validKeyChain.map Md5Key.id).map .resetKey)

/-- The handlers and logs that operations come to. -/
inductive Reach (md5 : Md5) : Md5Handler → List KeyEvent → Prop
  | init : Reach md5 .create []
  | step {H : Md5Handler} {log : List KeyEvent} (op : Op) : Reach md5 H log →
      Reach md5 (H.step md5 op).1 ((H.step md5 op).2 ++ log)

theorem Logged.step (h : Logged H log) (op : Op) :
    Logged (H.step md5 op).1 ((H.step md5 op).2 ++ log) := by
  cases op with
  | inbound d src newPeer => exact h.authenticateInbound
  | addKey now id key startTime endTime =>
    unfold Md5Handler.step
    dsimp only
    cases hadd : H.addKey now id key startTime endTime with
    | none => exact h
    | some H' => exact h.addKey hadd
  | removeKey id => exact (h.removeKey id).1
  | keyStart id => exact h.keyStart id
  | keyStop id => exact h.keyStop id
  | reset => exact h.reset

theorem Reach.logged (h : Reach md5 H log) : Logged H log := by
  induction h with
  | init => exact ⟨nodup_nil, nofun⟩
  | step op _ ih => exact ih.step op

/-- The log as it is when a packet's number is looked at: a new peer is reset before. -/
def logFor (log : List KeyEvent) (id : Nat) (src : Ipv4) (newPeer : Bool) : List KeyEvent :=
  if newPeer then .resetSource id src :: log else log

/-- A number that is accepted is not behind the last one of its key and source. -/
theorem Logged.notBehind (h : Logged H log) (hacc : H.Accepts md5 d src newPeer)
    (hlast : lastAccepted (readEntry d).keyId src (logFor log (readEntry d).keyId src newPeer) =
      some last) : NotBehind (readEntry d).seqno last := by
  obtain ⟨-, k, hk, hkey⟩ := hacc
  obtain ⟨hmem, hid⟩ := findKey_spec hk
  cases newPeer with
  | true =>
    -- There is no last number of a source that has just been reset.
    unfold logFor at hlast
    rw [if_pos rfl] at hlast
    have hnone : lastAccepted (readEntry d).keyId src
        (.resetSource (readEntry d).keyId src :: log) = none := if_pos ⟨rfl, rfl⟩
    rw [hnone] at hlast
    cases hlast
  | false =>
    refine (h.tracks k (mem_append_left _ hmem)).notBehind hkey.seqno ?_ rfl
    rw [hid]
    exact hlast

end Md5Handler

/-- For every handler a packet is read inside its bounds, and an accepted one has its entries in their
place and the digest of a key, exactly under the condition; and in every history an accepted sequence
number is not behind the last one. -/
theorem inbound_authentication (md5 : Md5) :
    (∀ (h : AuthHandler) d src newPeer,
      h.Proper md5 d (h.authenticateInbound md5 d src newPeer).2 ↔ h.InBounds md5 d src newPeer) ∧
    ∀ H log, Md5Handler.Reach md5 H log → H.validKeyChain ≠ [] → ∀ d src newPeer e,
      (H.authenticateInbound md5 d src newPeer).2 = .ok e → ∀ last,
      lastAccepted (readEntry d).keyId src
        (Md5Handler.logFor log (readEntry d).keyId src newPeer) = some last →
      NotBehind (readEntry d).seqno last := by
  refine ⟨fun h d src newPeer => h.proper_iff, ?_⟩
  intro H log hreach hkeys d src newPeer e hok last hlast
  have hacc := ((md5_authenticateInbound_spec hkeys md5 d src newPeer e).2.mp hok).1
  exact hreach.logged.notBehind hacc hlast

/-- A response without entries, with this number and a digest of zeros. -/
def numbered (seqno : UInt8) : Buffer where
  data := [2, 2, 0, 0, 0xff, 0xff, 0, 3, 0, 24, 1, 20, 0, 0, 0, seqno] ++ List.replicate 8 0 ++
    [0xff, 0xff, 0, 1] ++ List.replicate 16 0
  fits := by simp

/-- A source has sent the numbers 4 and 5, and its packet with the number 7 is accepted. -/
theorem inbound_authentication_third : ∃ H log,
    Md5Handler.Reach (fun _ => Vector.replicate 16 0) H log ∧
      log = [.accepted 1 0 5, .accepted 1 0 4, .resetKey 1] ∧
      (∃ e, (H.authenticateInbound (fun _ => Vector.replicate 16 0) (numbered 7) 0 false).2 = .ok e) ∧
      NotBehind 7 5 := by
  have h0 : Md5Handler.Reach (fun _ => Vector.replicate 16 0) .create [] := .init
  have h := ((h0.step (.addKey 0 1 [] 0 0)).step (.inbound (numbered 4) 0 false)).step
    (.inbound (numbered 5) 0 false)
  refine ⟨_, _, h, rfl, ⟨_, rfl⟩, ?_⟩
  exact (inbound_authentication _).2 _ _ h (by decide) (numbered 7) 0 false _ rfl _ rfl

/-- A response without entries: the trailer is in the entry for MD5, so that the sequence number is
its first half. -/
def shortPacket (digest : Vector UInt8 16) : Buffer where
  data := [2, 2, 0, 0, 0xff, 0xff, 0, 3, 0, 12, 1, 20, 0xff, 0xff, 0, 1] ++ digest.toList
  fits := by
    rw [List.length_append, Vector.length_toList]
    decide

/-- A packet with a password of sixteen characters. -/
def fullPassword : Buffer := ⟨[2, 2, 0, 0, 0xff, 0xff, 0, 2] ++ List.replicate 16 0x61, by decide⟩

theorem size_shortPacket (digest : Vector UInt8 16) : (shortPacket digest).size = 32 := by
  show (_ ++ digest.toList).length = 32
  rw [length_append, Vector.length_toList]
  rfl

theorem authOff_shortPacket (digest : Vector UInt8 16) : (shortPacket digest).u16 8 = 12 := by
  show 0 * 2 ^ 8 + 12 = 12
  decide

/-- The key that every packet is checked with. -/
def onlyKey : Md5Key := .create 1 [] 0 0

/-- The digest that the key gives for the packet. -/
def shortDigest (md5 : Md5) : Vector UInt8 16 :=
  md5 ([2, 2, 0, 0, 0xff, 0xff, 0, 3, 0, 12, 1, 20, 0xff, 0xff, 0, 1] ++ onlyKey.keyData)

theorem accepts_shortPacket (md5 : Md5) :
    Md5Handler.Accepts md5 ⟨[onlyKey], []⟩ (shortPacket (shortDigest md5)) 0 false := by
  set d := shortPacket (shortDigest md5)
  have hsize : d.size = 32 := size_shortPacket _
  have hfam : d.u16 4 = 255 * 2 ^ 8 + 255 := rfl
  have htype : d.u16 6 = 0 * 2 ^ 8 + 3 := rfl
  have hoff : d.u16 8 = 12 := authOff_shortPacket _
  have htrailer : d.u16 12 = 255 * 2 ^ 8 + 255 := rfl
  have hone : d.u16 14 = 0 * 2 ^ 8 + 1 := rfl
  have hdigest : d.slice 16 16 = (shortDigest md5).toList :=
    take_of_length_le (Nat.le_of_eq Vector.length_toList)
  refine ⟨⟨?_, ?_, hfam, htype, rfl, ?_⟩, onlyKey, rfl, ⟨rfl, ?_, ?_, ?_⟩⟩
  · rw [hsize]
    decide
  · rw [hsize]
    decide
  · rw [hsize, hoff]
  · rw [hoff]
    exact htrailer
  · rw [hoff]
    exact hone
  · rw [hoff, hdigest]
    rfl

/-- Whatever the digest is, a packet of 32 bytes is accepted with 2^32 - 1 entries; and a packet that
ends with its password is read past its end. -/
theorem entries_outside_packet : (∀ md5 : Md5, ∃ H digest e,
      (AuthHandler.authenticateInbound md5 (shortPacket digest) 0 false (.md5 H)).2 = .ok e ∧
        e.nEntries = 2 ^ 32 - 1 ∧
        ¬ (AuthHandler.md5 H).Proper md5 (shortPacket digest)
          (AuthHandler.authenticateInbound md5 (shortPacket digest) 0 false (.md5 H)).2) ∧
    (AuthHandler.authenticateInbound (fun _ => Vector.replicate 16 0) fullPassword 0 false
      (.simple [])).2 = .error .outOfBounds := by
  constructor
  · intro md5
    have hacc := accepts_shortPacket md5
    have hspec := md5_authenticateInbound_spec (H := ⟨[onlyKey], []⟩) (by simp) md5
      (shortPacket (shortDigest md5)) 0 false (readEntry (shortPacket (shortDigest md5))).entries
    refine ⟨⟨[onlyKey], []⟩, shortDigest md5, _, hspec.2.mpr ⟨hacc, rfl⟩, ?_, ?_⟩
    · show sub64 (sub64 ((shortPacket (shortDigest md5)).u16 8) 4 / 20) 1 % 2 ^ 32 = _
      rw [authOff_shortPacket]
      decide
    rw [AuthHandler.proper_iff]
    intro hin
    have hlong := hin (by simp) hacc
    rw [size_shortPacket] at hlong
    omega
  · exact eq_of_readsOutside (by decide)

end Xorp.Rip

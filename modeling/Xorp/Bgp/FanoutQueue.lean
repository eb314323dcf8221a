/-
Reading from the fanout queue and putting into it.

A table that moves on steps over what came from its own peer, and frees the head if it was the last
one there.  A queue that is not empty has a table at its head, whatever is queued and whoever
leaves.
-/
import Xorp.Bgp.Fanout

namespace Xorp.Bgp

open Linked Function List

variable {τ π ρ α : Type}

namespace FanoutTable

open QueueItem

/-! ### The iterators -/

/-- What counts for reading is the same. -/
structure SameReader (i j : PeerTableInfo π) : Prop where
  peer : j.peerHandler = i.peerHandler
  data : j.hasQueuedData = i.hasQueuedData
  posn : j.posn = i.posn

theorem SameReader.refl (i : PeerTableInfo π) : SameReader i i := ⟨rfl, rfl, rfl⟩

theorem SameReader.trans {i j k : PeerTableInfo π} (h : SameReader i j) (h' : SameReader j k) :
    SameReader i k :=
  ⟨h'.peer.trans h.peer, h'.data.trans h.data, h'.posn.trans h.posn⟩

section
variable {S S' : FanoutTable τ π ρ α} {items gone rest pre post : List (QueueItem π ρ α)}
  {t u : τ} {a : QueueItem π ρ α} {i j : PeerTableInfo π} {base : Nat}

theorem Reads.congr (h : Reads base items i post) (hsame : SameReader i j) :
    Reads base items j post := by
  cases h with
  | nothing h => exact .nothing (hsame.data.trans h)
  | here pre a post h hitems hposn ha =>
    refine .here pre a post (hsame.data.trans h) hitems (hsame.posn.trans hposn) ?_
    rw [hsame.peer]
    exact ha

/-- The queue is not kept for nobody. -/
structure Inv (S : FanoutTable τ π ρ α) (items : List (QueueItem π ρ α)) : Prop
    extends Queued S items where
  order : S.order.Nodup
  held : items ≠ [] → S.headHeld = true

theorem Inv.congr (h : Inv S items) (hqueue : S'.outputQueue = S.outputQueue)
    (hbase : S'.base = S.base) (horder : S'.order = S.order) (hlocked : S'.locked = S.locked)
    (hinfo : ∀ t, SameReader (S.info t) (S'.info t)) : Inv S' items := by
  refine ⟨⟨hqueue.trans h.queue, ?_, hlocked ▸ h.locked, hlocked ▸ h.nodup⟩, horder ▸ h.order, ?_⟩
  · intro t ht
    obtain ⟨post, hr⟩ := h.reads t (horder ▸ ht)
    exact ⟨post, hbase ▸ hr.congr (hinfo t)⟩
  · intro hne
    obtain ⟨t, ht, hdata, hposn⟩ := headHeld_iff.mp (h.held hne)
    refine headHeld_iff.mpr ⟨t, horder ▸ ht, (hinfo t).data.trans hdata, ?_⟩
    rw [(hinfo t).posn, hposn, hbase]

/-- A table has moved on, and the first operations are gone. -/
structure Moved (S : FanoutTable τ π ρ α) (items : List (QueueItem π ρ α)) (t : τ)
    (S' : FanoutTable τ π ρ α) (gone rest : List (QueueItem π ρ α)) : Prop where
  split : items = gone ++ rest
  inv : Inv S' rest
  base : S'.base = S.base + (flat gone).length
  order : S'.order = S.order
  others : ∀ u, u ≠ t → S'.info u = S.info u
  peer : (S'.info t).peerHandler = (S.info t).peerHandler

theorem Moved.refl (h : Inv S items) : Moved S items t S [] items :=
  ⟨rfl, h, rfl, rfl, fun _ _ => rfl, rfl⟩

theorem Moved.trans {S'' : FanoutTable τ π ρ α} {gone' rest' : List (QueueItem π ρ α)}
    (h : Moved S items t S' gone rest) (h' : Moved S' rest t S'' gone' rest') :
    Moved S items t S'' (gone ++ gone') rest' := by
  refine ⟨?_, h'.inv, ?_, h'.order.trans h.order, ?_, h'.peer.trans h.peer⟩
  · rw [h.split, h'.split, append_assoc]
  · rw [h'.base, h.base, flat_append, length_append, Nat.add_assoc]
  · exact fun u hu => (h'.others u hu).trans (h.others u hu)

/-- What a table reads has a place in the queue. -/
theorem Reads.split (h : Reads base items i (a :: post)) :
    ∃ pre, i.hasQueuedData = true ∧ items = pre ++ a :: post ∧
      i.posn = base + (flat pre).length ∧ a.originPeer ≠ some i.peerHandler := by
  cases h with
  | here pre _ _ h hitems hposn ha => exact ⟨pre, h, hitems, hposn, ha⟩

variable {peer : π}

/-- What a table reads after it has stepped over its own. -/
theorem reads_next [DecidableEq π] {p : Nat} (hitems : items = pre ++ post)
    (hi : i.peerHandler = peer) (hdata : i.hasQueuedData = true)
    (hp : p = base + (flat (pre ++ ownItems peer post)).length) : Reads base items
      (if p = base + (flat items).length then { i with hasQueuedData := false }
      else { i with posn := p })
      (pastOwn peer post) := by
  have hsplit : items = (pre ++ ownItems peer post) ++ pastOwn peer post := by
    rw [append_assoc, ownItems_append_pastOwn, hitems]
  cases hrest : pastOwn peer post with
  | nil =>
    rw [hrest, append_nil] at hsplit
    rw [if_pos (by rw [hp, ← hsplit])]
    exact .nothing rfl
  | cons b tail =>
    rw [hrest] at hsplit
    have hlong : (flat items).length =
        (flat (pre ++ ownItems peer post)).length + (flat (b :: tail)).length := by
      rw [hsplit, flat_append, length_append]
    have hpos := b.length_entries_pos
    have hb : b.originPeer ≠ some peer := by
      have hhead := head_dropWhile_not (fun a : QueueItem π ρ α => a.originPeer = some peer)
        (ne_of_eq_of_ne hrest (cons_ne_nil b tail))
      simp only [pastOwn] at hrest
      simp only [hrest] at hhead
      exact of_decide_eq_false hhead
    rw [if_neg (by rw [flat_cons, length_append] at hlong; omega)]
    exact .here _ b tail hdata hsplit hp (hi ▸ hb)

theorem Reads.prepend (h : Reads (base + (flat gone).length) rest i post) :
    Reads base (gone ++ rest) i post := by
  cases h with
  | nothing h => exact .nothing h
  | here pre a post h hitems hposn ha =>
    refine .here (gone ++ pre) a post h (by rw [hitems, append_assoc]) ?_ ha
    rw [hposn, flat_append, length_append, Nat.add_assoc]

/-- The others have the same to receive. -/
theorem Moved.pending_eq [DecidableEq π] (h : Moved S items t S' gone rest)
    (hq : S.outputQueue = flat items) (hu : u ∈ S.order) (hne : u ≠ t) :
    S'.pending u = S.pending u := by
  obtain ⟨post, hr⟩ := h.inv.reads u (h.order ▸ hu)
  have hbefore : Reads S.base items (S.info u) post := by
    rw [h.base, h.others u hne] at hr
    rw [h.split]
    exact hr.prepend
  rw [FanoutTable.pending_eq h.inv.queue hr, FanoutTable.pending_eq hq hbefore, h.others u hne]

theorem callsFor_cons [DecidableEq π] (ha : a.originPeer ≠ some peer) :
    callsFor peer (a :: post) = a.call :: callsFor peer post := by
  rw [callsFor, filter_cons_of_pos (by simp [ha])]
  rfl

theorem callsFor_pastOwn [DecidableEq π] :
    callsFor peer (pastOwn peer post) = callsFor peer post := by
  induction post with
  | nil => rfl
  | cons a post ih =>
    by_cases ha : a.originPeer = some peer
    · have hskip : callsFor peer (a :: post) = callsFor peer post := by
        rw [callsFor, filter_cons_of_neg (by simp [ha])]
        rfl
      rw [hskip, ← ih, pastOwn, dropWhile_cons_of_pos (by simp [ha])]
      rfl
    · rw [pastOwn, dropWhile_cons_of_neg (by simp [ha])]

section
variable [DecidableEq τ]

omit [DecidableEq τ] in
/-- Somebody else is at the head. -/
theorem headHeld_of_ne (h : S.headHeld = true) (horder : S'.order = S.order)
    (hbase : S'.base = S.base) (hothers : ∀ u, u ≠ t → S'.info u = S.info u)
    (ht : (S.info t).hasQueuedData = true → (S.info t).posn ≠ S.base) : S'.headHeld = true := by
  obtain ⟨u, hu, hdata, hposn⟩ := headHeld_iff.mp h
  have hne : u ≠ t := fun he => ht (he ▸ hdata) (he ▸ hposn)
  refine headHeld_iff.mpr ⟨u, horder ▸ hu, ?_, ?_⟩
  · rw [hothers u hne]
    exact hdata
  · rw [hothers u hne, hbase]
    exact hposn

/-- **One table moves on.**  If it was at the head, what nobody reads any more is freed. -/
theorem moveOn_eq [DecidableEq π] (h : Inv S items) (ht : t ∈ S.order)
    (hdata : (S.info t).hasQueuedData = true) (hitems : items = pre ++ a :: post)
    (hposn : (S.info t).posn = S.base + (flat pre).length) {p : Nat}
    (hp : p = S.base + (flat (pre ++ a :: ownItems (S.info t).peerHandler post)).length) :
    ∃ S' gone rest, S.moveOn t ((S.info t).posn = S.base) p = .ok S' ∧
      Moved S items t S' gone rest ∧ S'.calls = S.calls ∧
      Reads S'.base rest (S'.info t) (pastOwn (S.info t).peerHandler post) := by
  have hend : S.queueEnd = S.base + (flat items).length := by rw [queueEnd, h.queue]
  have hreads : Reads S.base items (if p = S.queueEnd then { S.info t with hasQueuedData := false }
        else { S.info t with posn := p })
      (pastOwn (S.info t).peerHandler post) := by
    rw [hend]
    have hsplit : items = (pre ++ [a]) ++ post := by rw [hitems, append_assoc, singleton_append]
    refine reads_next hsplit rfl hdata ?_
    rw [hp]
    simp
  set j := if p = S.queueEnd then { S.info t with hasQueuedData := false }
    else { S.info t with posn := p } with hj
  have hpeer : j.peerHandler = (S.info t).peerHandler := by
    rw [hj]
    split <;> rfl
  set T := S.setInfo t j with hT
  have hothers : ∀ u, u ≠ t → T.info u = S.info u := fun u hu => update_of_ne hu _ _
  have hself : T.info t = j := by
    exact update_self ..
  have hqueued : Queued T items := by
    refine ⟨h.queue, ?_, h.locked, h.nodup⟩
    intro u hu
    by_cases hut : u = t
    · subst hut
      exact ⟨_, hself ▸ hreads⟩
    · rw [hothers u hut]
      exact h.reads u hu
  have hrun : S.moveOn t ((S.info t).posn = S.base) p =
      if (S.info t).posn = S.base then discard (T.outputQueue.length + 1) T else .ok T := by
    unfold moveOn
    by_cases hat : (S.info t).posn = S.base
    · simp [hat, hT, hj]
    · simp only [hat, hT, hj]
      rfl
  by_cases hat : (S.info t).posn = S.base
  · have hne : items ≠ [] := by simp [hitems]
    have hfuel : items.length < T.outputQueue.length + 1 := by
      have hle := length_le_flat items
      rw [← h.queue] at hle
      exact Nat.lt_succ_of_le hle
    obtain ⟨gone, rest, locked, hsplit, hdiscard, hfreed, hhead, hkeep⟩ :=
      discard_eq _ hqueued hfuel hne
    refine ⟨_, gone, rest, hrun.trans ((if_pos hat).trans hdiscard), ?_, rfl, ?_⟩
    · refine ⟨hsplit, ⟨hfreed, h.order, fun hrest => hhead.resolve_left hrest⟩, rfl, rfl, hothers,
        ?_⟩
      show (T.info t).peerHandler = _
      rw [hself, hpeer]
    · exact hkeep t ht _ (hself ▸ hreads)
  · refine ⟨T, [], items, hrun.trans (if_neg hat), ?_, rfl, hself ▸ hreads⟩
    refine ⟨rfl, ⟨hqueued, h.order, ?_⟩, rfl, rfl, hothers, by rw [hself, hpeer]⟩
    intro hne
    exact headHeld_of_ne (h.held hne) rfl rfl hothers fun _ => hat

omit [DecidableEq τ] in
theorem flat_past {q : List (FanoutEntry π ρ α)} (hq : q = flat (pre ++ a :: post)) :
    q = flat ((pre ++ [a]) ++ post) ∧ post.length < q.length + 1 := by
  have hle := length_le_flat (pre ++ a :: post)
  rw [← hq, length_append, length_cons] at hle
  exact ⟨by rw [hq, append_assoc, singleton_append], by omega⟩

theorem received_call (c : NextCall π ρ α) :
    (S.call t c).received u = S.received u ++ if t = u then [c] else [] := by
  unfold received call
  by_cases h : t = u
  · simp [h]
  · simp [h]

omit [DecidableEq τ] in
theorem received_congr [DecidableEq τ] (h : S'.calls = S.calls) : S'.received t = S.received t := by
  rw [received, received, h]

/-- A change of `info` that does not matter for reading. -/
theorem sameReader_setInfo (h : SameReader (S.info t) j) (u : τ) :
    SameReader (S.info u) ((S.setInfo t j).info u) :=
  (forall_update_iff S.info fun u x => SameReader (S.info u) x).mpr ⟨h, fun _ _ => .refl _⟩ u

/-- **A table gets its next message**, and that is all that happens to it. -/
theorem getNextMessage_eq [DecidableEq π] (h : Inv S items) (ht : t ∈ S.order)
    (hr : Reads S.base items (S.info t) (a :: post)) :
    ∃ S' gone rest, S.getNextMessage t = .ok S' ∧ Moved S items t S' gone rest ∧
      S'.calls = S.calls ++ [(t, a.call)] ∧
      Reads S'.base rest (S'.info t) (pastOwn (S.info t).peerHandler post) := by
  obtain ⟨pre, hdata, hitems, hposn, ha⟩ := hr.split
  set i := (S.info t).receivedGet with hi
  set T := (S.setInfo t i).call t a.call with hT
  have hsame : ∀ u, SameReader (S.info u) (T.info u) := sameReader_setInfo (S := S) ⟨rfl, rfl, rfl⟩
  have hself : T.info t = i := by
    exact update_self ..
  have hinv : Inv T items := h.congr rfl rfl rfl rfl hsame
  have hq : (S.setInfo t i).outputQueue = flat (pre ++ a :: post) := hitems ▸ h.queue
  obtain ⟨last, hdeliver, hlast⟩ := deliver_eq hq
  obtain ⟨hq', hfuel⟩ := flat_past (q := T.outputQueue) hq
  have hskip := (skips_skipOwn i.peerHandler).eq _ hq' hfuel
  have hpeer : (T.info t).peerHandler = (S.info t).peerHandler := (hsame t).peer
  obtain ⟨S', gone, rest, hmove, hmoved, hcalls, hreads⟩ :=
    moveOn_eq (p := T.base + (flat (pre ++ [a] ++ ownItems i.peerHandler post)).length) hinv ht
      ((hsame t).data.trans hdata) hitems ((hsame t).posn.trans hposn) (by simp [hself])
  refine ⟨S', gone, rest, ?_, ?_, hcalls, ?_⟩
  · have hposn' : i.posn = S.base + (flat pre).length := hposn
    have hdata' : ¬ i.hasQueuedData = false := by simp [hi, PeerTableInfo.receivedGet, hdata]
    rw [getNextMessage, if_neg (not_not_intro ht)]
    simp only [← hi, if_neg hdata']
    rw [hposn']
    show (do let x ← (S.setInfo t i).deliver t ((S.setInfo t i).base + (flat pre).length); _) = _
    rw [hdeliver, ok_bind]
    rw [hlast]
    show (do
      let p ← T.skipOwn i.peerHandler (T.outputQueue.length + 1)
        (T.base + (flat (pre ++ [a])).length)
      T.moveOn t (S.base + (flat pre).length = T.base) p) = _
    rw [hskip, ok_bind, ← hmove, hself, hposn']
  · refine ⟨hmoved.split, hmoved.inv, hmoved.base, hmoved.order, ?_, hmoved.peer.trans hpeer⟩
    intro u hu
    exact (hmoved.others u hu).trans (update_of_ne hu _ _)
  · rw [hpeer] at hreads
    exact hreads

/-- A table that is to leave passes over all it has. -/
theorem skipLoop_eq [DecidableEq π] (fuel : Nat) (h : Inv S items) (ht : t ∈ S.order)
    (hr : Reads S.base items (S.info t) post) (hfuel : post.length < fuel) :
    ∃ S' gone rest, skipLoop t fuel S = .ok S' ∧ Moved S items t S' gone rest ∧
      S'.calls = S.calls ∧ (S'.info t).hasQueuedData = false := by
  induction fuel generalizing S items post with
  | zero => omega
  | succ fuel ih =>
    cases post with
    | nil =>
      cases hr with
      | nothing hno => exact ⟨S, [], items, if_pos hno, .refl h, rfl, hno⟩
    | cons a post =>
      obtain ⟨pre, hdata, hitems, hposn, -⟩ := hr.split
      have hq : S.outputQueue = flat (pre ++ a :: post) := hitems ▸ h.queue
      obtain ⟨last, hpass, hlast⟩ := passOver_eq hq
      obtain ⟨hq', hlen⟩ := flat_past hq
      have hskip := (skips_skipNotFor (S.info t).peerHandler).eq _ hq' hlen
      obtain ⟨S', gone, rest, hmove, hmoved, hcalls, hreads⟩ := moveOn_eq (p := S.base +
          (flat (pre ++ [a] ++ ownItems (S.info t).peerHandler post)).length) h ht hdata hitems
          hposn (by simp)
      have hshort : (pastOwn (S.info t).peerHandler post).length < fuel :=
        (dropWhile_suffix _).length_le.trans_lt (Nat.lt_of_succ_lt_succ hfuel)
      obtain ⟨S'', gone', rest', hrun, hmoved', hcalls', hno⟩ :=
        ih hmoved.inv (hmoved.order ▸ ht) hreads hshort
      refine ⟨S'', gone ++ gone', rest', ?_, hmoved.trans hmoved', hcalls'.trans hcalls, hno⟩
      rw [← hposn] at hpass
      rw [skipLoop, if_neg (by simp [hdata]), hpass, ok_bind, hlast, hskip, ok_bind, hmove,
        ok_bind, hrun]

theorem skipEntireQueue_eq [DecidableEq π] (h : Inv S items) (ht : t ∈ S.order) :
    ∃ S' gone rest, S.skipEntireQueue t = .ok S' ∧ Moved S items t S' gone rest ∧
      S'.calls = S.calls ∧ (S'.info t).hasQueuedData = false := by
  set T := S.setInfo t (S.info t).peerReset with hT
  have hsame : ∀ u, SameReader (S.info u) (T.info u) := sameReader_setInfo ⟨rfl, rfl, rfl⟩
  obtain ⟨post, hr⟩ := h.reads t ht
  have hfuel : post.length < T.outputQueue.length + 1 := by
    have hle := length_le_flat items
    cases hr with
    | nothing _ => exact Nat.succ_pos _
    | here pre a post hdata hitems _ _ =>
      have hq : T.outputQueue = flat items := h.queue
      rw [hq]
      rw [hitems, length_append] at hle
      rw [hitems]
      omega
  have hinv : Inv T items := h.congr rfl rfl rfl rfl hsame
  obtain ⟨S', gone, rest, hrun, hmoved, hcalls, hno⟩ :=
    skipLoop_eq _ hinv ht (hr.congr (hsame t)) hfuel
  refine ⟨S', gone, rest, (if_neg (not_not_intro ht)).trans hrun, ?_, hcalls, hno⟩
  refine ⟨hmoved.split, hmoved.inv, hmoved.base, hmoved.order, ?_, hmoved.peer.trans (hsame t).peer⟩
  exact fun u hu => (hmoved.others u hu).trans (update_of_ne hu _ _)

/-! ### The tables come and go -/

/-- A table with nothing to read leaves no trace in the queue. -/
theorem Inv.erase (h : Inv S items) (hno : (S.info t).hasQueuedData = false) :
    Inv { S with order := S.order.erase t } items := by
  refine ⟨⟨h.queue, ?_, h.locked, h.nodup⟩, h.order.erase t, ?_⟩
  · exact fun u hu => h.reads u (mem_of_mem_erase hu)
  · intro hne
    obtain ⟨u, hu, hdata, hposn⟩ := headHeld_iff.mp (h.held hne)
    have hut : u ≠ t := by
      intro he
      rw [he, hno] at hdata
      cases hdata
    exact headHeld_iff.mpr ⟨u, (mem_erase_of_ne hut).mpr hu, hdata, hposn⟩

theorem Inv.insertTable [DecidableEq π] (h : Inv S items) (ht : t ∉ S.order) (now : Nat) (peer : π)
    (genid : BitVec 32) : Inv (S.insertTable now t peer genid) items := by
  have hothers : ∀ u ∈ S.order, (S.insertTable now t peer genid).info u = S.info u := by
    intro u hu
    exact update_of_ne (ne_of_mem_of_not_mem hu ht) _ _
  have hself : (S.insertTable now t peer genid).info t = .new peer genid now := by
    exact update_self ..
  refine ⟨⟨h.queue, ?_, h.locked, h.nodup⟩, ?_, ?_⟩
  · refine forall_mem_append.mpr ⟨fun u hu => ?_, forall_mem_singleton.mpr ?_⟩
    · rw [hothers u hu]
      exact h.reads u hu
    · rw [hself]
      exact ⟨[], .nothing rfl⟩
  · refine nodup_append.mpr ⟨h.order, nodup_singleton t, ?_⟩
    intro u hu v hv he
    rw [he, mem_singleton.mp hv] at hu
    exact ht hu
  · intro hne
    obtain ⟨u, hu, hdata, hposn⟩ := headHeld_iff.mp (h.held hne)
    refine headHeld_iff.mpr ⟨u, mem_append_left _ hu, ?_, ?_⟩
    · rw [hothers u hu]
      exact hdata
    · rw [hothers u hu]
      exact hposn

/-! ### Queueing -/

/-- A table that was woken has asked in time. -/
def Prompt (now : Nat) (i : PeerTableInfo π) : Prop :=
  i.isReady = true → i.waitingForGet = true → now - i.wakeupSent ≤ 1200

instance (now : Nat) (i : PeerTableInfo π) : Decidable (Prompt now i) := by
  unfold Prompt
  infer_instance

variable {ts : List τ} {now : Nat}

omit [DecidableEq τ] in
theorem sendWakeup_eq (h : Prompt now i) (hready : i.isReady = true) :
    ∃ j, i.sendWakeup now = .ok j ∧ SameReader i j ∧ Prompt now j := by
  unfold PeerTableInfo.sendWakeup
  by_cases hwait : i.waitingForGet = true
  · have hlate : ¬ 1200 < now - i.wakeupSent := Nat.not_lt.mpr (h hready hwait)
    rw [if_pos hwait, if_neg hlate]
    exact ⟨i, rfl, .refl i, h⟩
  · rw [if_neg hwait]
    refine ⟨_, rfl, ⟨rfl, rfl, rfl⟩, ?_⟩
    intro _ _
    show now - now ≤ 1200
    omega

theorem wakeupDownstream_eq [DecidableEq π] (h : ∀ t ∈ ts, Prompt now (S.info t)) :
    ∃ info, wakeupDownstream now ts S = .ok { S with info } ∧
      ∀ t, SameReader (S.info t) (info t) := by
  induction ts generalizing S with
  | nil => exact ⟨S.info, rfl, fun t => .refl _⟩
  | cons t ts ih =>
    rw [wakeupDownstream]
    by_cases hready : (S.info t).isReady = true
    · obtain ⟨j, hj, hsame, hprompt⟩ := sendWakeup_eq (h t mem_cons_self) hready
      have hset : ∀ u ∈ ts, Prompt now ((S.setInfo t j).info u) :=
        (forall_update_iff S.info fun u x => u ∈ ts → Prompt now x).mpr
          ⟨fun _ => hprompt, fun u _ hu => h u (mem_cons_of_mem t hu)⟩
      obtain ⟨info, hrun, hinfo⟩ := ih hset
      refine ⟨info, ?_, fun u => (sameReader_setInfo hsame u).trans (hinfo u)⟩
      rw [if_pos hready, hj, ok_bind, hrun]
      rfl
    · rw [if_neg hready]
      exact ih fun u hu => h u (mem_cons_of_mem t hu)

/-- An operation was put into the queue for some of the tables. -/
structure Appended (S : FanoutTable τ π ρ α) (ts : List τ) (a : QueueItem π ρ α)
    (S' : FanoutTable τ π ρ α) : Prop where
  queue : S'.outputQueue = S.outputQueue ++ a.entries
  base : S'.base = S.base
  order : S'.order = S.order
  calls : S'.calls = S.calls
  locked : S'.locked.Perm (S.locked ++ a.refs)
  info : ∀ t, SameReader
    (if t ∈ ts ∧ (S.info t).hasQueuedData = false then
      { S.info t with posn := S.queueEnd, hasQueuedData := true }
    else S.info t) (S'.info t)

/-- The tables an operation is queued for. -/
def For (S : FanoutTable τ π ρ α) (ts : List τ) (a : QueueItem π ρ α) : Prop :=
  ∀ t, t ∈ ts ↔ t ∈ S.order ∧ a.originPeer ≠ some (S.info t).peerHandler

variable [DecidableEq π]

/-- The tables are woken after it. -/
theorem Appended.wakeup (h : Appended S ts a S')
    (hready : ∀ t, (S'.info t).isReady = (S.info t).isReady ∧
      (S'.info t).waitingForGet = (S.info t).waitingForGet ∧
      (S'.info t).wakeupSent = (S.info t).wakeupSent) (hprompt : ∀ t ∈ ts, Prompt now (S.info t)) :
    ∃ S'', wakeupDownstream now ts S' = .ok S'' ∧ Appended S ts a S'' := by
  have hprompt' : ∀ t ∈ ts, Prompt now (S'.info t) := by
    intro t ht
    unfold Prompt
    rw [(hready t).1, (hready t).2.1, (hready t).2.2]
    exact hprompt t ht
  obtain ⟨info, hrun, hinfo⟩ := wakeupDownstream_eq hprompt'
  refine ⟨_, hrun, ?_⟩
  exact ⟨h.queue, h.base, h.order, h.calls, h.locked, fun t => (h.info t).trans (hinfo t)⟩

omit [DecidableEq τ] in
theorem callsFor_append : callsFor peer (post ++ [a]) =
      callsFor peer post ++ if a.originPeer ≠ some peer then [a.call] else [] := by
  unfold callsFor
  by_cases ha : a.originPeer = some peer
  · simp [ha]
  · simp [ha]

/-- **What is queued is for all the others**, also for those who had nothing to read. -/
theorem Appended.reads (h : Appended S ts a S') (hq : S.outputQueue = flat items)
    (hts : For S ts a) (ht : t ∈ S.order) (hr : Reads S.base items (S.info t) post) :
    ∃ post', Reads S'.base (items ++ [a]) (S'.info t) post' ∧
      callsFor (S'.info t).peerHandler post' =
        callsFor (S.info t).peerHandler post ++ if t ∈ ts then [a.call] else [] := by
  have hinfo := h.info t
  rw [h.base]
  cases hr with
  | nothing hno =>
    by_cases hin : t ∈ ts
    · rw [if_pos ⟨hin, hno⟩] at hinfo
      have ha := ((hts t).mp hin).2
      refine ⟨[a], Reads.congr ?_ hinfo, ?_⟩
      · refine .here items a [] rfl rfl ?_ ha
        rw [queueEnd, hq]
      · rw [hinfo.peer, callsFor_cons ha, if_pos hin]
        rfl
    · rw [if_neg fun hc => hin hc.1] at hinfo
      refine ⟨[], .congr (.nothing hno) hinfo, ?_⟩
      rw [if_neg hin]
      rfl
  | here pre b post hdata hitems hposn hb =>
    rw [if_neg (by simp [hdata])] at hinfo
    refine ⟨b :: (post ++ [a]), .congr (.here pre b _ hdata ?_ hposn hb) hinfo, ?_⟩
    · rw [hitems, append_assoc, cons_append]
    · rw [hinfo.peer, ← cons_append, callsFor_append]
      congr 1
      exact if_congr (by rw [hts t]; exact (and_iff_right ht).symm) rfl rfl

theorem Inv.appended (h : Inv S items) (happ : Appended S ts a S')
    (hts : For S ts a) (hne : ts ≠ []) (hfresh : (S.locked ++ a.refs).Nodup) :
    Inv S' (items ++ [a]) := by
  have hflat : flat (items ++ [a]) = flat items ++ a.entries := by simp
  refine ⟨⟨?_, ?_, ?_, happ.locked.nodup_iff.mpr hfresh⟩, happ.order ▸ h.order, ?_⟩
  · rw [happ.queue, h.queue, hflat]
  · intro t ht
    rw [happ.order] at ht
    obtain ⟨post, hr⟩ := h.reads t ht
    obtain ⟨post', hr', -⟩ := happ.reads h.queue hts ht hr
    exact ⟨post', hr'⟩
  · rw [flatMap_append, flatMap_singleton]
    exact happ.locked.trans (h.locked.append_right _)
  · intro _
    by_cases hempty : items = []
    · -- nobody could read from an empty queue, so the new operation is where all of them are
      subst hempty
      obtain ⟨t, ts, rfl⟩ := exists_cons_of_ne_nil hne
      have ht : t ∈ S.order := ((hts t).mp mem_cons_self).1
      have hno : (S.info t).hasQueuedData = false := by
        obtain ⟨post, hr⟩ := h.reads t ht
        cases hr with
        | nothing hno => exact hno
        | here pre b post _ hitems _ _ => exact absurd hitems.symm (by simp)
      have hinfo := happ.info t
      rw [if_pos ⟨mem_cons_self, hno⟩] at hinfo
      refine headHeld_iff.mpr ⟨t, happ.order ▸ ht, hinfo.data, ?_⟩
      rw [hinfo.posn, happ.base]
      rw [queueEnd, h.queue]
      rfl
    · obtain ⟨t, ht, hdata, hposn⟩ := headHeld_iff.mp (h.held hempty)
      have hinfo := happ.info t
      rw [if_neg (by simp [hdata])] at hinfo
      refine headHeld_iff.mpr ⟨t, happ.order ▸ ht, hinfo.data.trans hdata, ?_⟩
      rw [hinfo.posn, happ.base, hposn]

/-- What the tables have to receive after it. -/
theorem Appended.pending_eq (happ : Appended S ts a S') (h : Inv S items)
    (h' : Inv S' (items ++ [a])) (hts : For S ts a) (ht : t ∈ S.order) :
    S'.pending t = S.pending t ++ if t ∈ ts then [a.call] else [] := by
  obtain ⟨post, hr⟩ := h.reads t ht
  obtain ⟨post', hr', hcalls⟩ := happ.reads h.queue hts ht hr
  rw [FanoutTable.pending_eq h'.queue hr', FanoutTable.pending_eq h.queue hr, hcalls]

omit [DecidableEq τ] in
theorem lock_eq {x : AttrRef α} {locked : List Nat} (h : x.ref ∉ locked) :
    lock x locked = .ok (x.ref :: locked) :=
  if_neg h

section
variable (ts : List τ) (locked : List Nat) (e : FanoutEntry π ρ α) (t : τ)
omit [DecidableEq π]

/-- The end of the queue before the last entry was put there. -/
theorem setQueuePositions_info :
    (({ S with locked }.pushBack e).setQueuePositions ts).info t =
      if t ∈ ts ∧ (S.info t).hasQueuedData = false then
        { S.info t with posn := S.queueEnd, hasQueuedData := true }
      else S.info t := by
  have hlast : ({ S with locked }.pushBack e).queueEnd - 1 = S.queueEnd := by
    show S.base + (S.outputQueue ++ [e]).length - 1 = S.base + S.outputQueue.length
    rw [length_append]
    rfl
  unfold setQueuePositions
  rw [hlast]
  rfl

/-- A change of the iterators, when an operation is queued, is no change of the rest. -/
theorem setQueuePositions_ready :
    let i := (({ S with locked }.pushBack e).setQueuePositions ts).info t
    i.isReady = (S.info t).isReady ∧ i.waitingForGet = (S.info t).waitingForGet ∧
      i.wakeupSent = (S.info t).wakeupSent := by
  intro i
  have hi : i = _ := setQueuePositions_info ts locked e t
  rw [hi]
  split
  · exact ⟨rfl, rfl, rfl⟩
  · exact ⟨rfl, rfl, rfl⟩

end

theorem addToQueue_eq {op : RouteQueueOp} {m : FanoutMsg π ρ α}
    (hentries : a.entries = [⟨op, some m⟩]) (hrefs : a.refs = [m.attributes.ref])
    (hfresh : m.attributes.ref ∉ S.locked) (hprompt : ∀ t ∈ ts, Prompt now (S.info t)) :
    ∃ S', (do let S ← S.addToQueue op m ts; wakeupDownstream now ts S) = .ok S' ∧
      Appended S ts a S' := by
  have happ : Appended S ts a
      (({ S with locked := m.attributes.ref :: S.locked }.pushBack ⟨op, some m⟩
        ).setQueuePositions ts) := by
    refine ⟨?_, rfl, rfl, rfl, ?_, ?_⟩
    · rw [hentries]
      rfl
    · rw [hrefs]
      exact (perm_append_singleton ..).symm
    · intro t
      rw [setQueuePositions_info]
      exact .refl _
  obtain ⟨S', hrun, happ'⟩ := happ.wakeup (setQueuePositions_ready _ _ _) hprompt
  refine ⟨S', ?_, happ'⟩
  rw [addToQueue, lock_eq hfresh, ok_bind]
  exact hrun

theorem addReplaceToQueue_eq {old new : FanoutMsg π ρ α}
    (hsame : new.originPeer = old.originPeer) (hold : old.attributes.ref ∉ S.locked)
    (hnew : new.attributes.ref ∉ S.locked) (hne : new.attributes.ref ≠ old.attributes.ref)
    (hprompt : ∀ t ∈ ts, Prompt now (S.info t)) :
    ∃ S', (do let S ← S.addReplaceToQueue old new ts; wakeupDownstream now ts S) = .ok S' ∧
      Appended S ts (.replace old new hsame) S' := by
  set e : FanoutEntry π ρ α := ⟨.replaceOld, some { old with push := false }⟩ with he
  set T := ({ S with locked := old.attributes.ref :: S.locked }.pushBack e
    ).setQueuePositions ts with hT
  have hsecond : new.attributes.ref ∉ T.locked := by
    intro hmem
    rcases mem_cons.mp hmem with h | h
    · exact hne h
    · exact hnew h
  have happ : Appended S ts (.replace old new hsame)
      ({ T with locked := new.attributes.ref :: T.locked }.pushBack ⟨.replaceNew, some new⟩) := by
    refine ⟨?_, rfl, rfl, rfl, ?_, ?_⟩
    · show (S.outputQueue ++ [e]) ++ [_] = _
      rw [append_assoc]
      rfl
    · have hswap : (new.attributes.ref :: old.attributes.ref :: S.locked).Perm
          (S.locked ++ [old.attributes.ref] ++ [new.attributes.ref]) :=
        ((perm_append_singleton _ _).symm.cons _).trans (perm_append_singleton _ _).symm
      rw [append_assoc] at hswap
      exact hswap
    · intro t
      show SameReader _ (T.info t)
      rw [hT, setQueuePositions_info]
      exact .refl _
  obtain ⟨S', hrun, happ'⟩ := happ.wakeup (setQueuePositions_ready _ _ _) hprompt
  refine ⟨S', ?_, happ'⟩
  rw [addReplaceToQueue, lock_eq hold, ok_bind]
  show (do
    let S ← (do
      let locked ← lock new.attributes T.locked
      pure ({ T with locked }.pushBack ⟨.replaceNew, some new⟩))
    wakeupDownstream now ts S) = _
  rw [lock_eq hsecond, ok_bind]
  exact hrun

theorem addPushToQueue_eq (hprompt : ∀ t ∈ ts, Prompt now (S.info t)) :
    ∃ S', wakeupDownstream now ts (S.addPushToQueue ts) = .ok S' ∧ Appended S ts .push S' := by
  have happ : Appended S ts .push (S.addPushToQueue ts) := by
    refine ⟨rfl, rfl, rfl, rfl, ?_, ?_⟩
    · show S.locked.Perm (S.locked ++ [])
      rw [append_nil]
    · intro t
      have hinfo := setQueuePositions_info (S := S) ts S.locked ⟨.push, none⟩ t
      rw [← hinfo]
      exact .refl _
  exact happ.wakeup (setQueuePositions_ready (S := S) ts S.locked _) hprompt

end

end

end FanoutTable

end Xorp.Bgp
